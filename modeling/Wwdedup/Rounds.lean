import Wwdedup.DedupFS

/-!
# Requests as runs of rounds

`writeBuf`, `readBuf` and `truncate` are loops whose rounds handle one block each, and a size
change.  `roundStep` executes one `Round` on the shared store and the `FileInfo` of the call;
`writeBuf_run`, `readBuf_run` and `truncate_run` say that the three methods are runs of rounds,
and `Moves` lists what a step of the file system can do in these terms.  So what one round
keeps, every request keeps (`step_keeps`).
-/

namespace Wwdedup

open GuardedRun

variable {bits : ℕ} {H : Type} [DecidableEq H]

/-- What a request does to one block, or to the size. -/
inductive Round where
  | resize (newSize : ℕ)
  | write (buf : List UInt8) (c : Chunk)
  | read (c : Chunk)
  | release (curBlock : ℕ)

/-- One round; it shows the bytes that it read. -/
def roundStep (cfg : Config bits H) (p : Store bits H × FileInfo H) :
    Round → Except Fault ((Store bits H × FileInfo H) × List UInt8)
  | .resize newSize =>
    let r := p.1.db.ftruncate p.2 newSize
    .ok ((p.1.setDb r.1, r.2.1), [])
  | .write buf c => (writeBlockWrapper cfg p.1 p.2 buf c).map fun q => (q, [])
  | .read c => (readChunk cfg p.1 p.2 c).map fun q => ((q.1, q.2.1), q.2.2)
  | .release curBlock => (releaseBlock cfg p.1 p.2 curBlock).map fun q => (q, [])

/-- The rounds of `writeBuf`. -/
def writeRounds (bits : ℕ) (fi : FileInfo H) (buf : List UInt8) (offset : ℕ) : List Round :=
  (if buf.length + offset > fi.stSize then [.resize (buf.length + offset)] else []) ++
    (chunks bits buf.length offset).map (.write buf)

/-- The rounds of `readBuf`. -/
def readRounds (bits : ℕ) (fi : FileInfo H) (size offset : ℕ) : List Round :=
  (chunks bits (if size + offset > fi.stSize then fi.stSize - offset else size) offset).map .read

/-- The rounds of `truncate` to a size that is not negative. -/
def truncateRounds (bits : ℕ) (fi : FileInfo H) (newSize : ℕ) : List Round :=
  if fi.stSize ≤ newSize then [.resize newSize]
  else
    (List.range' (endBlock bits newSize)
      ((if fi.stSize ≠ 0 then ((fi.stSize - 1) >>> bits) + 1 else 1) - endBlock bits newSize)).map
      .release ++ [.resize newSize]

omit [DecidableEq H] in
theorem mem_writeRounds {fi : FileInfo H} {buf : List UInt8} {offset : ℕ} {r : Round}
    (h : r ∈ writeRounds bits fi buf offset) :
    (∃ n, r = .resize n) ∨ ∃ c ∈ chunks bits buf.length offset, r = .write buf c := by
  rcases List.mem_append.mp h with h | h
  · split at h
    · exact .inl ⟨_, List.mem_singleton.mp h⟩
    · cases h
  · obtain ⟨c, hc, rfl⟩ := List.mem_map.mp h
    exact .inr ⟨c, hc, rfl⟩

section loops

variable (cfg : Config bits H) (buf : List UInt8) (s : Store bits H) (fi : FileInfo H)

theorem writeChunks_run (cs : List Chunk) :
    writeChunks cfg buf s fi cs =
      (run (roundStep cfg) (s, fi) (cs.map (.write buf))).map Prod.fst := by
  induction cs generalizing s fi with
  | nil => rfl
  | cons c cs ih =>
    rw [writeChunks, List.map_cons, run, roundStep]
    cases writeBlockWrapper cfg s fi buf c with
    | error e => rfl
    | ok q =>
      obtain ⟨s', fi'⟩ := q
      simp only [Except.map, ih]
      cases run (roundStep cfg) (s', fi') (cs.map (.write buf)) <;> rfl

theorem readChunks_run (cs : List Chunk) :
    readChunks cfg s fi cs =
      (run (roundStep cfg) (s, fi) (cs.map .read)).map fun q => (q.1.1, q.1.2, q.2.flatten) := by
  induction cs generalizing s fi with
  | nil => rfl
  | cons c cs ih =>
    rw [readChunks, List.map_cons, run, roundStep]
    cases readChunk cfg s fi c with
    | error e => rfl
    | ok q =>
      obtain ⟨s', fi', bytes⟩ := q
      simp only [Except.map, ih]
      cases run (roundStep cfg) (s', fi') (cs.map .read) <;> rfl

theorem releaseBlocks_run (ns : List ℕ) :
    releaseBlocks cfg s fi ns =
      (run (roundStep cfg) (s, fi) (ns.map .release)).map Prod.fst := by
  induction ns generalizing s fi with
  | nil => rfl
  | cons n ns ih =>
    rw [releaseBlocks, List.map_cons, run, roundStep]
    cases releaseBlock cfg s fi n with
    | error e => rfl
    | ok q =>
      obtain ⟨s', fi'⟩ := q
      simp only [Except.map, ih]
      cases run (roundStep cfg) (s', fi') (ns.map .release) <;> rfl

theorem writeBuf_run (offset : ℕ) :
    writeBuf cfg s fi buf offset =
      (run (roundStep cfg) (s, fi) (writeRounds bits fi buf offset)).map Prod.fst := by
  unfold writeBuf growFile writeRounds
  split
  · rw [writeChunks_run, List.singleton_append, run, roundStep]
    dsimp only
    cases run (roundStep cfg) _ ((chunks bits buf.length offset).map (.write buf)) <;> rfl
  · rw [writeChunks_run, List.nil_append]

theorem readBuf_run {size offset : ℕ} (h : ReadStart fi.stSize offset) :
    readBuf cfg s fi size offset =
      (run (roundStep cfg) (s, fi) (readRounds bits fi size offset)).map fun q =>
        (q.1.1, q.1.2, q.2.flatten) := by
  rw [readBuf, if_pos h]
  exact readChunks_run cfg s fi _

omit [DecidableEq H] in
theorem ftruncate_nonneg (db : Db H) (newSize : ℕ) : (db.ftruncate fi newSize).2.2 = 0 := by
  unfold Db.ftruncate
  rw [if_neg (by omega)]
  split <;> rfl

theorem truncate_run (newSize : ℕ) :
    truncate cfg s fi newSize =
      (run (roundStep cfg) (s, fi) (truncateRounds bits fi newSize)).map fun q =>
        (q.1.1, q.1.2, 0) := by
  unfold truncate truncateRounds
  rw [if_neg (by omega)]
  by_cases hgrow : fi.stSize ≤ newSize
  · rw [if_pos (by omega), if_pos hgrow]
    simp only [ftruncate_nonneg]
    rfl
  · rw [if_neg (by omega), if_neg hgrow, run_append]
    dsimp only
    rw [releaseBlocks_run, Int.toNat_natCast]
    generalize List.map Round.release _ = rs
    cases run (roundStep cfg) (s, fi) rs with
    | error e => rfl
    | ok q =>
      simp only [Except.map, Except.bind, run_singleton, ftruncate_nonneg]
      rfl

end loops

/-! ### Steps -/

/-- Only the table `files` changes. -/
def Store.setFiles (s : Store bits H) (files : KeyedTable FileRow ℕ FileRow.id) : Store bits H :=
  s.setDb { s.db with files := files }

/-- The handle that the request names. -/
def Op.handle : Op → Option ℕ
  | .release fh => some fh
  | .write fh _ _ => some fh
  | .read fh _ _ => some fh
  | .ftruncate fh _ => some fh
  | _ => none

namespace Fs

/-- The `FileInfo` that a request works on and the rounds that it runs, when it gets that
far. -/
def rounds (fs : Fs bits H) : Op → Option (FileInfo H × List Round)
  | .write fh buf offset => (fs.handles fh).map fun fi => (fi, writeRounds bits fi buf offset)
  | .read fh size offset =>
    ((fs.handles fh).filter fun fi => ReadStart fi.stSize offset).map fun fi =>
      (fi, readRounds bits fi size offset)
  | .ftruncate fh newSize =>
    if newSize < 0 then none
    else (fs.handles fh).map fun fi => (fi, truncateRounds bits fi newSize.toNat)
  | .truncate path newSize =>
    let fi := fs.store.db.getByPath path
    if fi.stIno = 0 ∨ sIsreg fi.stMode = false ∨ newSize < 0 then none
    else some (fi, truncateRounds bits fi newSize.toNat)
  | .unlink path =>
    let fi := fs.store.db.getByPath path
    if fi.stIno = 0 ∨ sIsdir fi.stMode = true then none else some (fi, truncateRounds bits fi 0)
  | _ => none

/-- What a step of the file system does: nothing, rounds through a handle or through a
`FileInfo` of its own (and then the table `files` may change), a change of the table `files`, a
new handle, a handle less, or one of the three steps that are no requests. -/
inductive Moves (cfg : Config bits H) (fs : Fs bits H) (op : Op) : Fs bits H → Prop
  | same : Moves cfg fs op fs
  | through (fh : ℕ) {fi fi' : FileInfo H} {rs : List Round} {s' : Store bits H}
      {os : List (List UInt8)} (acts : op.handle = some fh) (opened : fs.handles fh = some fi)
      (rounds : fs.rounds op = some (fi, rs))
      (ran : run (roundStep cfg) (fs.store, fi) rs = .ok ((s', fi'), os)) :
      Moves cfg fs op ((fs.setStore s').setHandle fh fi')
  | byPath (path : Path) {fi' : FileInfo H} {rs : List Round} {s' : Store bits H}
      {os : List (List UInt8)} (acts : op.handle = none)
      (files : KeyedTable FileRow ℕ FileRow.id)
      (rounds : fs.rounds op = some (fs.store.db.getByPath path, rs))
      (ran : run (roundStep cfg) (fs.store, fs.store.db.getByPath path) rs = .ok ((s', fi'), os)) :
      Moves cfg fs op (fs.setStore (s'.setFiles files))
  | files (files : KeyedTable FileRow ℕ FileRow.id) :
      Moves cfg fs op (fs.setStore (fs.store.setFiles files))
  | opens (path : Path) (files : KeyedTable FileRow ℕ FileRow.id) :
      Moves cfg fs op ((fs.setStore (fs.store.setFiles files)).addHandle
        ((fs.store.setFiles files).db.getByPath path))
  | closes (fh : ℕ) : Moves cfg fs op { fs with handles := Function.update fs.handles fh none }
  | pass (victims : List ℕ) (asked : op = .writerPass victims) :
      Moves cfg fs op (fs.setStore (fs.store.writerPass victims))
  | remount (files : KeyedTable FileRow ℕ FileRow.id) (asked : op = .remount) :
      Moves cfg fs op
        { fs with
          store := { (fs.store.flush fun _ => true).setFiles files with blocks := .empty }
          handles := fun _ => none }
  | clock (now : ℕ) : Moves cfg fs op (fs.setStore { fs.store with now := now })

section

omit [DecidableEq H]

/-- Rounds run through an open handle or through a `FileInfo` read for the request. -/
theorem rounds_fi {fs : Fs bits H} {op : Op} {fi : FileInfo H} {rs : List Round}
    (h : fs.rounds op = some (fi, rs)) :
    (∃ fh, fs.handles fh = some fi) ∨ ∃ path, fi = fs.store.db.getByPath path := by
  cases op with
  | write fh buf offset =>
    obtain ⟨fi', hfi, heq⟩ := Option.map_eq_some_iff.mp h
    cases heq
    exact .inl ⟨fh, hfi⟩
  | read fh size offset =>
    obtain ⟨fi', hfi, heq⟩ := Option.map_eq_some_iff.mp h
    cases heq
    exact .inl ⟨fh, (Option.filter_eq_some_iff.mp hfi).1⟩
  | ftruncate fh newSize =>
    simp only [rounds] at h
    split at h
    · cases h
    · obtain ⟨fi', hfi, heq⟩ := Option.map_eq_some_iff.mp h
      cases heq
      exact .inl ⟨fh, hfi⟩
  | truncate path newSize =>
    simp only [rounds] at h
    split at h
    · cases h
    · cases h
      exact .inr ⟨path, rfl⟩
  | unlink path =>
    simp only [rounds] at h
    split at h
    · cases h
    · cases h
      exact .inr ⟨path, rfl⟩
  | _ => cases h

theorem create_setFiles (db : Db H) (path : Path) (mode : ℕ) :
    ∃ files, (db.create path mode).1 = { db with files := files } := by
  unfold Db.create
  dsimp only
  split
  · exact ⟨db.files, rfl⟩
  · split
    · exact ⟨db.files, rfl⟩
    · split
      · exact ⟨db.files, rfl⟩
      · exact ⟨_, rfl⟩

theorem renameBelow_setFiles (oldPath newPath : Path) (d : ℤ) (db : Db H) (rows : List FileRow) :
    ∃ files, (Db.renameBelow oldPath newPath d db rows).1 = { db with files := files } := by
  induction rows generalizing db with
  | nil => exact ⟨db.files, rfl⟩
  | cons r rows ih =>
    rw [Db.renameBelow]
    cases h : db.updateFilePath (newPath ++ r.path.drop oldPath.length) (· + d) r.id with
    | none => exact ⟨db.files, rfl⟩
    | some db' =>
      unfold Db.updateFilePath at h
      split at h
      · cases h
      · cases h
        exact ih _

theorem rename_setFiles (db : Db H) (oldPath newPath : Path) :
    ∃ files, (db.rename oldPath newPath).1 = { db with files := files } := by
  unfold Db.rename
  split
  · exact ⟨db.files, rfl⟩
  · rename_i oldFile destDir _
    dsimp only
    generalize hdb : (if (db.getByPath newPath).stIno ≠ 0 then (db.remove newPath).1 else db) = db₁
    have h₁ : ∃ files, db₁ = { db with files := files } := by
      rw [← hdb]
      split
      · exact ⟨_, rfl⟩
      · exact ⟨db.files, rfl⟩
    obtain ⟨files₁, rfl⟩ := h₁
    generalize hbelow : (if sIsdir oldFile.stMode = true then _ else _ : Db H × Bool) = below
    have h₂ : ∃ files, below.1 = { db with files := files } := by
      rw [← hbelow]
      split
      · exact renameBelow_setFiles ..
      · exact ⟨files₁, rfl⟩
    obtain ⟨files₂, h₂⟩ := h₂
    split
    · exact ⟨files₂, h₂⟩
    · split
      · exact ⟨files₂, h₂⟩
      · rename_i db' hupd
        unfold Db.updateFilePath at hupd
        split at hupd
        · cases hupd
        · cases hupd
          rw [h₂]
          exact ⟨_, rfl⟩

end

section requests

variable {cfg : Config bits H} {fs fs' : Fs bits H} {out : Out}

theorem step_write_ok {fh : ℕ} {buf : List UInt8} {offset : ℕ}
    (h : fs.step cfg (.write fh buf offset) = .ok (fs', out)) :
    ∃ fi fi' s' os, fs.handles fh = some fi ∧
      fs.rounds (.write fh buf offset) = some (fi, writeRounds bits fi buf offset) ∧
      run (roundStep cfg) (fs.store, fi) (writeRounds bits fi buf offset) = .ok ((s', fi'), os) ∧
      fs' = (fs.setStore s').setHandle fh fi' ∧ out = .ret (factSize bits buf.length offset) := by
  simp only [step, write] at h
  cases hfi : fs.handles fh with
  | none => simp [hfi] at h
  | some fi =>
    simp only [hfi, writeBuf_run] at h
    cases hrun : run (roundStep cfg) (fs.store, fi) (writeRounds bits fi buf offset) with
    | error e => simp [hrun, Except.map] at h
    | ok q =>
      obtain ⟨⟨s', fi'⟩, os⟩ := q
      simp only [hrun, Except.map] at h
      cases h
      exact ⟨fi, fi', s', os, rfl, by simp only [rounds, hfi, Option.map_some], hrun, rfl, rfl⟩

theorem step_read_ok {fh size offset : ℕ}
    (h : fs.step cfg (.read fh size offset) = .ok (fs', out)) :
    ∃ fi fi' s' os, fs.handles fh = some fi ∧ ReadStart fi.stSize offset ∧
      fs.rounds (.read fh size offset) = some (fi, readRounds bits fi size offset) ∧
      run (roundStep cfg) (fs.store, fi) (readRounds bits fi size offset) = .ok ((s', fi'), os) ∧
      fs' = (fs.setStore s').setHandle fh fi' ∧ out = .bytes os.flatten := by
  simp only [step, read] at h
  cases hfi : fs.handles fh with
  | none => simp [hfi] at h
  | some fi =>
    by_cases hstart : ReadStart fi.stSize offset
    · simp only [hfi, readBuf_run cfg _ _ hstart] at h
      cases hrun : run (roundStep cfg) (fs.store, fi) (readRounds bits fi size offset) with
      | error e => simp [hrun, Except.map] at h
      | ok q =>
        obtain ⟨⟨s', fi'⟩, os⟩ := q
        simp only [hrun, Except.map] at h
        cases h
        exact ⟨fi, fi', s', os, rfl, hstart, by simp [rounds, hfi, hstart], hrun, rfl, rfl⟩
    · simp [hfi, readBuf, hstart] at h

theorem step_truncate_ok {path : Path} {newSize : ℤ}
    (h : fs.step cfg (.truncate path newSize) = .ok (fs', out)) :
    (fs' = fs ∧ fs.rounds (.truncate path newSize) = none) ∨
      ∃ (n : ℕ) (fi' : FileInfo H) (s' : Store bits H) (os : List (List UInt8)),
      newSize = n ∧
      fs.rounds (.truncate path newSize) =
        some (fs.store.db.getByPath path, truncateRounds bits (fs.store.db.getByPath path) n) ∧
      run (roundStep cfg) (fs.store, fs.store.db.getByPath path)
        (truncateRounds bits (fs.store.db.getByPath path) n) = .ok ((s', fi'), os) ∧
      fs' = fs.setStore s' := by
  simp only [step, truncate] at h
  split at h
  · rename_i hino
    cases h
    exact .inl ⟨rfl, by simp [rounds, hino]⟩
  · rename_i hino
    split at h
    · rename_i hreg
      cases h
      simp only [Bool.not_eq_true'] at hreg
      exact .inl ⟨rfl, by simp [rounds, hreg]⟩
    · rename_i hreg
      by_cases hneg : newSize < 0
      · simp only [Wwdedup.truncate, if_pos hneg] at h
        cases h
        exact .inl ⟨rfl, by simp [rounds, hneg]⟩
      · obtain ⟨n, rfl⟩ := Int.eq_ofNat_of_zero_le (Int.not_lt.mp hneg)
        rw [truncate_run] at h
        cases hrun : run (roundStep cfg) (fs.store, fs.store.db.getByPath path)
            (truncateRounds bits (fs.store.db.getByPath path) n) with
        | error e => simp [hrun, Except.map] at h
        | ok q =>
          obtain ⟨⟨s', fi'⟩, os⟩ := q
          simp only [hrun, Except.map] at h
          cases h
          simp only [Bool.not_eq_true', Bool.not_eq_false] at hreg
          exact .inr ⟨n, fi', s', os, rfl, by simp [rounds, hino, hreg], hrun, rfl⟩

theorem step_ftruncate_ok {fh : ℕ} {newSize : ℤ}
    (h : fs.step cfg (.ftruncate fh newSize) = .ok (fs', out)) :
    (fs' = fs ∧ fs.rounds (.ftruncate fh newSize) = none) ∨
      ∃ (n : ℕ) (fi fi' : FileInfo H) (s' : Store bits H) (os : List (List UInt8)),
      newSize = n ∧ fs.handles fh = some fi ∧
      fs.rounds (.ftruncate fh newSize) = some (fi, truncateRounds bits fi n) ∧
      run (roundStep cfg) (fs.store, fi) (truncateRounds bits fi n) = .ok ((s', fi'), os) ∧
      fs' = (fs.setStore s').setHandle fh fi' := by
  simp only [step, ftruncate] at h
  cases hfi : fs.handles fh with
  | none => simp [hfi] at h
  | some fi =>
    rw [hfi] at h
    dsimp only at h
    by_cases hneg : newSize < 0
    · simp only [Wwdedup.truncate, if_pos hneg] at h
      cases h
      left
      refine ⟨?_, by simp [rounds, hneg]⟩
      unfold setStore setHandle
      rw [← hfi, Function.update_eq_self]
    · obtain ⟨n, rfl⟩ := Int.eq_ofNat_of_zero_le (Int.not_lt.mp hneg)
      rw [truncate_run] at h
      cases hrun : run (roundStep cfg) (fs.store, fi) (truncateRounds bits fi n) with
      | error e => simp [hrun, Except.map] at h
      | ok q =>
        obtain ⟨⟨s', fi'⟩, os⟩ := q
        simp only [hrun, Except.map] at h
        cases h
        exact .inr ⟨n, fi, fi', s', os, rfl, rfl, by simp [rounds, hfi], hrun, rfl⟩

theorem step_unlink_ok {path : Path} (h : fs.step cfg (.unlink path) = .ok (fs', out)) :
    (fs' = fs ∧ fs.rounds (.unlink path) = none) ∨
      ∃ (fi' : FileInfo H) (s' : Store bits H) (os : List (List UInt8)),
      fs.rounds (.unlink path) =
        some (fs.store.db.getByPath path, truncateRounds bits (fs.store.db.getByPath path) 0) ∧
      run (roundStep cfg) (fs.store, fs.store.db.getByPath path)
        (truncateRounds bits (fs.store.db.getByPath path) 0) = .ok ((s', fi'), os) ∧
      fs' = fs.setStore (s'.setDb (s'.db.remove path).1) := by
  simp only [step, unlink] at h
  split at h
  · rename_i hino
    cases h
    exact .inl ⟨rfl, by simp [rounds, hino]⟩
  · rename_i hino
    split at h
    · rename_i hdir
      cases h
      exact .inl ⟨rfl, by simp [rounds, hdir]⟩
    · rename_i hdir
      rw [show (0 : ℤ) = ((0 : ℕ) : ℤ) from rfl, truncate_run] at h
      cases hrun : run (roundStep cfg) (fs.store, fs.store.db.getByPath path)
          (truncateRounds bits (fs.store.db.getByPath path) 0) with
      | error e => simp [hrun, Except.map] at h
      | ok q =>
        obtain ⟨⟨s', fi'⟩, os⟩ := q
        simp only [hrun, Except.map] at h
        cases h
        exact .inr ⟨fi', s', os, by simp [rounds, hino, hdir], rfl, rfl⟩

/-- `rmdir` changes nothing, or takes the row of a directory that looks empty. -/
theorem step_rmdir_ok {path : Path} {memory : ℕ}
    (h : fs.step cfg (.rmdir path memory) = .ok (fs', out)) :
    fs' = fs ∨ sIsdir (fs.store.db.getByPath path).stMode = true ∧
      fs.store.db.dirEmpty (fs.store.db.getByPath path) = true ∧
      fs' = fs.setDb (fs.store.db.remove path).1 := by
  have hcases := fs.rmdir_rmdirs path memory
  rw [Except.ok.inj h] at hcases
  cases hcases with
  | missing absent answer => exact .inl rfl
  | notDir file => exact .inl rfl
  | notEmpty dir full => exact .inl rfl
  | removed dir empty => exact .inr ⟨dir, empty, rfl⟩

/-- Only a storage file with its whole signature is mounted again. -/
theorem step_remount_ok (h : fs.step cfg .remount = .ok (fs', out)) :
    4 ≤ bits ∧ fs' = fs.remount ∧ out = .ret 0 := by
  simp only [step] at h
  split at h
  · cases h
  · cases h
    exact ⟨by omega, rfl, rfl⟩

end requests

/-- **A step of the file system is one of the moves.** -/
theorem step_moves {cfg : Config bits H} {fs fs' : Fs bits H} {op : Op} {out : Out}
    (h : fs.step cfg op = .ok (fs', out)) : Moves cfg fs op fs' := by
  cases op with
  | create path mode =>
    obtain ⟨files, hf⟩ := create_setFiles fs.store.db path mode
    simp only [step, create, Except.ok.injEq] at h
    rw [hf] at h
    split at h
    · cases h
      exact .files files
    · cases h
      exact .opens path files
  | mkdir path mode =>
    obtain ⟨files, hf⟩ := create_setFiles fs.store.db path (mode ||| sIfdir)
    simp only [step, mkdir, Except.ok.injEq] at h
    rw [hf] at h
    cases h
    exact .files files
  | openFile path =>
    simp only [step, openFile, Except.ok.injEq] at h
    split at h
    · cases h
      exact .same
    · split at h
      · cases h
        exact .same
      · cases h
        exact .opens path fs.store.db.files
  | release fh =>
    cases h
    exact .closes fh
  | write fh buf offset =>
    obtain ⟨fi, fi', s', os, hfi, hr, hrun, rfl, -⟩ := step_write_ok h
    exact .through fh rfl hfi hr hrun
  | read fh size offset =>
    obtain ⟨fi, fi', s', os, hfi, -, hr, hrun, rfl, -⟩ := step_read_ok h
    exact .through fh rfl hfi hr hrun
  | truncate path newSize =>
    obtain ⟨rfl, -⟩ | ⟨n, fi', s', os, -, hr, hrun, rfl⟩ := step_truncate_ok h
    · exact .same
    · exact .byPath path rfl s'.db.files hr hrun
  | ftruncate fh newSize =>
    obtain ⟨rfl, -⟩ | ⟨n, fi, fi', s', os, -, hfi, hr, hrun, rfl⟩ := step_ftruncate_ok h
    · exact .same
    · exact .through fh rfl hfi hr hrun
  | unlink path =>
    obtain ⟨rfl, -⟩ | ⟨fi', s', os, hr, hrun, rfl⟩ := step_unlink_ok h
    · exact .same
    · exact .byPath path rfl _ hr hrun
  | rmdir path memory =>
    obtain rfl | ⟨-, -, rfl⟩ := step_rmdir_ok h
    · exact .same
    · exact .files _
  | rename oldPath newPath =>
    obtain ⟨files, hf⟩ := rename_setFiles fs.store.db oldPath newPath
    simp only [step, rename, Except.ok.injEq] at h
    rw [hf] at h
    cases h
    exact .files files
  | writerPass victims =>
    cases h
    exact .pass victims rfl
  | remount =>
    obtain ⟨-, rfl, -⟩ := step_remount_ok h
    unfold remount
    dsimp only
    obtain ⟨files, hf⟩ := create_setFiles (fs.store.flush fun _ => true).db ['/'] (sIfdir ||| 0o755)
    rw [hf]
    exact .remount files rfl
  | clock now =>
    cases h
    exact .clock now

/-! ### Invariants of the store and of the handles -/

/-- Every round that the request runs starts in a state that meets the guard. -/
def RoundsMeet (cfg : Config bits H) (ok : Store bits H × FileInfo H → Round → Prop)
    (fs : Fs bits H) (op : Op) : Prop :=
  ∀ fi rs, fs.rounds op = some (fi, rs) → Meets (roundStep cfg) ok (fs.store, fi) rs

/-- `J` holds of the store and `K` of every open handle. -/
def Holds (J : Store bits H → Prop) (K : Store bits H → FileInfo H → Prop) (fs : Fs bits H) :
    Prop :=
  J fs.store ∧ ∀ fh fi, fs.handles fh = some fi → K fs.store fi

section holds

variable {J : Store bits H → Prop} {K : Store bits H → FileInfo H → Prop} {fs : Fs bits H}

section

omit [DecidableEq H]

/-- A handle in its place, and the others as they are. -/
theorem Holds.setHandle {fh : ℕ} {fi : FileInfo H} (hJ : J fs.store) (hK : K fs.store fi)
    (hothers : ∀ k fj, k ≠ fh → fs.handles k = some fj → K fs.store fj) :
    (fs.setHandle fh fi).Holds J K := by
  refine ⟨hJ, fun k fj hfj => ?_⟩
  simp only [Fs.setHandle, Function.update_apply] at hfj
  split at hfj
  · cases hfj
    exact hK
  · rename_i hne
    exact hothers k fj hne hfj

theorem Holds.addHandle {fi : FileInfo H} (h : fs.Holds J K) (hK : K fs.store fi) :
    (fs.addHandle fi).Holds J K := by
  have hset : (fs.setHandle fs.nextFh fi).Holds J K :=
    Holds.setHandle h.1 hK fun k fj _ hfj => h.2 k fj hfj
  exact ⟨hset.1, hset.2⟩

theorem Holds.close (h : fs.Holds J K) (fh : ℕ) :
    Holds J K { fs with handles := Function.update fs.handles fh none } := by
  refine ⟨h.1, fun k fi hfi => ?_⟩
  simp only [Function.update_apply] at hfi
  split at hfi
  · cases hfi
  · exact h.2 k fi hfi

end

end holds

/-- What has to be shown of `J` and `K` so that they hold along guarded runs in which nothing leaves
the cache: the parts of steps keep `J`, and keep `K` of the handle that acts and of every other. -/
structure KeepsCached (cfg : Config bits H) (ok : Store bits H × FileInfo H → Round → Prop)
    (J : Store bits H → Prop) (K : Store bits H → FileInfo H → Prop) : Prop where
  round : ∀ s fi r s' fi' o, J s → K s fi → ok (s, fi) r →
    roundStep cfg (s, fi) r = .ok ((s', fi'), o) → J s' ∧ K s' fi' ∧ ∀ fj, K s fj → K s' fj
  files : ∀ s files, J s → J (s.setFiles files) ∧ ∀ fj, K s fj → K (s.setFiles files) fj
  fresh : ∀ s path, J s → K s (s.db.getByPath path)
  clock : ∀ s now, J s → J { s with now := now } ∧ ∀ fj, K s fj → K { s with now := now } fj

/-- What has to be shown of them so that they hold along all guarded runs. -/
structure Keeps (cfg : Config bits H) (ok : Store bits H × FileInfo H → Round → Prop)
    (J : Store bits H → Prop) (K : Store bits H → FileInfo H → Prop) : Prop
    extends KeepsCached cfg ok J K where
  pass : ∀ s victims, J s → J (s.writerPass victims) ∧ ∀ fj, K s fj → K (s.writerPass victims) fj
  remount : ∀ s files, J s → J { (s.flush fun _ => true).setFiles files with blocks := .empty }

section keeps

variable {cfg : Config bits H} {ok : Store bits H × FileInfo H → Round → Prop}
  {J : Store bits H → Prop} {K : Store bits H → FileInfo H → Prop}

/-- A run of rounds keeps the invariants, also those of the handles that do not act. -/
theorem KeepsCached.run_rounds (h : KeepsCached cfg ok J K) {s s' : Store bits H}
    {fi fi' : FileInfo H}
    {rs : List Round} {os : List (List UInt8)} (hJ : J s) (hK : K s fi)
    (hok : Meets (roundStep cfg) ok (s, fi) rs)
    (hrun : run (roundStep cfg) (s, fi) rs = .ok ((s', fi'), os)) :
    J s' ∧ K s' fi' ∧ ∀ fj, K s fj → K s' fj := by
  refine run_invariant (I := fun p => J p.1 ∧ K p.1 p.2 ∧ ∀ fj, K s fj → K p.1 fj) ?_
    ⟨hJ, hK, fun _ h => h⟩ hok hrun
  rintro ⟨s₁, fi₁⟩ r ⟨s₂, fi₂⟩ o ⟨hJ₁, hK₁, hothers⟩ hr hstep
  obtain ⟨hJ₂, hK₂, hnext⟩ := h.round s₁ fi₁ r s₂ fi₂ o hJ₁ hK₁ hr hstep
  exact ⟨hJ₂, hK₂, fun fj hfj => hnext fj (hothers fj hfj)⟩

/-- **What the parts of steps keep, every guarded step of the file system keeps**, when passes and
remounts do. -/
theorem KeepsCached.step (h : KeepsCached cfg ok J K) {fs fs' : Fs bits H} {op : Op} {out : Out}
    (hfs : fs.Holds J K) (hok : fs.RoundsMeet cfg ok op)
    (hpass : ∀ victims, op = .writerPass victims → J (fs.store.writerPass victims) ∧
      ∀ fj, K fs.store fj → K (fs.store.writerPass victims) fj)
    (hremount : ∀ files, op = .remount →
      J { (fs.store.flush fun _ => true).setFiles files with blocks := .empty })
    (hstep : fs.step cfg op = .ok (fs', out)) : fs'.Holds J K := by
  obtain ⟨hJ, hK⟩ := hfs
  cases step_moves hstep with
  | same => exact ⟨hJ, hK⟩
  | through fh acts opened rounds ran =>
    obtain ⟨hJ', hK', hothers⟩ := h.run_rounds hJ (hK fh _ opened) (hok _ _ rounds) ran
    exact Holds.setHandle hJ' hK' fun k fj _ hfj => hothers fj (hK k fj hfj)
  | byPath path acts files rounds ran =>
    obtain ⟨hJ', -, hothers⟩ := h.run_rounds hJ (h.fresh _ path hJ) (hok _ _ rounds) ran
    obtain ⟨hJ'', hfiles⟩ := h.files _ files hJ'
    exact ⟨hJ'', fun fh fi hfi => hfiles fi (hothers fi (hK fh fi hfi))⟩
  | files files =>
    obtain ⟨hJ', hfiles⟩ := h.files _ files hJ
    exact ⟨hJ', fun fh fi hfi => hfiles fi (hK fh fi hfi)⟩
  | opens path files =>
    obtain ⟨hJ', hfiles⟩ := h.files _ files hJ
    have hfs : (fs.setStore (fs.store.setFiles files)).Holds J K :=
      ⟨hJ', fun fh fi hfi => hfiles fi (hK fh fi hfi)⟩
    exact hfs.addHandle (h.fresh _ path hJ')
  | closes fh => exact Holds.close ⟨hJ, hK⟩ fh
  | pass victims asked =>
    obtain ⟨hJ', hothers⟩ := hpass victims asked
    exact ⟨hJ', fun fh fi hfi => hothers fi (hK fh fi hfi)⟩
  | remount files asked => exact ⟨hremount files asked, fun _ _ hfi => by cases hfi⟩
  | clock now =>
    obtain ⟨hJ', hothers⟩ := h.clock _ now hJ
    exact ⟨hJ', fun fh fi hfi => hothers fi (hK fh fi hfi)⟩

theorem Keeps.step (h : Keeps cfg ok J K) {fs fs' : Fs bits H} {op : Op} {out : Out}
    (hfs : fs.Holds J K) (hok : fs.RoundsMeet cfg ok op)
    (hstep : fs.step cfg op = .ok (fs', out)) : fs'.Holds J K :=
  h.toKeepsCached.step hfs hok (fun victims _ => h.pass _ victims hfs.1)
    (fun files _ => h.remount _ files hfs.1) hstep

end keeps

/-- A truncate fails in one of its rounds: a negative size is answered before the first. -/
theorem truncate_error {cfg : Config bits H} {s : Store bits H} {fi : FileInfo H} {newSize : ℤ}
    {e : Fault} (h : Wwdedup.truncate cfg s fi newSize = .error e) :
    0 ≤ newSize ∧
      run (roundStep cfg) (s, fi) (truncateRounds bits fi newSize.toNat) = .error e := by
  by_cases hneg : newSize < 0
  · rw [Wwdedup.truncate, if_pos hneg] at h
    cases h
  · have hsize := Int.not_lt.mp hneg
    rw [← Int.toNat_of_nonneg hsize, truncate_run] at h
    exact ⟨hsize, error_of_map h⟩

/-- A request that fails has no such handle, or reads past the end, or mounts a storage file that is
refused, or one of its rounds fails. -/
theorem step_error {cfg : Config bits H} {fs : Fs bits H} {op : Op} {e : Fault}
    (h : fs.step cfg op = .error e) :
    e = .noHandle ∨ e = .negativeSize ∨ e = .storageRefused ∨
      ∃ fi rs, fs.rounds op = some (fi, rs) ∧
        run (roundStep cfg) (fs.store, fi) rs = .error e := by
  cases op with
  | write fh buf offset =>
    simp only [Fs.step, write] at h
    split at h
    · cases h
      exact .inl rfl
    · rename_i fi hfi
      split at h
      · rename_i e' hwrite
        cases h
        rw [writeBuf_run] at hwrite
        exact .inr (.inr (.inr ⟨fi, _, by simp [rounds, hfi], error_of_map hwrite⟩))
      · cases h
  | read fh size offset =>
    simp only [Fs.step, read] at h
    split at h
    · cases h
      exact .inl rfl
    · rename_i fi hfi
      split at h
      · rename_i e' hread
        cases h
        by_cases hstart : ReadStart fi.stSize offset
        · rw [readBuf_run cfg _ _ hstart] at hread
          exact .inr (.inr (.inr ⟨fi, _, by simp [rounds, hfi, hstart], error_of_map hread⟩))
        · rw [readBuf, if_neg hstart] at hread
          exact .inr (.inl (Except.error.inj hread).symm)
      · cases h
  | truncate path newSize =>
    simp only [Fs.step, truncate] at h
    split at h
    · cases h
    · rename_i hino
      split at h
      · cases h
      · rename_i hreg
        split at h
        · rename_i e' htruncate
          cases h
          obtain ⟨hsize, hrun⟩ := truncate_error htruncate
          simp only [Bool.not_eq_true', Bool.not_eq_false] at hreg
          exact .inr (.inr (.inr ⟨_, _, by simp [rounds, hino, hreg, hsize], hrun⟩))
        · cases h
  | ftruncate fh newSize =>
    simp only [Fs.step, ftruncate] at h
    split at h
    · cases h
      exact .inl rfl
    · rename_i fi hfi
      split at h
      · rename_i e' htruncate
        cases h
        obtain ⟨hsize, hrun⟩ := truncate_error htruncate
        exact .inr (.inr (.inr ⟨fi, _, by simp [rounds, hfi, hsize], hrun⟩))
      · cases h
  | unlink path =>
    simp only [Fs.step, unlink] at h
    split at h
    · cases h
    · rename_i hino
      split at h
      · cases h
      · rename_i hdir
        split at h
        · rename_i e' htruncate
          cases h
          obtain ⟨-, hrun⟩ := truncate_error htruncate
          exact .inr (.inr (.inr ⟨_, _, by simp [rounds, hino, hdir], hrun⟩))
        · split at h <;> cases h
  | remount =>
    simp only [Fs.step] at h
    split at h
    · cases h
      exact .inr (.inr (.inl rfl))
    · cases h
  | _ => cases h

end Fs

end Wwdedup
