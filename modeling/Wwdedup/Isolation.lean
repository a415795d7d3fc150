import Wwdedup.Counts
import Wwdedup.FreshRead

/-!
# Deduplicated files are isolated

A block write changes the content of one storage block at most, and the hash of that block's
row.  As long as the in-place branch is taken on blocks of one file block only
(`InPlaceUnshared`), every other file block keeps its content (`Wrote.blockOf_kept`), so a
request leaves what the other files read as it was.  The counts decide about the branch: they
are large enough in every run whose rounds are up to date (`Round.UpToDate`).  They get too low
when a block is written with the bytes that it has already, when the count of an evicted block
is loaded again through an old `block_info`, or when a handle works with a `block_info` that
another handle has made out of date; then two files can come to share a block that is
overwritten in place (`shared_block_overwritten`).
-/

namespace Wwdedup

open GuardedRun

variable {bits : ℕ} {H : Type} [DecidableEq H]

/-- The hash of the file block, if it has one, has a row. -/
def Store.Mapped (s : Store bits H) (f o : ℕ) : Prop :=
  ∀ g, s.db.fileHash f o = some g → ∃ k, s.db.rowHash k = some g

/-- A file block has the content of the row with its hash. -/
theorem Store.blockOf_eq {s : Store bits H} (hu : s.db.HashUnique) {f o k : ℕ} {g : H}
    {x : Block bits} (hf : s.db.fileHash f o = some g) (hk : s.db.rowHash k = some g)
    (hx : s.content k = some x) : s.blockOf f o = x := by
  cases hsel : s.db.selectBlockHash g with
  | none => exact absurd hk (Db.selectBlockHash_none hsel k)
  | some row =>
    have hid : row.id = k := hu _ _ g (Db.rowHash_of_select hsel) hk
    exact Store.blockOf_of_select hf hsel (hid ▸ hx)

theorem Coherent.blockOf_eq {cfg : Config bits H} {s : Store bits H} (h : Coherent cfg s)
    {f o k : ℕ} {g : H} {x : Block bits} (hf : s.db.fileHash f o = some g)
    (hk : s.db.rowHash k = some g) (hx : s.content k = some x) : s.blockOf f o = x :=
  Store.blockOf_eq h.unique hf hk hx

/-- Coherent stores with the same rows and contents agree on a file block with the same hash. -/
theorem Coherent.blockOf_congr {cfg : Config bits H} {s s' : Store bits H} (h : Coherent cfg s)
    (h' : Coherent cfg s') (hrow : ∀ k, s'.db.rowHash k = s.db.rowHash k)
    (hcontent : ∀ k, s'.content k = s.content k) {f o : ℕ}
    (hfile : s'.db.fileHash f o = s.db.fileHash f o) : s'.blockOf f o = s.blockOf f o := by
  cases hf : s.db.fileHash f o with
  | none =>
    rw [Store.blockOf_of_fileHash_none hf, Store.blockOf_of_fileHash_none (hfile.trans hf)]
  | some g =>
    cases hsel : s.db.selectBlockHash g with
    | some row =>
      have hk := Db.rowHash_of_select hsel
      obtain ⟨x, hx, -⟩ := h.row _ g (fun hf => hf) hk
      rw [h.blockOf_eq hf hk hx,
        h'.blockOf_eq (hfile.trans hf) ((hrow _).trans hk) ((hcontent _).trans hx)]
    | none =>
      have hsel' : s'.db.selectBlockHash g = none := by
        cases h₁ : s'.db.selectBlockHash g with
        | none => rfl
        | some row =>
          exact absurd (hrow row.id ▸ Db.rowHash_of_select h₁) (Db.selectBlockHash_none hsel _)
      rw [Store.blockOf, Store.blockOf, hfile, hf, Option.bind_some, Option.bind_some, hsel, hsel']
      rfl

section write

variable {cfg : Config bits H} {s : Store bits H} {ino : ℕ} {data : Block bits} {hash : H}
  {fb : BlockInfo H} {r : Store bits H × BlockInfo H}

/-- A file block that is not written keeps its row. -/
theorem Wrote.mapped_kept (h : Wrote s ino data hash fb r)
    (hb : Replaces.Backed s.db fb (s.lock fb.storageBlock)) (hin : InPlaceUnshared s ino hash fb)
    {f o : ℕ} (hne : (f, o) ≠ (ino, fb.fileBlockNum)) (hmap : s.Mapped f o) : r.1.Mapped f o := by
  intro g hg
  rw [h.fileHash_eq, if_neg hne] at hg
  obtain ⟨k, hk⟩ := hmap g hg
  exact ⟨k, h.rowHash_kept hb hin hne hg hk⟩

/-- **A block write keeps the content of every other file block.** -/
theorem Wrote.blockOf_other (h : Wrote s ino data hash fb r) (hu : s.db.HashUnique)
    (hu' : r.1.db.HashUnique) (hslots : ∀ k, (s.db.rowHash k).isSome → (s.content k).isSome)
    (hb : Replaces.Backed s.db fb (s.lock fb.storageBlock)) (hin : InPlaceUnshared s ino hash fb)
    {f o : ℕ} (hne : (f, o) ≠ (ino, fb.fileBlockNum)) (hmap : s.Mapped f o) :
    r.1.blockOf f o = s.blockOf f o := by
  have hfile := h.fileHash_eq f o
  rw [if_neg hne] at hfile
  cases hf : s.db.fileHash f o with
  | none =>
    rw [Store.blockOf_of_fileHash_none hf, Store.blockOf_of_fileHash_none (hfile.trans hf)]
  | some g =>
    obtain ⟨k, hk⟩ := hmap g hf
    obtain ⟨x, hx⟩ := Option.isSome_iff_exists.mp (hslots k (by rw [hk]; rfl))
    have hk' := h.rowHash_kept hb hin hne hf hk
    have hx' : r.1.content k = some x := by
      rw [h.content_eq, if_neg]
      · exact hx
      · rintro ⟨hsel, hkn⟩
        -- the row of the new data has the new hash, which no row had
        rw [h.rowHash_eq hb, if_pos hkn] at hk'
        cases hk'
        exact Db.selectBlockHash_none (Option.isNone_iff_eq_none.mp hsel) k hk
    rw [Store.blockOf_eq hu hf hk hx, Store.blockOf_eq hu' (hfile.trans hf) hk' hx']

theorem Wrote.blockOf_kept (h : Wrote s ino data hash fb r) (hco : Coherent cfg s)
    (hco' : Coherent cfg r.1) (hb : Replaces.Backed s.db fb (s.lock fb.storageBlock))
    (hin : InPlaceUnshared s ino hash fb) {f o : ℕ} (hne : (f, o) ≠ (ino, fb.fileBlockNum))
    (hmap : s.Mapped f o) : r.1.blockOf f o = s.blockOf f o := by
  refine h.blockOf_other hco.unique hco'.unique (fun k hk => ?_) hb hin hne hmap
  obtain ⟨g, hg⟩ := Option.isSome_iff_exists.mp hk
  obtain ⟨x, hx, -⟩ := hco.row k g (fun hf => hf) hg
  rw [hx]
  rfl

end write

/-! ### Rounds -/

/-- The block of the file that the round changes. -/
def Round.changed : Round → Option ℕ
  | .write _ c => some c.block
  | .release n => some n
  | _ => none

/-- When the round takes the in-place branch, the storage block is that of no other file
block. -/
def Round.Unshared (cfg : Config bits H) (p : Store bits H × FileInfo H) : Round → Prop
  | .write buf c => ∀ x, NewContent cfg p.1 p.2 buf c x →
      InPlaceUnshared (getLockedFileBlock cfg p.1 p.2 c.block).store p.2.stIno (cfg.murmur x)
        (getLockedFileBlock cfg p.1 p.2 c.block).fblock
  | _ => True

section rounds

variable {cfg : Config bits H} {s s' : Store bits H} {fi fi' : FileInfo H}

theorem InPlaceUnshared.congr {s₁ : Store bits H} {ino : ℕ} {hash : H} {fb : BlockInfo H}
    (h : InPlaceUnshared s ino hash fb) (hsame : s.Same s₁) :
    InPlaceUnshared s₁ ino hash fb := by
  intro b hb hone hsel f o g hrow hf
  obtain ⟨b', hb', hnum, hcount⟩ := hsame.symm.lock hb
  rw [hsame.db] at hsel hrow hf
  exact h b' hb' (hcount.trans hone) hsel f o g (hnum ▸ hrow) hf

/-- **A round keeps the content of every file block that it does not change.** -/
theorem roundStep_blockOf (hco : Coherent cfg s) (hfi : fi.Ok s.db) {r : Round} {out : List UInt8}
    (hin : r.Unshared cfg (s, fi)) (hr : roundStep cfg (s, fi) r = .ok ((s', fi'), out))
    {f o : ℕ} (hne : f = fi.stIno → r.changed ≠ some o) (hmap : s.Mapped f o) :
    s'.blockOf f o = s.blockOf f o ∧ s'.Mapped f o := by
  have hco' := (roundStep_coherent hco hfi hr).1
  -- rounds that change no row, no content and no other file block
  have hsame : (∀ k, s'.db.rowHash k = s.db.rowHash k) → (∀ k, s'.content k = s.content k) →
      s'.db.fileHash f o = s.db.fileHash f o →
      s'.blockOf f o = s.blockOf f o ∧ s'.Mapped f o := fun hrow hcontent hfile =>
    ⟨hco.blockOf_congr hco' hrow hcontent hfile, fun g hg => by
      obtain ⟨k, hk⟩ := hmap g (hfile ▸ hg)
      exact ⟨k, (hrow k).trans hk⟩⟩
  cases roundStep_stepped hr with
  | resize newSize =>
    exact hsame (fun k => rowHash_ftruncate ..) (fun k => rfl) (fileHash_ftruncate ..)
  | read c x touched shown =>
    have hloc := getLockedFileBlock_locates cfg s fi c.block
    have hdb := touched.same.db.trans hloc.db_eq
    exact hsame (fun k => by rw [hdb])
      (fun k => (touched.same.content k).trans (hloc.content_eq k)) (by rw [hdb])
  | @write buf c s₁ old touched shown r ran wrote =>
    have hloc := getLockedFileBlock_locates cfg s fi c.block
    obtain ⟨hl, hnum, hfb⟩ := hco.locate hfi c.block
    have hdb : s₁.db = s.db := touched.same.db.trans hloc.db_eq
    have hco₁ := hl.touches touched
    have hb := hco₁.backed (hdb ▸ hfb)
    have hin₁ := (hin _ ⟨old, shown, rfl⟩).congr touched.same
    have hne₁ : (f, o) ≠ (fi.stIno, (getLockedFileBlock cfg s fi c.block).fblock.fileBlockNum) := by
      intro heq
      rw [hnum, Prod.mk.injEq] at heq
      exact hne heq.1 (congrArg some heq.2.symm)
    have hmap₁ : s₁.Mapped f o := by
      intro g hg
      rw [hdb] at hg ⊢
      exact hmap g hg
    refine ⟨(wrote.blockOf_kept hco₁ hco' hb hin₁ hne₁ hmap₁).trans ?_,
      wrote.mapped_kept hb hin₁ hne₁ hmap₁⟩
    exact hco.blockOf_congr hco₁ (fun k => by rw [hdb])
      (fun k => (touched.same.content k).trans (hloc.content_eq k)) (by rw [hdb])
  | release n g hash =>
    have hfile : (s.db.released fi.stIno n g).fileHash f o = s.db.fileHash f o := by
      rw [fileHash_released, if_neg]
      intro heq
      rw [Prod.mk.injEq] at heq
      exact hne heq.1 (congrArg some heq.2.symm)
    exact hsame (fun k => by rw [released_db, rowHash_released])
      (fun k => content_released ..) (by rw [released_db, hfile])

omit [DecidableEq H] in
/-- A file of another number keeps its row of `files`. -/
theorem getByPath_updateFileSize (db : Db H) (size ino : ℕ) (path : Path)
    (hne : (db.getByPath path).stIno ≠ ino) :
    (db.updateFileSize size ino).getByPath path = db.getByPath path := by
  unfold Db.getByPath Db.getByPathIn Db.updateFileSize KeyedTable.modify at *
  simp only [List.find?_map]
  have hpath : ((fun r : FileRow => decide (r.path = path)) ∘
      fun r : FileRow => if (decide (r.id = ino)) = true then { r with size := size } else r) =
      fun r => decide (r.path = path) := by
    funext r
    by_cases h : r.id = ino <;> simp [h]
  rw [hpath]
  cases hfind : db.files.rows.find? fun r => decide (r.path = path) with
  | none => rfl
  | some r =>
    rw [hfind] at hne
    simp only [Option.map_some]
    rw [if_neg (by simpa using hne)]

omit [DecidableEq H] in
theorem getByPath_congr {db db' : Db H} (h : db'.files = db.files) (path : Path) :
    db'.getByPath path = db.getByPath path := by
  rw [Db.getByPath, Db.getByPath, Db.getByPathIn, Db.getByPathIn, h]

/-- A round changes the row of its own file only. -/
theorem roundStep_getByPath {r : Round} {out : List UInt8}
    (hr : roundStep cfg (s, fi) r = .ok ((s', fi'), out)) :
    fi'.stIno = fi.stIno ∧ ∀ path, (s.db.getByPath path).stIno ≠ fi.stIno →
      s'.db.getByPath path = s.db.getByPath path := by
  refine ⟨roundStep_stIno hr, fun path hne => ?_⟩
  cases roundStep_stepped hr with
  | resize newSize =>
    show (s.db.ftruncate fi newSize).1.getByPath path = s.db.getByPath path
    unfold Db.ftruncate
    split
    · rfl
    · split
      · rfl
      · exact getByPath_updateFileSize s.db _ _ path hne
  | read c x touched shown =>
    have hloc := getLockedFileBlock_locates cfg s fi c.block
    rw [touched.same.db.trans hloc.db_eq]
  | write buf c old touched shown ran wrote =>
    have hloc := getLockedFileBlock_locates cfg s fi c.block
    rw [getByPath_congr wrote.files_eq, touched.same.db.trans hloc.db_eq]
  | release n g hash =>
    apply getByPath_congr
    rw [released_db, files_released]

/-- In a round that is up to date the counts allow the in-place branch on blocks of one file
block only. -/
theorem Round.UpToDate.unshared {R : ℤ → ℤ → Prop} (hR : Tally R) (hs : Counted R s)
    (hco : Coherent cfg s) (hfi : fi.Ok s.db) {r : Round} (hr : r.UpToDate cfg (s, fi)) :
    r.Unshared cfg (s, fi) := by
  cases r with
  | resize newSize => trivial
  | read c => trivial
  | release n => trivial
  | write buf c =>
    obtain ⟨hcur, hch⟩ := hr
    intro x hx
    exact (hs.locate hcur.stillCached).inPlaceUnshared hR
      (heldBlock_of_current hs hco hfi hcur hch (.refl _) hx)

end rounds

/-! ### Runs -/

/-- Requests that write or truncate a file. -/
def Op.Modifies : Op → Prop
  | .write .. => True
  | .truncate .. => True
  | .ftruncate .. => True
  | _ => False

/-- Such a request does nothing, or its rounds. -/
theorem Op.Modifies.step_ok {cfg : Config bits H} {fs fs' : Fs bits H} {op : Op} {out : Out}
    (hop : op.Modifies) (h : fs.step cfg op = .ok (fs', out)) :
    fs' = fs ∨ ∃ fi fi' rs s' os, fs.rounds op = some (fi, rs) ∧
      run (roundStep cfg) (fs.store, fi) rs = .ok ((s', fi'), os) ∧ fs'.store = s' := by
  cases op with
  | write fh buf offset =>
    obtain ⟨fi, fi', s', os, -, hr, hrun, rfl, -⟩ := Fs.step_write_ok h
    exact .inr ⟨fi, fi', _, s', os, hr, hrun, rfl⟩
  | truncate path newSize =>
    obtain ⟨rfl, -⟩ | ⟨n, fi', s', os, -, hr, hrun, rfl⟩ := Fs.step_truncate_ok h
    · exact .inl rfl
    · exact .inr ⟨_, fi', _, s', os, hr, hrun, rfl⟩
  | ftruncate fh newSize =>
    obtain ⟨rfl, -⟩ | ⟨n, fi, fi', s', os, -, -, hr, hrun, rfl⟩ := Fs.step_ftruncate_ok h
    · exact .inl rfl
    · exact .inr ⟨fi, fi', _, s', os, hr, hrun, rfl⟩
  | _ => exact hop.elim

/-- In runs that are up to date the counts are at least the references. -/
theorem counted_keeps (cfg : Config bits H) :
    Fs.Keeps cfg (Round.UpToDate cfg) (fun s => Coherent cfg s ∧ Counted (· ≤ ·) s)
      fun s fi => fi.Ok s.db where
  round s fi r s' fi' o hs hfi hok hr := by
    obtain ⟨hco, hcounted⟩ := hs
    obtain ⟨hco', hfi', hgrow⟩ := roundStep_coherent hco hfi hr
    refine ⟨⟨hco', roundStep_counted tally_le hcounted hco hfi hok (fun _ _ _ _ a b h => ?_) hr⟩,
      hfi', fun fj hfj => hfj.mono hgrow⟩
    show a - 1 ≤ b
    omega
  files s files hs := by
    obtain ⟨hco, hothers⟩ := (coherent_keeps cfg).files s files hs.1
    exact ⟨⟨hco, hs.2.congr (fun _ => rfl) (fun _ => rfl) (fun _ _ => rfl) (fun _ => rfl)
      fun _ _ h => h⟩, hothers⟩
  fresh s path _ := .getByPath s.db path
  pass s victims hs := by
    refine ⟨⟨hs.1.writerPass victims, hs.2.congr (fun _ => rfl) (fun _ => rfl) (fun _ _ => rfl)
      (fun _ => rfl) fun k c hc => ?_⟩, fun _ h => h⟩
    rw [Store.writerPass_eq, Store.cnt_evict, Store.cnt_flush, Store.cnt_flush] at hc
    split at hc
    · cases hc
    · exact hc
  remount s files hs :=
    ⟨hs.1.remount files, hs.2.congr (fun _ => rfl) (fun _ => rfl) (fun _ _ => rfl) (fun _ => rfl)
      fun _ _ hc => (nomatch hc)⟩
  clock s now hs := by
    obtain ⟨hco, hothers⟩ := (coherent_keeps cfg).clock s now hs.1
    exact ⟨⟨hco, hs.2.congr (fun _ => rfl) (fun _ => rfl) (fun _ _ => rfl) (fun _ => rfl)
      fun _ _ h => h⟩, hothers⟩

theorem counted_init (cfg : Config bits H) {R : ℤ → ℤ → Prop} :
    Coherent cfg (Fs.init bits H).store ∧ Counted R (Fs.init bits H).store :=
  ⟨(Fs.init_coherent cfg).1, ⟨fun _ _ _ h => (nomatch h), fun _ _ _ h => (nomatch h),
    fun _ _ _ h => (nomatch h)⟩⟩

/-- Runs of rounds keep the file blocks that they do not change. -/
theorem run_blockOf {cfg : Config bits H} {s s' : Store bits H} {fi fi' : FileInfo H}
    {rs : List Round} {os : List (List UInt8)} (hco : Coherent cfg s) (hfi : fi.Ok s.db)
    (hin : Meets (roundStep cfg) (fun p r => r.Unshared cfg p) (s, fi) rs)
    (hrun : run (roundStep cfg) (s, fi) rs = .ok ((s', fi'), os)) {f o : ℕ}
    (hne : ∀ r ∈ rs, f = fi.stIno → r.changed ≠ some o) (hmap : s.Mapped f o) :
    s'.blockOf f o = s.blockOf f o ∧ s'.Mapped f o := by
  induction rs generalizing s fi os with
  | nil =>
    cases hrun
    exact ⟨rfl, hmap⟩
  | cons r rs ih =>
    obtain ⟨⟨s₁, fi₁⟩, out, os', h₁, hrest, -⟩ := run_cons_ok.mp hrun
    obtain ⟨hco₁, hfi₁, -⟩ := roundStep_coherent hco hfi h₁
    obtain ⟨heq, hmap₁⟩ := roundStep_blockOf hco hfi hin.1 h₁ (hne r (List.mem_cons_self ..)) hmap
    have hino := (roundStep_getByPath h₁).1
    obtain ⟨heq', hmap'⟩ := ih hco₁ hfi₁ (hin.2 _ _ h₁) hrest
      (fun r' hr' => hino ▸ hne r' (List.mem_cons_of_mem _ hr')) hmap₁
    exact ⟨heq'.trans heq, hmap'⟩

theorem run_getByPath {cfg : Config bits H} {s s' : Store bits H} {fi fi' : FileInfo H}
    {rs : List Round} {os : List (List UInt8)}
    (hrun : run (roundStep cfg) (s, fi) rs = .ok ((s', fi'), os)) {path : Path}
    (hne : (s.db.getByPath path).stIno ≠ fi.stIno) :
    s'.db.getByPath path = s.db.getByPath path := by
  induction rs generalizing s fi os with
  | nil =>
    cases hrun
    rfl
  | cons r rs ih =>
    obtain ⟨⟨s₁, fi₁⟩, out, os', h₁, hrest, -⟩ := run_cons_ok.mp hrun
    obtain ⟨hino, hpath⟩ := roundStep_getByPath h₁
    have h₂ := hpath path hne
    exact (ih hrest (by rw [h₂, hino]; exact hne)).trans h₂

/-- **Deduplicated files are isolated** in every run whose rounds are up to date: a request that
writes or truncates one file takes the in-place branch only on storage blocks of the one file
block that it writes, and a handle opened afterwards reads from every other file what it read
before. -/
theorem modified_isolated (cfg : Config bits H) (ops : List Op) (op : Op) (fs fs' : Fs bits H)
    (outs : List Out) (out : Out) (hmod : op.Modifies)
    (hok : Meets (Fs.step cfg) (fun fs op => fs.RoundsMeet cfg (fun p r => r.UpToDate cfg p) op)
      (Fs.init bits H) (ops ++ [op]))
    (hrun : run (Fs.step cfg) (Fs.init bits H) ops = .ok (fs, outs))
    (hstep : fs.step cfg op = .ok (fs', out)) :
    fs.RoundsMeet cfg (fun p r => r.Unshared cfg p) op ∧
      ∀ path, (∀ fi rs, fs.rounds op = some (fi, rs) →
          (fs.store.db.getByPath path).stIno ≠ fi.stIno) →
        freshRead cfg fs'.store path = freshRead cfg fs.store path := by
  have hfs := run_invariant (fun fs op fs' out h hok hstep => (counted_keeps cfg).step h hok hstep)
    (s := Fs.init bits H) ⟨counted_init cfg, fun _ _ h => (nomatch h)⟩ hok.left hrun
  have hop := (hok.append hrun).1
  obtain ⟨⟨hco, hcounted⟩, hhandles⟩ := hfs
  have hcoh : fs.Coherent cfg := ⟨hco, hhandles⟩
  have hunshared : fs.RoundsMeet cfg (fun p r => r.Unshared cfg p) op := fun fi rs hr => by
    refine Meets.of_invariant
      (I := fun p => (Coherent cfg p.1 ∧ Counted (· ≤ ·) p.1) ∧ p.2.Ok p.1.db) ?_ ?_
      ⟨⟨hco, hcounted⟩, hcoh.acts_ok hr⟩ (hop fi rs hr)
    · rintro ⟨s, fi⟩ r ⟨s', fi'⟩ o ⟨hs, hfi⟩ hr hstep
      obtain ⟨hs', hfi', -⟩ := (counted_keeps cfg).round s fi r s' fi' o hs hfi hr hstep
      exact ⟨hs', hfi'⟩
    · rintro ⟨s, fi⟩ r ⟨hs, hfi⟩ hr
      exact Round.UpToDate.unshared tally_le hs.2 hs.1 hfi hr
  refine ⟨hunshared, fun path hne => ?_⟩
  have hco' := (Fs.step_coherent hcoh hstep).1
  rcases hmod.step_ok hstep with rfl | ⟨fi, fi', rs, s', os, hr, hran, hs'⟩
  · rfl
  · rw [hs'] at hco' ⊢
    have hother := hne fi rs hr
    refine freshRead_congr hco hco' (run_getByPath hran hother) fun o => ?_
    exact (run_blockOf hco (hcoh.acts_ok hr) (hunshared fi rs hr) hran
      (fun _ _ h => absurd h hother) fun g hg => hcounted.found _ _ g hg).1

/-- The second of two files is not touched by a write to the first. -/
theorem modified_isolated_two_files :
    freshRead (plainConfig 0) (Fs.after (plainConfig 0)
        [.create ['/', 'f'] sIfreg, .create ['/', 'g'] sIfreg, .write 0 [7] 0]).store ['/', 'g'] =
      freshRead (plainConfig 0) (Fs.after (plainConfig 0)
        [.create ['/', 'f'] sIfreg, .create ['/', 'g'] sIfreg]).store ['/', 'g'] := by
  refine (modified_isolated (plainConfig 0) [.create ['/', 'f'] sIfreg, .create ['/', 'g'] sIfreg]
    (.write 0 [7] 0) _ _ [.opened 0, .opened 1] (.ret 1) trivial ?_ rfl rfl).2 ['/', 'g'] ?_
  · refine .cons (fun _ _ h => nomatch h) rfl (.cons (fun _ _ h => nomatch h) rfl
      ⟨fun fi rs h => ?_, fun _ _ _ => trivial⟩)
    cases h
    exact .cons trivial rfl ⟨⟨fun _ h => (nomatch h), fun _ _ _ => nofun⟩, fun _ _ _ => trivial⟩
  · intro fi rs h
    cases h
    decide

/-- **An identical rewrite lets a shared block be overwritten.**  The second write of the bytes
7 to `f` lowers the use count of their block; `f` and `g` share it, and after a remount a write
to `f` overwrites it in place, so that the byte of `g` is lost. -/
theorem shared_block_overwritten :
    ¬∀ path, path ≠ ['/', 'f'] →
      freshRead (plainConfig 4) (Fs.after (plainConfig 4)
        [.create ['/', 'f'] sIfreg, .write 0 [7] 0, .create ['/', 'g'] sIfreg, .write 1 [7] 0,
          .write 0 [7] 0, .remount, .openFile ['/', 'f'], .write 2 [8] 0]).store path =
      freshRead (plainConfig 4) (Fs.after (plainConfig 4)
        [.create ['/', 'f'] sIfreg, .write 0 [7] 0, .create ['/', 'g'] sIfreg, .write 1 [7] 0,
          .write 0 [7] 0, .remount, .openFile ['/', 'f']]).store path := by
  intro hall
  have h := hall ['/', 'g'] (by decide)
  have hafter : freshRead (plainConfig 4) (Fs.after (plainConfig 4)
        [.create ['/', 'f'] sIfreg, .write 0 [7] 0, .create ['/', 'g'] sIfreg, .write 1 [7] 0,
          .write 0 [7] 0, .remount, .openFile ['/', 'f'], .write 2 [8] 0]).store ['/', 'g'] =
      .ok [0] := rfl
  have hbefore : freshRead (plainConfig 4) (Fs.after (plainConfig 4)
        [.create ['/', 'f'] sIfreg, .write 0 [7] 0, .create ['/', 'g'] sIfreg, .write 1 [7] 0,
          .write 0 [7] 0, .remount, .openFile ['/', 'f']]).store ['/', 'g'] = .ok [7] := rfl
  rw [hafter, hbefore] at h
  cases h

end Wwdedup
