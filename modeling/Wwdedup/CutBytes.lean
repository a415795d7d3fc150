import Wwdedup.HandleReads
import Wwdedup.Truncate

/-!
# Bytes behind the end of a file

A truncation gives up the blocks that start behind the new end and keeps the block that the end
is in as it is.  So the bytes of that block behind the end are still there, and a file that grows
again shows them.  Whatever is zero behind the end stays zero until it is written
(`roundStep_zero`): a partial write keeps the old bytes of its block, or makes them zero.
-/

namespace Wwdedup

open GuardedRun

variable {bits : ℕ} {H : Type} [DecidableEq H]

/-! ### One round -/

section rounds

variable {cfg : Config bits H} {s s' : Store bits H} {fi fi' : FileInfo H} {n : ℕ}

/-- A block that is located by a handle in step with the tables shows what they give, or zeros. -/
theorem Synced.shown (h : Synced s fi) (hco : Coherent cfg s) (hfi : fi.Ok s.db) {old : Block bits}
    (hold : (getLockedFileBlock cfg s fi n).store.shown
      (getLockedFileBlock cfg s fi n).fblock.storageBlock = some old) :
    old = zeroBlock bits ∨ old = s.blockOf fi.stIno n := by
  cases hfb : fi.blocks n with
  | none =>
    rw [hco.shown_fresh hfi hfb] at hold
    cases hold
    unfold Store.freshBlock
    split
    · exact .inl rfl
    · exact .inr rfl
  | some item =>
    obtain ⟨-, hok⟩ := hfi n item hfb
    have hitem : (fileBlock cfg s fi n).1 = item := by
      unfold fileBlock
      rw [hfb]
    have hl := getLockedFileBlock_locates cfg s fi n
    rw [hl.shown_eq (hitem ▸ hok), hitem] at hold
    split at hold
    · exact .inl (Option.some.inj hold).symm
    · rename_i hlive
      rcases h n item hfb with ⟨-, hempty, hptr⟩ | ⟨g, -, hfile, hrow⟩
      · exact absurd (.inl ⟨hempty, by rw [hptr, Store.lock_none]⟩) hlive
      · exact .inr (Store.blockOf_eq hco.unique hfile hrow hold).symm

/-- The round writes no byte at the position. -/
def Round.Misses (bits p : ℕ) : Round → Prop
  | .write _ c => c.startOffset + c.len ≤ blockSize bits ∧
      ¬(c.block * blockSize bits + c.startOffset ≤ p ∧
        p < c.block * blockSize bits + c.startOffset + c.len)
  | _ => True

/-- A block that is written has its old bytes where the chunk is not. -/
theorem overlay_misses {c : Chunk} {buf : List UInt8} (old : Block bits) {p : ℕ}
    (hblock : c.block = p / blockSize bits) (hmiss : (Round.write buf c).Misses bits p) :
    c.len < blockSize bits ∧
      c.data buf old ⟨p % blockSize bits, Nat.mod_lt p (blockSize_pos bits)⟩ =
        old ⟨p % blockSize bits, Nat.mod_lt p (blockSize_pos bits)⟩ := by
  obtain ⟨hfits, hout⟩ := hmiss
  have hp : c.block * blockSize bits + p % blockSize bits = p := by
    rw [hblock, Nat.mul_comm]
    exact Nat.div_add_mod p _
  have hlt := Nat.mod_lt p (blockSize_pos bits)
  refine ⟨by omega, ?_⟩
  unfold Chunk.data overlay
  rw [if_neg]
  dsimp only
  omega

/-- **A byte that is zero stays zero** in the rounds of the only handle that do not write it. -/
theorem roundStep_zero {ino p : ℕ} (h : Attends cfg ino (s, fi)) {r : Round} {out : List UInt8}
    (hunshared : r.Unshared cfg (s, fi)) (hgen : r.Genuine cfg (s, fi)) (hmiss : r.Misses bits p)
    (hr : roundStep cfg (s, fi) r = .ok ((s', fi'), out)) (hzero : s.byteOf ino p = 0) :
    s'.byteOf ino p = 0 := by
  have hino : fi.stIno = ino := h.stIno
  subst hino
  by_cases hchanged : r.changed = some (p / blockSize bits)
  · cases r with
    | write buf c =>
      have hblock : c.block = p / blockSize bits := Option.some.inj hchanged
      obtain ⟨⟨old, hold, hnew⟩, -⟩ := roundStep_write_newContent h.coherent h.ok hgen hr
      obtain ⟨hpart, hbyte⟩ := overlay_misses old hblock hmiss
      unfold Store.byteOf at hzero ⊢
      rw [← hblock] at hzero ⊢
      rw [hnew, hbyte]
      rcases h.attached.synced.shown h.coherent h.ok (hold hpart) with rfl | rfl
      · rfl
      · exact hzero
    | release m =>
      have hblock : m = p / blockSize bits := Option.some.inj hchanged
      cases roundStep_stepped hr with
      | release _ g hash =>
        have hnone : (s.released fi.stIno m g (heldBlock cfg s.db fi m).storageBlockNum).db.fileHash
            fi.stIno (p / blockSize bits) = none := by
          rw [released_db, fileHash_released, if_pos (by rw [hblock])]
        unfold Store.byteOf
        rw [Store.blockOf_of_fileHash_none hnone]
        rfl
    | resize m => cases hchanged
    | read c => cases hchanged
  · have hmap : s.Mapped fi.stIno (p / blockSize bits) := fun g hg => h.found _ _ g hg
    unfold Store.byteOf at hzero ⊢
    rw [(roundStep_blockOf h.coherent h.ok hunshared hr (fun _ => hchanged) hmap).1]
    exact hzero

end rounds

/-! ### Requests -/

/-- The chunks of a range lie in it. -/
theorem Tiles.inside {offset p q : ℕ} {cs : List Chunk} (h : Tiles bits offset p cs q) :
    ∀ c ∈ cs, c.startOffset + c.len ≤ blockSize bits ∧
      offset ≤ c.block * blockSize bits + c.startOffset ∧
      c.block * blockSize bits + c.startOffset + c.len ≤ offset + q := by
  induction h with
  | nil p => exact fun c hc => absurd hc List.not_mem_nil
  | cons pos place fits rest ih =>
    intro c hc
    have hle := rest.le
    rcases List.mem_cons.mp hc with rfl | hc
    · exact ⟨fits, by omega, by omega⟩
    · exact ih c hc

namespace Fs

/-- The request writes the position of the file. -/
def Writes (fs : Fs bits H) (ino p : ℕ) : Op → Prop
  | .write fh buf offset => ∃ fi, fs.handles fh = some fi ∧ fi.stIno = ino ∧ offset ≤ p ∧
      p < offset + buf.length
  | _ => False

/-- The request works through a handle that knows its file, its rounds overwrite no shared block
in place and find no block with another content by its hash, and it orphans no block. -/
def Orderly (cfg : Config bits H) (fs : Fs bits H) (op : Op) : Prop :=
  fs.Proper op ∧ fs.ReplacesEmpty op ∧ fs.Current op ∧
    fs.RoundsMeet cfg (fun p r => r.Unshared cfg p ∧ r.Genuine cfg p) op

/-- What orderly requests keep: the cache and the tables agree, every block belongs to a file that
reaches it, and every hash has its row. -/
structure Tidy (cfg : Config bits H) (fs : Fs bits H) : Prop where
  coherent : fs.Coherent cfg
  owned : fs.Owned
  found : fs.store.db.Found

theorem init_tidy (cfg : Config bits H) : (Fs.init bits H).Tidy cfg :=
  ⟨Fs.init_coherent cfg, Fs.init_owned bits H, (init_informed bits H).found⟩

section steps

variable {cfg : Config bits H} {fs fs' : Fs bits H} {op : Op} {out : Out} {ino p : ℕ}

omit [DecidableEq H] in
/-- The rounds of a request that does not write the position do not either. -/
theorem rounds_misses {fi : FileInfo H} {rs : List Round} (hr : fs.rounds op = some (fi, rs))
    (hnot : ¬fs.Writes fi.stIno p op) : ∀ r ∈ rs, r.Misses bits p := by
  have htruncate : ∀ n, ∀ r ∈ truncateRounds bits fi n, r.Misses bits p := by
    intro n r hr
    rcases mem_truncateRounds hr with rfl | ⟨m, -, rfl⟩
    · trivial
    · trivial
  cases op with
  | write fh buf offset =>
    obtain ⟨fi₀, hfi, heq⟩ := Option.map_eq_some_iff.mp hr
    cases heq
    intro r hr
    rcases mem_writeRounds hr with ⟨n, rfl⟩ | ⟨c, hc, rfl⟩
    · trivial
    · obtain ⟨hfits, hlow, hhigh⟩ := (chunks_tiles bits buf.length offset).inside c hc
      refine ⟨hfits, fun hin => hnot ⟨fi, hfi, rfl, by omega, by omega⟩⟩
  | read fh size offset =>
    obtain ⟨fi₀, -, heq⟩ := Option.map_eq_some_iff.mp hr
    cases heq
    intro r hr
    obtain ⟨c, -, rfl⟩ := List.mem_map.mp hr
    trivial
  | ftruncate fh newSize =>
    simp only [rounds] at hr
    split at hr
    · cases hr
    · obtain ⟨fi₀, -, heq⟩ := Option.map_eq_some_iff.mp hr
      cases heq
      exact htruncate _
  | truncate path newSize =>
    simp only [rounds] at hr
    split at hr
    · cases hr
    · cases hr
      exact htruncate _
  | unlink path =>
    simp only [rounds] at hr
    split at hr
    · cases hr
    · cases hr
      exact htruncate _
  | create | mkdir | openFile | release | rmdir | rename | writerPass | remount | clock => cases hr

/-- The rounds of a request keep a zero of any file. -/
theorem rounds_zero {fi fi' : FileInfo H} {rs : List Round} {s' : Store bits H}
    {os : List (List UInt8)} (hdb : cfg.dbBlockSize ≤ blockSize bits) (h : fs.Tidy cfg)
    (hord : fs.Orderly cfg op) (hnot : ¬fs.Writes ino p op) (hr : fs.rounds op = some (fi, rs))
    (ran : run (roundStep cfg) (fs.store, fi) rs = .ok ((s', fi'), os))
    (hzero : fs.store.byteOf ino p = 0) : s'.byteOf ino p = 0 := by
  have hmeets := hord.2.2.2 fi rs hr
  by_cases hino : fi.stIno = ino
  · subst hino
    have hfinds := rounds_finds hdb h.owned.blocks (hord.2.2.1 fi rs hr).size hr
    have hok := (hmeets.and hfinds).and_mem (rounds_misses hr hnot)
    have hrest := run_invariant
      (I := fun q => Attends cfg fi.stIno q ∧ q.1.byteOf fi.stIno p = 0) ?_
      ⟨⟨h.coherent.1, h.coherent.acts_ok hr, h.found, hord.2.2.1 fi rs hr, rfl⟩, hzero⟩ hok ran
    · exact hrest.2
    · rintro ⟨s₁, fi₁⟩ r ⟨s₂, fi₂⟩ o ⟨hatt, hz⟩ ⟨hmiss, ⟨hunshared, hgen⟩, hin⟩ hstep
      exact ⟨roundStep_attends hatt hunshared hin hstep,
        roundStep_zero hatt hunshared hgen hmiss hstep hz⟩
  · have hmap : fs.store.Mapped ino (p / blockSize bits) := fun g hg => h.found _ _ g hg
    have hkept := run_blockOf h.coherent.1 (h.coherent.acts_ok hr)
      (hmeets.mono fun _ _ hg => hg.1) ran
      (fun _ _ heq => absurd heq.symm hino) hmap
    unfold Store.byteOf at hzero ⊢
    rw [hkept.1]
    exact hzero

/-- **A zero stays zero** in a step that does not write it. -/
theorem step_zero (hdb : cfg.dbBlockSize ≤ blockSize bits) (h : fs.Tidy cfg)
    (hord : fs.Orderly cfg op) (hnot : ¬fs.Writes ino p op)
    (hstep : fs.step cfg op = .ok (fs', out)) (hzero : fs.store.byteOf ino p = 0) :
    fs'.store.byteOf ino p = 0 := by
  have hco := h.coherent
  have hslots : ∀ k, (fs.store.db.rowHash k).isSome → (fs.store.content k).isSome := by
    intro k hk
    obtain ⟨g, hg⟩ := Option.isSome_iff_exists.mp hk
    obtain ⟨x, hx, -⟩ := hco.1.row k g (fun hf => hf) hg
    rw [hx]
    rfl
  cases step_moves hstep with
  | same => exact hzero
  | through fh acts opened rounds ran =>
    exact rounds_zero hdb h hord hnot rounds ran hzero
  | byPath path acts files rounds ran =>
    have hrest := rounds_zero hdb h hord hnot rounds ran hzero
    exact hrest
  | files files => exact hzero
  | opens path files => exact hzero
  | closes fh => exact hzero
  | pass victims asked =>
    have hkept : (fs.store.writerPass victims).byteOf = fs.store.byteOf :=
      Store.byteOf_kept hslots (fun _ _ => rfl) (fun _ => rfl)
        fun _ _ hx => hco.1.stored.content_writerPass victims hx
    exact (congrFun (congrFun hkept ino) p).trans hzero
  | remount files asked =>
    have hkept : Store.byteOf { (fs.store.flush fun _ => true).setFiles files with
        blocks := .empty } = fs.store.byteOf :=
      Store.byteOf_kept hslots (fun _ _ => rfl) (fun _ => rfl)
        fun _ _ hx => hco.1.content_remount files hx
    exact (congrFun (congrFun hkept ino) p).trans hzero
  | clock now => exact hzero

theorem Orderly.step (hord : fs.Orderly cfg op) (h : fs.Tidy cfg)
    (hstep : fs.step cfg op = .ok (fs', out)) : fs'.Tidy cfg := by
  obtain ⟨hproper, hempty, hcurrent, hmeets⟩ := hord
  exact ⟨Fs.step_coherent h.coherent hstep,
    hcurrent.step_owned h.coherent h.owned hproper hempty hstep,
    step_found h.found h.coherent (fun fi rs hr => (hmeets fi rs hr).mono fun _ _ hg => hg.1) hstep⟩

/-- **A zero stays zero** along orderly runs that do not write it. -/
theorem run_zero (hdb : cfg.dbBlockSize ≤ blockSize bits) (h : fs.Tidy cfg) {ops : List Op}
    {outs : List Out}
    (hok : Meets (Fs.step cfg) (fun fs op => fs.Orderly cfg op ∧ ¬fs.Writes ino p op) fs ops)
    (hrun : run (Fs.step cfg) fs ops = .ok (fs', outs)) (hzero : fs.store.byteOf ino p = 0) :
    fs'.Tidy cfg ∧ fs'.store.byteOf ino p = 0 := by
  refine run_invariant (I := fun fs => fs.Tidy cfg ∧ fs.store.byteOf ino p = 0)
    (fun fs op fs' out hfs hg hstep => ?_) ⟨h, hzero⟩ hok hrun
  exact ⟨hg.1.step hfs.1 hstep, step_zero hdb hfs.1 hg.1 hg.2 hstep hfs.2⟩

end steps

end Fs

/-! ### Cuts -/

/-- What a truncation goes through: an open handle, or a path. -/
inductive Truncation where
  | byHandle (fh : ℕ)
  | byPath (path : Path)

def Truncation.op : Truncation → ℕ → Op
  | .byHandle fh, n => .ftruncate fh n
  | .byPath path, n => .truncate path n

/-- The `FileInfo` that it works on: that of the handle, or a new one of a regular file. -/
def Truncation.WorksOn (fs : Fs bits H) (fi : FileInfo H) : Truncation → Prop
  | .byHandle fh => fs.handles fh = some fi
  | .byPath path => fi = fs.store.db.getByPath path ∧ fi.stIno ≠ 0 ∧ sIsreg fi.stMode = true

section cuts

variable {cfg : Config bits H} {fs fs₁ : Fs bits H} {cut : Truncation} {fi : FileInfo H} {n : ℕ}
  {out : Out}

omit [DecidableEq H] in
theorem Truncation.rounds_iff {rs : List Round} : fs.rounds (cut.op n) = some (fi, rs) ↔
    rs = truncateRounds bits fi n ∧ cut.WorksOn fs fi := by
  cases cut with
  | byHandle fh =>
    show (if (n : ℤ) < 0 then none else (fs.handles fh).map fun fi =>
      (fi, truncateRounds bits fi (n : ℤ).toNat)) = some (fi, rs) ↔ _
    rw [if_neg (by omega), Int.toNat_natCast, Option.map_eq_some_iff]
    constructor
    · rintro ⟨fi', hfi, heq⟩
      cases heq
      exact ⟨rfl, hfi⟩
    · rintro ⟨rfl, hfi⟩
      exact ⟨fi, hfi, rfl⟩
  | byPath path =>
    show (if (fs.store.db.getByPath path).stIno = 0 ∨
        sIsreg (fs.store.db.getByPath path).stMode = false ∨ (n : ℤ) < 0 then none
      else some (fs.store.db.getByPath path,
        truncateRounds bits (fs.store.db.getByPath path) (n : ℤ).toNat)) = some (fi, rs) ↔ _
    rw [Int.toNat_natCast]
    constructor
    · intro h
      split at h
      · cases h
      · rename_i hfound
        cases h
        refine ⟨rfl, rfl, fun hzero => hfound (.inl hzero), ?_⟩
        rw [← Bool.not_eq_false]
        exact fun hreg => hfound (.inr (.inl hreg))
    · rintro ⟨rfl, rfl, hino, hreg⟩
      rw [if_neg]
      rintro (hzero | hfalse | hneg)
      · exact hino hzero
      · rw [hreg] at hfalse
        cases hfalse
      · omega

omit [DecidableEq H] in
theorem Truncation.WorksOn.rounds (hcut : cut.WorksOn fs fi) (n : ℕ) :
    fs.rounds (cut.op n) = some (fi, truncateRounds bits fi n) :=
  Truncation.rounds_iff.mpr ⟨rfl, hcut⟩

theorem Truncation.WorksOn.ran (hcut : cut.WorksOn fs fi)
    (hstep : fs.step cfg (cut.op n) = .ok (fs₁, out)) :
    ∃ fi' os, run (roundStep cfg) (fs.store, fi) (truncateRounds bits fi n) =
      .ok ((fs₁.store, fi'), os) ∧ ∀ fh, cut = .byHandle fh → fs₁.handles fh = some fi' := by
  have hr := hcut.rounds n
  cases cut with
  | byHandle fh =>
    obtain ⟨-, hnone⟩ | ⟨m, fi₀, fi', s', os, hm, hfi₀, -, hrun, rfl⟩ := Fs.step_ftruncate_ok hstep
    · rw [Truncation.op, hnone] at hr
      cases hr
    · cases hcut.symm.trans hfi₀
      cases hm
      refine ⟨fi', os, hrun, fun fh' heq => ?_⟩
      cases heq
      exact Function.update_self ..
  | byPath path =>
    obtain ⟨-, hnone⟩ | ⟨m, fi', s', os, hm, -, hrun, rfl⟩ := Fs.step_truncate_ok hstep
    · rw [Truncation.op, hnone] at hr
      cases hr
    · obtain ⟨rfl, -⟩ := hcut
      cases hm
      exact ⟨fi', os, hrun, fun fh heq => by cases heq⟩

theorem Truncation.WorksOn.step_ok (hcut : cut.WorksOn fs fi) {s' : Store bits H}
    {fi' : FileInfo H} {r : ℤ} (h : truncate cfg fs.store fi n = .ok (s', fi', r)) :
    ∃ fs', fs.step cfg (cut.op n) = .ok (fs', .ret r) ∧ fs'.store = s' := by
  cases cut with
  | byHandle fh =>
    refine ⟨(fs.setStore s').setHandle fh fi', ?_, rfl⟩
    show fs.ftruncate cfg fh n = _
    unfold Fs.ftruncate
    rw [hcut]
    dsimp only
    rw [h]
  | byPath path =>
    obtain ⟨rfl, hino, hreg⟩ := hcut
    refine ⟨fs.setStore s', ?_, rfl⟩
    show fs.truncate cfg path n = _
    unfold Fs.truncate
    rw [if_neg hino, if_neg (by rw [hreg]; decide), h]

/-- The row of the file has the new size. -/
theorem Truncation.WorksOn.size (hcut : cut.WorksOn fs fi) (hord : fs.Orderly cfg (cut.op n))
    (hstep : fs.step cfg (cut.op n) = .ok (fs₁, out)) :
    ∃ row, fs.store.db.files.find fi.stIno = some row ∧
      fs₁.store.db.files.find fi.stIno = some { row with size := n } := by
  obtain ⟨row, hrow, hsize⟩ := (hord.2.2.1 fi _ (hcut.rounds n)).size
  obtain ⟨fi', os, hrun, -⟩ := hcut.ran hstep
  exact ⟨row, hrow, run_truncate_size hrow hsize.symm hrun⟩

/-- **What a cut leaves of the bytes**: nothing in the blocks that start behind the new end, and
all in the others. -/
theorem Truncation.WorksOn.byteOf (hcut : cut.WorksOn fs fi) (h : fs.Tidy cfg)
    (hord : fs.Orderly cfg (cut.op n)) (hstep : fs.step cfg (cut.op n) = .ok (fs₁, out)) (p : ℕ) :
    fs₁.store.byteOf fi.stIno p =
      if p / blockSize bits < ceilBlock bits n then fs.store.byteOf fi.stIno p else 0 := by
  obtain ⟨fi', os, hrun, -⟩ := hcut.ran hstep
  have hr := hcut.rounds n
  by_cases hp : p / blockSize bits < ceilBlock bits n
  · rw [if_pos hp]
    unfold Store.byteOf
    rw [run_truncate_blockOf h.coherent.1 (h.coherent.acts_ok hr) (lt_ceil_iff.mp hp) hrun]
  · obtain ⟨row, -, hrow⟩ := hcut.size hord hstep
    have hnone : fs₁.store.db.fileHash fi.stIno (p / blockSize bits) = none := by
      by_contra hsome
      obtain ⟨g, hg⟩ := Option.ne_none_iff_exists'.mp hsome
      obtain ⟨row', hrow', -, hin⟩ := (hord.step h hstep).owned.blocks _ _ g hg
      rw [hrow] at hrow'
      cases hrow'
      exact hp (lt_ceil_iff.mpr hin)
    rw [if_neg hp]
    unfold Store.byteOf
    rw [Store.blockOf_of_fileHash_none hnone]
    rfl

/-- The same way leads to the file again, in step with the tables, and it has the new size. -/
theorem Truncation.WorksOn.again (hcut : cut.WorksOn fs fi) (hdb : cfg.dbBlockSize ≤ blockSize bits)
    (h : fs.Tidy cfg) (hord : fs.Orderly cfg (cut.op n))
    (hstep : fs.step cfg (cut.op n) = .ok (fs₁, out)) :
    ∃ fi₁, cut.WorksOn fs₁ fi₁ ∧ Attached fs₁.store fi₁ ∧ fi₁.stIno = fi.stIno ∧
      fi₁.stSize = n := by
  have hr := hcut.rounds n
  obtain ⟨row, hold, hrow⟩ := hcut.size hord hstep
  cases cut with
  | byHandle fh =>
    obtain ⟨fi', os, hrun, hhandle⟩ := hcut.ran hstep
    have hfinds := rounds_finds hdb h.owned.blocks (hord.2.2.1 fi _ hr).size hr
    have hmeets := ((hord.2.2.2 fi _ hr).mono fun _ _ hg => hg.1).and hfinds
    obtain ⟨-, hatt, -⟩ := run_attached
      ⟨h.coherent.1, h.coherent.acts_ok hr, h.found, hord.2.2.1 fi _ hr, rfl⟩ hmeets hrun
    have hino := run_stIno hrun
    rw [← hino] at hrow
    exact ⟨fi', hhandle fh rfl, hatt, hino, hatt.size_eq hrow⟩
  | byPath path =>
    obtain ⟨rfl, hino, hreg⟩ := hcut
    obtain ⟨row', -, hpath, hinfo, hfind⟩ := Fs.exists_row hino
    cases hold.symm.trans hfind
    have hget : fs₁.store.db.getByPath path = FileRow.info { row with size := n } := by
      rw [← hpath]
      exact (hord.step h hstep).owned.files.getByPath_of_mem (KeyedTable.mem_of_find hrow)
    have hino₁ : (fs₁.store.db.getByPath path).stIno = (fs.store.db.getByPath path).stIno := by
      rw [hget, hinfo]
      rfl
    refine ⟨_, ⟨rfl, ?_, ?_⟩, .getByPath ?_, hino₁, ?_⟩
    · rw [hino₁]
      exact hino
    · rw [hinfo] at hreg
      rw [hget]
      exact hreg
    · rw [hino₁]
      exact hino
    · rw [hget]
      rfl

/-- Growing after the cut is orderly. -/
theorem Truncation.WorksOn.orderly_grow (hcut : cut.WorksOn fs fi) (hatt : Attached fs.store fi)
    {m : ℕ} (hm : fi.stSize ≤ m) : fs.Orderly cfg (cut.op m) := by
  refine ⟨?_, ?_, fun fi₂ rs hr => ?_, fun fi₂ rs hr => ?_⟩
  · cases cut <;> trivial
  · cases cut <;> trivial
  · cases (hcut.rounds m).symm.trans hr
    exact hatt
  · cases (hcut.rounds m).symm.trans hr
    rw [truncateRounds, if_pos hm]
    exact ⟨⟨trivial, trivial⟩, fun _ _ _ => trivial⟩

/-- **The file grows again**, and shows the bytes that are there. -/
theorem Truncation.WorksOn.grow (hcut : cut.WorksOn fs fi) (hdb : cfg.dbBlockSize ≤ blockSize bits)
    (h : fs.Tidy cfg) (hord : fs.Orderly cfg (cut.op n))
    (hstep : fs.step cfg (cut.op n) = .ok (fs₁, out)) {m : ℕ} (hm : n ≤ m) :
    ∃ fs₂ path, fs₁.Orderly cfg (cut.op m) ∧ fs₁.step cfg (cut.op m) = .ok (fs₂, .ret 0) ∧
      (fs₂.store.db.getByPath path).stIno = fi.stIno ∧
      freshRead cfg fs₂.store path = .ok (window (fs₁.store.byteOf fi.stIno) 0 m) := by
  obtain ⟨fi₁, hcut₁, hatt, hino, hsize⟩ := hcut.again hdb h hord hstep
  have h₁ := hord.step h hstep
  have hord₁ : fs₁.Orderly cfg (cut.op m) := hcut₁.orderly_grow hatt (by omega)
  have hrun : truncate cfg fs₁.store fi₁ m = .ok (fs₁.store.setDb (fs₁.store.db.ftruncate fi₁ m).1,
      (fs₁.store.db.ftruncate fi₁ m).2.1, 0) := by
    unfold truncate
    rw [if_neg (by omega), if_pos (by omega)]
    dsimp only
    rw [ftruncate_nonneg]
  obtain ⟨fs₂, hstep₂, -⟩ := hcut₁.step_ok hrun
  have h₂ := hord₁.step h₁ hstep₂
  obtain ⟨row, -, hrow⟩ := hcut₁.size hord₁ hstep₂
  have hget : fs₂.store.db.getByPath row.path = FileRow.info { row with size := m } :=
    h₂.owned.files.getByPath_of_mem (KeyedTable.mem_of_find hrow)
  have hid : (fs₂.store.db.getByPath row.path).stIno = fi.stIno := by
    have hkey := KeyedTable.key_of_find hrow
    rw [hget, ← hino]
    exact hkey
  refine ⟨fs₂, row.path, hord₁, hstep₂, hid, ?_⟩
  have hlen : (fs₂.store.db.getByPath row.path).stSize = m := by
    rw [hget]
    rfl
  rw [freshRead_window h₂.coherent.1 hdb, hid, hlen]
  congr 1
  refine List.map_congr_left fun p hp => ?_
  have hlt : p < m := by
    have := (List.mem_range'_1.mp hp).2
    omega
  have hin : p / blockSize bits < ceilBlock bits m :=
    lt_ceil_iff.mpr (Nat.lt_of_le_of_lt (Nat.div_mul_le_self p _) hlt)
  rw [← hino, hcut₁.byteOf h₁ hord₁ hstep₂, if_pos hin]

end cuts

/-- **Cut-off bytes come back where the block is kept.**  After an orderly run, whatever orderly
requests follow a cut, a handle that is opened then reads zero at a position behind the new end
that is not written again, if and only if the position is in a block that starts behind the new
end, or its byte was zero before the cut. -/
theorem cut_zero_iff (cfg : Config bits H) (hdb : cfg.dbBlockSize ≤ blockSize bits) (ops : List Op)
    (fs fs₁ : Fs bits H) (outs : List Out) (out : Out) (cut : Truncation) (fi : FileInfo H)
    (n p : ℕ)
    (hok : Meets (Fs.step cfg) (Fs.Orderly cfg) (Fs.init bits H) ops)
    (hrun : run (Fs.step cfg) (Fs.init bits H) ops = .ok (fs, outs))
    (hcut : cut.WorksOn fs fi) (hord : fs.Orderly cfg (cut.op n))
    (hstep : fs.step cfg (cut.op n) = .ok (fs₁, out)) (hp : n ≤ p) :
    (∀ ops' fs₂ outs', Meets (Fs.step cfg)
        (fun fs op => fs.Orderly cfg op ∧ ¬fs.Writes fi.stIno p op) fs₁ ops' →
      run (Fs.step cfg) fs₁ ops' = .ok (fs₂, outs') →
      ∀ path, (fs₂.store.db.getByPath path).stIno = fi.stIno →
        ∃ bytes, freshRead cfg fs₂.store path = .ok bytes ∧ bytes.getD p 0 = 0) ↔
      (p / blockSize bits < ceilBlock bits n → fs.store.byteOf fi.stIno p = 0) := by
  have h : fs.Tidy cfg :=
    run_invariant (fun _ _ _ _ hfs hg hstep => hg.step hfs hstep) (Fs.init_tidy cfg) hok hrun
  have h₁ := hord.step h hstep
  have hbyte := hcut.byteOf h hord hstep p
  constructor
  · intro hall hkept
    rw [if_pos hkept] at hbyte
    obtain ⟨fs₂, path, hord₂, hstep₂, hino, hread⟩ :=
      hcut.grow hdb h hord hstep (by omega : n ≤ p + 1)
    have hmeets : Meets (Fs.step cfg) (fun fs op => fs.Orderly cfg op ∧ ¬fs.Writes fi.stIno p op)
        fs₁ [cut.op (p + 1)] :=
      ⟨⟨hord₂, fun hw => by cases cut <;> exact hw⟩, fun _ _ _ => trivial⟩
    obtain ⟨bytes, hbytes, hzero⟩ :=
      hall _ fs₂ [.ret 0] hmeets (run_cons_ok.mpr ⟨fs₂, _, [], hstep₂, rfl, rfl⟩) path hino
    cases hread.symm.trans hbytes
    rw [window_getD, if_pos (Nat.lt_succ_self p), Nat.zero_add, hbyte] at hzero
    exact hzero
  · intro hzero ops' fs₂ outs' hmeets hrun' path hino
    have hz : fs₁.store.byteOf fi.stIno p = 0 := by
      rw [hbyte]
      split
      · rename_i hkept
        exact hzero hkept
      · rfl
    obtain ⟨h₂, hz₂⟩ := Fs.run_zero hdb h₁ hmeets hrun' hz
    refine ⟨_, freshRead_window h₂.coherent.1 hdb path, ?_⟩
    rw [window_getD, hino, Nat.zero_add, hz₂, ite_self]

/-- A file with a zero behind its first byte. -/
def zeroBehind : Fs 1 (List UInt8) :=
  Fs.after (plainConfig 1) [.create ['/', 'f'] sIfreg, .write 0 [7, 0] 0]

/-- The zero is cut off by the path, while the handle stays open. -/
def zeroCut : Fs 1 (List UInt8) :=
  Fs.after (plainConfig 1) [.create ['/', 'f'] sIfreg, .write 0 [7, 0] 0, .truncate ['/', 'f'] 1]

/-- The zero in the block that is kept. -/
theorem cut_zero_iff_zero :
    (∀ ops' fs₂ outs', Meets (Fs.step (plainConfig 1))
        (fun fs op => fs.Orderly (plainConfig 1) op ∧ ¬fs.Writes 2 1 op) zeroCut ops' →
      run (Fs.step (plainConfig 1)) zeroCut ops' = .ok (fs₂, outs') →
      ∀ path, (fs₂.store.db.getByPath path).stIno = 2 →
        ∃ bytes, freshRead (plainConfig 1) fs₂.store path = .ok bytes ∧ bytes.getD 1 0 = 0) ↔
      (1 / blockSize 1 < ceilBlock 1 1 → zeroBehind.store.byteOf 2 1 = 0) := by
  have hreg : sIsdir sIfreg = false := by decide
  have hnew : ((Fs.after (plainConfig 1) [.create ['/', 'f'] sIfreg]).store.db.getByPath
      ['/', 'f']).stIno ≠ 0 := by decide
  have hino : (zeroBehind.store.db.getByPath ['/', 'f']).stIno ≠ 0 := by decide
  refine cut_zero_iff (plainConfig 1) (le_refl _)
    [.create ['/', 'f'] sIfreg, .write 0 [7, 0] 0] zeroBehind
    zeroCut [.opened 0, .ret 2] (.ret 0) (.byPath ['/', 'f']) _ 1 1 ?_ rfl ⟨rfl, hino, rfl⟩ ?_ rfl
    (le_refl 1)
  · refine .cons ⟨hreg, trivial, fun _ _ hr => (by cases hr), fun _ _ hr => (by cases hr)⟩ rfl
      ⟨⟨fun h => (by cases h), trivial, fun fi rs hr => ?_, fun fi rs hr => ?_⟩,
        fun _ _ _ => trivial⟩
    · cases hr
      exact .getByPath hnew
    · cases hr
      refine .cons ⟨trivial, trivial⟩ rfl ⟨⟨fun x hx b hb => ?_, fun x hx row hrow => ?_⟩,
        fun _ _ _ => trivial⟩
      · cases hb
      · cases hrow
  · refine ⟨trivial, trivial, fun fi rs hr => ?_, fun fi rs hr => ?_⟩
    · cases hr
      exact .getByPath hino
    · cases hr
      exact ⟨⟨trivial, trivial⟩, fun _ _ _ => trivial⟩

/-- **The bytes behind the end of the block come back**, whether the file grows by a truncation or
by a write behind them. -/
theorem cut_bytes_come_back :
    (¬∀ p m : ℕ, 1 ≤ p → p < m → ∃ bytes, freshRead (plainConfig 2) (Fs.after (plainConfig 2)
        [.create ['/', 'f'] sIfreg, .write 0 [7, 8, 9, 6] 0, .ftruncate 0 1,
          .ftruncate 0 m]).store ['/', 'f'] = .ok bytes ∧ bytes.getD p 0 = 0) ∧
    freshRead (plainConfig 2) (Fs.after (plainConfig 2) [.create ['/', 'f'] sIfreg,
      .write 0 [7, 8, 9, 6] 0, .ftruncate 0 1, .ftruncate 0 4]).store ['/', 'f'] =
        .ok [7, 8, 9, 6] ∧
    freshRead (plainConfig 2) (Fs.after (plainConfig 2) [.create ['/', 'f'] sIfreg,
      .write 0 [7, 8, 9, 6] 0, .ftruncate 0 1, .write 0 [5] 2]).store ['/', 'f'] =
        .ok [7, 8, 5] := by
  have hback : freshRead (plainConfig 2) (Fs.after (plainConfig 2) [.create ['/', 'f'] sIfreg,
      .write 0 [7, 8, 9, 6] 0, .ftruncate 0 1, .ftruncate 0 4]).store ['/', 'f'] =
        .ok [7, 8, 9, 6] := rfl
  refine ⟨fun hall => ?_, hback, rfl⟩
  obtain ⟨bytes, hbytes, hzero⟩ := hall 1 4 (by decide) (by decide)
  cases hback.symm.trans hbytes
  revert hzero
  decide

end Wwdedup
