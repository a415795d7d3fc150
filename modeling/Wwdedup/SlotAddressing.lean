import Wwdedup.Coherence

/-!
# Where the storage file is written

The number 0 stands for no block, and the slot 0 holds the signature.  A `file_blocks` row whose
hash has no row puts a block with the number 0 into the cache; it stays empty and its use count
stays below 1 (`StorageBlock.Sound`), so that no write takes it for its own.  `Fs.pwrites` lists the
`pwrite`s of a step, and `step_storage` that nothing else changes the storage file.
-/

namespace Wwdedup

open GuardedRun

variable {bits : ℕ} {H : Type} [DecidableEq H]

/-! ### The writes of a pass -/

/-- The slot and the data of the `pwrite` for a block, when it is dirty. -/
def StorageBlock.flushed (b : StorageBlock bits H) : Option (ℕ × Block bits) :=
  if b.dirty then b.data.map fun data => (b.storageBlockNum, data) else none

/-- The `pwrite`s of a loop over the chosen blocks. -/
def Store.flushes (s : Store bits H) (p : StorageBlock bits H → Bool) : List (ℕ × Block bits) :=
  (s.blocks.rows.filter p).filterMap StorageBlock.flushed

def Storage.pwriteAll (st : Storage bits) (ws : List (ℕ × Block bits)) : Storage bits :=
  ws.foldl (fun st w => st.pwrite w.1 w.2) st

/-- The `pwrite`s of a step: those of the two loops of a pass, or of the last flush before the
store is unmounted. -/
def Fs.pwrites (fs : Fs bits H) : Op → List (ℕ × Block bits)
  | .writerPass victims =>
    fs.store.flushes (fun _ => true) ++
      (fs.store.flush fun _ => true).flushes fun b => b.storageBlockNum ∈ victims
  | .remount => fs.store.flushes fun _ => true
  | _ => []

omit [DecidableEq H] in
theorem foldl_writeOut (rows : List (StorageBlock bits H)) (st : Storage bits) :
    rows.foldl writeOut st = st.pwriteAll (rows.filterMap StorageBlock.flushed) := by
  induction rows generalizing st with
  | nil => rfl
  | cons b rows ih =>
    rw [List.foldl_cons, ih, List.filterMap_cons]
    unfold writeOut StorageBlock.flushed
    cases b.dirty with
    | false => rfl
    | true => cases b.data <;> rfl

omit [DecidableEq H] in
theorem flush_storage (s : Store bits H) (p : StorageBlock bits H → Bool) :
    (s.flush p).storage = s.storage.pwriteAll (s.flushes p) :=
  foldl_writeOut _ _

theorem pwriteAll_append (st : Storage bits) (ws ws' : List (ℕ × Block bits)) :
    st.pwriteAll (ws ++ ws') = (st.pwriteAll ws).pwriteAll ws' :=
  List.foldl_append

/-- A slot that is not written stays, and the file does not become shorter. -/
theorem pwriteAll_slot (st : Storage bits) {ws : List (ℕ × Block bits)} {n : ℕ}
    (h : ∀ w ∈ ws, w.1 ≠ n) :
    (st.pwriteAll ws).slot n = st.slot n ∧ st.size ≤ (st.pwriteAll ws).size := by
  induction ws generalizing st with
  | nil => exact ⟨rfl, le_refl _⟩
  | cons w ws ih =>
    have hlater : ∀ w' ∈ ws, w'.1 ≠ n := fun w' hw' => h w' (List.mem_cons_of_mem _ hw')
    obtain ⟨hslot, hle⟩ := ih (st.pwrite w.1 w.2) hlater
    have hne := h w (List.mem_cons_self ..)
    refine ⟨hslot.trans ?_, le_trans ?_ hle⟩
    · exact Function.update_of_ne (Ne.symm hne) w.2 st.slot
    · exact Nat.le_max_left st.size ((w.1 + 1) * blockSize bits)

/-! ### What changes the storage file -/

/-- Rounds leave the storage file. -/
theorem roundStep_storage {cfg : Config bits H} {s s' : Store bits H} {fi fi' : FileInfo H}
    {r : Round} {out : List UInt8} (hr : roundStep cfg (s, fi) r = .ok ((s', fi'), out)) :
    s'.storage = s.storage := by
  have hlocate := fun n => (getLockedFileBlock_locates cfg s fi n).storage_eq
  cases roundStep_stepped hr with
  | resize newSize => rfl
  | read c x touched shown => exact touched.same.storage.trans (hlocate c.block)
  | write buf c old touched shown ran wrote =>
    exact wrote.storage_eq.trans (touched.same.storage.trans (hlocate c.block))
  | release n g hash => exact storage_released ..

theorem run_storage {cfg : Config bits H} {s s' : Store bits H} {fi fi' : FileInfo H}
    {rs : List Round} {os : List (List UInt8)}
    (hrun : run (roundStep cfg) (s, fi) rs = .ok ((s', fi'), os)) : s'.storage = s.storage := by
  refine run_invariant (G := fun _ _ => True) (I := fun p => p.1.storage = s.storage) ?_ rfl
    (meets_of_forall (fun _ _ => trivial) _ _) hrun
  rintro ⟨s₁, fi₁⟩ r ⟨s₂, fi₂⟩ o h - hr
  exact (roundStep_storage hr).trans h

/-- **Only the writer thread writes to the storage file**, and only what `Fs.pwrites` lists. -/
theorem step_storage {cfg : Config bits H} {fs fs' : Fs bits H} {op : Op} {out : Out}
    (hstep : fs.step cfg op = .ok (fs', out)) :
    fs'.store.storage = fs.store.storage.pwriteAll (fs.pwrites op) := by
  have hquiet : (∀ victims, op ≠ .writerPass victims) → op ≠ .remount →
      fs'.store.storage = fs.store.storage := by
    intro hpass hremount
    cases Fs.step_moves hstep with
    | same => rfl
    | through fh acts opened rounds ran => exact run_storage ran
    | byPath path acts files rounds ran =>
      have hrun := run_storage ran
      exact hrun
    | files files => rfl
    | opens path files => rfl
    | closes fh => rfl
    | pass victims asked => exact absurd asked (hpass victims)
    | remount files asked => exact absurd asked hremount
    | clock now => rfl
  cases op with
  | writerPass victims =>
    cases hstep
    show ((fs.store.flush fun _ => true).flush _).storage = _
    rw [flush_storage, flush_storage, ← pwriteAll_append]
    rfl
  | remount =>
    obtain ⟨-, rfl, -⟩ := Fs.step_remount_ok hstep
    exact flush_storage ..
  | _ => exact hquiet (by rintro victims ⟨⟩) (by rintro ⟨⟩)

/-! ### What is written -/

omit [DecidableEq H] in
/-- A block that is written is that of a row, and it has data. -/
theorem Coherent.flushed {cfg : Config bits H} {s : Store bits H} (h : Coherent cfg s)
    (p : StorageBlock bits H → Bool) {w : ℕ × Block bits} (hw : w ∈ s.flushes p) :
    w.1 ≠ 0 ∧ ∃ row ∈ s.db.blockHashes.rows, row.id = w.1 := by
  obtain ⟨b, hb, hflushed⟩ := List.mem_filterMap.mp hw
  have hsound := h.sound _ b (KeyedTable.find_of_mem (List.mem_filter.mp hb).1)
  unfold StorageBlock.flushed at hflushed
  split at hflushed
  · obtain ⟨data, hdata, rfl⟩ := Option.map_eq_some_iff.mp hflushed
    have hne : b.storageBlockNum ≠ 0 := by
      intro hzero
      rw [(hsound.blank hzero).1] at hdata
      cases hdata
    obtain ⟨hash, hrow⟩ := Option.isSome_iff_exists.mp (hsound.known hne)
    obtain ⟨row, hfind, -⟩ := Option.map_eq_some_iff.mp hrow
    exact ⟨hne, row, KeyedTable.find_eq_some.mp hfind⟩
  · cases hflushed

omit [DecidableEq H] in
theorem Fs.Coherent.pwrites {cfg : Config bits H} {fs : Fs bits H} (h : fs.Coherent cfg) (op : Op)
    {w : ℕ × Block bits} (hw : w ∈ fs.pwrites op) :
    w.1 ≠ 0 ∧ ∃ row ∈ fs.store.db.blockHashes.rows, row.id = w.1 := by
  cases op with
  | writerPass victims =>
    rcases List.mem_append.mp hw with hw | hw
    · exact h.1.flushed _ hw
    · exact (h.1.flush fun _ => true).flushed _ hw
  | remount => exact h.1.flushed _ hw
  | _ => cases hw

/-- The slot of the signature is as the constructor of `BlocksCache` left it. -/
def Storage.Signed (st : Storage bits) : Prop := st.Has 0 ∧ st.slot 0 = signature bits

theorem Fs.reachable_signed {cfg : Config bits H} {fs : Fs bits H}
    (h : Reachable (Fs.step cfg) (Fs.init bits H) fs) : fs.store.storage.Signed := by
  suffices hboth : fs.Coherent cfg ∧ fs.store.storage.Signed from hboth.2
  refine reachable_invariant (I := fun fs => fs.Coherent cfg ∧ fs.store.storage.Signed)
    (fun fs op fs' out hboth hstep => ?_) ?_ h
  · obtain ⟨hco, hpos, hslot⟩ := hboth
    obtain ⟨hkept, hle⟩ := pwriteAll_slot fs.store.storage (n := 0) fun w hw =>
      (hco.pwrites op hw).1
    refine ⟨Fs.step_coherent hco hstep, ?_, ?_⟩
    · rw [step_storage hstep]
      exact le_trans hpos hle
    · rw [step_storage hstep, hkept, hslot]
  · refine ⟨Fs.init_coherent cfg, (Nat.one_mul _).le, ?_⟩
    change Function.update (fun _ => zeroBlock bits) 0 (signature bits) 0 = signature bits
    exact Function.update_self ..

/-! ### Bytes of the file -/

end Wwdedup
