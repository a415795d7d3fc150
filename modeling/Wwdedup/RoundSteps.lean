import Wwdedup.BlockSteps
import Wwdedup.Rounds

/-!
# What a round does

`Stepped` says once what each kind of round does to the store and to the `FileInfo`, in the
terms of `BlockSteps`; `roundStep_stepped` reads it off an executed round.  All invariants of
rounds are shown by cases on `Stepped`.
-/

namespace Wwdedup

open GuardedRun

variable {bits : ℕ} {H : Type} [DecidableEq H]

/-- The store after `truncate` has given up a block with the hash `g`. -/
def Store.released (s : Store bits H) (ino n : ℕ) (g : Option H) (storageBlockNum : ℕ) :
    Store bits H :=
  if storageBlockNum ≠ 0 then (s.setDb (s.db.released ino n g)).adjust storageBlockNum (-1)
  else s.setDb (s.db.released ino n g)

/-- The four kinds of rounds: a change of the size, a read of what the located block shows, a
write over what it shows when only a part is written, and a block given up. -/
inductive Stepped (cfg : Config bits H) (s : Store bits H) (fi : FileInfo H) :
    Round → Store bits H → FileInfo H → List UInt8 → Prop
  | resize (newSize : ℕ) :
      Stepped cfg s fi (.resize newSize) (s.setDb (s.db.ftruncate fi newSize).1)
        (s.db.ftruncate fi newSize).2.1 []
  | read (c : Chunk) {s₁ : Store bits H} (x : Block bits)
      (touched : (getLockedFileBlock cfg s fi c.block).store.Touches s₁)
      (shown : (getLockedFileBlock cfg s fi c.block).store.shown
        (getLockedFileBlock cfg s fi c.block).fblock.storageBlock = some x) :
      Stepped cfg s fi (.read c) s₁ (fi.setBlock (getLockedFileBlock cfg s fi c.block).fblock)
        (slice x c.startOffset c.len)
  | write (buf : List UInt8) (c : Chunk) {s₁ : Store bits H} (old : Block bits)
      (touched : (getLockedFileBlock cfg s fi c.block).store.Touches s₁)
      (shown : c.len < blockSize bits → (getLockedFileBlock cfg s fi c.block).store.shown
        (getLockedFileBlock cfg s fi c.block).fblock.storageBlock = some old)
      {r : Store bits H × BlockInfo H}
      (ran : writeBlock cfg s₁ fi.stIno (c.data buf old)
        (getLockedFileBlock cfg s fi c.block).fblock = r)
      (wrote : Wrote s₁ fi.stIno (c.data buf old) (cfg.murmur (c.data buf old))
        (getLockedFileBlock cfg s fi c.block).fblock r) :
      Stepped cfg s fi (.write buf c) r.1
        ((fi.setBlock (getLockedFileBlock cfg s fi c.block).fblock).setBlock r.2) []
  | release (n : ℕ) (g : Option H)
      (hash : (heldBlock cfg s.db fi n).hash = g.elim .empty .digest) :
      Stepped cfg s fi (.release n)
        (s.released fi.stIno n g (heldBlock cfg s.db fi n).storageBlockNum) (fi.dropBlock n) []

/-- **A round that succeeds does what its kind says.** -/
theorem roundStep_stepped {cfg : Config bits H} {s s' : Store bits H} {fi fi' : FileInfo H}
    {r : Round} {out : List UInt8} (h : roundStep cfg (s, fi) r = .ok ((s', fi'), out)) :
    Stepped cfg s fi r s' fi' out := by
  cases r with
  | resize newSize =>
    cases h
    exact .resize newSize
  | read c =>
    obtain ⟨⟨s₁, fi₁, bytes⟩, hc, heq⟩ := ok_of_map h
    cases heq
    obtain ⟨htouch, rfl, x, hx, rfl⟩ := readChunk_ok hc
    rw [(getLockedFileBlock_locates cfg s fi c.block).finfo_eq]
    exact .read c x htouch hx
  | write buf c =>
    obtain ⟨⟨s₁, fi₁⟩, hw, heq⟩ := ok_of_map h
    cases heq
    obtain ⟨l, s₁, old, rfl, htouch, hshown, rfl, rfl⟩ := writeBlockWrapper_ok hw
    rw [(getLockedFileBlock_locates cfg s fi c.block).finfo_eq]
    exact .write buf c old htouch hshown rfl (writeBlock_wrote cfg s₁ fi.stIno _ _)
  | release n =>
    obtain ⟨⟨s₁, fi₁⟩, hrel, heq⟩ := ok_of_map h
    cases heq
    obtain ⟨g, hhash, rfl, rfl⟩ := releaseBlock_ok hrel
    exact .release n g hhash

section released

variable (s : Store bits H) (ino n : ℕ) (g : Option H) (m : ℕ)

@[simp] theorem released_db : (s.released ino n g m).db = s.db.released ino n g := by
  unfold Store.released
  split
  · exact Store.adjust_db ..
  · rfl

@[simp] theorem storage_released : (s.released ino n g m).storage = s.storage := by
  unfold Store.released
  split
  · exact Store.adjust_storage ..
  · rfl

@[simp] theorem content_released (k : ℕ) : (s.released ino n g m).content k = s.content k := by
  unfold Store.released
  split
  · exact Store.content_adjust ..
  · rfl

@[simp] theorem stamp_released (k : ℕ) : (s.released ino n g m).stamp k = s.stamp k := by
  unfold Store.released
  split
  · exact Store.stamp_adjust ..
  · rfl

theorem cnt_released (k : ℕ) :
    (s.released ino n g m).cnt k = if m ≠ 0 ∧ k = m then (s.cnt k).map (· - 1) else s.cnt k := by
  unfold Store.released
  by_cases hm : m ≠ 0
  · rw [if_pos hm, Store.cnt_adjust, Store.cnt_setDb]
    simp only [hm, ne_eq, not_false_eq_true, true_and]
    rfl
  · rw [if_neg hm, if_neg fun h => hm h.1]
    rfl

@[simp] theorem files_released : (s.db.released ino n g).files = s.db.files := by
  cases g <;> rfl

@[simp] theorem rowHash_released (db : Db H) (k : ℕ) :
    (db.released ino n g).rowHash k = db.rowHash k := by
  cases g with
  | none => rfl
  | some g => exact Db.rowHash_decreaseUseCount ..

theorem fileHash_released (db : Db H) (f o : ℕ) :
    (db.released ino n g).fileHash f o =
      if (f, o) = (ino, n) then none else db.fileHash f o := by
  cases g with
  | none => exact Db.fileHash_deleteFileBlock ..
  | some g => exact Db.fileHash_deleteFileBlock ..

end released

section resized

variable (db : Db H) (fi : FileInfo H) (newSize : ℤ)

section

omit [DecidableEq H]

/-- A change of the size leaves all but the table `files` alone. -/
theorem ftruncate_files : ∃ files, (db.ftruncate fi newSize).1 = { db with files := files } := by
  unfold Db.ftruncate
  split
  · exact ⟨db.files, rfl⟩
  · split
    · exact ⟨db.files, rfl⟩
    · exact ⟨_, rfl⟩

@[simp] theorem rowHash_ftruncate (k : ℕ) :
    (db.ftruncate fi newSize).1.rowHash k = db.rowHash k := by
  obtain ⟨files, hf⟩ := ftruncate_files db fi newSize
  rw [hf]
  rfl

@[simp] theorem fileHash_ftruncate (f o : ℕ) :
    (db.ftruncate fi newSize).1.fileHash f o = db.fileHash f o := by
  obtain ⟨files, hf⟩ := ftruncate_files db fi newSize
  rw [hf]
  rfl

theorem blocks_ftruncate : (db.ftruncate fi newSize).2.1.blocks = fi.blocks := by
  unfold Db.ftruncate
  split
  · rfl
  · split <;> rfl

theorem stIno_ftruncate : (db.ftruncate fi newSize).2.1.stIno = fi.stIno := by
  unfold Db.ftruncate
  split
  · rfl
  · split <;> rfl

end

end resized

/-- A round works on one file. -/
theorem roundStep_stIno {cfg : Config bits H} {s s' : Store bits H} {fi fi' : FileInfo H}
    {r : Round} {out : List UInt8} (hr : roundStep cfg (s, fi) r = .ok ((s', fi'), out)) :
    fi'.stIno = fi.stIno := by
  cases roundStep_stepped hr with
  | resize newSize => exact stIno_ftruncate ..
  | read c x touched shown => rfl
  | write buf c old touched shown ran wrote => rfl
  | release n g hash => rfl

theorem run_stIno {cfg : Config bits H} {s s' : Store bits H} {fi fi' : FileInfo H}
    {rs : List Round} {os : List (List UInt8)}
    (hrun : run (roundStep cfg) (s, fi) rs = .ok ((s', fi'), os)) : fi'.stIno = fi.stIno := by
  refine run_invariant (G := fun _ _ => True) (I := fun p => p.2.stIno = fi.stIno) ?_ rfl
    (meets_of_forall (fun _ _ => trivial) _ _) hrun
  rintro ⟨s₁, fi₁⟩ r ⟨s₂, fi₂⟩ o h - hr
  exact (roundStep_stIno hr).trans h

end Wwdedup
