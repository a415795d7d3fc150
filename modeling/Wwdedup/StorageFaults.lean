import Wwdedup.RoundSteps
import Wwdedup.WriterPass

/-!
# A storage file that fails

Every `read` and `pwrite` of the storage file transfers the whole block, a part of it or nothing.
`_populateStorageBlock` throws when it does not get the whole block, but the block keeps what it
got; the writer does not look at what `pwrite` returns.  `Saved` says what non-empty data and
`dirty` are taken for: clean data are those of the slot, and what was last written is in the
slot or still dirty.

A short `pwrite` at the end of the file leaves a slot that ends early; a read of such a slot does
not get the whole block, whatever it transfers.
-/

namespace Wwdedup

open GuardedRun

variable {bits : ℕ} {H : Type} [DecidableEq H]

/-- What a call on the storage file transfers. -/
inductive Outcome (bits : ℕ) where
  | full
  | short (k : Fin (blockSize bits))
  | error
  deriving DecidableEq

/-- The first bytes of a block, at least one, go to the slot; the file may end behind them. -/
def Storage.pwriteFirst (st : Storage bits) (n : ℕ) (data : Block bits) (k : Fin (blockSize bits)) :
    Storage bits where
  size := max st.size (n * blockSize bits + k.val)
  slot := Function.update st.slot n fun i => if i < k then data i else st.slot n i
  beyond m i h := by
    rw [Function.update_apply]
    split
    · rename_i hm
      rw [hm] at h
      have hi : ¬i < k := by
        rw [Fin.lt_def]
        omega
      show (if i < k then data i else st.slot n i) = 0
      rw [if_neg hi]
      exact st.beyond n i (by omega)
    · exact st.beyond m i (by omega)

/-- `pwrite` of a block that may transfer less. -/
def Outcome.pwrite (o : Outcome bits) (st : Storage bits) (n : ℕ) (data : Block bits) :
    Storage bits :=
  match o with
  | .full => st.pwrite n data
  | .short k => if k.val = 0 then st else st.pwriteFirst n data k
  | .error => st

/-- The buffer of zeros after the `read` of a slot, and whether it was filled.  A `read` that
transfers all it can still ends at the end of the file. -/
def Outcome.fetch (o : Outcome bits) (st : Storage bits) (n : ℕ) : Block bits × Bool :=
  match o with
  | .full => (st.slot n, (st.read n).isSome)
  | .short k => (fun i => if i < k then st.slot n i else 0, false)
  | .error => (zeroBlock bits, false)

/-- The `read` of the slot leaves its bytes in the buffer. -/
def Outcome.Delivers (o : Outcome bits) (st : Storage bits) (n : ℕ) : Prop :=
  st.read n = some (o.fetch st n).1

/-- The `pwrite` leaves the data in the slot. -/
def Outcome.Stores (o : Outcome bits) (st : Storage bits) (n : ℕ) (data : Block bits) : Prop :=
  (o.pwrite st n data).read n = some data

/-- A whole `read` of a slot of the file delivers it, a short one when the rest of the slot is
zero. -/
theorem Outcome.delivers_iff (o : Outcome bits) (st : Storage bits) (n : ℕ) :
    o.Delivers st n ↔ ∃ x, st.read n = some x ∧
      match o with
      | .full => True
      | .short k => ∀ i, ¬i < k → x i = 0
      | .error => x = zeroBlock bits := by
  unfold Outcome.Delivers Outcome.fetch Storage.read
  by_cases hhas : st.Has n
  · rw [if_pos hhas]
    cases o with
    | full => simp
    | short k =>
      simp only [Option.some.injEq, exists_eq_left']
      rw [funext_iff]
      refine forall_congr' fun i => ?_
      by_cases hi : i < k <;> simp [hi]
    | error => simp
  · rw [if_neg hhas]
    cases o <;> simp

/-- A whole `pwrite` stores the data. -/
theorem Outcome.stores_full (st : Storage bits) (n : ℕ) (data : Block bits) :
    (Outcome.full : Outcome bits).Stores st n data := Storage.read_pwrite_self ..

theorem Storage.Has.mono {st st' : Storage bits} {n : ℕ} (h : st.Has n)
    (hsize : st.size ≤ st'.size) : st'.Has n := le_trans h hsize

/-- A short `pwrite` stores the data when the file has all of the slot and the rest of it is that of
the data. -/
theorem Outcome.stores_short_iff (st : Storage bits) (n : ℕ) (data : Block bits)
    (k : Fin (blockSize bits)) :
    (Outcome.short k).Stores st n data ↔ st.Has n ∧ ∀ i, ¬i < k → st.slot n i = data i := by
  show (if k.val = 0 then st else st.pwriteFirst n data k).read n = some data ↔ _
  by_cases hk : k.val = 0
  · have hlt : ∀ i : Fin (blockSize bits), ¬i < k := fun i => by
      rw [Fin.lt_def]
      omega
    rw [if_pos hk, Storage.read]
    by_cases hhas : st.Has n
    · rw [if_pos hhas, Option.some.injEq, funext_iff]
      simp [hhas, hlt]
    · simp [hhas]
  · rw [if_neg hk, Storage.read]
    have hmul : (n + 1) * blockSize bits = n * blockSize bits + blockSize bits := Nat.succ_mul ..
    -- the call itself does not reach the end of the slot
    have hhas : (st.pwriteFirst n data k).Has n ↔ st.Has n := by
      show (n + 1) * blockSize bits ≤ max st.size (n * blockSize bits + k.val) ↔
        (n + 1) * blockSize bits ≤ st.size
      omega
    have hslot :
        (st.pwriteFirst n data k).slot n = fun i => if i < k then data i else st.slot n i :=
      Function.update_self ..
    by_cases hold : st.Has n
    · rw [if_pos (hhas.mpr hold), hslot, Option.some.injEq, funext_iff]
      refine ⟨fun h => ⟨hold, fun i hi => ?_⟩, fun h i => ?_⟩
      · have hi' := h i
        rwa [if_neg hi] at hi'
      · by_cases hi : i < k
        · rw [if_pos hi]
        · rw [if_neg hi]
          exact h.2 i hi
    · rw [if_neg fun h => hold (hhas.mp h)]
      simp [hold]

namespace Faulty

/-- `_populateStorageBlock`: the block as it leaves it, and whether it returns. -/
def populateStorageBlock (st : Storage bits) (o : Outcome bits) (b : StorageBlock bits H) :
    StorageBlock bits H × Bool :=
  if b.data.isSome ∨ b.storageBlockNum = 0 then (b, true)
  else
    let r := o.fetch st b.storageBlockNum
    ({ b with data := some r.1 }, r.2)

/-- What a read or a partial write takes from a block. -/
inductive Shown (bits : ℕ) where
  | zeros
  | bytes (n : ℕ) (x : Block bits)
  | threw

def Shown.block : Shown bits → Block bits
  | .bytes _ x => x
  | _ => zeroBlock bits

/-- The part of `readBuf` and `_writeBlockWrapper` under the lock of the storage block: it is
populated when its bytes are wanted. -/
def lockedBlock (s : Store bits H) (o : Outcome bits) (w : Option WeakPtr) (wanted : Bool) :
    Store bits H × Shown bits :=
  match s.lock w with
  | none => (s, .zeros)
  | some block =>
    let block := { block with atime := s.now }
    if block.storageBlockNum ≠ 0 ∧ wanted = true then
      let r := populateStorageBlock s.storage o block
      (s.put r.1,
        if r.2 then .bytes block.storageBlockNum (r.1.data.getD (zeroBlock bits)) else .threw)
    else (s.put block, .zeros)

/-- The store, and what was last written to each number. -/
structure State (bits : ℕ) (H : Type) where
  store : Store bits H
  written : ℕ → Option (Block bits)

/-- The round of `readBuf` for one block. -/
def readChunk (cfg : Config bits H) (o : Outcome bits) (s : Store bits H) (fi : FileInfo H)
    (c : Chunk) : Store bits H × Shown bits :=
  let r := getLockedFileBlock cfg s fi c.block
  lockedBlock r.store o r.fblock.storageBlock true

/-- `_writeBlockWrapper`. -/
def writeBlockWrapper (cfg : Config bits H) (o : Outcome bits) (s : State bits H)
    (fi : FileInfo H) (buf : List UInt8) (c : Chunk) : State bits H × Shown bits :=
  let r := getLockedFileBlock cfg s.store fi c.block
  let old := lockedBlock r.store o r.fblock.storageBlock (c.len < blockSize bits)
  match old.2 with
  | .threw => ({ s with store := old.1 }, .threw)
  | shown =>
    let data := c.data buf shown.block
    let hash := cfg.murmur data
    let m := commitBlock old.1 r.finfo.stIno hash r.fblock
    ({ store := (updateCache m.store m.fblock m.present data hash).1
       written := if m.present then s.written
        else Function.update s.written m.fblock.storageBlockNum (some data) }, shown)

/-- One `pwrite` of the writer's loop. -/
def writeOut (os : ℕ → Outcome bits) (st : Storage bits) (b : StorageBlock bits H) :
    Storage bits :=
  if b.dirty then
    (b.data.map ((os b.storageBlockNum).pwrite st b.storageBlockNum)).getD st
  else st

omit [DecidableEq H] in
theorem num_of_clean (b : StorageBlock bits H) :
    ({ b with dirty := false } : StorageBlock bits H).storageBlockNum = b.storageBlockNum := rfl

/-- The dirty blocks among the chosen ones are written, and marked clean in any case. -/
def flush (os : ℕ → Outcome bits) (s : Store bits H) (p : StorageBlock bits H → Bool) :
    Store bits H :=
  { s with
    storage := (s.blocks.rows.filter p).foldl (writeOut os) s.storage
    blocks := s.blocks.modify p (fun b => { b with dirty := false }) num_of_clean }

/-- One pass of `run`. -/
def writerPass (os : ℕ → Outcome bits) (s : Store bits H) (victims : List ℕ) : Store bits H :=
  ((flush os s fun _ => true) |> fun s => flush os s fun b => b.storageBlockNum ∈ victims).evict
    victims

/-- A call on the cache, with the outcomes of its calls on the storage file.  It may come
through any handle, so what it does to its handle is left out. -/
inductive Call (bits : ℕ) (H : Type) where
  | read (fi : FileInfo H) (c : Chunk) (o : Outcome bits)
  | write (fi : FileInfo H) (buf : List UInt8) (c : Chunk) (o : Outcome bits)
  | pass (os : ℕ → Outcome bits) (victims : List ℕ)

def step (cfg : Config bits H) (s : State bits H) :
    Call bits H → Except Fault (State bits H × Shown bits)
  | .read fi c o =>
    let r := readChunk cfg o s.store fi c
    .ok ({ s with store := r.1 }, r.2)
  | .write fi buf c o => .ok (writeBlockWrapper cfg o s fi buf c)
  | .pass os victims => .ok ({ s with store := writerPass os s.store victims }, .zeros)

/-- An empty cache over any tables and any storage file. -/
def State.start (db : Db H) (st : Storage bits) (nextUid now : ℕ) : State bits H where
  store := ⟨db, st, .empty, nextUid, now⟩
  written := fun _ => none

end Faulty

/-! ### Without failures -/

namespace Faulty

variable {cfg : Config bits H} {s s' : Store bits H} {fi fi' : FileInfo H}

omit [DecidableEq H] in
theorem populateStorageBlock_full {st : Storage bits} {b b' : StorageBlock bits H}
    (h : Wwdedup.populateStorageBlock st b = .ok b') :
    populateStorageBlock st .full b = (b', true) := by
  unfold Wwdedup.populateStorageBlock at h
  unfold populateStorageBlock
  by_cases hkeep : b.data.isSome ∨ b.storageBlockNum = 0
  · rw [if_pos hkeep] at h ⊢
    cases h
    rfl
  · rw [if_neg hkeep] at h ⊢
    cases hread : st.read b.storageBlockNum with
    | none =>
      rw [hread] at h
      cases h
    | some x =>
      rw [hread] at h
      cases h
      have hfetch : Outcome.full.fetch st b.storageBlockNum = (x, true) := by
        rw [Outcome.fetch, Storage.slot_of_read hread, hread]
        rfl
      rw [hfetch]

/-- A read whose calls transfer everything is that of the cache. -/
theorem readChunk_full {c : Chunk} {bytes : List UInt8}
    (h : Wwdedup.readChunk cfg s fi c = .ok (s', fi', bytes)) :
    (readChunk cfg .full s fi c).1 = s' ∧
      slice (readChunk cfg .full s fi c).2.block c.startOffset c.len = bytes := by
  unfold Wwdedup.readChunk readLocated at h
  unfold readChunk lockedBlock
  generalize getLockedFileBlock cfg s fi c.block = r at h ⊢
  dsimp only at h ⊢
  cases hl : r.store.lock r.fblock.storageBlock with
  | none =>
    rw [hl] at h
    cases h
    exact ⟨rfl, slice_zeroBlock ..⟩
  | some b =>
    rw [hl] at h
    dsimp only at h ⊢
    by_cases hzero : b.storageBlockNum = 0
    · rw [if_pos hzero] at h
      rw [if_neg (fun hne => hne.1 hzero)]
      cases h
      exact ⟨rfl, slice_zeroBlock ..⟩
    · rw [if_neg hzero] at h
      rw [if_pos ⟨hzero, rfl⟩]
      cases hp : Wwdedup.populateStorageBlock r.store.storage { b with atime := r.store.now } with
      | error e =>
        rw [hp] at h
        cases h
      | ok b' =>
        rw [hp] at h
        cases h
        rw [populateStorageBlock_full hp]
        exact ⟨rfl, rfl⟩

omit [DecidableEq H] in
theorem oldData_full {fb : BlockInfo H} {len : ℕ} {old : Block bits}
    (h : oldData s fb len = .ok (s', old)) :
    ∃ shown, lockedBlock s .full fb.storageBlock (len < blockSize bits) = (s', shown) ∧
      shown ≠ .threw ∧ shown.block = old := by
  unfold oldData at h
  unfold lockedBlock
  cases hl : s.lock fb.storageBlock with
  | none =>
    rw [hl] at h
    cases h
    exact ⟨.zeros, rfl, fun h => (by cases h), rfl⟩
  | some b =>
    rw [hl] at h
    dsimp only at h ⊢
    simp only [decide_eq_true_eq]
    by_cases hpart : b.storageBlockNum ≠ 0 ∧ len < blockSize bits
    · rw [if_pos hpart] at h ⊢
      cases hp : Wwdedup.populateStorageBlock s.storage { b with atime := s.now } with
      | error e =>
        rw [hp] at h
        cases h
      | ok b' =>
        rw [hp] at h
        cases h
        rw [populateStorageBlock_full hp]
        exact ⟨.bytes _ _, rfl, fun h => (by cases h), rfl⟩
    · rw [if_neg hpart] at h ⊢
      cases h
      exact ⟨.zeros, rfl, fun h => (by cases h), rfl⟩

/-- So is a write. -/
theorem writeBlockWrapper_full {t : State bits H} {buf : List UInt8} {c : Chunk}
    (h : Wwdedup.writeBlockWrapper cfg t.store fi buf c = .ok (s', fi')) :
    (writeBlockWrapper cfg .full t fi buf c).1.store = s' := by
  unfold Wwdedup.writeBlockWrapper at h
  unfold writeBlockWrapper
  generalize getLockedFileBlock cfg t.store fi c.block = r at h ⊢
  dsimp only at h ⊢
  cases hold : oldData r.store r.fblock c.len with
  | error e =>
    rw [hold] at h
    cases h
  | ok q =>
    obtain ⟨s₁, old⟩ := q
    rw [hold] at h
    obtain ⟨shown, hlocked, hshown, rfl⟩ := oldData_full hold
    rw [hlocked]
    cases h
    cases shown with
    | threw => exact absurd rfl hshown
    | zeros => rfl
    | bytes n x => rfl

omit [DecidableEq H] in
/-- And so is a pass of the writer. -/
theorem writerPass_full (s : Store bits H) (victims : List ℕ) :
    writerPass (fun _ => .full) s victims = s.writerPass victims := by
  have hwrite : writeOut (fun _ => .full) = (Wwdedup.writeOut : Storage bits → StorageBlock bits H →
      Storage bits) := rfl
  unfold writerPass flush
  rw [hwrite]
  rfl

end Faulty

/-! ### What the flags are taken for -/

/-- What the cache has for a number: whether it is dirty, and its data. -/
def Store.held (s : Store bits H) (n : ℕ) : Option (Bool × Option (Block bits)) :=
  (s.blocks.find n).map fun b => (b.dirty, b.data)

omit [DecidableEq H] in
theorem Store.held_of_find {s : Store bits H} {n : ℕ} {b : StorageBlock bits H}
    (h : s.blocks.find n = some b) : s.held n = some (b.dirty, b.data) := by
  rw [held, h]
  rfl

omit [DecidableEq H] in
theorem Store.held_put (s : Store bits H) (b : StorageBlock bits H) (k : ℕ) :
    (s.put b).held k = if k = b.storageBlockNum then some (b.dirty, b.data) else s.held k := by
  rw [held, find_put]
  split <;> rfl

namespace Faulty

/-- **Clean data are those of the slot**, and what was last written to a number is dirty in the
cache or in its slot, so that a number that is not cached has it in its slot. -/
structure Saved (s : State bits H) : Prop where
  clean : ∀ n x, n ≠ 0 → s.store.held n = some (false, some x) → s.store.storage.read n = some x
  kept : ∀ n x, s.written n = some x →
    s.store.held n = some (true, some x) ∨ s.store.storage.read n = some x

/-- What is dirty is what was written last. -/
structure Inv (s : State bits H) : Prop extends Saved s where
  known : ∀ n x, s.store.held n = some (true, some x) → s.written n = some x
  full : ∀ n, s.store.held n ≠ some (true, none)

/-- The storage file is the same, and what is new in the cache is clean and has no data. -/
structure Quiet (s s' : Store bits H) : Prop where
  storage : s'.storage = s.storage
  held : ∀ n, s'.held n = s.held n ∨ s.held n = none ∧ s'.held n = some (false, none)

section quiet

variable {s s' s'' : Store bits H}

section

omit [DecidableEq H]

theorem Quiet.refl (s : Store bits H) : Quiet s s := ⟨rfl, fun _ => .inl rfl⟩

/-- An object that is put back with its data and its flag. -/
theorem quiet_put {b b' : StorageBlock bits H} (hfind : s.blocks.find b.storageBlockNum = some b)
    (hnum : b'.storageBlockNum = b.storageBlockNum) (hdirty : b'.dirty = b.dirty)
    (hdata : b'.data = b.data) : Quiet s (s.put b') := by
  refine ⟨rfl, fun n => .inl ?_⟩
  rw [Store.held_put, hnum, hdirty, hdata]
  split
  · rename_i hn
    rw [hn, Store.held_of_find hfind]
  · rfl

theorem quiet_adjust (s : Store bits H) (n : ℕ) (d : ℤ) : Quiet s (s.adjust n d) := by
  unfold Store.adjust
  cases h : s.blocks.find n with
  | none => exact .refl s
  | some b =>
    obtain rfl : b.storageBlockNum = n := KeyedTable.key_of_find h
    exact quiet_put h rfl rfl rfl

end

theorem quiet_locate (cfg : Config bits H) (s : Store bits H) (fi : FileInfo H) (n : ℕ) :
    Quiet s (getLockedFileBlock cfg s fi n).store := by
  have h := getLockedFileBlock_locates cfg s fi n
  generalize (fileBlock cfg s fi n).1 = item at h
  generalize (fileBlock cfg s fi n).2 = useCount at h
  generalize getLockedFileBlock cfg s fi n = l at h ⊢
  cases h with
  | kept => exact .refl s
  | reloaded =>
    unfold ensureLoaded
    cases h : s.blocks.find item.storageBlockNum with
    | some b => exact ⟨rfl, fun _ => .inl rfl⟩
    | none =>
      refine ⟨rfl, fun k => ?_⟩
      rw [Store.held_put]
      split
      · rename_i hk
        have hk : k = item.storageBlockNum := hk
        right
        rw [hk, Store.held, h]
        exact ⟨rfl, rfl⟩
      · exact .inl rfl

theorem quiet_commit (s : Store bits H) (ino : ℕ) (hash : H) (fb : BlockInfo H) :
    Quiet s (commitBlock s ino hash fb).store := by
  have hrelease : Quiet s (s.releaseLocked fb.storageBlock) := by
    rw [Store.releaseLocked_eq]
    cases s.lock fb.storageBlock with
    | none => exact .refl s
    | some b => exact quiet_adjust ..
  have h := commitBlock_commits s ino hash fb
  generalize commitBlock s ino hash fb = m at h ⊢
  cases h with
  | hit => exact ⟨hrelease.storage, hrelease.held⟩
  | inPlace b locked =>
    have hput := @quiet_put _ _ _ b b (Store.find_of_lock locked) rfl rfl rfl
    exact ⟨hput.storage, hput.held⟩
  | fresh => exact ⟨hrelease.storage, hrelease.held⟩

omit [DecidableEq H] in
theorem Inv.quiet {w : ℕ → Option (Block bits)} (h : Inv ⟨s, w⟩) (hq : Quiet s s') :
    Inv ⟨s', w⟩ := by
  refine ⟨⟨fun n x hn hx => ?_, fun n x hx => ?_⟩, fun n x hx => ?_, fun n hx => ?_⟩
  · show s'.storage.read n = some x
    rw [hq.storage]
    rcases hq.held n with heq | ⟨-, hnew⟩
    · exact h.clean n x hn (heq ▸ hx)
    · have hx : s'.held n = some (false, some x) := hx
      rw [hnew] at hx
      cases hx
  · show s'.held n = some (true, some x) ∨ s'.storage.read n = some x
    rw [hq.storage]
    rcases h.kept n x hx with hheld | hread
    · have hheld : s.held n = some (true, some x) := hheld
      rcases hq.held n with heq | ⟨hnone, -⟩
      · exact .inl (heq.trans hheld)
      · rw [hnone] at hheld
        cases hheld
    · exact .inr hread
  · have hx : s'.held n = some (true, some x) := hx
    rcases hq.held n with heq | ⟨-, hnew⟩
    · exact h.known n x (heq.symm.trans hx)
    · rw [hnew] at hx
      cases hx
  · have hx : s'.held n = some (true, none) := hx
    rcases hq.held n with heq | ⟨-, hnew⟩
    · exact h.full n (heq.symm.trans hx)
    · rw [hnew] at hx
      cases hx

end quiet

/-! ### Reads -/

/-- When the pointer leads to a block that has to be read, the call delivers its bytes. -/
def ReadsSlot (s : Store bits H) (o : Outcome bits) (w : Option WeakPtr) (wanted : Bool) : Prop :=
  ∀ b, s.lock w = some b → b.storageBlockNum ≠ 0 → wanted = true → b.data = none →
    o.Delivers s.storage b.storageBlockNum

section locked

variable {s : Store bits H} {o : Outcome bits} {w : Option WeakPtr} {wanted : Bool}
  {written : ℕ → Option (Block bits)}

/-- A block that is shown has the bytes of its slot, or those that were written last. -/
def Shown.Honest (s : State bits H) (shown : Shown bits) : Prop :=
  ∀ n x, shown = .bytes n x → s.store.storage.read n = some x ∨ s.written n = some x

section

omit [DecidableEq H]

theorem populateStorageBlock_cases (st : Storage bits) (o : Outcome bits)
    (b : StorageBlock bits H) :
    (b.data.isSome ∨ b.storageBlockNum = 0) ∧ populateStorageBlock st o b = (b, true) ∨
      b.data = none ∧ populateStorageBlock st o b =
        ({ b with data := some (o.fetch st b.storageBlockNum).1 },
          (o.fetch st b.storageBlockNum).2) := by
  unfold populateStorageBlock
  by_cases h : b.data.isSome ∨ b.storageBlockNum = 0
  · rw [if_pos h]
    exact .inl ⟨h, rfl⟩
  · rw [if_neg h]
    exact .inr ⟨Option.not_isSome_iff_eq_none.mp fun hdata => h (.inl hdata), rfl⟩

/-- An empty block is filled with the bytes of its slot. -/
theorem Inv.fill (h : Inv ⟨s, written⟩) {b : StorageBlock bits H} {now : ℕ} {x : Block bits}
    (hfind : s.blocks.find b.storageBlockNum = some b) (hdata : b.data = none)
    (hread : s.storage.read b.storageBlockNum = some x) :
    Inv ⟨s.put { b with atime := now, data := some x }, written⟩ := by
  have hheld := Store.held_of_find hfind
  rw [hdata] at hheld
  have hclean : b.dirty = false := by
    by_contra hdirty
    rw [Bool.not_eq_false] at hdirty
    exact h.full _ (hdirty ▸ hheld)
  have hput : ∀ k, (s.put { b with atime := now, data := some x }).held k =
      if k = b.storageBlockNum then some (false, some x) else s.held k := by
    intro k
    rw [Store.held_put]
    exact if_congr Iff.rfl (by rw [hclean]) rfl
  refine ⟨⟨fun n y hn hy => ?_, fun n y hy => ?_⟩, fun n y hy => ?_, fun n hy => ?_⟩
  · have hy : (s.put _).held n = some (false, some y) := hy
    rw [hput] at hy
    split at hy
    · rename_i heq
      cases hy
      rw [heq]
      exact hread
    · exact h.clean n y hn hy
  · show (s.put _).held n = some (true, some y) ∨ s.storage.read n = some y
    rw [hput]
    rcases h.kept n y hy with hdirty | hslot
    · have hdirty : s.held n = some (true, some y) := hdirty
      rw [if_neg]
      · exact .inl hdirty
      · rintro rfl
        rw [hheld, hclean] at hdirty
        cases hdirty
    · exact .inr hslot
  · have hy : (s.put _).held n = some (true, some y) := hy
    rw [hput] at hy
    split at hy
    · cases hy
    · exact h.known n y hy
  · have hy : (s.put _).held n = some (true, none) := hy
    rw [hput] at hy
    split at hy
    · cases hy
    · exact h.full n hy

/-- What a cached block has is in its slot or was written last. -/
theorem Inv.data_honest (h : Inv ⟨s, written⟩) {b : StorageBlock bits H} {x : Block bits}
    (hfind : s.blocks.find b.storageBlockNum = some b) (hnum : b.storageBlockNum ≠ 0)
    (hdata : b.data = some x) :
    s.storage.read b.storageBlockNum = some x ∨ written b.storageBlockNum = some x := by
  have hheld := Store.held_of_find hfind
  rw [hdata] at hheld
  cases hdirty : b.dirty with
  | true => exact .inr (h.known _ _ (hdirty ▸ hheld))
  | false => exact .inl (h.clean _ _ hnum (hdirty ▸ hheld))

theorem lockedBlock_inv (h : Inv ⟨s, written⟩) (hread : ReadsSlot s o w wanted) :
    Inv ⟨(lockedBlock s o w wanted).1, written⟩ ∧
      (lockedBlock s o w wanted).2.Honest ⟨s, written⟩ := by
  unfold lockedBlock
  cases hl : s.lock w with
  | none =>
    refine ⟨h, fun n x hx => ?_⟩
    cases hx
  | some b =>
    have hfind := Store.find_of_lock hl
    dsimp only
    by_cases hwant : b.storageBlockNum ≠ 0 ∧ wanted = true
    · rw [if_pos hwant]
      rcases populateStorageBlock_cases s.storage o { b with atime := s.now } with
        ⟨hkeep, hpop⟩ | ⟨hdata, hpop⟩
      · -- the block has data
        obtain ⟨x, hx⟩ := Option.isSome_iff_exists.mp (hkeep.resolve_right hwant.1)
        rw [hpop]
        refine ⟨h.quiet (quiet_put hfind rfl rfl rfl), ?_⟩
        rintro n y hy
        cases hy
        have hhonest := h.data_honest hfind hwant.1 hx
        show s.storage.read _ = some (b.data.getD _) ∨ written _ = some (b.data.getD _)
        rw [show b.data = some x from hx]
        exact hhonest
      · -- it gets them from its slot
        have hslot : s.storage.read b.storageBlockNum = _ := hread b hl hwant.1 hwant.2 hdata
        rw [hpop]
        refine ⟨h.fill (b := b) hfind hdata hslot, ?_⟩
        rintro n y hy
        dsimp only at hy
        split at hy
        · cases hy
          exact .inl hslot
        · cases hy
    · rw [if_neg hwant]
      refine ⟨h.quiet (quiet_put hfind rfl rfl rfl), fun n x hx => ?_⟩
      cases hx

end

end locked

/-! ### Writes -/

section writes

variable {cfg : Config bits H} {s : State bits H} {fi : FileInfo H} {o : Outcome bits}

omit [DecidableEq H] in
theorem Inv.place {t : Store bits H} {written : ℕ → Option (Block bits)} (h : Inv ⟨t, written⟩)
    (n : ℕ) (data : Block bits) (hash : H) :
    Inv ⟨t.place n data hash, Function.update written n (some data)⟩ := by
  have hplace : ∀ k, (t.place n data hash).held k =
      if k = n then some (true, some data) else t.held k := by
    intro k
    rw [Store.held, find_place]
    split <;> rfl
  refine ⟨⟨fun k x hk hx => ?_, fun k x hx => ?_⟩, fun k x hx => ?_, fun k hx => ?_⟩
  · have hx : (t.place n data hash).held k = some (false, some x) := hx
    rw [hplace] at hx
    split at hx
    · cases hx
    · exact h.clean k x hk hx
  · have hx : Function.update written n (some data) k = some x := hx
    show (t.place n data hash).held k = some (true, some x) ∨ t.storage.read k = some x
    rw [hplace]
    by_cases hk : k = n
    · rw [hk, Function.update_self] at hx
      rw [if_pos hk, Option.some.inj hx]
      exact .inl rfl
    · rw [Function.update_of_ne hk] at hx
      rw [if_neg hk]
      exact h.kept k x hx
  · have hx : (t.place n data hash).held k = some (true, some x) := hx
    show Function.update written n (some data) k = some x
    rw [hplace] at hx
    split at hx
    · rename_i hk
      cases hx
      rw [hk, Function.update_self]
    · rename_i hk
      rw [Function.update_of_ne hk]
      exact h.known k x hx
  · have hx : (t.place n data hash).held k = some (true, none) := hx
    rw [hplace] at hx
    split at hx
    · cases hx
    · exact h.full k hx

/-- `_writeBlock` raises a count, or makes the new data dirty. -/
theorem Inv.writeBlock {t : Store bits H} {written : ℕ → Option (Block bits)}
    (h : Inv ⟨t, written⟩) (ino : ℕ) (hash : H) (fb : BlockInfo H) (data : Block bits) :
    Inv ⟨(updateCache (commitBlock t ino hash fb).store (commitBlock t ino hash fb).fblock
        (commitBlock t ino hash fb).present data hash).1,
      if (commitBlock t ino hash fb).present then written
      else Function.update written (commitBlock t ino hash fb).fblock.storageBlockNum
        (some data)⟩ := by
  have hcommit := h.quiet (quiet_commit t ino hash fb)
  generalize commitBlock t ino hash fb = m at hcommit ⊢
  cases m.present with
  | true =>
    rw [updateCache_hit, if_pos rfl]
    exact hcommit.quiet (quiet_adjust ..)
  | false =>
    rw [updateCache_new, if_neg Bool.false_ne_true]
    exact hcommit.place ..

theorem writeBlockWrapper_inv {buf : List UInt8} {c : Chunk} (h : Inv s)
    (hread : ReadsSlot (getLockedFileBlock cfg s.store fi c.block).store o
      (getLockedFileBlock cfg s.store fi c.block).fblock.storageBlock
      (c.len < blockSize bits)) :
    Inv (writeBlockWrapper cfg o s fi buf c).1 ∧
      (writeBlockWrapper cfg o s fi buf c).2.Honest s := by
  have hlocate := quiet_locate cfg s.store fi c.block
  unfold writeBlockWrapper
  generalize getLockedFileBlock cfg s.store fi c.block = r at hread hlocate ⊢
  obtain ⟨hinv, hhonest⟩ := lockedBlock_inv (h.quiet hlocate) hread
  dsimp only
  generalize lockedBlock r.store o r.fblock.storageBlock (c.len < blockSize bits) = old
    at hinv hhonest ⊢
  obtain ⟨t, shown⟩ := old
  have hshown : shown.Honest s := by
    intro n x hx
    rcases hhonest n x hx with hslot | hwritten
    · exact .inl (hlocate.storage ▸ hslot)
    · exact .inr hwritten
  cases shown with
  | threw => exact ⟨hinv, hshown⟩
  | zeros => exact ⟨hinv.writeBlock .., hshown⟩
  | bytes n x => exact ⟨hinv.writeBlock .., hshown⟩

end writes

/-! ### Passes of the writer -/

section passes

variable {os : ℕ → Outcome bits} {st : Storage bits} {n m : ℕ} {x data : Block bits}

theorem size_pwrite (o : Outcome bits) : st.size ≤ (o.pwrite st m data).size := by
  cases o with
  | full => exact Nat.le_max_left ..
  | short k =>
    show st.size ≤ (if k.val = 0 then st else st.pwriteFirst m data k).size
    split
    · exact Nat.le_refl _
    · exact Nat.le_max_left ..
  | error => exact Nat.le_refl _

theorem slot_pwrite_of_ne (o : Outcome bits) (hne : n ≠ m) :
    (o.pwrite st m data).slot n = st.slot n := by
  cases o with
  | full => exact Function.update_of_ne hne ..
  | short k =>
    show (if k.val = 0 then st else st.pwriteFirst m data k).slot n = st.slot n
    split
    · rfl
    · exact Function.update_of_ne hne ..
  | error => rfl

theorem read_pwrite_of_ne (o : Outcome bits) (h : st.read n = some x) (hne : n ≠ m) :
    (o.pwrite st m data).read n = some x := by
  have hhas : (o.pwrite st m data).Has n := (Storage.has_of_read h).mono (size_pwrite o)
  rw [Storage.read, if_pos hhas, slot_pwrite_of_ne o hne, Storage.slot_of_read h]

/-- Calls on other slots do not matter. -/
theorem stores_of_ne {o o' : Outcome bits} (h : o.Stores st n x) (hne : n ≠ m) :
    o.Stores (o'.pwrite st m data) n x := by
  cases o with
  | full => exact Storage.read_pwrite_self ..
  | short k =>
    rw [Outcome.stores_short_iff] at h ⊢
    rw [slot_pwrite_of_ne o' hne]
    exact ⟨h.1.mono (size_pwrite o'), h.2⟩
  | error => exact read_pwrite_of_ne o' h hne

section

omit [DecidableEq H]

/-- A slot is kept by the `pwrite` of a block with another number, or of a clean one. -/
theorem writeOut_keeps {b : StorageBlock bits H} (hread : st.read n = some x)
    (hb : b.storageBlockNum = n → b.dirty = false) : (writeOut os st b).read n = some x := by
  unfold writeOut
  split
  · rename_i hdirty
    cases b.data with
    | none => exact hread
    | some d =>
      refine read_pwrite_of_ne _ hread fun hn => ?_
      rw [hb hn.symm] at hdirty
      cases hdirty
  · exact hread

theorem foldl_writeOut_keeps {rows : List (StorageBlock bits H)} (hread : st.read n = some x)
    (hrows : ∀ b ∈ rows, b.storageBlockNum = n → b.dirty = false) :
    (rows.foldl (writeOut os) st).read n = some x := by
  induction rows generalizing st with
  | nil => exact hread
  | cons b rows ih =>
    exact ih (writeOut_keeps hread (hrows b (List.mem_cons_self ..)))
      fun b' hb' => hrows b' (List.mem_cons_of_mem _ hb')

/-- A dirty block of the list is in its slot afterwards. -/
theorem foldl_writeOut_stores {rows : List (StorageBlock bits H)} {b : StorageBlock bits H}
    (hnodup : (rows.map StorageBlock.storageBlockNum).Nodup) (hb : b ∈ rows)
    (hdirty : b.dirty = true) (hdata : b.data = some x)
    (hstores : (os b.storageBlockNum).Stores st b.storageBlockNum x) :
    (rows.foldl (writeOut os) st).read b.storageBlockNum = some x := by
  induction rows generalizing st with
  | nil => cases hb
  | cons a rows ih =>
    rw [List.map_cons, List.nodup_cons] at hnodup
    rw [List.foldl_cons]
    rcases List.mem_cons.mp hb with rfl | hb
    · refine foldl_writeOut_keeps ?_ fun b' hb' hnum => ?_
      · rw [writeOut, if_pos hdirty, hdata]
        exact hstores
      · exact absurd (hnum ▸ List.mem_map_of_mem hb') hnodup.1
    · refine ih hnodup.2 hb ?_
      have hne : b.storageBlockNum ≠ a.storageBlockNum := fun heq =>
        hnodup.1 (heq ▸ List.mem_map_of_mem hb)
      unfold writeOut
      split
      · cases a.data with
        | none => exact hstores
        | some d => exact stores_of_ne hstores hne
      · exact hstores

end

variable {s : Store bits H} {written : ℕ → Option (Block bits)}

omit [DecidableEq H] in
theorem held_flush (p : StorageBlock bits H → Bool) (k : ℕ) :
    (flush os s p).held k =
      (s.blocks.find k).map fun b => (if p b then false else b.dirty, b.data) := by
  have hfind : (flush os s p).blocks.find k =
      (s.blocks.find k).map fun b => if p b then { b with dirty := false } else b :=
    KeyedTable.find_modify s.blocks p (fun b => { b with dirty := false }) (fun _ => rfl) k
  rw [Store.held, hfind, Option.map_map]
  congr 1
  funext b
  rw [Function.comp_apply]
  split <;> rfl

/-- The `pwrite` of every dirty block leaves its data in its slot. -/
def WritesSlots (os : ℕ → Outcome bits) (s : Store bits H) : Prop :=
  ∀ n x, s.held n = some (true, some x) → (os n).Stores s.storage n x

section

omit [DecidableEq H]

/-- What is in the cache after a flush. -/
theorem of_held_flush {p : StorageBlock bits H → Bool} {k : ℕ} {d : Bool}
    {y : Option (Block bits)} (h : (flush os s p).held k = some (d, y)) :
    ∃ b, s.blocks.find k = some b ∧ b.data = y ∧
      (p b = true ∧ d = false ∨ p b = false ∧ b.dirty = d) := by
  rw [held_flush] at h
  obtain ⟨b, hfind, hb⟩ := Option.map_eq_some_iff.mp h
  rw [Prod.mk.injEq] at hb
  refine ⟨b, hfind, hb.2, ?_⟩
  cases hp : p b with
  | true => exact .inl ⟨rfl, by simpa [hp] using hb.1.symm⟩
  | false => exact .inr ⟨rfl, by simpa [hp] using hb.1⟩

/-- The slots after a flush: a dirty block is in its slot, and a slot without one is kept. -/
theorem flush_read (hwrites : WritesSlots os s) (p : StorageBlock bits H → Bool)
    (hfull : ∀ n, s.held n ≠ some (true, none)) (hread : s.storage.read n = some x ∨
      s.held n = some (true, some x)) (hheld : ∀ y, s.held n = some (true, some y) → y = x)
    (hp : s.storage.read n = some x ∨ ∀ b, s.blocks.find n = some b → p b = true) :
    (flush os s p).storage.read n = some x := by
  by_cases hdirty : ∃ b, s.blocks.find n = some b ∧ p b = true ∧ b.dirty = true
  · obtain ⟨b, hfind, hpb, hdirty⟩ := hdirty
    have hb := Store.held_of_find hfind
    rw [hdirty] at hb
    cases hdata : b.data with
    | none => exact absurd (hdata ▸ hb) (hfull n)
    | some y =>
      rw [hdata] at hb
      obtain ⟨hrow, rfl⟩ := KeyedTable.find_eq_some.mp hfind
      have hnodup : ((s.blocks.rows.filter p).map StorageBlock.storageBlockNum).Nodup :=
        s.blocks.nodup.sublist (List.filter_sublist.map _)
      rw [← hheld y hb]
      exact foldl_writeOut_stores hnodup (List.mem_filter.mpr ⟨hrow, hpb⟩) hdirty hdata
        (hwrites _ y hb)
  · have hslot : s.storage.read n = some x := by
      rcases hread with hslot | hb
      · exact hslot
      · obtain ⟨b, hfind, heq⟩ := Option.map_eq_some_iff.mp hb
        rw [Prod.mk.injEq] at heq
        exact hp.resolve_right fun hall => hdirty ⟨b, hfind, hall b hfind, heq.1⟩
    refine foldl_writeOut_keeps hslot fun b hb hnum => ?_
    obtain ⟨hrow, hpb⟩ := List.mem_filter.mp hb
    by_contra hd
    exact hdirty ⟨b, hnum ▸ KeyedTable.find_of_mem hrow, hpb, by simpa using hd⟩

theorem Inv.flush (h : Inv ⟨s, written⟩) (hwrites : WritesSlots os s)
    (p : StorageBlock bits H → Bool) : Inv ⟨flush os s p, written⟩ := by
  refine ⟨⟨fun n x hn hx => ?_, fun n x hx => ?_⟩, fun n x hx => ?_, fun n hx => ?_⟩
  · obtain ⟨b, hfind, hdata, hcase⟩ := of_held_flush hx
    have hb := Store.held_of_find hfind
    rw [hdata] at hb
    have hsame : ∀ y, s.held n = some (true, some y) → y = x := by
      intro y hy
      rw [hb] at hy
      simpa using (congrArg Prod.snd (Option.some.inj hy)).symm
    cases hdirty : b.dirty with
    | true =>
      rw [hdirty] at hb hcase
      refine flush_read hwrites p h.full (.inr hb) hsame (.inr fun b' hb' => ?_)
      rw [hfind] at hb'
      rcases hcase with ⟨hp, -⟩ | ⟨-, htrue⟩
      · exact Option.some.inj hb' ▸ hp
      · cases htrue
    | false =>
      have hslot := h.clean n x hn (hdirty ▸ hb)
      exact flush_read hwrites p h.full (.inl hslot) hsame (.inl hslot)
  · have hsame : ∀ y, s.held n = some (true, some y) → y = x := fun y hy =>
      Option.some.inj ((h.known n y hy).symm.trans hx)
    rcases h.kept n x hx with hb | hslot
    · obtain ⟨b, hfind, heq⟩ := Option.map_eq_some_iff.mp hb
      rw [Prod.mk.injEq] at heq
      cases hp : p b with
      | true =>
        refine .inr (flush_read hwrites p h.full (.inr hb) hsame (.inr fun b' hb' => ?_))
        rw [hfind] at hb'
        exact Option.some.inj hb' ▸ hp
      | false =>
        left
        show (Faulty.flush os s p).held n = _
        rw [held_flush, hfind, Option.map_some, hp, if_neg Bool.false_ne_true, heq.1, heq.2]
    · exact .inr (flush_read hwrites p h.full (.inl hslot) hsame (.inl hslot))
  · obtain ⟨b, hfind, hdata, ⟨-, hfalse⟩ | ⟨-, hdirty⟩⟩ := of_held_flush hx
    · cases hfalse
    · refine h.known n x ?_
      show s.held n = _
      rw [Store.held_of_find hfind, hdata, hdirty]
  · obtain ⟨b, hfind, hdata, ⟨-, hfalse⟩ | ⟨-, hdirty⟩⟩ := of_held_flush hx
    · cases hfalse
    · refine h.full n ?_
      show s.held n = _
      rw [Store.held_of_find hfind, hdata, hdirty]

/-- Nothing is dirty after a flush of all blocks. -/
theorem clean_flush_all (k : ℕ) (y : Option (Block bits)) :
    (flush os s fun _ => true).held k ≠ some (true, y) := by
  intro h
  obtain ⟨b, -, -, ⟨-, hfalse⟩ | ⟨hfalse, -⟩⟩ := of_held_flush h
  · cases hfalse
  · cases hfalse

theorem Inv.evict (h : Inv ⟨s, written⟩) (hclean : ∀ n y, s.held n ≠ some (true, y))
    (victims : List ℕ) : Inv ⟨s.evict victims, written⟩ := by
  have hheld : ∀ n v, (s.evict victims).held n = some v → s.held n = some v := by
    intro n v hv
    rw [Store.held, Store.find_evict] at hv
    split at hv
    · cases hv
    · exact hv
  refine ⟨⟨fun n x hn hx => h.clean n x hn (hheld _ _ hx), fun n x hx => .inr ?_⟩,
    fun n x hx => h.known n x (hheld _ _ hx), fun n hx => h.full n (hheld _ _ hx)⟩
  exact (h.kept n x hx).resolve_left (hclean n _)

theorem writerPass_inv (h : Inv ⟨s, written⟩) (hwrites : WritesSlots os s) (victims : List ℕ) :
    Inv ⟨writerPass os s victims, written⟩ := by
  have hfirst := h.flush hwrites fun _ => true
  have hnone : WritesSlots os (Faulty.flush os s fun _ => true) := fun n x hx =>
    absurd hx (clean_flush_all n _)
  refine (hfirst.flush hnone fun b => b.storageBlockNum ∈ victims).evict (fun n y hy => ?_) victims
  obtain ⟨b, hfind, hdata, ⟨-, hfalse⟩ | ⟨-, hdirty⟩⟩ := of_held_flush hy
  · cases hfalse
  · have hclean : (Faulty.flush os s fun _ => true).held n ≠ some (true, y) := clean_flush_all n y
    exact hclean (by rw [Store.held_of_find hfind, hdata, hdirty])

end

end passes

/-! ### Runs -/

section runs

variable {cfg : Config bits H} {s s' : State bits H} {call : Call bits H} {out : Shown bits}

/-- What the calls on the storage file transfer is the slot in the end: a `read` leaves its bytes
in the buffer, a `pwrite` the data in it. -/
def Call.Transfers (cfg : Config bits H) (s : State bits H) : Call bits H → Prop
  | .read fi c o =>
    ReadsSlot (getLockedFileBlock cfg s.store fi c.block).store o
      (getLockedFileBlock cfg s.store fi c.block).fblock.storageBlock true
  | .write fi _ c o =>
    ReadsSlot (getLockedFileBlock cfg s.store fi c.block).store o
      (getLockedFileBlock cfg s.store fi c.block).fblock.storageBlock (c.len < blockSize bits)
  | .pass os _ => WritesSlots os s.store

theorem step_inv (h : Inv s) (hcall : call.Transfers cfg s)
    (hstep : step cfg s call = .ok (s', out)) : Inv s' ∧ out.Honest s := by
  cases call with
  | read fi c o =>
    cases hstep
    have hlocate := quiet_locate cfg s.store fi c.block
    obtain ⟨hinv, hhonest⟩ := lockedBlock_inv (h.quiet hlocate) hcall
    refine ⟨hinv, fun n x hx => ?_⟩
    rcases hhonest n x hx with hslot | hwritten
    · exact .inl (hlocate.storage ▸ hslot)
    · exact .inr hwritten
  | write fi buf c o =>
    have heq : writeBlockWrapper cfg o s fi buf c = (s', out) := Except.ok.inj hstep
    have hw : Inv (writeBlockWrapper cfg o s fi buf c).1 ∧ _ := writeBlockWrapper_inv h hcall
    rw [heq] at hw
    exact hw
  | pass os victims =>
    cases hstep
    refine ⟨writerPass_inv h hcall victims, fun n x hx => ?_⟩
    cases hx

omit [DecidableEq H] in
theorem start_inv (db : Db H) (st : Storage bits) (nextUid now : ℕ) :
    Inv (State.start db st nextUid now) := by
  refine ⟨⟨fun n x _ hx => ?_, fun n x hx => ?_⟩, fun n x hx => ?_, fun n hx => ?_⟩ <;> cases hx

end runs

end Faulty

/-- **When clean means equal to the slot**: in every run in which each call on the storage file
transfers what its caller takes it for, the non-empty data of a clean block are those of its
slot, what was written last is dirty in the cache or in its slot, and every later read or
partial write that does so takes its bytes from the slot or from what was written last. -/
theorem run_saved (cfg : Config bits H) (db : Db H) (st : Storage bits) (nextUid now : ℕ)
    (calls : List (Faulty.Call bits H)) (s : Faulty.State bits H) (outs : List (Faulty.Shown bits))
    (hcalls : Meets (Faulty.step cfg) (fun s call => call.Transfers cfg s)
      (.start db st nextUid now) calls)
    (hrun : run (Faulty.step cfg) (.start db st nextUid now) calls = .ok (s, outs)) :
    Faulty.Saved s ∧ ∀ call s' out, Faulty.Call.Transfers cfg s call →
      Faulty.step cfg s call = .ok (s', out) → out.Honest s := by
  have h := run_invariant (I := fun s => Faulty.Inv s)
    (fun s call s' out h hcall hstep => (Faulty.step_inv h hcall hstep).1)
    (Faulty.start_inv db st nextUid now) hcalls hrun
  exact ⟨h.toSaved, fun call s' out hcall hstep => (Faulty.step_inv h hcall hstep).2⟩

/-- A file of one block whose bytes are in slot 1, and an empty cache. -/
def coldBlock : Faulty.State 4 (List UInt8) :=
  let fs := Fs.after (plainConfig 4)
    [.create ['/', 'f'] sIfreg, .write 0 (List.replicate 16 7) 0, .writerPass [1], .remount]
  .start fs.store.db fs.store.storage fs.store.nextUid 0

def coldInfo : FileInfo (List UInt8) := coldBlock.store.db.getByPath ['/', 'f']

/-- The block of the file, whole. -/
def onlyChunk : Chunk := ⟨0, 0, 16, 0⟩

/-- The first byte of a block. -/
def firstByte (x : Block 4) : UInt8 := x ⟨0, by decide⟩

/-- The block is read, and everything goes well. -/
theorem run_saved_read :
    Faulty.Saved (⟨(Faulty.readChunk (plainConfig 4) .full coldBlock.store coldInfo onlyChunk).1,
        coldBlock.written⟩ : Faulty.State 4 (List UInt8)) ∧
      ∀ call s' out, Faulty.Call.Transfers (plainConfig 4)
          ⟨(Faulty.readChunk (plainConfig 4) .full coldBlock.store coldInfo onlyChunk).1,
            coldBlock.written⟩ call →
        Faulty.step (plainConfig 4)
          ⟨(Faulty.readChunk (plainConfig 4) .full coldBlock.store coldInfo onlyChunk).1,
            coldBlock.written⟩ call = .ok (s', out) →
        out.Honest ⟨(Faulty.readChunk (plainConfig 4) .full coldBlock.store coldInfo onlyChunk).1,
          coldBlock.written⟩ := by
  refine run_saved (plainConfig 4) coldBlock.store.db coldBlock.store.storage
    coldBlock.store.nextUid 0 [.read coldInfo onlyChunk .full] _ _ ⟨?_, fun _ _ _ => trivial⟩ rfl
  intro b hlock _ _ _
  have hnum : ((getLockedFileBlock (plainConfig 4) coldBlock.store coldInfo 0).store.lock
      (getLockedFileBlock (plainConfig 4) coldBlock.store coldInfo 0).fblock.storageBlock).map
        StorageBlock.storageBlockNum = some 1 := rfl
  have hb : b.storageBlockNum = 1 := by
    rw [show (getLockedFileBlock (plainConfig 4) coldBlock.store coldInfo 0).store.lock
      (getLockedFileBlock (plainConfig 4) coldBlock.store coldInfo 0).fblock.storageBlock = some b
      from hlock] at hnum
    exact Option.some.inj hnum
  rw [hb, Outcome.delivers_iff]
  exact ⟨_, rfl, trivial⟩

/-- **A read that fails leaves zeros behind.**  The next read of the block shows 0 and not 7; and a
block whose `pwrite` fails is marked clean, erased and lost. -/
theorem failed_read_shows_zeros :
    (¬∀ (calls : List (Faulty.Call 4 (List UInt8))) (s : Faulty.State 4 (List UInt8))
      (outs : List (Faulty.Shown 4)),
      run (Faulty.step (plainConfig 4)) coldBlock calls = .ok (s, outs) → Faulty.Saved s) ∧
    ((run (Faulty.step (plainConfig 4)) coldBlock
        [.read coldInfo onlyChunk .error, .read coldInfo onlyChunk .full]).map fun q =>
      (q.2.map fun shown => firstByte shown.block,
        (q.1.store.storage.read 1).map firstByte)) = .ok ([0, 0], some 7) ∧
    ((run (Faulty.step (plainConfig 4)) coldBlock
        [.write coldInfo (List.replicate 16 8) onlyChunk .full, .pass (fun _ => .error) [1]]).map
      fun q => ((q.1.written 1).map firstByte, (q.1.store.blocks.find 1).isSome,
        (q.1.store.storage.read 1).map firstByte)) = .ok (some 8, false, some 7) := by
  refine ⟨fun hall => ?_, rfl, rfl⟩
  have hsaved := hall [.read coldInfo onlyChunk .error] _ _ rfl
  have hread := hsaved.clean 1 (zeroBlock 4) (by decide) rfl
  have hbyte := congrArg (Option.map firstByte) hread
  revert hbyte
  decide

end Wwdedup
