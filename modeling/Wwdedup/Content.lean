import Wwdedup.BlocksCache
import Wwdedup.Transactions

/-!
# What the cache shows

All arguments about the cache go through three views of it: `content k`, the bytes of the
storage block `k` (cached data if there is any, else its slot), `cnt k`, the cached use count,
and `stamp k`, the stamp of the cached object, which decides whether a weak pointer can be
locked.  Each atomic part of a request has one lemma for each view that it changes; parts that
only fill in data or note an access time change none of them (`Same`).
-/

namespace Wwdedup

variable {bits : ℕ} {H : Type} [DecidableEq H]

namespace Store

/-- `content(n)`: the cached data of the storage block, else its slot. -/
def content (s : Store bits H) (k : ℕ) : Option (Block bits) :=
  ((s.blocks.find k).bind StorageBlock.data).or (s.storage.read k)

/-- The cached use count. -/
def cnt (s : Store bits H) (k : ℕ) : Option ℤ := (s.blocks.find k).map StorageBlock.useCount

/-- The stamp of the cached object. -/
def stamp (s : Store bits H) (k : ℕ) : Option ℕ := (s.blocks.find k).map StorageBlock.uid

variable {s : Store bits H} {w : Option WeakPtr} {b : StorageBlock bits H}

/-! ### Weak pointers -/

section

omit [DecidableEq H]

theorem lock_eq_some : s.lock w = some b ↔
    w = some b.ptr ∧ s.blocks.find b.storageBlockNum = some b := by
  unfold lock
  rw [Option.bind_eq_some_iff]
  constructor
  · rintro ⟨p, rfl, hp⟩
    obtain ⟨hfind, huid⟩ := Option.filter_eq_some_iff.mp hp
    have hnum : b.storageBlockNum = p.num := KeyedTable.key_of_find hfind
    refine ⟨?_, hnum ▸ hfind⟩
    rw [StorageBlock.ptr, hnum, of_decide_eq_true huid]
  · rintro ⟨rfl, hfind⟩
    exact ⟨_, rfl, Option.filter_eq_some_iff.mpr ⟨hfind, by simp [StorageBlock.ptr]⟩⟩

theorem find_of_lock (h : s.lock w = some b) : s.blocks.find b.storageBlockNum = some b :=
  (lock_eq_some.mp h).2

theorem cnt_of_lock (h : s.lock w = some b) : s.cnt b.storageBlockNum = some b.useCount := by
  rw [cnt, find_of_lock h]
  rfl

theorem lock_isSome {p : WeakPtr} : (s.lock (some p)).isSome ↔ s.stamp p.num = some p.uid := by
  rw [Option.isSome_iff_exists]
  constructor
  · rintro ⟨b, hb⟩
    obtain ⟨hp, hfind⟩ := lock_eq_some.mp hb
    cases hp
    rw [stamp, StorageBlock.ptr, hfind]
    rfl
  · intro h
    obtain ⟨b, hb, hu⟩ := Option.map_eq_some_iff.mp h
    have hnum : b.storageBlockNum = p.num := KeyedTable.key_of_find hb
    refine ⟨b, lock_eq_some.mpr ⟨?_, hnum ▸ hb⟩⟩
    rw [StorageBlock.ptr, hnum, hu]

@[simp] theorem lock_none : s.lock none = none := rfl

end

/-- The storage block that the weak pointer locks has the number `k`. -/
def holds (s : Store bits H) (w : Option WeakPtr) (k : ℕ) : Prop :=
  ∃ b, s.lock w = some b ∧ b.storageBlockNum = k

instance (s : Store bits H) (w : Option WeakPtr) (k : ℕ) : Decidable (s.holds w k) :=
  decidable_of_iff ((s.lock w).any fun b => b.storageBlockNum = k)
    (by simp [holds, Option.any_eq_true])

omit [DecidableEq H] in
theorem holds_iff (h : s.lock w = some b) (k : ℕ) : s.holds w k ↔ k = b.storageBlockNum := by
  simp [holds, h, eq_comm]

omit [DecidableEq H] in
theorem not_holds (h : s.lock w = none) (k : ℕ) : ¬ s.holds w k := by simp [holds, h]

/-! ### An object changed in place -/

variable (s b)

section

omit [DecidableEq H]

theorem find_put (k : ℕ) :
    (s.put b).blocks.find k = if k = b.storageBlockNum then some b else s.blocks.find k :=
  KeyedTable.find_replace ..

@[simp] theorem setDb_db (db : Db H) : (s.setDb db).db = db := rfl
@[simp] theorem setDb_storage (db : Db H) : (s.setDb db).storage = s.storage := rfl
@[simp] theorem setDb_nextUid (db : Db H) : (s.setDb db).nextUid = s.nextUid := rfl
@[simp] theorem setDb_blocks (db : Db H) : (s.setDb db).blocks = s.blocks := rfl
@[simp] theorem setDb_lock (db : Db H) (w : Option WeakPtr) : (s.setDb db).lock w = s.lock w := rfl
@[simp] theorem cnt_setDb (db : Db H) (k : ℕ) : (s.setDb db).cnt k = s.cnt k := rfl
@[simp] theorem stamp_setDb (db : Db H) (k : ℕ) : (s.setDb db).stamp k = s.stamp k := rfl
@[simp] theorem content_setDb (db : Db H) (k : ℕ) : (s.setDb db).content k = s.content k := rfl

@[simp] theorem put_db : (s.put b).db = s.db := rfl
@[simp] theorem put_storage : (s.put b).storage = s.storage := rfl
@[simp] theorem put_nextUid : (s.put b).nextUid = s.nextUid := rfl
@[simp] theorem put_now : (s.put b).now = s.now := rfl

end

section

omit [DecidableEq H]

theorem cnt_put (k : ℕ) :
    (s.put b).cnt k = if k = b.storageBlockNum then some b.useCount else s.cnt k := by
  rw [cnt, find_put]
  split <;> rfl

theorem stamp_put (k : ℕ) :
    (s.put b).stamp k = if k = b.storageBlockNum then some b.uid else s.stamp k := by
  rw [stamp, find_put]
  split <;> rfl

theorem content_put (k : ℕ) :
    (s.put b).content k =
      if k = b.storageBlockNum then b.data.or (s.storage.read k) else s.content k := by
  rw [content, find_put]
  split <;> rfl

end

/-- A cached use count is raised or lowered; nothing happens when the block is not cached. -/
def adjust (k : ℕ) (d : ℤ) : Store bits H :=
  ((s.blocks.find k).map fun b => s.put { b with useCount := b.useCount + d }).getD s

/-- `sblock->use_count--` on the block that the weak pointer locks. -/
def releaseLocked (w : Option WeakPtr) : Store bits H :=
  ((s.lock w).map fun b => s.put b.release).getD s

variable {s b}

section

omit [DecidableEq H]

theorem find_adjust (n : ℕ) (d : ℤ) (k : ℕ) :
    (s.adjust n d).blocks.find k =
      if k = n then (s.blocks.find k).map fun b => { b with useCount := b.useCount + d }
      else s.blocks.find k := by
  unfold adjust
  cases h : s.blocks.find n with
  | none =>
    show s.blocks.find k = _
    split
    · rename_i hk
      rw [hk, h]
      rfl
    · rfl
  | some b =>
    obtain rfl : b.storageBlockNum = n := KeyedTable.key_of_find h
    rw [Option.map_some, Option.getD_some, find_put]
    show (if k = b.storageBlockNum then _ else _) = _
    split
    · rename_i hk
      rw [hk, h]
      rfl
    · rfl

theorem adjust_db (n : ℕ) (d : ℤ) : (s.adjust n d).db = s.db := by
  unfold adjust
  cases s.blocks.find n <;> rfl

theorem adjust_storage (n : ℕ) (d : ℤ) : (s.adjust n d).storage = s.storage := by
  unfold adjust
  cases s.blocks.find n <;> rfl

end

section

omit [DecidableEq H]

theorem cnt_adjust (n : ℕ) (d : ℤ) (k : ℕ) :
    (s.adjust n d).cnt k = if k = n then (s.cnt k).map (· + d) else s.cnt k := by
  rw [cnt, cnt, find_adjust]
  split
  · rw [Option.map_map, Option.map_map]
    rfl
  · rfl

theorem stamp_adjust (n : ℕ) (d : ℤ) (k : ℕ) : (s.adjust n d).stamp k = s.stamp k := by
  rw [stamp, stamp, find_adjust]
  split
  · rw [Option.map_map]
    rfl
  · rfl

theorem content_adjust (n : ℕ) (d : ℤ) (k : ℕ) : (s.adjust n d).content k = s.content k := by
  rw [content, content, find_adjust, adjust_storage]
  split
  · cases s.blocks.find k <;> rfl
  · rfl

theorem releaseLocked_eq : s.releaseLocked w =
    ((s.lock w).map fun b => s.adjust b.storageBlockNum (-1)).getD s := by
  unfold releaseLocked adjust
  cases h : s.lock w with
  | none => rfl
  | some b =>
    rw [Option.map_some, Option.map_some, find_of_lock h]
    rfl

end

section

omit [DecidableEq H]

theorem releaseLocked_none (h : s.lock w = none) : s.releaseLocked w = s := by
  rw [releaseLocked, h]
  rfl

theorem releaseLocked_some (h : s.lock w = some b) :
    s.releaseLocked w = s.adjust b.storageBlockNum (-1) := by
  rw [releaseLocked_eq, h]
  rfl

theorem releaseLocked_db : (s.releaseLocked w).db = s.db := by
  unfold releaseLocked
  cases s.lock w <;> rfl

theorem releaseLocked_storage : (s.releaseLocked w).storage = s.storage := by
  unfold releaseLocked
  cases s.lock w <;> rfl

theorem releaseLocked_nextUid : (s.releaseLocked w).nextUid = s.nextUid := by
  unfold releaseLocked
  cases s.lock w <;> rfl

theorem cnt_releaseLocked (k : ℕ) :
    (s.releaseLocked w).cnt k = if s.holds w k then (s.cnt k).map (· - 1) else s.cnt k := by
  cases h : s.lock w with
  | none => rw [releaseLocked_none h, if_neg (not_holds h k)]
  | some b =>
    rw [releaseLocked_some h, cnt_adjust]
    exact if_congr (holds_iff h k).symm rfl rfl

theorem stamp_releaseLocked (k : ℕ) : (s.releaseLocked w).stamp k = s.stamp k := by
  cases h : s.lock w with
  | none => rw [releaseLocked_none h]
  | some b => rw [releaseLocked_some h, stamp_adjust]

theorem content_releaseLocked (k : ℕ) : (s.releaseLocked w).content k = s.content k := by
  cases h : s.lock w with
  | none => rw [releaseLocked_none h]
  | some b => rw [releaseLocked_some h, content_adjust]

end

/-! ### Parts that change no view -/

/-- The stores have the same tables, storage file and views. -/
structure Same (s s' : Store bits H) : Prop where
  db : s'.db = s.db
  storage : s'.storage = s.storage
  nextUid : s'.nextUid = s.nextUid
  content : ∀ k, s'.content k = s.content k
  cnt : ∀ k, s'.cnt k = s.cnt k
  stamp : ∀ k, s'.stamp k = s.stamp k

section

omit [DecidableEq H]

theorem Same.refl (s : Store bits H) : Same s s :=
  ⟨rfl, rfl, rfl, fun _ => rfl, fun _ => rfl, fun _ => rfl⟩

theorem Same.symm {s s' : Store bits H} (h : Same s s') : Same s' s where
  db := h.db.symm
  storage := h.storage.symm
  nextUid := h.nextUid.symm
  content k := (h.content k).symm
  cnt k := (h.cnt k).symm
  stamp k := (h.stamp k).symm

/-- A weak pointer that can be locked can still be locked, with the same number and count. -/
theorem Same.lock {s s' : Store bits H} (h : Same s s') (hl : s.lock w = some b) :
    ∃ b', s'.lock w = some b' ∧ b'.storageBlockNum = b.storageBlockNum ∧
      b'.useCount = b.useCount := by
  obtain ⟨rfl, hfind⟩ := lock_eq_some.mp hl
  have hst : s'.stamp b.storageBlockNum = some b.uid := by
    rw [h.stamp, Store.stamp, hfind]
    rfl
  obtain ⟨b', hb'⟩ := Option.isSome_iff_exists.mp (lock_isSome (p := b.ptr).mpr hst)
  have hp := (lock_eq_some.mp hb').1
  have hnum : b'.storageBlockNum = b.storageBlockNum :=
    (congrArg WeakPtr.num (Option.some.inj hp)).symm
  refine ⟨b', hb', hnum, ?_⟩
  have hc := cnt_of_lock hb'
  rw [hnum, h.cnt, cnt_of_lock hl] at hc
  exact (Option.some.inj hc).symm

theorem Same.lock_isSome {s s' : Store bits H} (h : Same s s') (w : Option WeakPtr) :
    (s'.lock w).isSome = (s.lock w).isSome := by
  cases w with
  | none => rfl
  | some p => rw [Bool.eq_iff_iff, Store.lock_isSome, Store.lock_isSome, h.stamp]

end

/-- What reading a block does to the store: nothing, the access time of an object, or data of
an object that had none. -/
inductive Touches (s : Store bits H) : Store bits H → Prop
  | none : Touches s s
  | seen (b : StorageBlock bits H) (now : ℕ)
      (hfind : s.blocks.find b.storageBlockNum = some b) : Touches s (s.put { b with atime := now })
  | filled (b : StorageBlock bits H) (now : ℕ) (x : Block bits)
      (hfind : s.blocks.find b.storageBlockNum = some b) (num : b.storageBlockNum ≠ 0)
      (data : b.data = Option.none) (slot : s.storage.read b.storageBlockNum = some x) :
      Touches s (s.put { b with atime := now, data := some x })

omit [DecidableEq H] in
/-- An object that is put back with the same count and stamp, and with data that say the
same. -/
theorem same_put {b' : StorageBlock bits H} (hfind : s.blocks.find b.storageBlockNum = some b)
    (hnum : b'.storageBlockNum = b.storageBlockNum) (huid : b'.uid = b.uid)
    (hcount : b'.useCount = b.useCount)
    (hdata : b'.data.or (s.storage.read b.storageBlockNum) =
      b.data.or (s.storage.read b.storageBlockNum)) : Same s (s.put b') := by
  refine ⟨rfl, rfl, rfl, fun k => ?_, fun k => ?_, fun k => ?_⟩
  · rw [content_put, hnum]
    split
    · rename_i hk
      rw [hk, content, hfind, Option.bind_some, hdata]
    · rfl
  · rw [cnt_put, hnum]
    split
    · rename_i hk
      rw [hk, cnt, hfind, Option.map_some, hcount]
    · rfl
  · rw [stamp_put, hnum]
    split
    · rename_i hk
      rw [hk, stamp, hfind, Option.map_some, huid]
    · rfl

omit [DecidableEq H] in
theorem Touches.same {s s' : Store bits H} (h : Touches s s') : Same s s' := by
  cases h with
  | none => exact .refl s
  | seen b now hfind => exact same_put hfind rfl rfl rfl rfl
  | filled b now x hfind num data slot =>
    refine same_put hfind rfl rfl rfl ?_
    rw [data, slot]
    rfl

end Store

omit [DecidableEq H] in
/-- `_populateStorageBlock` leaves the block alone or fills it from its slot. -/
theorem populateStorageBlock_ok {st : Storage bits} {b b' : StorageBlock bits H}
    (h : populateStorageBlock st b = .ok b') :
    (b.data.isSome ∨ b.storageBlockNum = 0) ∧ b' = b ∨
      b.data = none ∧ b.storageBlockNum ≠ 0 ∧
        ∃ x, st.read b.storageBlockNum = some x ∧ b' = { b with data := some x } := by
  unfold populateStorageBlock at h
  split at h
  · rename_i hkeep
    cases h
    exact .inl ⟨hkeep, rfl⟩
  · rename_i hfill
    obtain ⟨hdata, hnum⟩ := not_or.mp hfill
    rw [Option.not_isSome_iff_eq_none] at hdata
    split at h
    · rename_i x hx
      cases h
      exact .inr ⟨hdata, hnum, x, hx, rfl⟩
    · cases h

omit [DecidableEq H] in
/-- Populating succeeds when the number has a content. -/
theorem populateStorageBlock_isOk {st : Storage bits} {b : StorageBlock bits H}
    (h : (b.data.or (st.read b.storageBlockNum)).isSome) :
    ∃ b', populateStorageBlock st b = .ok b' := by
  unfold populateStorageBlock
  split
  · exact ⟨b, rfl⟩
  · rename_i hfill
    obtain ⟨hdata, -⟩ := not_or.mp hfill
    rw [Option.not_isSome_iff_eq_none] at hdata
    obtain ⟨x, hx⟩ := Option.isSome_iff_exists.mp h
    rw [hdata, Option.none_or] at hx
    simp only [hx]
    exact ⟨_, rfl⟩

end Wwdedup
