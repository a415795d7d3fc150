import Wwdedup.Content

/-!
# The parts of a request on one block

A block is located (`getLockedFileBlock`), shown to a read or a partial write (`readChunk`,
`oldData`), committed (`commitBlock`) and then updated in the cache (`updateCache`).  For each
part: what it returns and what it does to the views of `Content`.

`Commits` lists the three things that a commit can do to the store; `Wrote` the three things
that a whole block write can do.
-/

namespace Wwdedup

variable {bits : ℕ} {H : Type} [DecidableEq H]

/-! ### Locating -/

omit [DecidableEq H] in
/-- `_blocks->ensure(make_shared<storage_block>(n))` followed by a load with the use count. -/
theorem ensureLoaded_views (s : Store bits H) (fb : BlockInfo H) (u : ℤ) :
    let r := ensureLoaded s fb u
    r.1.db = s.db ∧ r.1.storage = s.storage ∧ (∀ k, r.1.content k = s.content k) ∧
      (∀ k, r.1.cnt k = if k = fb.storageBlockNum ∧ s.cnt k = none then some u else s.cnt k) ∧
      (∀ k, r.1.stamp k =
        if k = fb.storageBlockNum ∧ s.stamp k = none then some s.nextUid else s.stamp k) ∧
      r.1.nextUid = s.nextUid + 1 ∧
      r.2.storageBlockNum = fb.storageBlockNum ∧
      r.1.blocks.find fb.storageBlockNum = some r.2 := by
  unfold ensureLoaded
  cases h : s.blocks.find fb.storageBlockNum with
  | some item =>
    refine ⟨rfl, rfl, fun _ => rfl, fun k => ?_, fun k => ?_, rfl, KeyedTable.key_of_find h, h⟩
    · rw [if_neg]
      · rfl
      · rintro ⟨rfl, hnone⟩
        simp [Store.cnt, h] at hnone
    · rw [if_neg]
      · rfl
      · rintro ⟨rfl, hnone⟩
        simp [Store.stamp, h] at hnone
  | none =>
    refine ⟨rfl, rfl, fun k => ?_, fun k => ?_, fun k => ?_, rfl, rfl, ?_⟩
    · rw [Store.content_put]
      split
      · rename_i hk
        rw [show k = fb.storageBlockNum from hk, Store.content, h]
        rfl
      · rfl
    · rw [Store.cnt_put]
      show (if k = fb.storageBlockNum then some u else s.cnt k) = _
      by_cases hk : k = fb.storageBlockNum
      · have hnone : s.cnt k = none := by rw [hk, Store.cnt, h]; rfl
        rw [if_pos hk, if_pos ⟨hk, hnone⟩]
      · rw [if_neg hk, if_neg fun hh => hk hh.1]
    · rw [Store.stamp_put]
      show (if k = fb.storageBlockNum then some s.nextUid else s.stamp k) = _
      by_cases hk : k = fb.storageBlockNum
      · have hnone : s.stamp k = none := by rw [hk, Store.stamp, h]; rfl
        rw [if_pos hk, if_pos ⟨hk, hnone⟩]
      · rw [if_neg hk, if_neg fun hh => hk hh.1]
    · exact (Store.find_put ..).trans (if_pos rfl)

/-- The two outcomes of `_getLockedFileBlock`. -/
inductive Locates (s : Store bits H) (fi : FileInfo H) (item : BlockInfo H) (useCount : ℤ) :
    Located bits H → Prop
  | kept (h : item.empty = true ∨ (s.lock item.storageBlock).isSome) :
      Locates s fi item useCount ⟨s, fi.setBlock item, item⟩
  | reloaded (filled : item.empty = false) (dead : s.lock item.storageBlock = none) :
      Locates s fi item useCount
        ⟨(ensureLoaded s item useCount).1,
          fi.setBlock { item with storageBlock := some (ensureLoaded s item useCount).2.ptr },
          { item with storageBlock := some (ensureLoaded s item useCount).2.ptr }⟩

omit [DecidableEq H] in
theorem locateBlock_locates (s : Store bits H) (fi : FileInfo H) (item : BlockInfo H)
    (useCount : ℤ) : Locates s fi item useCount (locateBlock s fi item useCount) := by
  unfold locateBlock
  dsimp only
  split
  · rename_i h
    exact .kept ((Bool.or_eq_true _ _).mp h)
  · rename_i h
    obtain ⟨hempty, hlock⟩ := not_or.mp (mt (Bool.or_eq_true _ _).mpr h)
    exact .reloaded (Bool.eq_false_iff.mpr hempty) (Option.not_isSome_iff_eq_none.mp hlock)

theorem getLockedFileBlock_locates (cfg : Config bits H) (s : Store bits H) (fi : FileInfo H)
    (n : ℕ) :
    Locates s fi (fileBlock cfg s fi n).1 (fileBlock cfg s fi n).2
      (getLockedFileBlock cfg s fi n) := locateBlock_locates ..

namespace Locates

variable {s : Store bits H} {fi : FileInfo H} {item : BlockInfo H} {u : ℤ} {l : Located bits H}

section

omit [DecidableEq H]

theorem finfo_eq (h : Locates s fi item u l) : l.finfo = fi.setBlock l.fblock := by
  cases h <;> rfl

theorem db_eq (h : Locates s fi item u l) : l.store.db = s.db := by
  cases h with
  | kept => rfl
  | reloaded => exact (ensureLoaded_views s item u).1

theorem storage_eq (h : Locates s fi item u l) : l.store.storage = s.storage := by
  cases h with
  | kept => rfl
  | reloaded => exact (ensureLoaded_views s item u).2.1

theorem content_eq (h : Locates s fi item u l) (k : ℕ) : l.store.content k = s.content k := by
  cases h with
  | kept => rfl
  | reloaded => exact (ensureLoaded_views s item u).2.2.1 k

/-- The `block_info` is the one that was there or was read, up to its weak pointer. -/
theorem fblock_eq (h : Locates s fi item u l) :
    l.fblock.fileBlockNum = item.fileBlockNum ∧
      l.fblock.storageBlockNum = item.storageBlockNum ∧ l.fblock.hash = item.hash ∧
      l.fblock.empty = item.empty := by
  cases h <;> exact ⟨rfl, rfl, rfl, rfl⟩

/-- A block that is not empty can be locked after it was located. -/
theorem lock_isSome (h : Locates s fi item u l) (hfilled : item.empty = false) :
    (l.store.lock l.fblock.storageBlock).isSome := by
  cases h with
  | kept h =>
    rcases h with hempty | hlock
    · rw [hfilled] at hempty
      cases hempty
    · exact hlock
  | reloaded filled dead =>
    obtain ⟨-, -, -, -, -, -, hnum, hfind⟩ := ensureLoaded_views s item u
    rw [Option.isSome_iff_exists]
    exact ⟨_, Store.lock_eq_some.mpr ⟨rfl, hnum ▸ hfind⟩⟩

end

end Locates

/-! ### Showing -/

/-- The bytes `start`, …, `start + len - 1` of a block. -/
def slice (x : Block bits) (start len : ℕ) : List UInt8 :=
  (List.range' start len).map fun i => if h : i < blockSize bits then x ⟨i, h⟩ else 0

theorem slice_zeroBlock (start len : ℕ) :
    slice (zeroBlock bits) start len = List.replicate len 0 := by
  rw [slice, List.eq_replicate_iff]
  refine ⟨by simp, fun x hx => ?_⟩
  obtain ⟨i, -, rfl⟩ := List.mem_map.mp hx
  split <;> rfl

/-- The content that a located block shows: zeros when nothing can be locked or the number is
0, else the content of the number. -/
def Store.shown (s : Store bits H) (w : Option WeakPtr) : Option (Block bits) :=
  match s.lock w with
  | none => some (zeroBlock bits)
  | some b => if b.storageBlockNum = 0 then some (zeroBlock bits) else s.content b.storageBlockNum

section

omit [DecidableEq H]

theorem content_of_lock {s : Store bits H} {w : Option WeakPtr} {b : StorageBlock bits H}
    (h : s.lock w = some b) :
    s.content b.storageBlockNum = b.data.or (s.storage.read b.storageBlockNum) := by
  rw [Store.content, Store.find_of_lock h]
  rfl

/-- The block that `_populateStorageBlock` returns, put back, is a touch of the store, and it
has the content of its number. -/
theorem populate_touches {s : Store bits H} {w : Option WeakPtr} {b b' : StorageBlock bits H}
    {now : ℕ} (hl : s.lock w = some b) (hnum : b.storageBlockNum ≠ 0)
    (h : populateStorageBlock s.storage { b with atime := now } = .ok b') :
    s.Touches (s.put b') ∧ ∃ x, b'.data = some x ∧ s.content b.storageBlockNum = some x := by
  have hfind := Store.find_of_lock hl
  rcases populateStorageBlock_ok h with ⟨hkeep, rfl⟩ | ⟨hdata, -, x, hx, rfl⟩
  · obtain ⟨x, hx⟩ := Option.isSome_iff_exists.mp (hkeep.resolve_right hnum)
    refine ⟨.seen b now hfind, x, hx, ?_⟩
    rw [content_of_lock hl, show b.data = some x from hx]
    rfl
  · refine ⟨.filled b now x hfind hnum hdata hx, x, rfl, ?_⟩
    rw [content_of_lock hl, show b.data = none from hdata]
    exact hx

theorem readLocated_ok {r : Located bits H} {s' : Store bits H} {fi' : FileInfo H} {c : Chunk}
    {bytes : List UInt8} (h : readLocated r c = .ok (s', fi', bytes)) :
    r.store.Touches s' ∧ fi' = r.finfo ∧
      ∃ x, r.store.shown r.fblock.storageBlock = some x ∧ bytes = slice x c.startOffset c.len := by
  unfold readLocated at h
  dsimp only at h
  unfold Store.shown
  cases hl : r.store.lock r.fblock.storageBlock with
  | none =>
    rw [hl] at h
    cases h
    exact ⟨.none, rfl, _, rfl, (slice_zeroBlock ..).symm⟩
  | some b =>
    rw [hl] at h
    dsimp only at h ⊢
    split at h
    · rename_i hzero
      cases h
      exact ⟨.seen b _ (Store.find_of_lock hl), rfl, _, if_pos hzero, (slice_zeroBlock ..).symm⟩
    · rename_i hnum
      cases hp : populateStorageBlock r.store.storage { b with atime := r.store.now } with
      | error e => simp [hp] at h
      | ok b' =>
        rw [hp] at h
        cases h
        obtain ⟨htouch, x, hx, hcontent⟩ := populate_touches hl hnum hp
        refine ⟨htouch, rfl, x, by rw [if_neg hnum, hcontent], ?_⟩
        rw [hx]
        rfl

theorem readLocated_isOk {r : Located bits H} {c : Chunk}
    (h : (r.store.shown r.fblock.storageBlock).isSome) : ∃ out, readLocated r c = .ok out := by
  unfold readLocated
  dsimp only
  cases hl : r.store.lock r.fblock.storageBlock with
  | none => exact ⟨_, rfl⟩
  | some b =>
    dsimp only
    split
    · exact ⟨_, rfl⟩
    · rename_i hnum
      simp only [Store.shown, hl, if_neg hnum, content_of_lock hl] at h
      have hfill : ({ b with atime := r.store.now } : StorageBlock bits H).data.or
          (r.store.storage.read b.storageBlockNum) |>.isSome := h
      obtain ⟨b', hb'⟩ := populateStorageBlock_isOk hfill
      rw [hb']
      exact ⟨_, rfl⟩

end

theorem readChunk_ok {cfg : Config bits H} {s s' : Store bits H} {fi fi' : FileInfo H}
    {c : Chunk} {bytes : List UInt8} (h : readChunk cfg s fi c = .ok (s', fi', bytes)) :
    (getLockedFileBlock cfg s fi c.block).store.Touches s' ∧
      fi' = (getLockedFileBlock cfg s fi c.block).finfo ∧
      ∃ x, (getLockedFileBlock cfg s fi c.block).store.shown
          (getLockedFileBlock cfg s fi c.block).fblock.storageBlock = some x ∧
        bytes = slice x c.startOffset c.len := readLocated_ok h

theorem readChunk_isOk {cfg : Config bits H} {s : Store bits H} {fi : FileInfo H} {c : Chunk}
    (h : ((getLockedFileBlock cfg s fi c.block).store.shown
      (getLockedFileBlock cfg s fi c.block).fblock.storageBlock).isSome) :
    ∃ out, readChunk cfg s fi c = .ok out := readLocated_isOk h

omit [DecidableEq H] in
theorem oldData_ok {s s' : Store bits H} {fb : BlockInfo H} {len : ℕ} {old : Block bits}
    (h : oldData s fb len = .ok (s', old)) :
    s.Touches s' ∧ (len < blockSize bits → s.shown fb.storageBlock = some old) := by
  unfold oldData at h
  unfold Store.shown
  cases hl : s.lock fb.storageBlock with
  | none =>
    rw [hl] at h
    cases h
    exact ⟨.none, fun _ => rfl⟩
  | some b =>
    rw [hl] at h
    dsimp only at h ⊢
    split at h
    · rename_i hpart
      obtain ⟨hnum, -⟩ := hpart
      cases hp : populateStorageBlock s.storage { b with atime := s.now } with
      | error e => simp [hp] at h
      | ok b' =>
        rw [hp] at h
        cases h
        obtain ⟨htouch, x, hx, hcontent⟩ := populate_touches hl hnum hp
        refine ⟨htouch, fun _ => ?_⟩
        rw [if_neg hnum, hcontent, hx]
        rfl
    · rename_i hwhole
      cases h
      refine ⟨.seen b _ (Store.find_of_lock hl), fun hlen => ?_⟩
      rw [not_and] at hwhole
      exact if_pos (by_contra fun hnum => hwhole hnum hlen)

omit [DecidableEq H] in
theorem oldData_isOk {s : Store bits H} {fb : BlockInfo H} {len : ℕ}
    (h : len < blockSize bits → (s.shown fb.storageBlock).isSome) :
    ∃ out, oldData s fb len = .ok out := by
  unfold oldData
  cases hl : s.lock fb.storageBlock with
  | none => exact ⟨_, rfl⟩
  | some b =>
    dsimp only
    split
    · rename_i hpart
      obtain ⟨hnum, hlen⟩ := hpart
      have hx := h hlen
      simp only [Store.shown, hl, if_neg hnum, content_of_lock hl] at hx
      have hfill : ({ b with atime := s.now } : StorageBlock bits H).data.or
          (s.storage.read b.storageBlockNum) |>.isSome := hx
      obtain ⟨b', hb'⟩ := populateStorageBlock_isOk hfill
      rw [hb']
      exact ⟨_, rfl⟩
    · exact ⟨_, rfl⟩

/-! ### Committing -/

/-- The three things that the transaction of `_writeBlock` can do to the store. -/
inductive Commits (s : Store bits H) (ino : ℕ) (hash : H) (fb : BlockInfo H) :
    Committed bits H → Prop
  | hit (row : BlockHashRow H) (sel : s.db.selectBlockHash hash = some row) :
      Commits s ino hash fb
        ⟨(s.releaseLocked fb.storageBlock).setDb
            ((s.db.increaseUseCount hash).mapFileBlock ino fb.fileBlockNum hash
              ((s.lock fb.storageBlock).map StorageBlock.release)),
          { fb with hash := .digest hash, storageBlockNum := row.id, storageBlock := none },
          true⟩
  | inPlace (b : StorageBlock bits H) (locked : s.lock fb.storageBlock = some b)
      (one : b.useCount = 1) (sel : s.db.selectBlockHash hash = none) :
      Commits s ino hash fb
        ⟨(s.put b).setDb
            ((s.db.updateBlockHash hash b.storageBlockNum).mapFileBlock ino fb.fileBlockNum
              hash (some b)),
          { fb with hash := .digest hash }, false⟩
  | fresh (shared : ∀ b, s.lock fb.storageBlock = some b → b.useCount ≠ 1)
      (sel : s.db.selectBlockHash hash = none) :
      Commits s ino hash fb
        ⟨(s.releaseLocked fb.storageBlock).setDb
            ((s.db.insertBlockHash hash).mapFileBlock ino fb.fileBlockNum hash
              ((s.lock fb.storageBlock).map StorageBlock.release)),
          { fb with
            hash := .digest hash, storageBlockNum := s.db.blockHashes.nextId,
            storageBlock := none },
          false⟩

omit [DecidableEq H] in
/-- The released block is put back after the tables have changed. -/
theorem Store.put_release (s : Store bits H) (w : Option WeakPtr) (db : Db H) :
    (((s.lock w).map StorageBlock.release).map (s.setDb db).put).getD (s.setDb db) =
      (s.releaseLocked w).setDb db := by
  unfold Store.releaseLocked
  cases s.lock w <;> rfl

theorem commitBlock_commits (s : Store bits H) (ino : ℕ) (hash : H) (fb : BlockInfo H) :
    Commits s ino hash fb (commitBlock s ino hash fb) := by
  have h := replaceStorageBlock_replaces s.db ino fb (s.lock fb.storageBlock) hash
  unfold commitBlock
  generalize replaceStorageBlock s.db ino fb (s.lock fb.storageBlock) hash = r at h ⊢
  cases h with
  | hit row sel =>
    dsimp only
    rw [Store.put_release]
    exact .hit row sel
  | inPlace b locked one sel => exact .inPlace b locked one sel
  | fresh shared sel =>
    dsimp only
    rw [Store.put_release]
    exact .fresh shared sel

namespace Commits

variable {s : Store bits H} {ino : ℕ} {hash : H} {fb : BlockInfo H} {c : Committed bits H}

/-- The tables afterwards, as `Replaces` describes them. -/
theorem replaces (h : Commits s ino hash fb c) :
    ∃ sblock, Replaces s.db ino fb (s.lock fb.storageBlock) hash
      ⟨c.store.db, c.fblock, sblock, c.present⟩ := by
  cases h with
  | hit row sel => exact ⟨_, .hit row sel⟩
  | inPlace b locked one sel =>
    refine ⟨some b, ?_⟩
    have h : Replaces s.db ino fb (s.lock fb.storageBlock) hash _ := .inPlace b locked one sel
    exact h
  | fresh shared sel => exact ⟨_, .fresh shared sel⟩

theorem content_eq (h : Commits s ino hash fb c) (k : ℕ) : c.store.content k = s.content k := by
  cases h with
  | hit row sel => exact Store.content_releaseLocked k
  | inPlace b locked one sel =>
    exact (Store.same_put (Store.find_of_lock locked) rfl rfl rfl rfl).content k
  | fresh shared sel => exact Store.content_releaseLocked k

theorem stamp_eq (h : Commits s ino hash fb c) (k : ℕ) : c.store.stamp k = s.stamp k := by
  cases h with
  | hit row sel => exact Store.stamp_releaseLocked k
  | inPlace b locked one sel =>
    exact (Store.same_put (Store.find_of_lock locked) rfl rfl rfl rfl).stamp k
  | fresh shared sel => exact Store.stamp_releaseLocked k

/-- A block that was found is left to the next access to locate. -/
theorem storageBlock_of_present (h : Commits s ino hash fb c) (hp : c.present = true) :
    c.fblock.storageBlock = none := by
  cases h with
  | hit row sel => rfl
  | inPlace b locked one sel => cases hp
  | fresh shared sel => cases hp

end Commits

/-! ### The cache after the commit -/

/-- The cached block after `_writeBlock` has put new data into it. -/
def Store.written (s : Store bits H) (n : ℕ) (data : Block bits) (hash : H) :
    StorageBlock bits H :=
  { (s.blocks.find n).getD (StorageBlock.new n s.nextUid s.now) with
    data := some data, hash := .digest hash, useCount := 1, dirty := true, loaded := true }

/-- The data of a block that has to be written goes into the cache. -/
def Store.place (s : Store bits H) (n : ℕ) (data : Block bits) (hash : H) : Store bits H :=
  { s.put (s.written n data hash) with nextUid := s.nextUid + 1 }

section place

variable (s : Store bits H) (n : ℕ) (data : Block bits) (hash : H) (k : ℕ)

section

omit [DecidableEq H]

@[simp] theorem written_storageBlockNum : (s.written n data hash).storageBlockNum = n := by
  unfold Store.written
  cases h : s.blocks.find n with
  | none => rfl
  | some b =>
    show b.storageBlockNum = n
    exact KeyedTable.key_of_find h

theorem written_uid : (s.written n data hash).uid = (s.stamp n).getD s.nextUid := by
  unfold Store.written Store.stamp
  cases s.blocks.find n <;> rfl

@[simp] theorem place_db : (s.place n data hash).db = s.db := rfl

@[simp] theorem place_storage : (s.place n data hash).storage = s.storage := rfl

@[simp] theorem place_nextUid : (s.place n data hash).nextUid = s.nextUid + 1 := rfl

end

section

omit [DecidableEq H]

theorem find_place :
    (s.place n data hash).blocks.find k =
      if k = n then some (s.written n data hash) else s.blocks.find k := by
  have h := Store.find_put s (s.written n data hash) k
  rw [written_storageBlockNum] at h
  exact h

theorem cnt_place : (s.place n data hash).cnt k = if k = n then some 1 else s.cnt k := by
  rw [Store.cnt, find_place]
  split <;> rfl

theorem content_place :
    (s.place n data hash).content k = if k = n then some data else s.content k := by
  rw [Store.content, find_place]
  split <;> rfl

theorem stamp_place :
    (s.place n data hash).stamp k =
      if k = n then some ((s.stamp n).getD s.nextUid) else s.stamp k := by
  rw [Store.stamp, find_place]
  split
  · rw [Option.map_some, written_uid]
  · rfl

end

end place

omit [DecidableEq H] in
theorem updateCache_hit (s : Store bits H) (fb : BlockInfo H) (data : Block bits) (hash : H) :
    updateCache s fb true data hash = (s.adjust fb.storageBlockNum 1, fb) := rfl

omit [DecidableEq H] in
theorem updateCache_new (s : Store bits H) (fb : BlockInfo H) (data : Block bits) (hash : H) :
    updateCache s fb false data hash =
      (s.place fb.storageBlockNum data hash,
        { fb with
          storageBlock := some ⟨fb.storageBlockNum,
            (s.stamp fb.storageBlockNum).getD s.nextUid⟩ }) := by
  rw [← written_uid s fb.storageBlockNum data hash]
  have hptr : (s.written fb.storageBlockNum data hash).ptr =
      ⟨fb.storageBlockNum, (s.written fb.storageBlockNum data hash).uid⟩ := by
    rw [StorageBlock.ptr, written_storageBlockNum]
  rw [← hptr]
  rfl

/-- The three things that `_writeBlock` can do. -/
inductive Wrote (s : Store bits H) (ino : ℕ) (data : Block bits) (hash : H) (fb : BlockInfo H) :
    Store bits H × BlockInfo H → Prop
  | hit (row : BlockHashRow H) (sel : s.db.selectBlockHash hash = some row) :
      Wrote s ino data hash fb
        (((s.releaseLocked fb.storageBlock).setDb
            ((s.db.increaseUseCount hash).mapFileBlock ino fb.fileBlockNum hash
              ((s.lock fb.storageBlock).map StorageBlock.release))).adjust row.id 1,
          { fb with hash := .digest hash, storageBlockNum := row.id, storageBlock := none })
  | inPlace (b : StorageBlock bits H) (locked : s.lock fb.storageBlock = some b)
      (one : b.useCount = 1) (sel : s.db.selectBlockHash hash = none) :
      Wrote s ino data hash fb
        (((s.put b).setDb
            ((s.db.updateBlockHash hash b.storageBlockNum).mapFileBlock ino fb.fileBlockNum
              hash (some b))).place fb.storageBlockNum data hash,
          { fb with
            hash := .digest hash
            storageBlock := some ⟨fb.storageBlockNum,
              ((s.put b).stamp fb.storageBlockNum).getD s.nextUid⟩ })
  | fresh (shared : ∀ b, s.lock fb.storageBlock = some b → b.useCount ≠ 1)
      (sel : s.db.selectBlockHash hash = none) :
      Wrote s ino data hash fb
        (((s.releaseLocked fb.storageBlock).setDb
            ((s.db.insertBlockHash hash).mapFileBlock ino fb.fileBlockNum hash
              ((s.lock fb.storageBlock).map StorageBlock.release))).place
            s.db.blockHashes.nextId data hash,
          { fb with
            hash := .digest hash, storageBlockNum := s.db.blockHashes.nextId
            storageBlock := some ⟨s.db.blockHashes.nextId,
              ((s.releaseLocked fb.storageBlock).stamp s.db.blockHashes.nextId).getD
                s.nextUid⟩ })

/-- **A block write does one of the three.** -/
theorem writeBlock_wrote (cfg : Config bits H) (s : Store bits H) (ino : ℕ) (data : Block bits)
    (fb : BlockInfo H) :
    Wrote s ino data (cfg.murmur data) fb (writeBlock cfg s ino data fb) := by
  have hc := commitBlock_commits s ino (cfg.murmur data) fb
  unfold writeBlock
  dsimp only
  generalize commitBlock s ino (cfg.murmur data) fb = c at hc ⊢
  cases hc with
  | hit row sel => exact .hit row sel
  | inPlace b locked one sel =>
    rw [updateCache_new]
    exact .inPlace b locked one sel
  | fresh shared sel =>
    have h : Wrote s ino data (cfg.murmur data) fb _ := .fresh shared sel
    rw [updateCache_new, Store.stamp_setDb, Store.setDb_nextUid, Store.releaseLocked_nextUid]
    exact h

namespace Wrote

variable {s : Store bits H} {ino : ℕ} {data : Block bits} {hash : H} {fb : BlockInfo H}
  {r : Store bits H × BlockInfo H}

theorem replaces (h : Wrote s ino data hash fb r) :
    ∃ fblock sblock present, Replaces s.db ino fb (s.lock fb.storageBlock) hash
      ⟨r.1.db, fblock, sblock, present⟩ ∧ fblock.storageBlockNum = r.2.storageBlockNum := by
  cases h with
  | hit row sel =>
    rw [Store.adjust_db]
    exact ⟨_, _, _, .hit row sel, rfl⟩
  | inPlace b locked one sel => exact ⟨_, _, _, .inPlace b locked one sel, rfl⟩
  | fresh shared sel => exact ⟨_, _, _, .fresh shared sel, rfl⟩

theorem fblock_eq (h : Wrote s ino data hash fb r) :
    r.2.fileBlockNum = fb.fileBlockNum ∧ r.2.hash = .digest hash ∧ r.2.empty = fb.empty := by
  cases h <;> exact ⟨rfl, rfl, rfl⟩

/-- The file block has the new hash. -/
theorem fileHash_eq (h : Wrote s ino data hash fb r) (f o : ℕ) :
    r.1.db.fileHash f o =
      if (f, o) = (ino, fb.fileBlockNum) then some hash else s.db.fileHash f o := by
  obtain ⟨_, _, _, hr, -⟩ := h.replaces
  exact hr.fileHash_eq f o

/-- The new data go to the block that the file block is mapped to, unless it was found. -/
theorem content_eq (h : Wrote s ino data hash fb r) (k : ℕ) :
    r.1.content k =
      if (s.db.selectBlockHash hash).isNone ∧ k = r.2.storageBlockNum then some data
      else s.content k := by
  cases h with
  | hit row sel =>
    rw [if_neg fun hh => by rw [sel] at hh; cases hh.1]
    rw [Store.content_adjust, Store.content_setDb, Store.content_releaseLocked]
  | inPlace b locked one sel =>
    rw [content_place, Store.content_setDb,
      (Store.same_put (Store.find_of_lock locked) rfl rfl rfl rfl).content]
    simp [sel]
  | fresh shared sel =>
    rw [content_place, Store.content_setDb, Store.content_releaseLocked]
    simp [sel]

/-- Only a new number gets a new object. -/
theorem stamp_eq (h : Wrote s ino data hash fb r)
    (hb : Replaces.Backed s.db fb (s.lock fb.storageBlock)) {k : ℕ}
    (hk : k ≠ s.db.blockHashes.nextId) : r.1.stamp k = s.stamp k := by
  cases h with
  | hit row sel =>
    rw [Store.stamp_adjust, Store.stamp_setDb, Store.stamp_releaseLocked]
  | inPlace b locked one sel =>
    have hsame := (Store.same_put (Store.find_of_lock locked) rfl rfl rfl rfl).stamp
    rw [stamp_place, Store.stamp_setDb, Store.stamp_setDb, hsame, hsame]
    split
    · rename_i hkn
      have hfind := Store.find_of_lock locked
      rw [hkn, ← (hb b locked).1, Store.stamp, hfind]
      rfl
    · rfl
  | fresh shared sel =>
    rw [stamp_place, if_neg hk, Store.stamp_setDb, Store.stamp_releaseLocked]

/-- A hash that was found is that of the block that the file block gets. -/
theorem num_of_select (h : Wrote s ino data hash fb r) {row : BlockHashRow H}
    (hsel : s.db.selectBlockHash hash = some row) : r.2.storageBlockNum = row.id := by
  cases h with
  | hit row' sel =>
    rw [sel] at hsel
    exact congrArg BlockHashRow.id (Option.some.inj hsel)
  | inPlace b locked one sel =>
    rw [sel] at hsel
    cases hsel
  | fresh shared sel =>
    rw [sel] at hsel
    cases hsel

/-- A write goes to the cache. -/
theorem storage_eq (h : Wrote s ino data hash fb r) : r.1.storage = s.storage := by
  cases h with
  | hit row sel => exact (Store.adjust_storage ..).trans Store.releaseLocked_storage
  | inPlace b locked one sel => rfl
  | fresh shared sel => exact Store.releaseLocked_storage

theorem files_eq (h : Wrote s ino data hash fb r) : r.1.db.files = s.db.files := by
  obtain ⟨_, _, _, hr, -⟩ := h.replaces
  exact hr.files_eq

theorem refs_eq (h : Wrote s ino data hash fb r) (g : H) :
    r.1.db.refs g + (if s.db.fileHash ino fb.fileBlockNum = some g then 1 else 0) =
      s.db.refs g + (if hash = g then 1 else 0) := by
  obtain ⟨_, _, _, hr, -⟩ := h.replaces
  exact hr.refs_eq g

end Wrote

/-! ### Whole rounds -/

/-- The block that a round of `writeBuf` writes. -/
def Chunk.data (c : Chunk) (buf : List UInt8) (old : Block bits) : Block bits :=
  overlay old c.startOffset c.len fun i => buf.getD (c.pos + i) 0

theorem writeBlockWrapper_ok {cfg : Config bits H} {s s' : Store bits H} {fi fi' : FileInfo H}
    {buf : List UInt8} {c : Chunk} (h : writeBlockWrapper cfg s fi buf c = .ok (s', fi')) :
    ∃ l s₁ old, l = getLockedFileBlock cfg s fi c.block ∧ l.store.Touches s₁ ∧
      (c.len < blockSize bits → l.store.shown l.fblock.storageBlock = some old) ∧
      s' = (writeBlock cfg s₁ l.finfo.stIno (c.data buf old) l.fblock).1 ∧
      fi' = l.finfo.setBlock (writeBlock cfg s₁ l.finfo.stIno (c.data buf old) l.fblock).2 := by
  unfold writeBlockWrapper at h
  dsimp only at h
  cases hold : oldData (getLockedFileBlock cfg s fi c.block).store
      (getLockedFileBlock cfg s fi c.block).fblock c.len with
  | error e => simp [hold] at h
  | ok q =>
    obtain ⟨s₁, old⟩ := q
    rw [hold] at h
    cases h
    obtain ⟨htouch, hshown⟩ := oldData_ok hold
    exact ⟨_, s₁, old, rfl, htouch, hshown, rfl, rfl⟩

theorem writeBlockWrapper_isOk {cfg : Config bits H} {s : Store bits H} {fi : FileInfo H}
    {buf : List UInt8} {c : Chunk}
    (h : ((getLockedFileBlock cfg s fi c.block).store.shown
      (getLockedFileBlock cfg s fi c.block).fblock.storageBlock).isSome) :
    ∃ out, writeBlockWrapper cfg s fi buf c = .ok out := by
  obtain ⟨⟨s₁, old⟩, hold⟩ := @oldData_isOk _ _ _ _ c.len fun _ => h
  unfold writeBlockWrapper
  simp only [hold]
  exact ⟨_, rfl⟩

/-- The `block_info` by which `releaseStorageBlock` gives a block up. -/
def heldBlock (cfg : Config bits H) (db : Db H) (fi : FileInfo H) (n : ℕ) : BlockInfo H :=
  match fi.blocks n with
  | some gp => gp
  | none => (loadFileBlock cfg db fi (.new n)).1

/-- The tables after `releaseStorageBlock` of a block with the hash `g`; the empty string is
the hash of no row. -/
def Db.released (db : Db H) (ino n : ℕ) (g : Option H) : Db H :=
  (g.map (db.deleteFileBlock ino n).decreaseUseCount).getD (db.deleteFileBlock ino n)

theorem releaseStorageBlock_ok {cfg : Config bits H} {db : Db H} {fi : FileInfo H} {n : ℕ}
    {r : Db H × FileInfo H × ℕ} (h : releaseStorageBlock cfg db fi n = .ok r) :
    ∃ g : Option H, (heldBlock cfg db fi n).hash = g.elim .empty .digest ∧
      r = (db.released fi.stIno n g, fi.dropBlock n, (heldBlock cfg db fi n).storageBlockNum) := by
  unfold releaseStorageBlock at h
  dsimp only at h
  split at h
  · cases h
  · rename_i hhash
    cases h
    exact ⟨none, hhash, rfl⟩
  · rename_i g hhash
    cases h
    exact ⟨some g, hhash, rfl⟩

theorem releaseStorageBlock_error {cfg : Config bits H} {db : Db H} {fi : FileInfo H} {n : ℕ}
    {e : Fault} (h : releaseStorageBlock cfg db fi n = .error e) : e = .nullHash := by
  unfold releaseStorageBlock at h
  dsimp only at h
  split at h <;> cases h
  rfl

theorem releaseBlock_ok {cfg : Config bits H} {s s' : Store bits H} {fi fi' : FileInfo H} {n : ℕ}
    (h : releaseBlock cfg s fi n = .ok (s', fi')) :
    ∃ g : Option H, (heldBlock cfg s.db fi n).hash = g.elim .empty .digest ∧
      fi' = fi.dropBlock n ∧
      s' = if (heldBlock cfg s.db fi n).storageBlockNum ≠ 0 then
          (s.setDb (s.db.released fi.stIno n g)).adjust
            (heldBlock cfg s.db fi n).storageBlockNum (-1)
        else s.setDb (s.db.released fi.stIno n g) := by
  unfold releaseBlock at h
  cases hr : releaseStorageBlock cfg s.db fi n with
  | error e =>
    rw [hr] at h
    cases h
  | ok r =>
    obtain ⟨g, hhash, rfl⟩ := releaseStorageBlock_ok hr
    refine ⟨g, hhash, ?_⟩
    rw [hr] at h
    dsimp only at h
    split at h
    · rename_i hne
      cases h
      rw [if_pos hne]
      exact ⟨rfl, rfl⟩
    · rename_i hne
      cases h
      rw [if_neg hne]
      exact ⟨rfl, rfl⟩

/-- Giving a block up fails only on a block without a hash. -/
theorem releaseBlock_error {cfg : Config bits H} {s : Store bits H} {fi : FileInfo H} {n : ℕ}
    {e : Fault} (h : releaseBlock cfg s fi n = .error e) : e = .nullHash := by
  unfold releaseBlock at h
  cases hr : releaseStorageBlock cfg s.db fi n with
  | ok q =>
    simp only [hr] at h
    split at h <;> cases h
  | error e' =>
    rw [hr] at h
    cases h
    exact releaseStorageBlock_error hr

end Wwdedup
