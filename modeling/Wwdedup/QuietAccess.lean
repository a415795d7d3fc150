import Wwdedup.Coherence
import Wwdedup.FailedAccess

/-!
# Reads and writes where nothing fails

Where no call throws and nobody holds a lock, `readBuf` and `writeBuf` with their locks and their
transactions (`Failing`) do what `BlocksCache` says that they do, and leave every lock free
(`readBuf_exec`, `writeBuf_exec`).  A handle needs to have its entries under their numbers, as
every handle of a reachable state does.
-/

namespace Wwdedup

open GuardedRun Throwing

variable {bits : ℕ} {H : Type} [DecidableEq H]

/-- The set of the handle has each entry under its number. -/
def FileInfo.Keyed (fi : FileInfo H) : Prop := ∀ n fb, fi.blocks n = some fb → fb.fileBlockNum = n

section

omit [DecidableEq H]

theorem FileInfo.Keyed.setBlock {fi : FileInfo H} (h : fi.Keyed) (fb : BlockInfo H) :
    (fi.setBlock fb).Keyed := by
  intro n fb' hn
  rw [FileInfo.setBlock_blocks, Function.update_apply] at hn
  split at hn
  · rename_i hkey
    cases hn
    exact hkey.symm
  · exact h n fb' hn

/-- An entry that is there already. -/
theorem FileInfo.Keyed.setBlock_self {fi : FileInfo H} (h : fi.Keyed) {n : ℕ} {fb : BlockInfo H}
    (hfb : fi.blocks n = some fb) : fi.setBlock fb = fi := by
  unfold FileInfo.setBlock
  rw [h n fb hfb, ← hfb, Function.update_eq_self]

theorem FileInfo.setBlock_setBlock (fi : FileInfo H) (fb fb' : BlockInfo H)
    (h : fb.fileBlockNum = fb'.fileBlockNum) : (fi.setBlock fb).setBlock fb' = fi.setBlock fb' := by
  unfold FileInfo.setBlock
  dsimp only
  rw [h, Function.update_idem]

theorem Store.put_put (s : Store bits H) {b b' : StorageBlock bits H}
    (h : b.storageBlockNum = b'.storageBlockNum) : (s.put b).put b' = s.put b' := by
  unfold Store.put
  rw [KeyedTable.replace_replace _ h]

end

theorem fileBlock_num (cfg : Config bits H) (s : Store bits H) {fi : FileInfo H} (h : fi.Keyed)
    (n : ℕ) : (fileBlock cfg s fi n).1.fileBlockNum = n := by
  unfold fileBlock
  cases hfb : fi.blocks n with
  | some item => exact h n item hfb
  | none =>
    unfold loadFileBlock
    dsimp only
    split
    · rfl
    · split <;> rfl

theorem getLockedFileBlock_keyed (cfg : Config bits H) (s : Store bits H) {fi : FileInfo H}
    (h : fi.Keyed) (n : ℕ) : (getLockedFileBlock cfg s fi n).finfo.Keyed := by
  unfold getLockedFileBlock locateBlock
  dsimp only
  split
  · exact h.setBlock _
  · exact h.setBlock _

namespace World

def setStore (w : World bits H) (s : Store bits H) : World bits H := { w with store := s }

section

omit [DecidableEq H]

theorem setInfo_setInfo (w : World bits H) (n : ℕ) (fb fb' : BlockInfo H) :
    (w.setInfo n fb).setInfo n fb' = w.setInfo n fb' := by
  unfold setInfo
  dsimp only
  rw [Function.update_idem]

theorem put_put (w : World bits H) (b b' : StorageBlock bits H)
    (h : b.storageBlockNum = b'.storageBlockNum) : (w.put b).put b' = w.put b' := by
  unfold put
  rw [Store.put_put _ h]

theorem start_setInfo (s : Store bits H) (fi : FileInfo H) {n : ℕ} {fb : BlockInfo H}
    (h : fb.fileBlockNum = n) : (start s fi).setInfo n fb = start s (fi.setBlock fb) := by
  cases h
  rfl

/-- The entry is changed under its lock. -/
theorem start_unlock (s : Store bits H) (fi : FileInfo H) {n : ℕ} {fb : BlockInfo H}
    (h : fb.fileBlockNum = n) : (((start s fi).setInfo n fb).setInfoLock n true).setInfoLock n
      false = start s (fi.setBlock fb) := by
  rw [setInfoLock_cancel rfl, start_setInfo s fi h]

theorem start_info (s : Store bits H) (fi : FileInfo H) {n : ℕ} {fb : BlockInfo H}
    (h : fb.fileBlockNum = n) : (start s (fi.setBlock fb)).info n = fb := by
  rw [← start_setInfo s fi h, info_setInfo]

@[simp] theorem start_store (s : Store bits H) (fi : FileInfo H) : (start s fi).store = s := rfl

@[simp] theorem start_finfo (s : Store bits H) (fi : FileInfo H) : (start s fi).finfo = fi := rfl

@[simp] theorem setBlockLock_store (w : World bits H) (num : ℕ) (held : Bool) :
    (w.setBlockLock num held).store = w.store := rfl

end

end World

/-- The entry of the block that was located. -/
theorem located_info (cfg : Config bits H) {fi : FileInfo H} (h : fi.Keyed) (s : Store bits H)
    (n : ℕ) : (World.start (getLockedFileBlock cfg s fi n).store
      (getLockedFileBlock cfg s fi n).finfo).info n = (getLockedFileBlock cfg s fi n).fblock := by
  have hnum := fileBlock_num cfg s h n
  unfold getLockedFileBlock locateBlock
  dsimp only
  split
  · exact World.start_info _ _ hnum
  · exact World.start_info _ _ hnum

namespace Failing

variable {cfg : Config bits H} {fails : Point → Bool} {s s' : Store bits H} {fi fi' : FileInfo H}
  {n num : ℕ} {w v : World bits H} {α : Type}

theorem exec_modify {σ : Type} (f : σ → σ) (t : σ) :
    exec (modify f : Throws σ PUnit) t = (.ok ⟨⟩, f t) := rfl

theorem point_exec (hnone : ∀ p, fails p = false) (p : Point) {σ : Type} (t : σ) :
    exec (point fails Stop.exception p) t = (.ok ⟨⟩, t) := by
  rw [point, hnone]
  rfl

omit [DecidableEq H] in
/-- A body that throws in a guard. -/
theorem guarded_throw {body : Throws (World bits H) α} {p : Point}
    (hfree : w.blockLocks num = false)
    (hbody : (exec body (w.setBlockLock num true)).1 = .error (.exception p)) :
    (exec (guarded num body) w).1 = .error (.exception p) := by
  rw [guarded, exec_get_bind, hfree]
  show (exec (modify (fun _ => w.setBlockLock num true) >>= _) w).1 = _
  rw [exec_modify_bind, exec_bind, exec_catchException]
  rcases hr : exec body (w.setBlockLock num true) with ⟨e | a, u⟩
  · rw [hr] at hbody
    cases hbody
    rfl
  · rw [hr] at hbody
    cases hbody

theorem loadInfo_exec (hnone : ∀ p, fails p = false) :
    exec (loadInfo cfg fails n) w = (.ok (loadFileBlock cfg w.store.db w.finfo (.new n)).2,
      w.setInfo n { (loadFileBlock cfg w.store.db w.finfo (.new n)).1 with loaded := true }) := by
  rw [loadInfo, exec_get_bind]
  split
  · rfl
  · rw [exec_bind_ok (point_exec hnone _ _)]
    rfl

/-- The entry is the one that the handle has, or is loaded. -/
theorem ensureInfo_exec (hnone : ∀ p, fails p = false) (hkeys : fi.Keyed) (s : Store bits H)
    (n : ℕ) :
    exec (ensureInfo cfg fails n) (.start s fi) = (.ok (fileBlock cfg s fi n).2,
      (World.start s (fi.setBlock (fileBlock cfg s fi n).1)).setInfoLock n true) := by
  have hnum := fileBlock_num cfg s hkeys n
  rw [ensureInfo, exec_get_bind, ← World.start_setInfo _ _ hnum]
  unfold fileBlock at hnum ⊢
  cases hfb : fi.blocks n with
  | some item =>
    have hself : (World.start s fi).setInfo n item = .start s fi := by
      rw [World.start_setInfo _ _ (hkeys n item hfb), hkeys.setBlock_self hfb]
    rw [show (World.start s fi).finfo.blocks n = some item from hfb]
    dsimp only
    rw [exec_bind_ok (lockInfo_exec rfl), hself]
    rfl
  | none =>
    rw [show (World.start s fi).finfo.blocks n = none from hfb]
    dsimp only
    rw [exec_modify_bind, exec_bind_ok (lockInfo_exec rfl)]
    have hload : exec (loadInfo cfg fails n)
        (((World.start s fi).setInfo n (.new n)).setInfoLock n true) =
      (.ok (loadFileBlock cfg s.db fi (.new n)).2,
        (((World.start s fi).setInfo n (.new n)).setInfo n
          { (loadFileBlock cfg s.db fi (.new n)).1 with loaded := true }).setInfoLock n true) :=
      loadInfo_exec hnone
    rw [World.setInfo_setInfo] at hload
    exact hload

omit [DecidableEq H] in
theorem ensureBlock_exec (s : Store bits H) (fi : FileInfo H) {item : BlockInfo H}
    (hnum : item.fileBlockNum = n) (useCount : ℤ) :
    exec (ensureBlock n useCount) ((World.start s (fi.setBlock item)).setInfoLock n true) =
      (.ok ⟨⟩, (World.start (ensureLoaded s item useCount).1 (fi.setBlock
        { item with storageBlock := some (ensureLoaded s item useCount).2.ptr })).setInfoLock
          n true) := by
  have hinfo : ((World.start s (fi.setBlock item)).setInfoLock n true).info n = item :=
    World.start_info s fi hnum
  rw [ensureBlock, exec_get_bind, hinfo]
  refine guarded_ok rfl ?_ rfl
  rw [exec_modify, show (((World.start s (fi.setBlock item)).setInfoLock n true).setBlockLock
    item.storageBlockNum true).info n = item from hinfo]
  cases hnum
  rw [← FileInfo.setBlock_setBlock fi item { item with
    storageBlock := some (ensureLoaded s item useCount).2.ptr } rfl]
  rfl

/-- **The block is located as without the locks**, and the lock of its entry is held. -/
theorem getLockedFileBlock_exec (hnone : ∀ p, fails p = false) (hkeys : fi.Keyed)
    (s : Store bits H) (n : ℕ) :
    exec (getLockedFileBlock cfg fails n) (.start s fi) = (.ok ⟨⟩,
      (World.start (Wwdedup.getLockedFileBlock cfg s fi n).store
        (Wwdedup.getLockedFileBlock cfg s fi n).finfo).setInfoLock n true) := by
  have hnum := fileBlock_num cfg s hkeys n
  have hinfo : ((World.start s (fi.setBlock (fileBlock cfg s fi n).1)).setInfoLock n true).info n =
      (fileBlock cfg s fi n).1 := World.start_info s fi hnum
  rw [getLockedFileBlock, exec_bind, ensureInfo_exec hnone hkeys]
  dsimp only
  rw [exec_get_bind, hinfo, World.setInfoLock_store, World.start_store]
  unfold Wwdedup.getLockedFileBlock locateBlock
  dsimp only
  by_cases hkeep : ((fileBlock cfg s fi n).1.empty ||
      (s.lock (fileBlock cfg s fi n).1.storageBlock).isSome) = true
  · rw [if_pos hkeep, if_pos hkeep]
    rfl
  · rw [if_neg hkeep, if_neg hkeep, ensureBlock_exec s fi hnum]

omit [DecidableEq H] in
theorem populateStorageBlock_exec (hnone : ∀ p, fails p = false) (w : World bits H) (n : ℕ)
    (b : StorageBlock bits H) :
    match Wwdedup.populateStorageBlock w.store.storage b with
    | .ok b' => exec (populateStorageBlock fails n b) (w.put b) = (.ok b', w.put b')
    | .error _ => (exec (populateStorageBlock fails n b) (w.put b)).1 =
        .error (.exception ⟨n, .readStorage⟩) := by
  rw [populateStorageBlock]
  unfold Wwdedup.populateStorageBlock
  by_cases hkeep : b.data.isSome ∨ b.storageBlockNum = 0
  · rw [if_pos hkeep, if_pos hkeep]
    rfl
  · let zeros : StorageBlock bits H := { b with data := some (zeroBlock bits) }
    rw [if_neg hkeep, if_neg hkeep, exec_modify_bind, World.put_put w b zeros rfl,
      exec_bind_ok (point_exec hnone _ _), exec_get_bind,
      show (w.put zeros).store.storage = w.store.storage from rfl]
    cases w.store.storage.read b.storageBlockNum with
    | none => rfl
    | some x =>
      dsimp only
      rw [World.put_put w zeros { b with data := some x } rfl]
      rfl

/-- **A block is read as without the locks.** -/
theorem readChunk_exec (cfg : Config bits H) (hnone : ∀ p, fails p = false) (hkeys : fi.Keyed)
    (s : Store bits H) (c : Chunk) :
    match Wwdedup.readChunk cfg s fi c with
    | .ok (s', fi', bytes) =>
      exec (readChunk cfg fails c) (.start s fi) = (.ok bytes, .start s' fi')
    | .error _ => (exec (readChunk cfg fails c) (.start s fi)).1 =
        .error (.exception ⟨c.block, .readStorage⟩) := by
  have hinfo := located_info cfg hkeys s c.block
  rw [readChunk, exec_bind_ok (getLockedFileBlock_exec hnone hkeys s c.block), exec_get_bind,
    unlockInfo, exec_modify_bind, setInfoLock_cancel rfl, World.setInfoLock_info, hinfo,
    World.setInfoLock_store]
  unfold Wwdedup.readChunk readLocated
  generalize Wwdedup.getLockedFileBlock cfg s fi c.block = l at hinfo ⊢
  dsimp only [World.start_store]
  cases l.store.lock l.fblock.storageBlock with
  | none => rfl
  | some b =>
    dsimp only
    rw [exec_modify_bind]
    by_cases hzero : b.storageBlockNum = 0
    · rw [if_pos hzero, if_pos hzero]
      exact guarded_ok rfl rfl rfl
    · rw [if_neg hzero, if_neg hzero]
      have hpop := populateStorageBlock_exec hnone
        ((World.start l.store l.finfo).setBlockLock b.storageBlockNum true) c.block
        { b with atime := l.store.now }
      rw [World.setBlockLock_store, World.start_store] at hpop
      cases hp : Wwdedup.populateStorageBlock l.store.storage { b with atime := l.store.now } with
      | error e =>
        rw [hp] at hpop
        refine guarded_throw rfl ?_
        exact congrArg Prod.fst (exec_bind_error hpop _)
      | ok b' =>
        rw [hp] at hpop
        refine guarded_ok rfl ?_ rfl
        exact exec_bind_ok hpop _

omit [DecidableEq H] in
/-- The old bytes are taken as without the locks. -/
theorem oldData_exec (hnone : ∀ p, fails p = false) (hfree : ∀ num, w.blockLocks num = false)
    (c : Chunk) :
    match Wwdedup.oldData w.store (w.info c.block) c.len with
    | .ok (s', old) => exec (oldData fails c) w = (.ok old, w.setStore s')
    | .error _ => (exec (oldData fails c) w).1 = .error (.exception ⟨c.block, .readStorage⟩) := by
  rw [oldData, exec_get_bind]
  unfold Wwdedup.oldData
  cases w.store.lock (w.info c.block).storageBlock with
  | none => rfl
  | some b =>
    dsimp only
    by_cases hpart : b.storageBlockNum ≠ 0 ∧ c.len < blockSize bits
    · rw [if_pos hpart]
      have hpop := populateStorageBlock_exec hnone (w.setBlockLock b.storageBlockNum true) c.block
        { b with atime := w.store.now }
      rw [World.setBlockLock_store] at hpop
      cases hp : Wwdedup.populateStorageBlock w.store.storage { b with atime := w.store.now } with
      | error e =>
        rw [hp] at hpop
        refine guarded_throw (hfree _) ?_
        rw [exec_modify_bind, if_pos hpart]
        exact congrArg Prod.fst (exec_bind_error hpop _)
      | ok b' =>
        rw [hp] at hpop
        refine guarded_ok (hfree _) ?_ (hfree _)
        rw [exec_modify_bind, if_pos hpart]
        exact exec_bind_ok hpop _
    · rw [if_neg hpart]
      refine guarded_ok (hfree _) ?_ (hfree _)
      rw [exec_modify_bind, if_neg hpart]
      rfl

/-- The transaction is the one without the locks. -/
theorem replaceInfo_exec (hnone : ∀ p, fails p = false) (hfree : ∀ num, w.blockLocks num = false)
    (hsaved : w.saved = none) (hnum : (w.info n).fileBlockNum = n) (hash : H) :
    exec (replaceInfo fails n hash) w =
      (.ok (commitBlock w.store w.finfo.stIno hash (w.info n)).present,
        (w.setStore (commitBlock w.store w.finfo.stIno hash (w.info n)).store).setInfo n
          (commitBlock w.store w.finfo.stIno hash (w.info n)).fblock) := by
  have hany : ((w.store.lock (w.info n).storageBlock).any fun b =>
      w.blockLocks b.storageBlockNum) = false := by
    cases w.store.lock (w.info n).storageBlock with
    | none => rfl
    | some b => exact hfree b.storageBlockNum
  have hrun := replaceStorageBlock_exec w.finfo.stIno hash w.store.db (w.info n)
    (w.store.lock (w.info n).storageBlock) (hnone ⟨(w.info n).fileBlockNum, .rollback⟩)
  rw [hnum, List.find?_eq_none.mpr fun place _ => by rw [hnone]; decide] at hrun
  rw [replaceInfo, exec_get_bind, hany, if_neg (by simp), exec_zoom, World.replacing, hsaved, hrun]
  unfold outcome commitBlock World.replaced
  generalize Wwdedup.replaceStorageBlock w.store.db w.finfo.stIno (w.info n)
    (w.store.lock (w.info n).storageBlock) hash = q
  dsimp only
  cases q.sblock with
  | none =>
    rw [World.setInfo, World.setStore, hsaved]
    rfl
  | some b =>
    dsimp only [Option.map_some, Option.getD_some]
    rw [← hfree b.storageBlockNum, Function.update_eq_self, World.setInfo, World.setStore, hsaved]
    rfl

theorem writeBlock_exec (cfg : Config bits H) (w : World bits H) (n : ℕ)
    (hnone : ∀ p, fails p = false) (hfree : ∀ num, w.blockLocks num = false)
    (hsaved : w.saved = none) (hnum : (w.info n).fileBlockNum = n) (data : Block bits) :
    exec (writeBlock cfg fails n data) w =
      (.ok ⟨⟩,
        (w.setStore (Wwdedup.writeBlock cfg w.store w.finfo.stIno data (w.info n)).1).setInfo n
          (Wwdedup.writeBlock cfg w.store w.finfo.stIno data (w.info n)).2) := by
  rw [writeBlock, exec_bind_ok (replaceInfo_exec hnone hfree hsaved hnum _)]
  unfold Wwdedup.writeBlock
  dsimp only
  generalize commitBlock w.store w.finfo.stIno (cfg.murmur data) (w.info n) = r
  rw [exec_get_bind]
  let w' : World bits H := (w.setStore r.store).setInfo n r.fblock
  have hset : (w'.setStore (updateCache w'.store (w'.info n) r.present data
        (cfg.murmur data)).1).setInfo n
        (updateCache w'.store (w'.info n) r.present data (cfg.murmur data)).2 =
      (w.setStore (updateCache r.store r.fblock r.present data (cfg.murmur data)).1).setInfo n
        (updateCache r.store r.fblock r.present data (cfg.murmur data)).2 := by
    rw [show w'.info n = r.fblock from info_setInfo _ n r.fblock]
    exact (w.setStore _).setInfo_setInfo n r.fblock _
  cases hp : r.present with
  | true =>
    rw [hp] at hset
    exact congrArg (Prod.mk _) hset
  | false =>
    rw [hp] at hset
    refine guarded_ok (hfree _) ?_ (hfree _)
    rw [← hset]
    rfl

/-- **A block is written as without the locks.** -/
theorem writeBlockWrapper_exec (cfg : Config bits H)
    (hnone : ∀ p, fails p = false) (hkeys : fi.Keyed) (s : Store bits H)
    (buf : List UInt8) (c : Chunk) :
    match Wwdedup.writeBlockWrapper cfg s fi buf c with
    | .ok (s', fi') =>
      exec (writeBlockWrapper cfg fails buf c) (.start s fi) = (.ok ⟨⟩, .start s' fi')
    | .error _ => (exec (writeBlockWrapper cfg fails buf c) (.start s fi)).1 =
        .error (.exception ⟨c.block, .readStorage⟩) := by
  have hinfo := located_info cfg hkeys s c.block
  have hnum := (getLockedFileBlock_locates cfg s fi c.block).fblock_eq.1.trans
    (fileBlock_num cfg s hkeys c.block)
  rw [writeBlockWrapper, exec_bind_ok (getLockedFileBlock_exec hnone hkeys s c.block)]
  unfold Wwdedup.writeBlockWrapper
  generalize Wwdedup.getLockedFileBlock cfg s fi c.block = l at hinfo hnum ⊢
  have hold := oldData_exec (w := (World.start l.store l.finfo).setInfoLock c.block true) hnone
    (fun _ => rfl) c
  rw [World.setInfoLock_info, hinfo, World.setInfoLock_store, World.start_store] at hold
  dsimp only
  cases ho : Wwdedup.oldData l.store l.fblock c.len with
  | error e =>
    rw [ho] at hold
    exact congrArg Prod.fst (exec_bind_error hold _)
  | ok q =>
    obtain ⟨s', old⟩ := q
    rw [ho] at hold
    dsimp only
    rw [exec_bind_ok hold]
    have hsame : ((World.start s' l.finfo).setInfoLock c.block true).info c.block = l.fblock :=
      hinfo
    have hwrite := writeBlock_exec cfg ((World.start s' l.finfo).setInfoLock c.block true) c.block
      hnone (fun _ => rfl) rfl (by rw [hsame]; exact hnum) (c.data buf old)
    rw [hsame] at hwrite
    refine (exec_bind_ok hwrite _).trans ?_
    -- the entry that the write leaves is the one of the block, and its lock is released
    have hblock :=
      (writeBlock_wrote cfg s' l.finfo.stIno (c.data buf old) l.fblock).fblock_eq.1.trans hnum
    exact congrArg (Prod.mk _) (World.start_unlock _ _ hblock)

/-! ### The loops -/

theorem readChunk_keyed {c : Chunk} {bytes : List UInt8} (hkeys : fi.Keyed)
    (h : Wwdedup.readChunk cfg s fi c = .ok (s', fi', bytes)) : fi'.Keyed := by
  have hl := getLockedFileBlock_keyed cfg s hkeys c.block
  unfold Wwdedup.readChunk readLocated at h
  dsimp only at h
  split at h
  · cases h
    exact hl
  · split at h
    · cases h
      exact hl
    · split at h
      · cases h
      · cases h
        exact hl

theorem writeBlockWrapper_keyed {buf : List UInt8} {c : Chunk} (hkeys : fi.Keyed)
    (h : Wwdedup.writeBlockWrapper cfg s fi buf c = .ok (s', fi')) : fi'.Keyed := by
  unfold Wwdedup.writeBlockWrapper at h
  dsimp only at h
  split at h
  · cases h
  · cases h
    exact (getLockedFileBlock_keyed cfg s hkeys c.block).setBlock _

theorem readChunks_exec (cfg : Config bits H)
    (hnone : ∀ p, fails p = false) (cs : List Chunk) (s : Store bits H)
    (fi : FileInfo H) (hkeys : fi.Keyed) :
    match Wwdedup.readChunks cfg s fi cs with
    | .ok (s', fi', bytes) =>
      exec (readChunks cfg fails cs) (.start s fi) = (.ok bytes, .start s' fi')
    | .error _ =>
      ∃ p, (exec (readChunks cfg fails cs) (.start s fi)).1 = .error (.exception p) := by
  induction cs generalizing s fi with
  | nil => rfl
  | cons c cs ih =>
    have hchunk := readChunk_exec cfg hnone hkeys s c
    unfold Wwdedup.readChunks
    cases hr : Wwdedup.readChunk cfg s fi c with
    | error e =>
      rw [hr] at hchunk
      exact ⟨_, congrArg Prod.fst (exec_bind_error hchunk _)⟩
    | ok q =>
      obtain ⟨s₁, fi₁, bytes⟩ := q
      rw [hr] at hchunk
      have hrest := ih s₁ fi₁ (readChunk_keyed hkeys hr)
      rw [readChunks, exec_bind_ok hchunk]
      dsimp only
      cases hr' : Wwdedup.readChunks cfg s₁ fi₁ cs with
      | error e =>
        rw [hr'] at hrest
        obtain ⟨p, hp⟩ := hrest
        exact ⟨p, congrArg Prod.fst (exec_bind_error hp _)⟩
      | ok q =>
        rw [hr'] at hrest
        exact exec_bind_ok hrest _

theorem writeChunks_exec (hnone : ∀ p, fails p = false) (buf : List UInt8) (cs : List Chunk)
    (s : Store bits H) (fi : FileInfo H) (hkeys : fi.Keyed) :
    match Wwdedup.writeChunks cfg buf s fi cs with
    | .ok (s', fi') => exec (writeChunks cfg fails buf cs) (.start s fi) = (.ok ⟨⟩, .start s' fi')
    | .error _ =>
      ∃ p, (exec (writeChunks cfg fails buf cs) (.start s fi)).1 = .error (.exception p) := by
  induction cs generalizing s fi with
  | nil => rfl
  | cons c cs ih =>
    have hchunk := writeBlockWrapper_exec cfg hnone hkeys s buf c
    unfold Wwdedup.writeChunks
    cases hr : Wwdedup.writeBlockWrapper cfg s fi buf c with
    | error e =>
      rw [hr] at hchunk
      exact ⟨_, congrArg Prod.fst (exec_bind_error hchunk _)⟩
    | ok q =>
      rw [hr] at hchunk
      rw [writeChunks, exec_bind_ok hchunk]
      exact ih q.1 q.2 (writeBlockWrapper_keyed hkeys hr)

/-- **`readBuf` is the `readBuf` of the cache where nothing fails.** -/
theorem readBuf_exec (hnone : ∀ p, fails p = false) (hkeys : fi.Keyed) (s : Store bits H)
    (size offset : ℕ) :
    match Wwdedup.readBuf cfg s fi size offset with
    | .ok (s', fi', bytes) =>
      exec (readBuf cfg fails size offset) (.start s fi) = (.ok bytes, .start s' fi')
    | .error _ => ∃ e, (exec (readBuf cfg fails size offset) (.start s fi)).1 = .error e := by
  rw [readBuf, exec_get_bind, World.start_finfo]
  unfold Wwdedup.readBuf
  by_cases hstart : ReadStart fi.stSize offset
  · rw [if_pos hstart, if_pos hstart]
    dsimp only
    have hchunks := readChunks_exec cfg hnone (chunks bits (if size + offset > fi.stSize
      then fi.stSize - offset else size) offset) s fi hkeys
    cases hr : Wwdedup.readChunks cfg s fi (chunks bits (if size + offset > fi.stSize
        then fi.stSize - offset else size) offset) with
    | error e =>
      rw [hr] at hchunks
      obtain ⟨p, hp⟩ := hchunks
      exact ⟨_, hp⟩
    | ok q =>
      rw [hr] at hchunks
      exact hchunks
  · rw [if_neg hstart, if_neg hstart]
    exact ⟨.crash, rfl⟩

/-- **`writeBuf` is the `writeBuf` of the cache where nothing fails.** -/
theorem writeBuf_exec (hnone : ∀ p, fails p = false) (hkeys : fi.Keyed) (s : Store bits H)
    (buf : List UInt8) (offset : ℕ) :
    match Wwdedup.writeBuf cfg s fi buf offset with
    | .ok (s', fi') => exec (writeBuf cfg fails buf offset) (.start s fi) = (.ok ⟨⟩, .start s' fi')
    | .error _ =>
      ∃ p, (exec (writeBuf cfg fails buf offset) (.start s fi)).1 = .error (.exception p) := by
  have hgrow : exec (growFile fails (buf.length + offset)) (.start s fi) = (.ok ⟨⟩,
      .start (Wwdedup.growFile s fi (buf.length + offset)).1
        (Wwdedup.growFile s fi (buf.length + offset)).2) := by
    rw [growFile, exec_get_bind, World.start_finfo]
    by_cases hgrows : buf.length + offset > fi.stSize
    · rw [if_pos hgrows, exec_bind_ok (point_exec hnone _ _)]
      rfl
    · rw [if_neg hgrows]
      unfold Wwdedup.growFile
      rw [if_neg hgrows]
      rfl
  rw [writeBuf, exec_bind_ok hgrow]
  refine writeChunks_exec hnone buf _ _ _ ?_
  unfold Wwdedup.growFile
  split
  · dsimp only
    unfold FileInfo.Keyed
    rw [blocks_ftruncate]
    exact hkeys
  · exact hkeys

end Failing

end Wwdedup
