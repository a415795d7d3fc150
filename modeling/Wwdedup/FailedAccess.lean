import Wwdedup.Failures

/-!
# Reads and writes that fail

`readBuf` and `writeBuf` with their locks.  `_getLockedFileBlock` takes the lock of the
`block_info` by hand, keeps it when it returns, and its caller unlocks it by hand; the locks of
storage blocks are taken by guards that release them on every way out.  The entry of a block is
in the handle's set before it is loaded, and stays there when the load throws.

A call that has to wait for a lock that nobody will release ends with `Stop.blocked`.
-/

namespace Wwdedup

open Throwing

variable {bits : ℕ} {H : Type} [DecidableEq H]

/-- What a read or a write works on: the store with what a rollback brings back, the handle, and
the locks that are held, by the number of the file block or of the storage block. -/
structure World (bits : ℕ) (H : Type) where
  store : Store bits H
  saved : Option (Db H)
  finfo : FileInfo H
  infoLocks : ℕ → Bool
  blockLocks : ℕ → Bool

namespace World

/-- The state in which `readBuf` or `writeBuf` is called while nobody holds a lock. -/
def start (s : Store bits H) (fi : FileInfo H) : World bits H :=
  ⟨s, none, fi, fun _ => false, fun _ => false⟩

/-- The `block_info` of the block. -/
def info (w : World bits H) (n : ℕ) : BlockInfo H := (w.finfo.blocks n).getD (.new n)

def setInfo (w : World bits H) (n : ℕ) (fb : BlockInfo H) : World bits H :=
  { w with finfo := { w.finfo with blocks := Function.update w.finfo.blocks n (some fb) } }

def put (w : World bits H) (b : StorageBlock bits H) : World bits H :=
  { w with store := w.store.put b }

def setInfoLock (w : World bits H) (n : ℕ) (held : Bool) : World bits H :=
  { w with infoLocks := Function.update w.infoLocks n held }

def setBlockLock (w : World bits H) (num : ℕ) (held : Bool) : World bits H :=
  { w with blockLocks := Function.update w.blockLocks num held }

/-- The world as `replaceStorageBlock` sees it. -/
def replacing (w : World bits H) (n : ℕ) : Replacing bits H :=
  ⟨⟨w.store.db, w.saved⟩, w.info n, w.store.lock (w.info n).storageBlock, false⟩

/-- What it leaves. -/
def replaced (w : World bits H) (n : ℕ) (r : Replacing bits H) : World bits H where
  store := (r.sblock.map (w.store.setDb r.tables.db).put).getD (w.store.setDb r.tables.db)
  saved := r.tables.saved
  finfo := (w.setInfo n r.fblock).finfo
  infoLocks := w.infoLocks
  blockLocks := (r.sblock.map fun b =>
    Function.update w.blockLocks b.storageBlockNum r.locked).getD w.blockLocks

end World

namespace Failing

variable (cfg : Config bits H) (fails : Point → Bool)

/-- `item.lock.lock()`. -/
def lockInfo (n : ℕ) : Throws (World bits H) PUnit := do
  let w ← get
  if w.infoLocks n then throw .blocked else set (w.setInfoLock n true)

def unlockInfo (n : ℕ) : Throws (World bits H) PUnit := modify fun w => w.setInfoLock n false

/-- `unique_lock<mutex> guard(block->lock)` around the body. -/
def guarded {α : Type} (num : ℕ) (body : Throws (World bits H) α) : Throws (World bits H) α := do
  let w ← get
  if w.blockLocks num then throw .blocked
  else
    set (w.setBlockLock num true)
    let a ← catchException body fun p => do
      modify fun w => w.setBlockLock num false
      throw (.exception p)
    modify fun w => w.setBlockLock num false
    return a

/-- `DataBase::loadFileBlock` of the new entry of the handle; the use count that was read. -/
def loadInfo (n : ℕ) : Throws (World bits H) ℤ := do
  let w ← get
  -- there is no statement for a block past the end of the file
  if (n : ℤ) * cfg.dbBlockSize > w.finfo.stSize then
    set (w.setInfo n { (loadFileBlock cfg w.store.db w.finfo (.new n)).1 with loaded := true })
    return (loadFileBlock cfg w.store.db w.finfo (.new n)).2
  else
    point fails Stop.exception ⟨n, .getFileBlock⟩
    set (w.setInfo n { (loadFileBlock cfg w.store.db w.finfo (.new n)).1 with loaded := true })
    return (loadFileBlock cfg w.store.db w.finfo (.new n)).2

/-- `finfo->blocks.ensure`: the entry is put into the set before the functor is run. -/
def ensureInfo (n : ℕ) : Throws (World bits H) ℤ := do
  let w ← get
  match w.finfo.blocks n with
  | some _ =>
    lockInfo n
    return 0
  | none =>
    modify fun w => w.setInfo n (.new n)
    lockInfo n
    loadInfo cfg fails n

/-- `_blocks->ensure` for the storage block of the entry. -/
def ensureBlock (n : ℕ) (useCount : ℤ) : Throws (World bits H) PUnit := do
  let w ← get
  guarded (w.info n).storageBlockNum
    (modify fun w =>
      let r := ensureLoaded w.store (w.info n) useCount
      { w with store := r.1 }.setInfo n { w.info n with storageBlock := some r.2.ptr })

/-- `_getLockedFileBlock`. -/
def getLockedFileBlock (n : ℕ) : Throws (World bits H) PUnit := do
  let useCount ← ensureInfo cfg fails n
  let w ← get
  if (w.info n).empty || (w.store.lock (w.info n).storageBlock).isSome then return ⟨⟩
  else ensureBlock n useCount

/-- `_populateStorageBlock`: the vector is resized before the slot is read into it. -/
def populateStorageBlock (n : ℕ) (b : StorageBlock bits H) :
    Throws (World bits H) (StorageBlock bits H) := do
  if b.data.isSome ∨ b.storageBlockNum = 0 then return b
  else
    modify fun w => w.put { b with data := some (zeroBlock bits) }
    point fails Stop.exception ⟨n, .readStorage⟩
    let w ← get
    match w.store.storage.read b.storageBlockNum with
    | none => throw (.exception ⟨n, .readStorage⟩)
    | some x =>
      set (w.put { b with data := some x })
      return { b with data := some x }

/-- The round of `readBuf` for one block, with `_getStorageBlock`. -/
def readChunk (c : Chunk) : Throws (World bits H) (List UInt8) := do
  getLockedFileBlock cfg fails c.block
  let w ← get
  unlockInfo c.block
  match w.store.lock (w.info c.block).storageBlock with
  | none => return List.replicate c.len 0
  | some block =>
    let block := { block with atime := w.store.now }
    modify fun w => w.put block
    guarded block.storageBlockNum do
      if block.storageBlockNum = 0 then return List.replicate c.len 0
      else
        let block ← populateStorageBlock fails c.block block
        return slice (block.data.getD (zeroBlock bits)) c.startOffset c.len

/-- The part of `_writeBlockWrapper` that takes the old bytes. -/
def oldData (c : Chunk) : Throws (World bits H) (Block bits) := do
  let w ← get
  match w.store.lock (w.info c.block).storageBlock with
  | none => return zeroBlock bits
  | some block =>
    guarded block.storageBlockNum do
      let block := { block with atime := w.store.now }
      modify fun w => w.put block
      if block.storageBlockNum ≠ 0 ∧ c.len < blockSize bits then
        let block ← populateStorageBlock fails c.block block
        return block.data.getD (zeroBlock bits)
      else return zeroBlock bits

/-- `replaceStorageBlock` of the world; it waits for the lock of the old block in its
transaction. -/
def replaceInfo (n : ℕ) (hash : H) : Throws (World bits H) Bool := do
  let w ← get
  if (w.store.lock (w.info n).storageBlock).any (fun b => w.blockLocks b.storageBlockNum) ∧
      fails ⟨n, .beginExclusive⟩ = false then throw .blocked
  else
    zoom (fun w => w.replacing n) (fun r w => w.replaced n r)
      (replaceStorageBlock fails n w.finfo.stIno hash)

/-- `_writeBlock`. -/
def writeBlock (n : ℕ) (data : Block bits) : Throws (World bits H) PUnit := do
  let present ← replaceInfo fails n (cfg.murmur data)
  let w ← get
  let update : Throws (World bits H) PUnit := modify fun w =>
    let r := updateCache w.store (w.info n) present data (cfg.murmur data)
    { w with store := r.1 }.setInfo n r.2
  if present then update else guarded (w.info n).storageBlockNum update

/-- `_writeBlockWrapper`. -/
def writeBlockWrapper (buf : List UInt8) (c : Chunk) : Throws (World bits H) PUnit := do
  getLockedFileBlock cfg fails c.block
  let old ← oldData fails c
  writeBlock cfg fails c.block (c.data buf old)
  unlockInfo c.block

def readChunks : List Chunk → Throws (World bits H) (List UInt8)
  | [] => return []
  | c :: cs => do
    let bytes ← readChunk cfg fails c
    let rest ← readChunks cs
    return bytes ++ rest

def writeChunks (buf : List UInt8) : List Chunk → Throws (World bits H) PUnit
  | [] => return ⟨⟩
  | c :: cs => do
    writeBlockWrapper cfg fails buf c
    writeChunks buf cs

/-- `readBuf`. -/
def readBuf (size offset : ℕ) : Throws (World bits H) (List UInt8) := do
  let w ← get
  if ReadStart w.finfo.stSize offset then
    let size := if size + offset > w.finfo.stSize then w.finfo.stSize - offset else size
    readChunks cfg fails (chunks bits size offset)
  else throw .crash

/-- The first statement of `writeBuf`. -/
def growFile (newSize : ℕ) : Throws (World bits H) PUnit := do
  let w ← get
  if newSize > w.finfo.stSize then
    point fails Stop.exception ⟨0, .updateFileSize⟩
    let r := Wwdedup.growFile w.store w.finfo newSize
    set { w with store := r.1, finfo := r.2 }
  else return ⟨⟩

/-- `writeBuf`. -/
def writeBuf (buf : List UInt8) (offset : ℕ) : Throws (World bits H) PUnit := do
  growFile fails (buf.length + offset)
  writeChunks cfg fails buf (chunks bits buf.length offset)

end Failing

/-- A call of a handle. -/
inductive HandleCall where
  | read (size offset : ℕ)
  | write (buf : List UInt8) (offset : ℕ)

/-- The call, with some of the calls that it makes failing. -/
def HandleCall.run (cfg : Config bits H) (fails : Point → Bool) :
    HandleCall → Throws (World bits H) PUnit
  | .read size offset => do
    let _ ← Failing.readBuf cfg fails size offset
    return ⟨⟩
  | .write buf offset => Failing.writeBuf cfg fails buf offset

/-! ### What an exception leaves -/

/-- The entries say the same of the block; the weak pointers may differ. -/
def SameMapping (fb fb' : BlockInfo H) : Prop :=
  fb'.loaded = fb.loaded ∧ fb'.empty = fb.empty ∧ fb'.storageBlockNum = fb.storageBlockNum ∧
    fb'.hash = fb.hash

/-- The entry is marked as loaded, with what the tables have for the block. -/
def HoldsMapping (cfg : Config bits H) (db : Db H) (fi : FileInfo H) (n : ℕ) (fb : BlockInfo H) :
    Prop :=
  SameMapping { (loadFileBlock cfg db fi (.new n)).1 with loaded := true } fb

/-- Somebody holds a lock. -/
def Contended (infoLocks blockLocks : ℕ → Bool) : Prop :=
  (∃ n, infoLocks n = true) ∨ ∃ num, blockLocks num = true

/-- **The call can be retried** after the exception from `p`: no lock that it has taken is held,
each entry of the handle is as it was or has the mapping of the tables, the next call does not
wait for ever, and no read makes up the bytes of a block that was not loaded: as long as what the
load does fails, it does not return. -/
structure Recovered (cfg : Config bits H) (fails : Point → Bool) (p : Point)
    (w w' : World bits H) : Prop where
  infoLocks : ∀ n, w'.infoLocks n = true → w.infoLocks n = true
  blockLocks : ∀ num, w'.blockLocks num = true → w.blockLocks num = true
  infos : ∀ n fb, w'.finfo.blocks n = some fb →
    (∃ fb₀, w.finfo.blocks n = some fb₀ ∧ SameMapping fb₀ fb) ∨
      HoldsMapping cfg w'.store.db w'.finfo n fb
  next : ¬Contended w.infoLocks w.blockLocks → ∀ (call : HandleCall) (fails' : Point → Bool),
    (exec (call.run cfg fails') w').1 ≠ .error .blocked
  loads : p.place = .getFileBlock ∨ p.place = .readStorage → ∀ c : Chunk, c.block = p.block →
    ∀ bytes, (exec (Failing.readChunk cfg fails c) w').1 ≠ .ok bytes

/-- The lock of a `block_info` that was free is held. -/
def Leaked (infoLocks : ℕ → Bool) (w : World bits H) : Prop :=
  ∃ n, infoLocks n = false ∧ w.infoLocks n = true

theorem Leaked.not_recovered {cfg : Config bits H} {fails : Point → Bool} {p : Point}
    {w w' : World bits H} (h : Leaked w.infoLocks w') : ¬Recovered cfg fails p w w' := by
  obtain ⟨n, hfree, hheld⟩ := h
  intro hrec
  have hbefore := hrec.infoLocks n hheld
  rw [hfree] at hbefore
  cases hbefore

/-- The handle has the entry of the block, and the cache its storage block with bytes, both of
them unlocked: what a read of the block asks for. -/
structure Filled (n : ℕ) (w : World bits H) : Prop where
  entry : w.finfo.blocks n = some (w.info n)
  infoFree : w.infoLocks n = false
  block : ∃ b, w.store.lock (w.info n).storageBlock = some b ∧ b.data.isSome = true ∧
    w.blockLocks b.storageBlockNum = false

section world

variable {w : World bits H}

section

omit [DecidableEq H]

theorem setBlockLock_cancel {num : ℕ} (h : w.blockLocks num = false) :
    (w.setBlockLock num true).setBlockLock num false = w := by
  unfold World.setBlockLock
  rw [Function.update_idem, ← h, Function.update_eq_self]

theorem info_setInfo (w : World bits H) (n : ℕ) (fb : BlockInfo H) :
    (w.setInfo n fb).info n = fb := by
  show (Function.update w.finfo.blocks n (some fb) n).getD _ = fb
  rw [Function.update_self]
  rfl

theorem setInfoLock_cancel {n : ℕ} (h : w.infoLocks n = false) :
    (w.setInfoLock n true).setInfoLock n false = w := by
  unfold World.setInfoLock
  rw [Function.update_idem, ← h, Function.update_eq_self]

theorem info_of_entry {n : ℕ} {fb : BlockInfo H} (h : w.finfo.blocks n = some fb) :
    w.finfo.blocks n = some (w.info n) := by
  rw [World.info, h]
  rfl

@[simp] theorem World.setInfoLock_store (w : World bits H) (n : ℕ) (held : Bool) :
    (w.setInfoLock n held).store = w.store := rfl

@[simp] theorem World.setInfoLock_info (w : World bits H) (n m : ℕ) (held : Bool) :
    (w.setInfoLock n held).info m = w.info m := rfl

/-- The object that a weak pointer finds is changed in place. -/
theorem lock_put {s : Store bits H} {ptr : Option WeakPtr} {b b' : StorageBlock bits H}
    (hlock : s.lock ptr = some b) (hptr : b'.ptr = b.ptr) : (s.put b').lock ptr = some b' := by
  cases ptr with
  | none => cases hlock
  | some q =>
    obtain ⟨hfind, huid⟩ := Option.filter_eq_some_iff.mp hlock
    have hkey : b.storageBlockNum = q.num := (KeyedTable.find_eq_some.mp hfind).2
    have hnum : b'.storageBlockNum = q.num := (congrArg WeakPtr.num hptr).trans hkey
    have huid' : b'.uid = q.uid := (congrArg WeakPtr.uid hptr).trans (of_decide_eq_true huid)
    show ((s.blocks.replace b').find q.num).filter (fun b => b.uid = q.uid) = some b'
    rw [KeyedTable.find_replace, if_pos hnum.symm, Option.filter_some,
      if_pos (decide_eq_true huid')]

end

end world

namespace Failing

/-- How a call ends without a result: with an exception and what `F` says of it, or waiting, and
then somebody holds a lock (`c`). -/
def Thrown {σ : Type} (c : Prop) (F : Point → σ → Prop) : Stop → σ → Prop
  | .exception p, s => F p s
  | .crash, _ => True
  | .blocked, _ => c

theorem Thrown.mono {σ : Type} {c c' : Prop} {F F' : Point → σ → Prop} (hc : c → c')
    (hF : ∀ p s, F p s → F' p s) : ∀ e s, Thrown c F e s → Thrown c' F' e s
  | .exception p, s, h => hF p s h
  | .crash, _, _ => trivial
  | .blocked, _, h => hc h

section rules

variable {σ α : Type} {P : σ → Prop} {Q : α → σ → Prop} {F F' : Point → σ → Prop} {c : Prop}

theorem thrown_point {fails : Point → Bool} {p : Point} {Q : PUnit → σ → Prop}
    (hok : ∀ s, P s → Q ⟨⟩ s) (hfail : ∀ s, P s → F p s) :
    Triple P (point fails Stop.exception p) Q (Thrown c F) :=
  Triple.point hok hfail

theorem catch_triple {body : Throws σ α} {handler : Point → Throws σ α}
    (hbody : Triple P body Q (Thrown c F'))
    (hhandler : ∀ p, Triple (F' p) (handler p) Q (Thrown c F)) :
    Triple P (catchException body handler) Q (Thrown c F) := by
  refine Triple.tryCatch hbody fun e => ?_
  cases e with
  | exception p => exact hhandler p
  | crash => exact Triple.throw _ fun _ _ => trivial
  | blocked => exact Triple.throw _ fun _ h => h

end rules

/-- The locks that are held. -/
def Locks (infoLocks blockLocks : ℕ → Bool) (w : World bits H) : Prop :=
  w.infoLocks = infoLocks ∧ w.blockLocks = blockLocks

section guards

variable {fails : Point → Bool} {α : Type} {c : Prop} {P : World bits H → Prop}
  {Q : α → World bits H → Prop} {F : Point → World bits H → Prop}

section

omit [DecidableEq H]

theorem lockInfo_exec {n : ℕ} {w : World bits H} (hfree : w.infoLocks n = false) :
    exec (lockInfo n) w = (.ok ⟨⟩, w.setInfoLock n true) := by
  rw [lockInfo, exec_get_bind, hfree]
  rfl

/-- A body that returns in a guard. -/
theorem guarded_ok {num : ℕ} {w v : World bits H} {body : Throws (World bits H) α} {a : α}
    (hfree : w.blockLocks num = false)
    (hbody : exec body (w.setBlockLock num true) = (.ok a, v.setBlockLock num true))
    (hv : v.blockLocks num = false) : exec (guarded num body) w = (.ok a, v) := by
  rw [guarded, exec_get_bind, hfree]
  show exec (modify (fun _ => w.setBlockLock num true) >>= _) w = _
  rw [exec_modify_bind, exec_bind, exec_catchException, hbody]
  dsimp only
  rw [exec_modify_bind, setBlockLock_cancel hv]
  rfl

/-- A guard unlocks on every way out, and waits only for a lock that is held. -/
theorem guarded_triple {num : ℕ} {body : Throws (World bits H) α}
    (hbody : ∀ w, P w → w.blockLocks num = false →
      Triple (fun v => v = w.setBlockLock num true) body
        (fun a v => Q a (v.setBlockLock num false))
        (Thrown c fun p v => F p (v.setBlockLock num false)))
    (hwait : ∀ w, P w → w.blockLocks num = true → c) :
    Triple P (guarded num body) Q (Thrown c F) := by
  refine Triple.get_bind fun w hw => Triple.ite (fun hheld => ?_) fun hfree => ?_
  · exact Triple.throw _ fun _ _ => hwait w hw hheld
  · rw [Bool.not_eq_true] at hfree
    refine Triple.bind (Q := fun _ v => v = w.setBlockLock num true)
      (Triple.modify (fun _ => w.setBlockLock num true) fun _ _ => rfl) fun _ => ?_
    refine Triple.bind (Q := fun a v => Q a (v.setBlockLock num false))
      (catch_triple (hbody w hw hfree) fun p => ?_) fun a => ?_
    · exact Triple.bind (Q := fun _ v => F p v) (Triple.modify _ fun _ h => h) fun _ =>
        Triple.throw _ fun v hv => hv
    · exact Triple.bind (Q := fun _ v => Q a v) (Triple.modify _ fun _ h => h) fun _ =>
        Triple.pure _ fun _ h => h

/-- `_populateStorageBlock` changes the cached block only; what it throws leaves zeros there. -/
theorem populateStorageBlock_triple {R : World bits H → Prop} (n : ℕ) (b : StorageBlock bits H)
    (hput : ∀ w x, R w → R (w.put { b with data := some x })) :
    Triple R (populateStorageBlock fails n b) (fun _ => R)
      (Thrown c fun p w => p = ⟨n, .readStorage⟩ ∧ ∃ v, R v ∧
        w = v.put { b with data := some (zeroBlock bits) }) := by
  let F : Point → World bits H → Prop := fun p w => p = ⟨n, .readStorage⟩ ∧
    ∃ v, R v ∧ w = v.put { b with data := some (zeroBlock bits) }
  let Z : World bits H → Prop := fun w =>
    ∃ v, R v ∧ w = v.put { b with data := some (zeroBlock bits) }
  have hkeep : ∀ {w : World bits H}, Z w → R w := by
    rintro w ⟨v, hv, rfl⟩
    exact hput v _ hv
  refine Triple.ite (fun _ => Triple.pure _ fun _ h => h) fun _ => ?_
  refine Triple.bind (Q := fun _ => Z) (Triple.modify _ fun w hw => ⟨w, hw, rfl⟩) fun _ => ?_
  refine Triple.bind (Q := fun _ => Z) (thrown_point (F := F) (fun _ h => h) fun _ h => ⟨rfl, h⟩)
    fun _ => ?_
  refine Triple.get_bind fun w hw => ?_
  cases w.store.storage.read b.storageBlockNum with
  | none => exact Triple.throw _ fun v hv => ⟨rfl, hv ▸ hw⟩
  | some x =>
    exact Triple.bind (Q := fun _ => R) (Triple.modify (fun _ => w.put _) fun _ _ =>
      hput w _ (hkeep hw)) fun _ => Triple.pure _ fun _ h => h

end

end guards

/-! ### The lock of an entry -/

/-- The lock of the entry is held, and the other locks are as they were. -/
structure Holding (infoLocks blockLocks : ℕ → Bool) (n : ℕ) (w : World bits H) : Prop where
  free : infoLocks n = false
  held : w.infoLocks = Function.update infoLocks n true
  blockLocks : w.blockLocks = blockLocks
  entry : w.finfo.blocks n = some (w.info n)

section entries

variable {cfg : Config bits H} {fails : Point → Bool} {n : ℕ} {w : World bits H}
  {infoLocks blockLocks : ℕ → Bool}

section

omit [DecidableEq H]

theorem Holding.locked (h : Holding infoLocks blockLocks n w) :
    Locks (Function.update infoLocks n true) blockLocks w := ⟨h.held, h.blockLocks⟩

/-- It is given back. -/
theorem Holding.unlock (h : Holding infoLocks blockLocks n w) :
    Locks infoLocks blockLocks (w.setInfoLock n false) := by
  refine ⟨?_, h.blockLocks⟩
  show Function.update w.infoLocks n false = infoLocks
  rw [h.held, Function.update_idem, ← h.free, Function.update_eq_self]

theorem Holding.setInfo (h : Holding infoLocks blockLocks n w) (fb : BlockInfo H) :
    Holding infoLocks blockLocks n (w.setInfo n fb) :=
  ⟨h.free, h.held, h.blockLocks, info_of_entry (Function.update_self ..)⟩

theorem leaked_of_held {v : World bits H} (hfree : infoLocks n = false)
    (hheld : v.infoLocks = Function.update infoLocks n true) : Leaked infoLocks v :=
  ⟨n, hfree, by rw [hheld, Function.update_self]⟩

theorem lockInfo_triple (hlocks : Locks infoLocks blockLocks w)
    (hentry : w.finfo.blocks n = some (w.info n)) {F : Point → World bits H → Prop} :
    Triple (fun v => v = w) (lockInfo n) (fun _ => Holding infoLocks blockLocks n)
      (Thrown (Contended infoLocks blockLocks) F) := by
  refine Triple.get_bind fun v hv => ?_
  subst hv
  refine Triple.ite (fun hheld => Triple.throw _ fun _ _ => .inl ⟨n, ?_⟩) fun hfree => ?_
  · rw [← hlocks.1]
    exact hheld
  · rw [Bool.not_eq_true, hlocks.1] at hfree
    refine Triple.modify (fun _ => v.setInfoLock n true) fun _ _ => ⟨hfree, ?_, hlocks.2, hentry⟩
    show Function.update v.infoLocks n true = _
    rw [hlocks.1]

end

/-- The entry is new and is locked. -/
theorem loadInfo_triple :
    Triple (Holding infoLocks blockLocks n) (loadInfo cfg fails n)
      (fun _ => Holding infoLocks blockLocks n) (Thrown (Contended infoLocks blockLocks)
        fun p v => p.place = .getFileBlock ∧ Leaked infoLocks v) := by
  refine Triple.get_bind fun v hv => Triple.ite (fun _ => ?_) fun _ => ?_
  · exact Triple.bind (Q := fun _ => Holding infoLocks blockLocks n)
      (Triple.modify _ fun _ _ => hv.setInfo _) fun _ => Triple.pure _ fun _ h => h
  · refine Triple.bind (Q := fun _ _ => True) (thrown_point (F := fun p v =>
      p.place = .getFileBlock ∧ Leaked infoLocks v) (fun _ _ => trivial) fun v' hv' => ?_)
      fun _ => ?_
    · rw [hv']
      exact ⟨rfl, leaked_of_held hv.free hv.held⟩
    · exact Triple.bind (Q := fun _ => Holding infoLocks blockLocks n)
        (Triple.modify _ fun _ _ => hv.setInfo _) fun _ => Triple.pure _ fun _ h => h

theorem ensureInfo_triple :
    Triple (Locks infoLocks blockLocks) (ensureInfo cfg fails n)
      (fun _ => Holding infoLocks blockLocks n) (Thrown (Contended infoLocks blockLocks)
        fun p v => p.place = .getFileBlock ∧ Leaked infoLocks v) := by
  refine Triple.get_bind fun v hv => ?_
  cases hentry : v.finfo.blocks n with
  | some fb =>
    exact Triple.bind (lockInfo_triple hv (info_of_entry hentry)) fun _ =>
      Triple.pure _ fun _ h => h
  | none =>
    refine Triple.bind (Q := fun _ v' => v' = v.setInfo n (.new n))
      (Triple.modify _ fun v' hv' => hv' ▸ rfl) fun _ => ?_
    exact Triple.bind (lockInfo_triple (w := v.setInfo n (.new n)) hv
      (info_of_entry (Function.update_self ..))) fun _ => loadInfo_triple

omit [DecidableEq H] in
theorem ensureBlock_triple (useCount : ℤ) {F : Point → World bits H → Prop} :
    Triple (Holding infoLocks blockLocks n) (ensureBlock n useCount)
      (fun _ => Holding infoLocks blockLocks n) (Thrown (Contended infoLocks blockLocks) F) := by
  refine Triple.get_bind fun v hv => guarded_triple (fun v' hv' hfree => Triple.modify _ ?_)
    fun v' hv' hheld => .inr ⟨_, (congrFun hv.blockLocks _).symm.trans (hv' ▸ hheld)⟩
  subst hv'
  rintro _ rfl
  refine ⟨hv.free, hv.held, ?_, info_of_entry (Function.update_self ..)⟩
  refine Eq.trans ?_ hv.blockLocks
  show Function.update (Function.update v'.blockLocks _ true) _ false = v'.blockLocks
  rw [Function.update_idem, ← hfree, Function.update_eq_self]

theorem getLockedFileBlock_triple (n : ℕ) :
    Triple (Locks infoLocks blockLocks) (getLockedFileBlock cfg fails n)
      (fun _ => Holding infoLocks blockLocks n) (Thrown (Contended infoLocks blockLocks)
        fun p v => p.place = .getFileBlock ∧ Leaked infoLocks v) := by
  refine Triple.bind ensureInfo_triple fun useCount => Triple.get_bind fun v hv => ?_
  refine Triple.ite (fun _ => Triple.pure _ fun v' hv' => hv' ▸ hv) fun _ => ?_
  exact (ensureBlock_triple useCount).weaken (fun v' hv' => hv' ▸ hv) (fun _ _ h => h)
    fun _ _ h => h

end entries

/-! ### Reads -/

section reads

variable {cfg : Config bits H} {fails : Point → Bool} {infoLocks blockLocks : ℕ → Bool}

/-- What an exception of a read leaves. -/
def ReadFailure (infoLocks : ℕ → Bool) (p : Point) (v : World bits H) : Prop :=
  (p.place = .readStorage ∧ Filled p.block v) ∨ (p.place = .getFileBlock ∧ Leaked infoLocks v)

/-- The storage block of the entry, which is locked for the read. -/
structure Reading (infoLocks blockLocks : ℕ → Bool) (n : ℕ) (ptr : WeakPtr) (num : ℕ)
    (w : World bits H) : Prop where
  infoFree : infoLocks n = false
  blockFree : blockLocks num = false
  infos : w.infoLocks = infoLocks
  blocks : (w.setBlockLock num false).blockLocks = blockLocks
  entry : w.finfo.blocks n = some (w.info n)
  found : ∃ b, w.store.lock (w.info n).storageBlock = some b ∧ b.ptr = ptr

omit [DecidableEq H] in
theorem Reading.put {n num : ℕ} {ptr : WeakPtr} {w : World bits H} {b : StorageBlock bits H}
    (h : Reading infoLocks blockLocks n ptr num w) (hptr : b.ptr = ptr) :
    Reading infoLocks blockLocks n ptr num (w.put b) := by
  obtain ⟨b₀, hlock, hb₀⟩ := h.found
  exact ⟨h.infoFree, h.blockFree, h.infos, h.blocks, h.entry, b,
    lock_put hlock (hptr.trans hb₀.symm), hptr⟩

omit [DecidableEq H] in
/-- What `_populateStorageBlock` leaves when it throws is taken for the bytes of the block. -/
theorem Reading.filled {n num : ℕ} {ptr : WeakPtr} {w : World bits H} {b : StorageBlock bits H}
    (h : Reading infoLocks blockLocks n ptr num w) (hptr : b.ptr = ptr)
    (hnum : b.storageBlockNum = num) (hdata : b.data.isSome = true) :
    Filled n ((w.put b).setBlockLock num false) := by
  obtain ⟨b₀, hlock, hb₀⟩ := h.found
  refine ⟨h.entry, ?_, b, lock_put hlock (hptr.trans hb₀.symm), hdata, ?_⟩
  · show w.infoLocks n = false
    rw [h.infos]
    exact h.infoFree
  · show (w.setBlockLock num false).blockLocks b.storageBlockNum = false
    rw [h.blocks, hnum]
    exact h.blockFree

theorem readChunk_triple (c : Chunk) :
    Triple (Locks infoLocks blockLocks) (readChunk cfg fails c)
      (fun _ => Locks infoLocks blockLocks)
      (Thrown (Contended infoLocks blockLocks) (ReadFailure infoLocks)) := by
  refine Triple.bind ((getLockedFileBlock_triple c.block).weaken (fun _ h => h)
    (fun _ _ h => h) (Thrown.mono id fun p v h => .inr h)) fun _ => Triple.get_bind fun u hu => ?_
  refine Triple.bind (Q := fun _ v => v = u.setInfoLock c.block false)
    (Triple.modify _ fun u' hu' => hu' ▸ rfl) fun _ => ?_
  cases hlock : u.store.lock (u.info c.block).storageBlock with
  | none => exact Triple.pure _ fun _ h => h ▸ hu.unlock
  | some block =>
    let b : StorageBlock bits H := { block with atime := u.store.now }
    let w : World bits H := (u.setInfoLock c.block false).put b
    have hw : Locks infoLocks blockLocks w := hu.unlock
    refine Triple.bind (Q := fun _ v => v = w) (Triple.modify _ fun _ h => h ▸ rfl) fun _ =>
      guarded_triple (fun v hv hfree => ?_) fun v hv hheld =>
        .inr ⟨b.storageBlockNum, (congrFun hw.2 _).symm.trans (hv ▸ hheld)⟩
    subst hv
    have hunlocked : (w.setBlockLock b.storageBlockNum true).setBlockLock b.storageBlockNum false
        = w := setBlockLock_cancel hfree
    refine Triple.ite (fun _ => Triple.pure _ fun v' hv' => ?_) fun _ => ?_
    · rw [hv', hunlocked]
      exact hw
    · let R : World bits H → Prop := fun v =>
        Reading infoLocks blockLocks c.block b.ptr b.storageBlockNum v
      have hstart : R (w.setBlockLock b.storageBlockNum true) := by
        refine ⟨hu.free, ?_, hw.1, ?_, hu.entry, b, lock_put hlock rfl, rfl⟩
        · rw [← hw.2]
          exact hfree
        · rw [hunlocked]
          exact hw.2
      have hfill : Triple R (populateStorageBlock fails c.block b) (fun _ => R)
          (Thrown (Contended infoLocks blockLocks) fun p v => p = ⟨c.block, .readStorage⟩ ∧
            ∃ v', R v' ∧ v = v'.put { b with data := some (zeroBlock bits) }) :=
        populateStorageBlock_triple c.block b fun _ x h =>
          h.put (b := { b with data := some x }) rfl
      refine Triple.bind (hfill.weaken (fun v hv => hv ▸ hstart) (fun _ _ h => h)
        (Thrown.mono id ?_)) fun _ => Triple.pure _ fun v hv => ⟨hv.infos, hv.blocks⟩
      rintro p v ⟨rfl, v', hv', rfl⟩
      exact .inl ⟨rfl, hv'.filled rfl rfl rfl⟩

/-- The rounds of a read; the induction is on the chunks. -/
theorem readChunks_triple (cs : List Chunk) :
    Triple (Locks infoLocks blockLocks) (readChunks cfg fails cs)
      (fun _ => Locks infoLocks blockLocks)
      (Thrown (Contended infoLocks blockLocks) (ReadFailure infoLocks)) := by
  induction cs with
  | nil => exact Triple.pure _ fun _ h => h
  | cons c cs ih =>
    exact Triple.bind (readChunk_triple c) fun bytes => Triple.bind ih fun rest =>
      Triple.pure _ fun _ h => h

theorem readBuf_triple (size offset : ℕ) :
    Triple (Locks infoLocks blockLocks) (readBuf cfg fails size offset)
      (fun _ => Locks infoLocks blockLocks)
      (Thrown (Contended infoLocks blockLocks) (ReadFailure infoLocks)) := by
  refine Triple.get_bind fun v hv => Triple.ite (fun _ => ?_) fun _ => ?_
  · exact (readChunks_triple _).weaken (fun _ h => h ▸ hv) (fun _ _ h => h) fun _ _ h => h
  · exact Triple.throw _ fun _ _ => trivial

/-- **A block that counts as filled is not read from the storage file**, whatever fails. -/
theorem readChunk_of_filled (cfg : Config bits H) (fails : Point → Bool) {w : World bits H}
    {c : Chunk} (h : Filled c.block w) :
    ∃ bytes, (exec (readChunk cfg fails c) w).1 = .ok bytes := by
  obtain ⟨b, hlock, hdata, hblock⟩ := h.block
  have hensure : exec (ensureInfo cfg fails c.block) w = (.ok 0, w.setInfoLock c.block true) := by
    rw [ensureInfo, exec_get_bind, h.entry]
    exact exec_bind_ok (lockInfo_exec h.infoFree) _
  have hlocate : exec (getLockedFileBlock cfg fails c.block) w =
      (.ok ⟨⟩, w.setInfoLock c.block true) := by
    rw [getLockedFileBlock, exec_bind_ok hensure, exec_get_bind, World.setInfoLock_info,
      World.setInfoLock_store, hlock, Option.isSome_some, Bool.or_true]
    rfl
  rw [readChunk, exec_bind_ok hlocate, exec_get_bind, unlockInfo, exec_modify_bind,
    setInfoLock_cancel h.infoFree, World.setInfoLock_info, World.setInfoLock_store, hlock]
  dsimp only
  rw [exec_modify_bind]
  let v : World bits H := w.put { b with atime := w.store.now }
  have hv : v.blockLocks b.storageBlockNum = false := hblock
  by_cases hzero : b.storageBlockNum = 0
  · refine ⟨List.replicate c.len 0, congrArg Prod.fst (guarded_ok (w := v) hv ?_ hv)⟩
    rw [if_pos hzero]
    rfl
  · refine ⟨slice (b.data.getD (zeroBlock bits)) c.startOffset c.len,
      congrArg Prod.fst (guarded_ok (w := v) hv ?_ hv)⟩
    rw [if_neg hzero, populateStorageBlock, if_pos (Or.inl hdata)]
    rfl

end reads

/-! ### Writes -/

/-- The exceptions are not those of a change of the size, and the block keeps its number. -/
def Raises (num : Option ℕ) {α : Type} (m : Throws (Replacing bits H) α) : Prop :=
  Triple (fun r => r.sblock.map StorageBlock.storageBlockNum = num) m
    (fun _ r => r.sblock.map StorageBlock.storageBlockNum = num)
    (Thrown False fun p r => p.place ≠ .updateFileSize ∧
      r.sblock.map StorageBlock.storageBlockNum = num)

section points

variable {fails : Point → Bool} {num : Option ℕ} {α β : Type}

section

omit [DecidableEq H]

theorem Raises.bind {m : Throws (Replacing bits H) α} {f : α → Throws (Replacing bits H) β}
    (hm : Raises num m) (hf : ∀ a, Raises num (f a)) : Raises num (m >>= f) := Triple.bind hm hf

theorem raises_pure (a : α) : Raises num (pure a : Throws (Replacing bits H) α) :=
  Triple.pure a fun _ h => h

theorem raises_modify {f : Replacing bits H → Replacing bits H}
    (hf : ∀ r, (f r).sblock.map StorageBlock.storageBlockNum =
      r.sblock.map StorageBlock.storageBlockNum) : Raises num (modify f) :=
  Triple.modify f fun r hr => (hf r).trans hr

theorem raises_get {f : Replacing bits H → Throws (Replacing bits H) α}
    (hf : ∀ r, Raises num (f r)) : Raises num (get >>= f) :=
  Triple.get_bind fun r hr => (hf r).weaken (fun _ h => h ▸ hr) (fun _ _ h => h) fun _ _ h => h

theorem raises_point {n : ℕ} {place : Place} (hp : place ≠ .updateFileSize) :
    Raises num (point fails Stop.exception ⟨n, place⟩ : Throws (Replacing bits H) PUnit) :=
  thrown_point (fun _ h => h) fun _ h => ⟨hp, h⟩

/-- A statement of the transaction; the tables have no locks. -/
theorem raises_onTables {n : ℕ} {place : Place} (hp : place ≠ .updateFileSize)
    (f : Tables H → Tables H) : Raises num (Replacing.onTables (do
      point fails Stop.exception ⟨n, place⟩
      modify f) : Throws (Replacing bits H) PUnit) := by
  have hcall : Triple (fun _ : Tables H => True) (do
      point fails Stop.exception ⟨n, place⟩
      modify f) (fun _ _ => True) (Thrown False fun p _ => p.place ≠ .updateFileSize) :=
    Triple.bind (thrown_point (fun _ h => h) fun _ _ => hp) fun _ => Triple.modify f fun _ h => h
  refine Triple.zoom _ _ hcall (fun _ _ => trivial) (fun _ _ _ h _ => h) fun e _ r h he => ?_
  cases e with
  | exception p => exact ⟨he, h⟩
  | crash => trivial
  | blocked => exact he

end

/-- The mutex of the block is free again when `replaceStorageBlock` returns. -/
theorem replaceStorageBlock_triple (n ino : ℕ) (hash : H) :
    Triple (fun r => r.sblock.map StorageBlock.storageBlockNum = num)
      (replaceStorageBlock fails n ino hash : Throws (Replacing bits H) Bool)
      (fun _ r => r.sblock.map StorageBlock.storageBlockNum = num ∧ r.locked = false)
      (Thrown False fun p _ => p.place ≠ .updateFileSize) := by
  have hrelease : ∀ r : Replacing bits H, r.release.sblock.map StorageBlock.storageBlockNum =
      r.sblock.map StorageBlock.storageBlockNum := by
    intro r
    rw [Replacing.release, Option.map_map]
    rfl
  have hcount : Raises num (countHash fails n hash : Throws (Replacing bits H) Bool) := by
    refine Raises.bind (raises_point (by decide)) fun _ => raises_get fun r => ?_
    cases r.tables.db.selectBlockHash hash with
    | some row =>
      refine Raises.bind (raises_modify fun _ => rfl) fun _ => ?_
      refine Raises.bind (raises_onTables (by decide) _) fun _ => ?_
      exact Raises.bind (raises_modify hrelease) fun _ => raises_pure _
    | none =>
      dsimp only
      cases r.sblock.filter fun b => decide (b.useCount = 1) with
      | some b => exact Raises.bind (raises_onTables (by decide) _) fun _ => raises_pure _
      | none =>
        refine Raises.bind (raises_onTables (by decide) _) fun _ => ?_
        refine Raises.bind (raises_modify fun _ => rfl) fun _ => ?_
        exact Raises.bind (raises_modify hrelease) fun _ => raises_pure _
  have hmap : Raises num (mapFileBlock fails n ino hash : Throws (Replacing bits H) PUnit) := by
    refine Raises.bind (raises_onTables (by decide) _) fun _ => raises_get fun r => ?_
    cases r.sblock with
    | some b => exact raises_onTables (by decide) _
    | none => exact raises_pure _
  have hundo : ∀ p : Point, Triple (fun r : Replacing bits H => p.place ≠ .updateFileSize ∧
      r.sblock.map StorageBlock.storageBlockNum = num) (undo fails n p : Throws _ Bool)
      (fun _ r => r.sblock.map StorageBlock.storageBlockNum = num ∧ r.locked = false)
      (Thrown False fun p _ => p.place ≠ .updateFileSize) := by
    intro p
    refine Triple.weaken (Triple.assume fun hp => Triple.bind (raises_modify fun _ => rfl) fun _ =>
      Triple.bind (raises_onTables (by decide) _) fun _ => Triple.throw _ fun _ h => ⟨hp, h⟩)
      (fun _ h => h) (fun _ _ h => h) (Thrown.mono id fun _ _ h => h.1)
  refine Triple.bind ((raises_onTables (by decide) _).weaken (fun _ h => h) (fun _ _ h => h)
    (Thrown.mono id fun _ _ h => h.1)) fun _ => ?_
  refine Triple.bind (Q := fun _ r => r.sblock.map StorageBlock.storageBlockNum = num)
    (Triple.modify _ fun _ h => h) fun _ => catch_triple ?_ hundo
  refine Triple.bind (raises_modify fun _ => rfl) fun _ => Triple.bind hcount fun present =>
    Triple.bind hmap fun _ => Triple.bind (raises_onTables (by decide) _) fun _ => ?_
  exact Triple.bind (Q := fun _ r => r.sblock.map StorageBlock.storageBlockNum = num ∧
    r.locked = false) (Triple.modify _ fun _ h => ⟨h, rfl⟩) fun _ => Triple.pure _ fun _ h => h

end points

section writes

variable {cfg : Config bits H} {fails : Point → Bool} {infoLocks locks blockLocks : ℕ → Bool}
  {c : Prop}

/-- What keeps the locks, and throws at no change of the size. -/
def Keeps (c : Prop) (locks blockLocks : ℕ → Bool) {α : Type} (m : Throws (World bits H) α) :
    Prop :=
  Triple (Locks locks blockLocks) m (fun _ => Locks locks blockLocks)
    (Thrown c fun p v => p.place ≠ .updateFileSize ∧ v.infoLocks = locks)

section

omit [DecidableEq H]

theorem keeps_pure {α : Type} (a : α) :
    Keeps c locks blockLocks (pure a : Throws (World bits H) α) := Triple.pure a fun _ h => h

theorem Keeps.bind {α β : Type} {m : Throws (World bits H) α} {f : α → Throws (World bits H) β}
    (hm : Keeps c locks blockLocks m) (hf : ∀ a, Keeps c locks blockLocks (f a)) :
    Keeps c locks blockLocks (m >>= f) := Triple.bind hm hf

theorem keeps_get {α : Type} {f : World bits H → Throws (World bits H) α}
    (hf : ∀ w, Locks locks blockLocks w → Keeps c locks blockLocks (f w)) :
    Keeps c locks blockLocks (get >>= f) :=
  Triple.get_bind fun w hw => (hf w hw).weaken (fun _ h => h ▸ hw) (fun _ _ h => h) fun _ _ h => h

theorem keeps_modify {f : World bits H → World bits H}
    (hf : ∀ w, (f w).infoLocks = w.infoLocks ∧ (f w).blockLocks = w.blockLocks) :
    Keeps c locks blockLocks (modify f) :=
  Triple.modify f fun w hw => ⟨(hf w).1.trans hw.1, (hf w).2.trans hw.2⟩

end

section

omit [DecidableEq H]

theorem keeps_guarded {α : Type} {num : ℕ} {body : Throws (World bits H) α}
    (hbody : Keeps c locks (Function.update blockLocks num true) body)
    (hwait : blockLocks num = true → c) : Keeps c locks blockLocks (guarded num body) := by
  refine guarded_triple (fun w hw hfree => hbody.weaken (fun v hv => ?_) (fun _ v hv => ?_)
    (Thrown.mono id fun _ _ h => h)) fun w hw hheld => hwait (hw.2 ▸ hheld)
  · rw [hv]
    refine ⟨hw.1, ?_⟩
    show Function.update w.blockLocks num true = _
    rw [hw.2]
  · refine ⟨hv.1, ?_⟩
    rw [hw.2] at hfree
    show Function.update v.blockLocks num false = _
    rw [hv.2, Function.update_idem, ← hfree, Function.update_eq_self]

theorem keeps_populate (n : ℕ) (b : StorageBlock bits H) :
    Keeps c locks blockLocks (populateStorageBlock fails n b) := by
  refine (populateStorageBlock_triple n b fun _ _ h => h).weaken (fun _ h => h) (fun _ _ h => h)
    (Thrown.mono id ?_)
  rintro p _ ⟨rfl, v, hv, rfl⟩
  exact ⟨(fun h => by cases h), hv.1⟩

theorem keeps_oldData (ch : Chunk) (hwait : ∀ num, blockLocks num = true → c) :
    Keeps c locks blockLocks (oldData fails ch : Throws (World bits H) _) := by
  refine keeps_get fun w _ => ?_
  cases w.store.lock (w.info ch.block).storageBlock with
  | none => exact keeps_pure _
  | some block =>
    refine keeps_guarded (Keeps.bind (keeps_modify fun _ => ⟨rfl, rfl⟩) fun _ => ?_) (hwait _)
    exact Triple.ite (fun _ => Keeps.bind (keeps_populate _ _) fun _ => keeps_pure _) fun _ =>
      keeps_pure _

end

theorem keeps_replaceInfo (n : ℕ) (hash : H) (hwait : ∀ num, blockLocks num = true → c) :
    Keeps c locks blockLocks (replaceInfo fails n hash : Throws (World bits H) Bool) := by
  refine Triple.get_bind fun w hw => Triple.ite (fun hheld => ?_) fun hfree => ?_
  · obtain ⟨b, -, hb⟩ := (Option.any_eq_true _ _).mp hheld.1
    exact Triple.throw _ fun _ _ => hwait b.storageBlockNum (hw.2 ▸ hb)
  cases hbegin : fails ⟨n, .beginExclusive⟩ with
  | true =>
    rintro v rfl
    rw [exec_zoom, replaceStorageBlock, exec_begin_bind, if_pos hbegin]
    exact ⟨(fun h => by cases h), hw.1⟩
  | false =>
    have hunlocked : ∀ b, w.store.lock (w.info n).storageBlock = some b →
        w.blockLocks b.storageBlockNum = false := by
      intro b hb
      rw [hb, Option.any_some] at hfree
      exact Bool.eq_false_iff.mpr fun hheld => hfree ⟨hheld, hbegin⟩
    refine Triple.zoom _ _ (replaceStorageBlock_triple n w.finfo.stIno hash) 
      (fun v (hv : v = w) => by rw [hv]) (fun _ r v hv hr => ?_) fun e r v hv he => ?_
    · subst hv
      refine ⟨hw.1, Eq.trans ?_ hw.2⟩
      show (r.sblock.map fun b => Function.update v.blockLocks b.storageBlockNum r.locked).getD
        v.blockLocks = v.blockLocks
      cases hs : r.sblock with
      | none => rfl
      | some b =>
        have hnum := hr.1
        rw [hs] at hnum
        obtain ⟨b₀, hb₀, hkey⟩ := Option.map_eq_some_iff.mp hnum.symm
        show Function.update v.blockLocks b.storageBlockNum r.locked = v.blockLocks
        rw [hr.2, ← hkey, ← hunlocked b₀ hb₀, Function.update_eq_self]
    · cases e with
      | exception p => exact ⟨he, hv ▸ hw.1⟩
      | crash => trivial
      | blocked => exact he.elim

theorem keeps_writeBlock (n : ℕ) (data : Block bits) (hwait : ∀ num, blockLocks num = true → c) :
    Keeps c locks blockLocks (writeBlock cfg fails n data) := by
  refine Keeps.bind (keeps_replaceInfo n _ hwait) fun present => keeps_get fun w _ => ?_
  refine Triple.ite (fun _ => keeps_modify fun _ => ⟨rfl, rfl⟩) fun _ => ?_
  exact keeps_guarded (keeps_modify fun _ => ⟨rfl, rfl⟩) (hwait _)

omit [DecidableEq H] in
/-- The lock of the entry stays held. -/
theorem Keeps.leaked {α : Type} {m : Throws (World bits H) α} {n : ℕ}
    (h : Keeps c (Function.update infoLocks n true) blockLocks m) (hfree : infoLocks n = false) :
    Triple (Locks (Function.update infoLocks n true) blockLocks) m
      (fun _ => Locks (Function.update infoLocks n true) blockLocks)
      (Thrown c fun p v => p.place ≠ .updateFileSize ∧ Leaked infoLocks v) :=
  h.weaken (fun _ h => h) (fun _ _ h => h) (Thrown.mono id fun _ _ h =>
    ⟨h.1, leaked_of_held hfree h.2⟩)

/-- **A block that is not written keeps its lock.** -/
theorem writeBlockWrapper_triple (buf : List UInt8) (ch : Chunk) :
    Triple (Locks infoLocks blockLocks) (writeBlockWrapper cfg fails buf ch)
      (fun _ => Locks infoLocks blockLocks) (Thrown (Contended infoLocks blockLocks)
        fun p v => p.place ≠ .updateFileSize ∧ Leaked infoLocks v) := by
  have hwait : ∀ num, blockLocks num = true → Contended infoLocks blockLocks :=
    fun num h => .inr ⟨num, h⟩
  refine Triple.bind ((getLockedFileBlock_triple ch.block).weaken (fun _ h => h) (fun _ _ h => h)
    (Thrown.mono id fun p v h => ⟨fun hp => ?_, h.2⟩)) fun _ => Triple.of_state fun u hu => ?_
  · rw [h.1] at hp
    cases hp
  · refine Triple.bind (((keeps_oldData ch hwait).leaked hu.free).weaken
      (fun v hv => hv ▸ hu.locked) (fun _ _ h => h) fun _ _ h => h) fun old => ?_
    refine Triple.bind ((keeps_writeBlock ch.block _ hwait).leaked hu.free) fun _ => ?_
    refine Triple.modify _ fun v hv => ⟨?_, hv.2⟩
    show Function.update v.infoLocks ch.block false = infoLocks
    rw [hv.1, Function.update_idem, ← hu.free, Function.update_eq_self]

/-- The rounds of a write: each gives its lock back, or throws with it. -/
theorem writeChunks_triple (buf : List UInt8) (cs : List Chunk) :
    Triple (Locks infoLocks blockLocks) (writeChunks cfg fails buf cs)
      (fun _ => Locks infoLocks blockLocks) (Thrown (Contended infoLocks blockLocks)
        fun p v => p.place ≠ .updateFileSize ∧ Leaked infoLocks v) := by
  induction cs with
  | nil => exact Triple.pure _ fun _ h => h
  | cons ch cs ih => exact Triple.bind (writeBlockWrapper_triple buf ch) fun _ => ih

omit [DecidableEq H] in
theorem growFile_triple (newSize : ℕ) (w : World bits H) :
    Triple (fun v => v = w) (growFile fails newSize) (fun _ => Locks w.infoLocks w.blockLocks)
      (Thrown c fun p v => p.place = .updateFileSize ∧ v = w) := by
  refine Triple.get_bind fun v hv => Triple.ite (fun _ => ?_) fun _ => ?_
  · refine Triple.bind (Q := fun _ v => v = w) (thrown_point (fun v' hv' => hv'.trans hv)
      fun v' hv' => ⟨rfl, hv'.trans hv⟩) fun _ => Triple.modify _ fun _ _ => ?_
    rw [hv]
    exact ⟨rfl, rfl⟩
  · refine Triple.pure _ fun v' hv' => ?_
    rw [hv', hv]
    exact ⟨rfl, rfl⟩

theorem writeBuf_triple (buf : List UInt8) (offset : ℕ) (w : World bits H) :
    Triple (fun v => v = w) (writeBuf cfg fails buf offset) (fun _ _ => True)
      (Thrown (Contended w.infoLocks w.blockLocks) fun p v =>
        (p.place = .updateFileSize ∧ v = w) ∨
          (p.place ≠ .updateFileSize ∧ Leaked w.infoLocks v)) := by
  refine Triple.bind ((growFile_triple _ w).weaken (fun _ h => h) (fun _ _ h => h)
    (Thrown.mono id fun _ _ => .inl)) fun _ => ?_
  exact (writeChunks_triple buf _).weaken (fun _ h => h) (fun _ _ _ => trivial)
    (Thrown.mono id fun _ _ => .inr)

end writes

end Failing

section access

variable (cfg : Config bits H) (fails : Point → Bool) (w : World bits H) (call : HandleCall)

/-- How a call ends without a result, and what it leaves. -/
theorem access_triple :
    Triple (fun v => v = w) (call.run cfg fails) (fun _ _ => True)
      (Failing.Thrown (Contended w.infoLocks w.blockLocks) fun p v =>
        (p.place = .updateFileSize ∧ v = w) ∨ (p.place = .readStorage ∧ Filled p.block v) ∨
          (p.place ≠ .updateFileSize ∧ Leaked w.infoLocks v)) := by
  cases call with
  | read size offset =>
    refine Triple.bind ((Failing.readBuf_triple size offset).weaken
      (fun v (hv : v = w) => hv ▸ ⟨rfl, rfl⟩) (fun _ _ _ => trivial)
      (Failing.Thrown.mono id fun p v h => .inr ?_)) fun _ => Triple.pure _ fun _ h => h
    rcases h with hfilled | ⟨hplace, hleak⟩
    · exact .inl hfilled
    · refine .inr ⟨?_, hleak⟩
      rw [hplace]
      decide
  | write buf offset =>
    exact (Failing.writeBuf_triple buf offset w).weaken (fun _ h => h) (fun _ _ h => h)
      (Failing.Thrown.mono id fun p v h => h.imp_right .inr)

/-- A call waits only where somebody holds a lock. -/
theorem access_not_blocked (hfree : ¬Contended w.infoLocks w.blockLocks) :
    (exec (call.run cfg fails) w).1 ≠ .error .blocked := by
  intro hblocked
  have h := access_triple cfg fails w call w rfl
  rcases hr : exec (call.run cfg fails) w with ⟨e | a, v⟩
  · rw [hr] at h hblocked
    cases hblocked
    exact hfree h
  · rw [hr] at hblocked
    cases hblocked

/-- **Only a failing change of the size can be retried.**  Where the storage file fails in `readBuf`
the cached block counts as filled, and every other exception leaves the lock of the `block_info`
held: of the load of the block in either call, of a statement of the transaction or of the read of
the old bytes in `writeBuf`. -/
theorem access_recovered_iff (p : Point)
    (hthrow : (exec (call.run cfg fails) w).1 = .error (.exception p)) :
    Recovered cfg fails p w (exec (call.run cfg fails) w).2 ↔ p.place = .updateFileSize := by
  have h := access_triple cfg fails w call w rfl
  rcases hr : exec (call.run cfg fails) w with ⟨e | a, v⟩
  · rw [hr] at h hthrow
    cases hthrow
    rcases h with ⟨hplace, rfl⟩ | ⟨hplace, hfilled⟩ | ⟨hplace, hleak⟩
    · refine iff_of_true ⟨fun _ h => h, fun _ h => h, fun n fb hfb => ?_, ?_, ?_⟩ hplace
      · exact .inl ⟨fb, hfb, rfl, rfl, rfl, rfl⟩
      · exact fun hfree call' fails' => access_not_blocked cfg fails' v call' hfree
      · rw [hplace]
        rintro (h | h) <;> cases h
    · refine iff_of_false (fun hrec => ?_) ?_
      · obtain ⟨bytes, hread⟩ := Failing.readChunk_of_filled cfg fails
          (c := ⟨p.block, 0, 0, 0⟩) hfilled
        exact hrec.loads (.inr hplace) ⟨p.block, 0, 0, 0⟩ rfl bytes hread
      · rw [hplace]
        decide
    · exact iff_of_false hleak.not_recovered hplace
  · rw [hr] at hthrow
    cases hthrow

end access

/-- The file of one block, through a handle that is new. -/
def newHandle : World 0 (List UInt8) :=
  .start oneBlock.store (oneBlock.store.db.getByPath ['/', 'f'])

/-- A write whose change of the size fails. -/
theorem access_recovered_iff_grow :
    Recovered (plainConfig 0) (onlyAt ⟨0, .updateFileSize⟩) ⟨0, .updateFileSize⟩ newHandle
        (exec (HandleCall.run (plainConfig 0) (onlyAt ⟨0, .updateFileSize⟩) (.write [8] 1))
          newHandle).2 ↔
      Place.updateFileSize = .updateFileSize :=
  access_recovered_iff (plainConfig 0) (onlyAt ⟨0, .updateFileSize⟩) newHandle (.write [8] 1)
    ⟨0, .updateFileSize⟩ rfl

/-- A file of one block that is on the disk only, through a handle that is new. -/
def coldHandle : World 4 (List UInt8) :=
  let fs := Fs.after (plainConfig 4)
    [.create ['/', 'f'] sIfreg, .write 0 (List.replicate 16 7) 0, .writerPass [1], .remount]
  .start fs.store (fs.store.db.getByPath ['/', 'f'])

/-- The exception of a call with one failing point, and what a read of one byte shows after it. -/
def retried {bits : ℕ} (w : World bits (List UInt8)) (call : HandleCall) (p : Point) :
    Except Stop PUnit × Except Stop (List UInt8) :=
  let r := exec (call.run (plainConfig bits) (onlyAt p)) w
  (r.1, (exec (Failing.readBuf (plainConfig bits) (fun _ => false) 1 0) r.2).1)

/-- **A write that finds the database busy, a read whose load fails, and a read whose storage
read fails.**  The first two leave the lock of the `block_info`, and the next read of the block
waits for it; the entry that was not loaded says that the block is empty, which the tables do not.
After the third the next read returns a zero for the 7 of the file. -/
theorem failed_access_keeps_lock :
    (¬∀ (w : World 0 (List UInt8)) (call : HandleCall) (fails : Point → Bool) (p : Point),
      (exec (call.run (plainConfig 0) fails) w).1 = .error (.exception p) →
      Recovered (plainConfig 0) fails p w (exec (call.run (plainConfig 0) fails) w).2) ∧
    retried newHandle (.write [8] 0) ⟨0, .beginExclusive⟩ =
      (.error (.exception ⟨0, .beginExclusive⟩), .error .blocked) ∧
    retried newHandle (.read 1 0) ⟨0, .getFileBlock⟩ =
      (.error (.exception ⟨0, .getFileBlock⟩), .error .blocked) ∧
    ((exec (HandleCall.run (plainConfig 0) (onlyAt ⟨0, .getFileBlock⟩) (.read 1 0))
      newHandle).2.finfo.blocks 0).map BlockInfo.empty = some true ∧
    (exec (Failing.readBuf (plainConfig 4) (fun _ => false) 1 0) coldHandle).1 = .ok [7] ∧
    retried coldHandle (.read 1 0) ⟨0, .readStorage⟩ =
      (.error (.exception ⟨0, .readStorage⟩), .ok [0]) := by
  refine ⟨fun hall => ?_, rfl, rfl, rfl, rfl, by decide +kernel⟩
  have hrec := hall newHandle (.write [8] 0) (onlyAt ⟨0, .beginExclusive⟩) ⟨0, .beginExclusive⟩ rfl
  have hlock := hrec.infoLocks 0 rfl
  cases hlock

end Wwdedup
