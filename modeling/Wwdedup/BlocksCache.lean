import Wwdedup.Database

/-!
# The blocks cache

The methods of `BlocksCache`, on the `Store` that all handles share (the tables, the storage
file and the cache `_blocks`) and on the `FileInfo` of the handle that the call goes through.
Every call runs to its end here; where the order of the steps of several threads matters, the
parts that are atomic (`getLockedFileBlock`, `oldData`, `commitBlock`, `updateCache`) are
functions of their own.

The loops of `writeBuf` and `readBuf` go over the same `chunks`: a loop only computes which
part of which block it hands on, and that does not depend on the store.
-/

namespace Wwdedup

variable {bits : ℕ} {H : Type} [DecidableEq H]

/-- What the handles share. -/
structure Store (bits : ℕ) (H : Type) where
  db : Db H
  storage : Storage bits
  blocks : KeyedTable (StorageBlock bits H) ℕ StorageBlock.storageBlockNum
  /-- the stamp of the next object that `make_shared` returns -/
  nextUid : ℕ
  /-- `time(nullptr)` -/
  now : ℕ

namespace Store

/-- `weak_ptr::lock()`, when the blocks that live are those of the cache (`Reclaimed`). -/
def lock (s : Store bits H) (w : Option WeakPtr) : Option (StorageBlock bits H) :=
  w.bind fun p => (s.blocks.find p.num).filter fun b => b.uid = p.uid

/-- The object changed in place, or put into the cache. -/
def put (s : Store bits H) (b : StorageBlock bits H) : Store bits H :=
  { s with blocks := s.blocks.replace b }

/-- The tables after a statement or a transaction. -/
def setDb (s : Store bits H) (db : Db H) : Store bits H := { s with db := db }

end Store

/-- `_populateStorageBlock`: fill an empty block from its slot. -/
def populateStorageBlock (st : Storage bits) (b : StorageBlock bits H) :
    Except Fault (StorageBlock bits H) :=
  if b.data.isSome ∨ b.storageBlockNum = 0 then .ok b
  else
    match st.read b.storageBlockNum with
    | some x => .ok { b with data := some x }
    | none => .error .shortRead

/-! ### The block of a file -/

/-- The store, the handle and the `block_info` that `_getLockedFileBlock` returns. -/
structure Located (bits : ℕ) (H : Type) where
  store : Store bits H
  finfo : FileInfo H
  fblock : BlockInfo H

/-- The first half of `_getLockedFileBlock`: the `block_info` that the handle keeps for the
block, read from the tables when the handle has none, and the use count that was read. -/
def fileBlock (cfg : Config bits H) (s : Store bits H) (fi : FileInfo H) (blockNum : ℕ) :
    BlockInfo H × ℤ :=
  match fi.blocks blockNum with
  | some item => (item, 0)
  | none =>
    let r := loadFileBlock cfg s.db fi (.new blockNum)
    ({ r.1 with loaded := true }, r.2)

/-- The second half: the cached block with the number that the `block_info` holds, put into the
cache with the given use count when it is not there. -/
def ensureLoaded (s : Store bits H) (fblock : BlockInfo H) (useCount : ℤ) :
    Store bits H × StorageBlock bits H :=
  let s' := { s with nextUid := s.nextUid + 1 }
  match s.blocks.find fblock.storageBlockNum with
  | some item => (s', item)
  | none =>
    let item : StorageBlock bits H := .new fblock.storageBlockNum s.nextUid s.now
    let item := { item with useCount := useCount, hash := fblock.hash, loaded := true }
    (s'.put item, item)

/-- `_getLockedFileBlock` from the `block_info` on. -/
def locateBlock (s : Store bits H) (fi : FileInfo H) (item : BlockInfo H) (useCount : ℤ) :
    Located bits H :=
  if item.empty || (s.lock item.storageBlock).isSome then ⟨s, fi.setBlock item, item⟩
  else
    let r := ensureLoaded s item useCount
    let fblock := { item with storageBlock := some r.2.ptr }
    ⟨r.1, fi.setBlock fblock, fblock⟩

/-- `_getLockedFileBlock`. -/
def getLockedFileBlock (cfg : Config bits H) (s : Store bits H) (fi : FileInfo H)
    (blockNum : ℕ) : Located bits H :=
  locateBlock s fi (fileBlock cfg s fi blockNum).1 (fileBlock cfg s fi blockNum).2

/-! ### Chunks -/

/-- The part of one block that a call reads or writes: `len` bytes from `startOffset` of
`block`, at position `pos` of the caller's buffer. -/
structure Chunk where
  block : ℕ
  startOffset : ℕ
  len : ℕ
  pos : ℕ
  deriving DecidableEq, Repr

/-- `while (factSize < size)`, with `size` rounds at most. -/
def laterChunks (bits size : ℕ) : ℕ → ℕ → ℕ → List Chunk
  | 0, _, _ => []
  | fuel + 1, factSize, curBlockNum =>
    if factSize < size then
      let chunkSize := min (blockSize bits) (size - factSize)
      ⟨curBlockNum + 1, 0, chunkSize, factSize⟩ ::
        laterChunks bits size fuel (factSize + chunkSize) (curBlockNum + 1)
    else []

/-- The parts that `writeBuf` and `readBuf` handle, in order. -/
def chunks (bits size offset : ℕ) : List Chunk :=
  let startBlockNum := offset >>> bits
  let startOffset := offset - (startBlockNum <<< bits)
  let chunkSize := min size (blockSize bits - startOffset)
  ⟨startBlockNum, startOffset, chunkSize, 0⟩ :: laterChunks bits size size chunkSize startBlockNum

/-- `factSize` when the loop is left: what both calls return. -/
def factSize (bits size offset : ℕ) : ℕ :=
  (chunks bits size offset).foldl (fun factSize c => factSize + c.len) 0

theorem foldl_laterChunks {size fuel done : ℕ} (cur : ℕ) (hfuel : size - done ≤ fuel)
    (hle : done ≤ size) :
    (laterChunks bits size fuel done cur).foldl (fun factSize c => factSize + c.len) done =
      size := by
  induction fuel generalizing done cur with
  | zero =>
    show done = size
    omega
  | succ fuel ih =>
    have hpos := blockSize_pos bits
    unfold laterChunks
    dsimp only
    split
    · exact @ih (done + min (blockSize bits) (size - done)) (cur + 1) (by omega) (by omega)
    · show done = size
      omega

/-- The calls handle all of the range. -/
@[simp] theorem factSize_eq (bits size offset : ℕ) : factSize bits size offset = size := by
  unfold factSize chunks
  dsimp only
  rw [List.foldl_cons, Nat.zero_add]
  exact foldl_laterChunks _ (Nat.sub_le ..) (Nat.min_le_left ..)

/-! ### Reading -/

/-- The round of `readBuf` for the block that was located, with the end of `_getStorageBlock`: the
bytes it copies. -/
def readLocated (r : Located bits H) (c : Chunk) :
    Except Fault (Store bits H × FileInfo H × List UInt8) :=
  let zeros := List.replicate c.len 0
  match r.store.lock r.fblock.storageBlock with
  | none => .ok (r.store, r.finfo, zeros)
  | some block =>
    let block := { block with atime := r.store.now }
    if block.storageBlockNum = 0 then .ok (r.store.put block, r.finfo, zeros)
    else
      match populateStorageBlock r.store.storage block with
      | .error e => .error e
      | .ok block =>
        .ok (r.store.put block, r.finfo,
          (List.range' c.startOffset c.len).map fun i =>
            if h : i < blockSize bits then block.data.getD (zeroBlock bits) ⟨i, h⟩ else 0)

/-- The round of `readBuf` for one block. -/
def readChunk (cfg : Config bits H) (s : Store bits H) (fi : FileInfo H) (c : Chunk) :
    Except Fault (Store bits H × FileInfo H × List UInt8) :=
  readLocated (getLockedFileBlock cfg s fi c.block) c

def readChunks (cfg : Config bits H) : Store bits H → FileInfo H → List Chunk →
    Except Fault (Store bits H × FileInfo H × List UInt8)
  | s, fi, [] => .ok (s, fi, [])
  | s, fi, c :: cs =>
    match readChunk cfg s fi c with
    | .error e => .error e
    | .ok (s, fi, bytes) =>
      match readChunks cfg s fi cs with
      | .error e => .error e
      | .ok (s, fi, rest) => .ok (s, fi, bytes ++ rest)

/-- The length of a read is not negative, or nothing is left of it in the `int` of the first copy:
then the loop ends at once.  Every other read behind the end copies a wrong number of bytes. -/
def ReadStart (stSize offset : ℕ) : Prop := offset ≤ stSize ∨ 2 ^ 32 ∣ offset - stSize

instance (stSize offset : ℕ) : Decidable (ReadStart stSize offset) :=
  inferInstanceAs (Decidable (_ ∨ _))

theorem readStart_of_le {stSize offset : ℕ} (h : offset ≤ stSize) : ReadStart stSize offset :=
  .inl h

/-- `readBuf`; `stSize - offset` is 0 behind the end of the file. -/
def readBuf (cfg : Config bits H) (s : Store bits H) (fi : FileInfo H) (size offset : ℕ) :
    Except Fault (Store bits H × FileInfo H × List UInt8) :=
  if ReadStart fi.stSize offset then
    let size := if size + offset > fi.stSize then fi.stSize - offset else size
    readChunks cfg s fi (chunks bits size offset)
  else .error .negativeSize

/-! ### Writing -/

/-- The bytes that `_writeBlockWrapper` keeps of the old block: all of them when it writes a
part of a block that can be read, zeros otherwise. -/
def oldData (s : Store bits H) (fblock : BlockInfo H) (chunkSize : ℕ) :
    Except Fault (Store bits H × Block bits) :=
  match s.lock fblock.storageBlock with
  | none => .ok (s, zeroBlock bits)
  | some firstBlock =>
    let firstBlock := { firstBlock with atime := s.now }
    if firstBlock.storageBlockNum ≠ 0 ∧ chunkSize < blockSize bits then
      match populateStorageBlock s.storage firstBlock with
      | .error e => .error e
      | .ok firstBlock => .ok (s.put firstBlock, firstBlock.data.getD (zeroBlock bits))
    else .ok (s.put firstBlock, zeroBlock bits)

/-- The state after the transaction of `_writeBlock`. -/
structure Committed (bits : ℕ) (H : Type) where
  store : Store bits H
  fblock : BlockInfo H
  present : Bool

/-- `_writeBlock` up to the commit: the hash and `replaceStorageBlock`. -/
def commitBlock (s : Store bits H) (ino : ℕ) (hash : H) (fblock : BlockInfo H) :
    Committed bits H :=
  let r := replaceStorageBlock s.db ino fblock (s.lock fblock.storageBlock) hash
  let s := s.setDb r.db
  ⟨(r.sblock.map s.put).getD s, r.fblock, r.present⟩

/-- `_writeBlock` after the commit: the use count of the block that was found, or the data of
the block that has to be written. -/
def updateCache (s : Store bits H) (fblock : BlockInfo H) (present : Bool) (data : Block bits)
    (hash : H) : Store bits H × BlockInfo H :=
  let cached := s.blocks.find fblock.storageBlockNum
  if present then
    ((cached.map fun item => s.put { item with useCount := item.useCount + 1 }).getD s, fblock)
  else
    let item := cached.getD (StorageBlock.new fblock.storageBlockNum s.nextUid s.now)
    let item := { item with
      data := some data, hash := .digest hash, useCount := 1, dirty := true, loaded := true }
    ({ s.put item with nextUid := s.nextUid + 1 }, { fblock with storageBlock := some item.ptr })

/-- `_writeBlock`. -/
def writeBlock (cfg : Config bits H) (s : Store bits H) (ino : ℕ) (data : Block bits)
    (fblock : BlockInfo H) : Store bits H × BlockInfo H :=
  let hash := cfg.murmur data
  let r := commitBlock s ino hash fblock
  updateCache r.store r.fblock r.present data hash

/-- `_writeBlockWrapper`; `buf` is the caller's buffer. -/
def writeBlockWrapper (cfg : Config bits H) (s : Store bits H) (fi : FileInfo H)
    (buf : List UInt8) (c : Chunk) : Except Fault (Store bits H × FileInfo H) :=
  let r := getLockedFileBlock cfg s fi c.block
  match oldData r.store r.fblock c.len with
  | .error e => .error e
  | .ok (s, old) =>
    let data := overlay old c.startOffset c.len fun i => buf.getD (c.pos + i) 0
    let w := writeBlock cfg s r.finfo.stIno data r.fblock
    .ok (w.1, r.finfo.setBlock w.2)

def writeChunks (cfg : Config bits H) (buf : List UInt8) : Store bits H → FileInfo H →
    List Chunk → Except Fault (Store bits H × FileInfo H)
  | s, fi, [] => .ok (s, fi)
  | s, fi, c :: cs =>
    match writeBlockWrapper cfg s fi buf c with
    | .error e => .error e
    | .ok (s, fi) => writeChunks cfg buf s fi cs

/-- The first statement of `writeBuf`: a write past the end grows the file. -/
def growFile (s : Store bits H) (fi : FileInfo H) (newSize : ℕ) : Store bits H × FileInfo H :=
  if newSize > fi.stSize then
    let r := s.db.ftruncate fi newSize
    (s.setDb r.1, r.2.1)
  else (s, fi)

/-- `writeBuf`; what it returns is the `factSize` of its chunks. -/
def writeBuf (cfg : Config bits H) (s : Store bits H) (fi : FileInfo H) (buf : List UInt8)
    (offset : ℕ) : Except Fault (Store bits H × FileInfo H) :=
  let r := growFile s fi (buf.length + offset)
  writeChunks cfg buf r.1 r.2 (chunks bits buf.length offset)

/-! ### Truncating -/

/-- The round of `truncate` for one block. -/
def releaseBlock (cfg : Config bits H) (s : Store bits H) (fi : FileInfo H) (curBlock : ℕ) :
    Except Fault (Store bits H × FileInfo H) :=
  match releaseStorageBlock cfg s.db fi curBlock with
  | .error e => .error e
  | .ok (db, fi, storageBlockNum) =>
    let s := s.setDb db
    if storageBlockNum ≠ 0 then
      .ok (((s.blocks.find storageBlockNum).map fun b =>
        s.put { b with useCount := b.useCount - 1 }).getD s, fi)
    else .ok (s, fi)

/-- The loop of `truncate` over the blocks that go. -/
def releaseBlocks (cfg : Config bits H) : Store bits H → FileInfo H → List ℕ →
    Except Fault (Store bits H × FileInfo H)
  | s, fi, [] => .ok (s, fi)
  | s, fi, curBlock :: later =>
    match releaseBlock cfg s fi curBlock with
    | .error e => .error e
    | .ok (s, fi) => releaseBlocks cfg s fi later

/-- The first block past the end of a file of the given size. -/
def endBlock (bits size : ℕ) : ℕ := if size ≠ 0 then ((size - 1) >>> bits) + 1 else 0

/-- `truncate`; the last component is what it returns. -/
def truncate (cfg : Config bits H) (s : Store bits H) (fi : FileInfo H) (newSize : ℤ) :
    Except Fault (Store bits H × FileInfo H × ℤ) :=
  if newSize < 0 then .ok (s, fi, -einval)
  else if (fi.stSize : ℤ) ≤ newSize then
    let r := s.db.ftruncate fi newSize
    .ok (s.setDb r.1, r.2.1, r.2.2)
  else
    let startBlock := endBlock bits newSize.toNat
    let endBlock := if fi.stSize ≠ 0 then ((fi.stSize - 1) >>> bits) + 1 else 1
    match releaseBlocks cfg s fi (List.range' startBlock (endBlock - startBlock)) with
    | .error e => .error e
    | .ok (s, fi) =>
      let r := s.db.ftruncate fi newSize
      .ok (s.setDb r.1, r.2.1, r.2.2)

/-! ### The writer thread -/

/-- One `pwrite` of the writer's loop. -/
def writeOut (st : Storage bits) (b : StorageBlock bits H) : Storage bits :=
  if b.dirty then (b.data.map (st.pwrite b.storageBlockNum)).getD st else st

/-- Write the dirty blocks among the chosen ones and mark them clean. -/
def Store.flush (s : Store bits H) (p : StorageBlock bits H → Bool) : Store bits H :=
  { s with
    storage := (s.blocks.rows.filter p).foldl writeOut s.storage
    blocks := s.blocks.modify p (fun b => { b with dirty := false }) (fun _ => rfl) }

/-- One pass of `run`, with nothing running meanwhile: flush all blocks, then flush and erase
the victims.  The pass takes its victims by age and number; here they are any set. -/
def Store.writerPass (s : Store bits H) (victims : List ℕ) : Store bits H :=
  let s := s.flush fun _ => true
  let s := s.flush fun b => b.storageBlockNum ∈ victims
  { s with blocks := s.blocks.delete fun b => b.storageBlockNum ∈ victims }

end Wwdedup
