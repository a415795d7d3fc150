import Wwdedup.Like
import Wwdedup.Path

/-!
# The database layer

`Db` is the content of the three tables; the functions named after the prepared statements of
`DataBase::prepareStatements` are the statements, the others are the methods of `DataBase`
that use them.  A statement is executed whole, and a transaction is the composition of its
statements: no statement fails here, except that an update which would break
`UNIQUE(path)` throws (`updateFilePath` then gives `none`, and the caller's exception ends
the request with `-EIO`).

`replaceStorageBlock` and `releaseStorageBlock` change, besides the tables, the `block_info`
and the locked storage block that they are given; they return these as values.
-/

namespace Wwdedup

def FileBlockRow.key {H : Type} (r : FileBlockRow H) : ℕ × ℕ := (r.fileId, r.offset)

/-- The tables.  `_ID` is the key of `files` and `block_hashes`, UNIQUE(file_id, offset) the
key of `file_blocks`. -/
structure Db (H : Type) where
  files : KeyedTable FileRow ℕ FileRow.id
  fileBlocks : KeyedTable (FileBlockRow H) (ℕ × ℕ) FileBlockRow.key
  blockHashes : KeyedTable (BlockHashRow H) ℕ BlockHashRow.id

variable {bits : ℕ} {H : Type} [DecidableEq H]

namespace Db

def empty : Db H := ⟨.empty, .empty, .empty⟩

/-! ### The prepared statements on blocks -/

/-- `SELECT _ID, use_count FROM block_hashes WHERE hash = ?`. -/
def selectBlockHash (db : Db H) (hash : H) : Option (BlockHashRow H) :=
  db.blockHashes.rows.find? fun r => r.hash = hash

/-- `SELECT h._ID, h.hash, h.use_count FROM file_blocks b LEFT JOIN block_hashes h ...`: no
row, a row whose right side is NULL, or a row. -/
def getFileBlock (db : Db H) (fileId offset : ℕ) : Option (Option (BlockHashRow H)) :=
  (db.fileBlocks.find (fileId, offset)).map fun b => db.selectBlockHash b.hash

/-- `DELETE FROM file_blocks WHERE file_id = ? AND offset = ?`. -/
def deleteFileBlock (db : Db H) (fileId offset : ℕ) : Db H :=
  { db with fileBlocks := db.fileBlocks.deleteKey (fileId, offset) }

/-- `REPLACE INTO file_blocks (file_id, offset, hash) VALUES(?, ?, ?)`. -/
def replaceFileBlock (db : Db H) (fileId offset : ℕ) (hash : H) : Db H :=
  { db with fileBlocks := db.fileBlocks.replace ⟨fileId, offset, hash⟩ }

/-- `UPDATE block_hashes SET use_count = use_count - 1 WHERE hash = ?`. -/
def decreaseUseCount (db : Db H) (hash : H) : Db H :=
  { db with
    blockHashes := db.blockHashes.modify (fun r => r.hash = hash)
      (fun r => { r with useCount := r.useCount - 1 }) (fun _ => rfl) }

/-- `UPDATE block_hashes SET use_count = use_count + 1 WHERE hash = ?`. -/
def increaseUseCount (db : Db H) (hash : H) : Db H :=
  { db with
    blockHashes := db.blockHashes.modify (fun r => r.hash = hash)
      (fun r => { r with useCount := r.useCount + 1 }) (fun _ => rfl) }

/-- `UPDATE block_hashes SET use_count = ? WHERE _ID = ?`. -/
def setUseCount (db : Db H) (useCount : ℤ) (id : ℕ) : Db H :=
  { db with
    blockHashes := db.blockHashes.modify (fun r => r.id = id)
      (fun r => { r with useCount := useCount }) (fun _ => rfl) }

/-- `UPDATE block_hashes SET hash = ? WHERE _ID = ?`. -/
def updateBlockHash (db : Db H) (hash : H) (id : ℕ) : Db H :=
  { db with
    blockHashes := db.blockHashes.modify (fun r => r.id = id)
      (fun r => { r with hash := hash }) (fun _ => rfl) }

/-- `INSERT INTO block_hashes (hash, use_count) VALUES(?, 1)`; the new row has the number
`db.blockHashes.nextId`. -/
def insertBlockHash (db : Db H) (hash : H) : Db H :=
  { db with blockHashes := db.blockHashes.insert (fun n => ⟨n, hash, 1⟩) (fun _ => rfl) }

/-! ### The statements on files -/

/-- `UPDATE files SET size = ? WHERE _ID = ?`. -/
def updateFileSize (db : Db H) (size id : ℕ) : Db H :=
  { db with
    files := db.files.modify (fun r => r.id = id)
      (fun r => { r with size := size }) (fun _ => rfl) }

/-- `UPDATE files SET path = ?, depth = ... WHERE _ID = ?`; `none` is the exception that a
second row with the path makes. -/
def updateFilePath (db : Db H) (path : Path) (depth : ℤ → ℤ) (id : ℕ) : Option (Db H) :=
  if (db.files.find id).isSome ∧ db.files.rows.any (fun r => r.id ≠ id ∧ r.path = path) then none
  else
    some { db with
      files := db.files.modify (fun r => r.id = id)
        (fun r => { r with path := path, depth := depth r.depth }) (fun _ => rfl) }

/-- `DataBase::getByPath`: `stIno = 0` when there is no such row.  Nothing sets `st_mode` then:
it is what the memory of the new `file_info` held. -/
def getByPathIn (memory : ℕ) (db : Db H) (filename : Path) : FileInfo H :=
  match db.files.rows.find? fun r => r.path = filename with
  | some r =>
    { name := filename, depth := r.depth, stIno := r.id, stSize := r.size, stMode := r.mode,
      blocks := fun _ => none }
  | none =>
    { name := [], depth := 0, stIno := 0, stSize := 0, stMode := memory, blocks := fun _ => none }

/-- The same for the callers that look at `st_ino` first, as all but `DedupFS::Rmdir` do: which
memory it was makes no difference to them. -/
def getByPath (db : Db H) (filename : Path) : FileInfo H := db.getByPathIn 0 filename

omit [DecidableEq H] in
/-- With a row the memory does not show. -/
theorem getByPathIn_cases (memory : ℕ) (db : Db H) (filename : Path) :
    db.getByPathIn memory filename = db.getByPath filename ∨
      ∀ r ∈ db.files.rows, r.path ≠ filename := by
  unfold getByPath getByPathIn
  cases hfind : db.files.rows.find? fun r => decide (r.path = filename) with
  | some r => exact .inl rfl
  | none =>
    right
    intro r hr
    simpa using List.find?_eq_none.mp hfind r hr

/-- `DataBase::create`. -/
def create (db : Db H) (filename : Path) (mode : ℕ) : Db H × ℤ :=
  let dir := db.getByPath (branchPath filename)
  if filename ≠ ['/'] ∧ dir.stIno = 0 then (db, -enoent)
  else if filename ≠ ['/'] ∧ !sIsdir dir.stMode then (db, -enotdir)
  else if (db.getByPath filename).stIno ≠ 0 then (db, -eexist)
  else
    let depth := if filename = ['/'] then 0 else dir.depth + 1
    ({ db with files := db.files.insert (fun n => ⟨n, filename, depth, 0, mode⟩) (fun _ => rfl) },
      0)

/-- `DataBase::remove`. -/
def remove (db : Db H) (filename : Path) : Db H × ℤ :=
  ({ db with files := db.files.delete fun r => r.path = filename }, 0)

omit [DecidableEq H] in
/-- To remove a path that is not there changes nothing. -/
theorem remove_missing (db : Db H) {filename : Path}
    (h : ∀ r ∈ db.files.rows, r.path ≠ filename) : (db.remove filename).1 = db := by
  have hfiles : (db.files.delete fun r => decide (r.path = filename)) = db.files :=
    db.files.delete_of_forall_not fun r hr => decide_eq_false (h r hr)
  unfold remove
  rw [hfiles]

/-- The pattern of everything under a directory, as `dirEmpty` builds it. -/
def entriesPattern (dir : FileInfo H) : Path :=
  if dir.name.getLast? = some '/' then dir.name ++ ['%'] else dir.name ++ ['/', '%']

/-- `DataBase::dirEmpty`. -/
def dirEmpty (db : Db H) (dir : FileInfo H) : Bool :=
  db.files.count (fun r => like (entriesPattern dir) r.path && r.depth = dir.depth + 1) = 0

/-- `DataBase::readdir`. -/
def readdir (db : Db H) (directory : FileInfo H) : List (FileInfo H) :=
  (db.files.rows.filter fun r =>
      like (entriesPattern directory) r.path && r.depth = directory.depth + 1).map fun r =>
    { name := r.path, depth := directory.depth + 1, stIno := r.id, stSize := r.size,
      stMode := r.mode, blocks := fun _ => none }

/-- The checks that `DataBase::rename` makes before it changes anything: the error, or the file
and the directory it goes to. -/
def renameCheck (db : Db H) (oldPath newPath : Path) : Except ℤ (FileInfo H × FileInfo H) :=
  let oldFile := db.getByPath oldPath
  let destDir := db.getByPath (branchPath newPath)
  let newFile := db.getByPath newPath
  if oldFile.stIno = 0 then .error (-enoent)
  else if destDir.stIno = 0 then .error (-enoent)
  else if !sIsdir destDir.stMode then .error (-enotdir)
  else if newFile.stIno ≠ 0 then
    if sIsdir oldFile.stMode then
      if sIsdir newFile.stMode && !db.dirEmpty newFile then .error (-enotempty)
      else if !sIsdir newFile.stMode then .error (-enotdir)
      else if oldPath.isPrefixOf newPath then .error (-einval)
      else .ok (oldFile, destDir)
    else if sIsdir newFile.stMode then .error (-eisdir)
    else .ok (oldFile, destDir)
  else .ok (oldFile, destDir)

/-- The loop of `DataBase::rename` over the rows below a directory: the last state and whether
it came to its end. -/
def renameBelow (oldPath newPath : Path) (depthDiff : ℤ) : Db H → List FileRow → Db H × Bool
  | db, [] => (db, true)
  | db, r :: rows =>
    match db.updateFilePath (newPath ++ r.path.drop oldPath.length) (· + depthDiff) r.id with
    | none => (db, false)
    | some db' => renameBelow oldPath newPath depthDiff db' rows

/-- `DataBase::rename`; an exception shows as `-EIO`.  (`remove` returns 0, so the source's
`-EBUSY` is never returned.) -/
def rename (db : Db H) (oldPath newPath : Path) : Db H × ℤ :=
  match db.renameCheck oldPath newPath with
  | .error e => (db, e)
  | .ok (oldFile, destDir) =>
    let depthDiff := destDir.depth + 1 - oldFile.depth
    let db := if (db.getByPath newPath).stIno ≠ 0 then (db.remove newPath).1 else db
    let below :=
      if sIsdir oldFile.stMode then
        renameBelow oldPath newPath depthDiff db
          (db.files.rows.filter fun r => like (oldPath ++ ['/', '%']) r.path)
      else (db, true)
    if !below.2 then (below.1, -eio)
    else
      match below.1.updateFilePath newPath (fun _ => destDir.depth + 1) oldFile.stIno with
      | none => (below.1, -eio)
      | some db => (db, 0)

/-- `DataBase::ftruncate`: the size of the row and of the handle. -/
def ftruncate (db : Db H) (fi : FileInfo H) (newSize : ℤ) : Db H × FileInfo H × ℤ :=
  if newSize < 0 then (db, fi, -einval)
  else if (fi.stSize : ℤ) = newSize then (db, fi, 0)
  else (db.updateFileSize newSize.toNat fi.stIno, { fi with stSize := newSize.toNat }, 0)

end Db

/-! ### The block methods -/

/-- `DataBase::loadFileBlock`: the filled `block_info` and the use count of its row. -/
def loadFileBlock (cfg : Config bits H) (db : Db H) (fi : FileInfo H) (block : BlockInfo H) :
    BlockInfo H × ℤ :=
  if (block.fileBlockNum : ℤ) * cfg.dbBlockSize > fi.stSize then
    ({ block with empty := true, storageBlockNum := 0 }, 0)
  else
    match db.getFileBlock fi.stIno block.fileBlockNum with
    | some (some r) =>
      ({ block with empty := false, storageBlockNum := r.id, hash := .digest r.hash }, r.useCount)
    | some none => ({ block with empty := false, storageBlockNum := 0, hash := .empty }, 0)
    | none => ({ block with empty := true, storageBlockNum := 0 }, 0)

/-- What `DataBase::replaceStorageBlock` leaves behind: the tables, the `block_info`, the
storage block it had locked, and its result. -/
structure Replaced (bits : ℕ) (H : Type) where
  db : Db H
  fblock : BlockInfo H
  sblock : Option (StorageBlock bits H)
  present : Bool

/-- `sblock->use_count--`. -/
def StorageBlock.release (b : StorageBlock bits H) : StorageBlock bits H :=
  { b with useCount := b.useCount - 1 }

/-- The end of the transaction: the file block gets the hash, and the row of the locked block
the cached count. -/
def Db.mapFileBlock (db : Db H) (ino fileBlockNum : ℕ) (hash : H)
    (sblock : Option (StorageBlock bits H)) : Db H :=
  let db := db.replaceFileBlock ino fileBlockNum hash
  (sblock.map fun b => db.setUseCount b.useCount b.storageBlockNum).getD db

/-- `DataBase::replaceStorageBlock`; `sblock` is `fblock->storageBlock.lock()`. -/
def replaceStorageBlock (db : Db H) (ino : ℕ) (fblock : BlockInfo H)
    (sblock : Option (StorageBlock bits H)) (hash : H) : Replaced bits H :=
  let fblock := { fblock with hash := .digest hash }
  match db.selectBlockHash hash with
  | some r =>
    let sblock := sblock.map StorageBlock.release
    { db := (db.increaseUseCount hash).mapFileBlock ino fblock.fileBlockNum hash sblock
      fblock := { fblock with storageBlockNum := r.id, storageBlock := none }
      sblock := sblock
      present := true }
  | none =>
    match sblock.filter fun b => b.useCount = 1 with
    | some b =>
      { db := (db.updateBlockHash hash b.storageBlockNum).mapFileBlock ino fblock.fileBlockNum
          hash sblock
        fblock := fblock
        sblock := sblock
        present := false }
    | none =>
      let sblock := sblock.map StorageBlock.release
      { db := (db.insertBlockHash hash).mapFileBlock ino fblock.fileBlockNum hash sblock
        fblock := { fblock with storageBlockNum := db.blockHashes.nextId, storageBlock := none }
        sblock := sblock
        present := false }

/-- `DataBase::releaseStorageBlock`: the tables, the handle without the block, and the number
of the storage block.  A block without a hash makes it follow a null pointer. -/
def releaseStorageBlock (cfg : Config bits H) (db : Db H) (fi : FileInfo H) (fileBlockNum : ℕ) :
    Except Fault (Db H × FileInfo H × ℕ) :=
  let fileBlock :=
    match fi.blocks fileBlockNum with
    | some gp => gp
    | none => (loadFileBlock cfg db fi (.new fileBlockNum)).1
  let fi := fi.dropBlock fileBlockNum
  let db := db.deleteFileBlock fi.stIno fileBlockNum
  match fileBlock.hash with
  | .null => .error .nullHash
  | .empty => .ok (db, fi, fileBlock.storageBlockNum)
  | .digest h => .ok (db.decreaseUseCount h, fi, fileBlock.storageBlockNum)

end Wwdedup
