import Wwdedup.BlocksCache
import Wwdedup.Lib.GuardedRun

/-!
# The file system

`Fs` is the running file system: the shared store and the open handles.  `step` executes one
request of `DedupFS`, one whole pass of the writer thread, a clean unmount and remount, or a
tick of the clock; a run of the file system is a run of `step`.  `freshRead` is what a handle
opened now reads from a file: `Open`, then `Read` of the whole size.
-/

namespace Wwdedup

variable {bits : ℕ} {H : Type} [DecidableEq H]

/-- The mounted file system. -/
structure Fs (bits : ℕ) (H : Type) where
  store : Store bits H
  handles : ℕ → Option (FileInfo H)
  nextFh : ℕ

/-- A request, or something that happens between requests.  `memory` is what the memory that
`Rmdir` gets for a `file_info` held before. -/
inductive Op where
  | create (path : Path) (mode : ℕ)
  | mkdir (path : Path) (mode : ℕ)
  | openFile (path : Path)
  | release (fh : ℕ)
  | write (fh : ℕ) (buf : List UInt8) (offset : ℕ)
  | read (fh size offset : ℕ)
  | truncate (path : Path) (newSize : ℤ)
  | ftruncate (fh : ℕ) (newSize : ℤ)
  | unlink (path : Path)
  | rmdir (path : Path) (memory : ℕ)
  | rename (oldPath newPath : Path)
  | writerPass (victims : List ℕ)
  | remount
  | clock (now : ℕ)
  deriving DecidableEq, Repr

/-- What a request shows: its return value, a new handle, or the bytes read. -/
inductive Out where
  | ret (r : ℤ)
  | opened (fh : ℕ)
  | bytes (xs : List UInt8)
  deriving DecidableEq, Repr

namespace Fs

def setStore (fs : Fs bits H) (s : Store bits H) : Fs bits H := { fs with store := s }

def setDb (fs : Fs bits H) (db : Db H) : Fs bits H := { fs with store := fs.store.setDb db }

def setHandle (fs : Fs bits H) (fh : ℕ) (fi : FileInfo H) : Fs bits H :=
  { fs with handles := Function.update fs.handles fh (some fi) }

/-- `fileInfo->fh = (uint64_t)fi.detach()`. -/
def addHandle (fs : Fs bits H) (fi : FileInfo H) : Fs bits H :=
  { fs.setHandle fs.nextFh fi with nextFh := fs.nextFh + 1 }

/-- `DedupFS::Create`. -/
def create (fs : Fs bits H) (path : Path) (mode : ℕ) : Fs bits H × Out :=
  let r := fs.store.db.create path mode
  if r.2 < 0 then (fs.setDb r.1, .ret r.2)
  else ((fs.setDb r.1).addHandle (r.1.getByPath path), .opened fs.nextFh)

/-- `DedupFS::Mkdir`. -/
def mkdir (fs : Fs bits H) (path : Path) (mode : ℕ) : Fs bits H × Out :=
  let r := fs.store.db.create path (mode ||| sIfdir)
  (fs.setDb r.1, .ret r.2)

/-- `DedupFS::Open`. -/
def openFile (fs : Fs bits H) (path : Path) : Fs bits H × Out :=
  let fi := fs.store.db.getByPath path
  if fi.stIno = 0 then (fs, .ret (-enoent))
  else if !sIsreg fi.stMode then (fs, .ret (-eio))
  else (fs.addHandle fi, .opened fs.nextFh)

/-- `DedupFS::Release`. -/
def release (fs : Fs bits H) (fh : ℕ) : Fs bits H × Out :=
  ({ fs with handles := Function.update fs.handles fh none }, .ret 0)

/-- `DedupFS::Write`. -/
def write (cfg : Config bits H) (fs : Fs bits H) (fh : ℕ) (buf : List UInt8) (offset : ℕ) :
    Except Fault (Fs bits H × Out) :=
  match fs.handles fh with
  | none => .error .noHandle
  | some fi =>
    match writeBuf cfg fs.store fi buf offset with
    | .error e => .error e
    | .ok (s, fi) =>
      .ok ((fs.setStore s).setHandle fh fi, .ret (factSize bits buf.length offset))

/-- `DedupFS::Read`. -/
def read (cfg : Config bits H) (fs : Fs bits H) (fh size offset : ℕ) :
    Except Fault (Fs bits H × Out) :=
  match fs.handles fh with
  | none => .error .noHandle
  | some fi =>
    match readBuf cfg fs.store fi size offset with
    | .error e => .error e
    | .ok (s, fi, xs) => .ok ((fs.setStore s).setHandle fh fi, .bytes xs)

/-- `DedupFS::Truncate`: on a `file_info` of its own. -/
def truncate (cfg : Config bits H) (fs : Fs bits H) (path : Path) (newSize : ℤ) :
    Except Fault (Fs bits H × Out) :=
  let fi := fs.store.db.getByPath path
  if fi.stIno = 0 then .ok (fs, .ret (-enoent))
  else if !sIsreg fi.stMode then .ok (fs, .ret (-einval))
  else
    match Wwdedup.truncate cfg fs.store fi newSize with
    | .error e => .error e
    | .ok (s, _, r) => .ok (fs.setStore s, .ret r)

/-- `DedupFS::Ftruncate`. -/
def ftruncate (cfg : Config bits H) (fs : Fs bits H) (fh : ℕ) (newSize : ℤ) :
    Except Fault (Fs bits H × Out) :=
  match fs.handles fh with
  | none => .error .noHandle
  | some fi =>
    match Wwdedup.truncate cfg fs.store fi newSize with
    | .error e => .error e
    | .ok (s, fi, r) => .ok ((fs.setStore s).setHandle fh fi, .ret r)

/-- `DedupFS::Unlink`. -/
def unlink (cfg : Config bits H) (fs : Fs bits H) (path : Path) : Except Fault (Fs bits H × Out) :=
  let fi := fs.store.db.getByPath path
  if fi.stIno = 0 then .ok (fs, .ret (-enoent))
  else if sIsdir fi.stMode then .ok (fs, .ret (-eisdir))
  else
    match Wwdedup.truncate cfg fs.store fi 0 with
    | .error e => .error e
    | .ok (s, _, r) =>
      if r ≠ 0 then .ok (fs.setStore s, .ret r)
      else
        let d := s.db.remove path
        .ok ((fs.setStore s).setDb d.1, .ret d.2)

/-- `DedupFS::Rmdir`; it does not ask whether there is such a path. -/
def rmdir (fs : Fs bits H) (path : Path) (memory : ℕ) : Fs bits H × Out :=
  let fi := fs.store.db.getByPathIn memory path
  if !sIsdir fi.stMode then (fs, .ret (-enotdir))
  else if !fs.store.db.dirEmpty fi then (fs, .ret (-enotempty))
  else
    let d := fs.store.db.remove path
    (fs.setDb d.1, .ret d.2)

/-- What `rmdir` leaves and answers: for a path that is not there nothing changes, and the answer
depends on the memory; otherwise there is an error, or the row of a directory goes. -/
inductive Rmdirs (fs : Fs bits H) (path : Path) : Fs bits H × Out → Prop
  | missing {e : ℤ} (absent : ∀ r ∈ fs.store.db.files.rows, r.path ≠ path)
      (answer : e = 0 ∨ e = -enotdir ∨ e = -enotempty) : Rmdirs fs path (fs, .ret e)
  | notDir (file : sIsdir (fs.store.db.getByPath path).stMode = false) :
      Rmdirs fs path (fs, .ret (-enotdir))
  | notEmpty (dir : sIsdir (fs.store.db.getByPath path).stMode = true)
      (full : fs.store.db.dirEmpty (fs.store.db.getByPath path) = false) :
      Rmdirs fs path (fs, .ret (-enotempty))
  | removed (dir : sIsdir (fs.store.db.getByPath path).stMode = true)
      (empty : fs.store.db.dirEmpty (fs.store.db.getByPath path) = true) :
      Rmdirs fs path (fs.setDb (fs.store.db.remove path).1, .ret 0)

omit [DecidableEq H] in
theorem rmdir_rmdirs (fs : Fs bits H) (path : Path) (memory : ℕ) :
    fs.Rmdirs path (fs.rmdir path memory) := by
  unfold rmdir
  dsimp only
  rcases Db.getByPathIn_cases memory fs.store.db path with heq | habsent
  · rw [heq]
    cases hdir : sIsdir (fs.store.db.getByPath path).stMode with
    | false => exact .notDir hdir
    | true =>
      cases hempty : fs.store.db.dirEmpty (fs.store.db.getByPath path) with
      | false => exact .notEmpty hdir hempty
      | true => exact .removed hdir hempty
  · have hsame : fs.setDb (fs.store.db.remove path).1 = fs := by
      rw [fs.store.db.remove_missing habsent]
      rfl
    split
    · exact .missing habsent (.inr (.inl rfl))
    · split
      · exact .missing habsent (.inr (.inr rfl))
      · rw [hsame]
        exact .missing habsent (.inl rfl)

/-- `DedupFS::Opendir`: the error, or the `file_info` that the handle of the directory keeps. -/
def opendir (fs : Fs bits H) (path : Path) : Except ℤ (FileInfo H) :=
  let fi := fs.store.db.getByPath path
  if fi.stIno ≠ 0 then
    if !sIsdir fi.stMode then .error (-enotdir) else .ok fi
  else .error (-enoent)

/-- The loop of `Readdir`: the entries go to the caller's buffer until `filler` takes no more. -/
def fillEntries {B : Type} (filler : B → Path → FileInfo H → B × Bool) : B → List (FileInfo H) → B
  | buf, [] => buf
  | buf, file :: files =>
    let r := filler buf (leaf file.name) file
    if r.2 then r.1 else fillEntries filler r.1 files

/-- `DedupFS::Readdir`; `filler` is the callback that puts a name and its `struct stat` into the
buffer. -/
def readdir {B : Type} (fs : Fs bits H) (filler : B → Path → FileInfo H → B × Bool) (buf : B)
    (fi : FileInfo H) : B × ℤ :=
  let files := fs.store.db.readdir fi
  let buf := (filler buf ['.'] fi).1
  let buf := (filler buf ['.', '.'] fi).1
  (fillEntries filler buf files, 0)

/-- `DedupFS::Rename`. -/
def rename (fs : Fs bits H) (oldPath newPath : Path) : Fs bits H × Out :=
  let r := fs.store.db.rename oldPath newPath
  (fs.setDb r.1, .ret r.2)

/-- Unmount after a last complete flush, and mount again: handles and cache are gone, and the
constructor of `DataBase` asks for the root directory. -/
def remount (fs : Fs bits H) : Fs bits H :=
  let s := fs.store.flush fun _ => true
  { fs with
    store := { s.setDb (s.db.create ['/'] (sIfdir ||| 0o755)).1 with blocks := .empty }
    handles := fun _ => none }

/-- A new store: no tables, a storage file that was just created. -/
def init (bits : ℕ) (H : Type) [DecidableEq H] : Fs bits H where
  store :=
    { db := ((Db.empty : Db H).create ['/'] (sIfdir ||| 0o755)).1
      storage := .create bits
      blocks := .empty
      nextUid := 0
      now := 0 }
  handles := fun _ => none
  nextFh := 0

/-- One step of the file system. -/
def step (cfg : Config bits H) (fs : Fs bits H) : Op → Except Fault (Fs bits H × Out)
  | .create path mode => .ok (fs.create path mode)
  | .mkdir path mode => .ok (fs.mkdir path mode)
  | .openFile path => .ok (fs.openFile path)
  | .release fh => .ok (fs.release fh)
  | .write fh buf offset => fs.write cfg fh buf offset
  | .read fh size offset => fs.read cfg fh size offset
  | .truncate path newSize => fs.truncate cfg path newSize
  | .ftruncate fh newSize => fs.ftruncate cfg fh newSize
  | .unlink path => fs.unlink cfg path
  | .rmdir path memory => .ok (fs.rmdir path memory)
  | .rename oldPath newPath => .ok (fs.rename oldPath newPath)
  | .writerPass victims => .ok (fs.setStore (fs.store.writerPass victims), .ret 0)
  | .remount =>
    -- the signature and the block size take 12 bytes: smaller blocks are refused at the next start
    if bits < 4 then .error .storageRefused else .ok (fs.remount, .ret 0)
  | .clock now => .ok (fs.setStore { fs.store with now := now }, .ret 0)

end Fs

/-- Blocks that are their own hash, and a database layer that knows the block size. -/
def plainConfig (bits : ℕ) : Config bits (List UInt8) where
  dbBlockSize := blockSize bits
  murmur := List.ofFn

/-- A new store after the steps (the store itself when one of them fails). -/
def Fs.after (cfg : Config bits H) (ops : List Op) : Fs bits H :=
  match GuardedRun.run (Fs.step cfg) (Fs.init bits H) ops with
  | .ok (fs, _) => fs
  | .error _ => Fs.init bits H

theorem Fs.after_reachable (cfg : Config bits H) (ops : List Op) :
    GuardedRun.Reachable (Fs.step cfg) (Fs.init bits H) (Fs.after cfg ops) := by
  unfold Fs.after
  cases h : GuardedRun.run (Fs.step cfg) (Fs.init bits H) ops with
  | error e => exact .refl _
  | ok q => exact ⟨ops, q.2, h⟩

/-- The bytes that a handle opened now reads from the file. -/
def freshRead (cfg : Config bits H) (s : Store bits H) (path : Path) : Except Fault (List UInt8) :=
  let fi := s.db.getByPath path
  (readBuf cfg s fi fi.stSize 0).map fun r => r.2.2

end Wwdedup
