import Wwdedup.DedupFS
import Wwdedup.Subtree
import Wwdedup.Lib.FlatFile

/-!
# What the file system is for

A `FileSystem` has no blocks, no hashes and no cache: paths name nodes, a node is a mode, a size
and bytes, and a handle is that of a node.  `Step` says what a request does to it and what it
shows.  It is a relation, because a new node and a new handle get any number that is free.

* `refusal` is the error that a request is refused with; a refused request changes nothing.
* `Step` has one constructor for each request that goes ahead, and one for refused ones.
* A truncation leaves what a `Cutting` makes of the bytes: `flatCut` keeps those in front of the new
  end only, `blockCut` all bytes of the blocks that start in front of it.
* `Step.cut_congr`: where two cuts agree the same steps are possible.
* `Step.flat`: with `flatCut` the bytes behind the end of every file stay zero.
-/

namespace Wwdedup

open GuardedRun

/-- A file or a directory. -/
@[ext]
structure Node where
  mode : ℕ
  size : ℕ
  byte : ℕ → UInt8

/-- What a truncation to a size leaves of the bytes. -/
abbrev Cutting := ℕ → (ℕ → UInt8) → ℕ → UInt8

/-- The bytes in front of the new end stay. -/
def flatCut : Cutting := fun n f p => if p < n then f p else 0

/-- The blocks that start in front of the new end stay. -/
def blockCut (bits : ℕ) : Cutting := fun n f p =>
  if p / blockSize bits * blockSize bits < n then f p else 0

namespace Node

def new (mode : ℕ) : Node := ⟨mode, 0, fun _ => 0⟩

/-- The bytes of the buffer at the offset; the node grows when they end behind its end. -/
def write (n : Node) (buf : List UInt8) (offset : ℕ) : Node where
  mode := n.mode
  size := max n.size (offset + buf.length)
  byte := patch n.byte offset buf.length fun i => buf.getD i 0

/-- At most `size` bytes from the offset, up to the end. -/
def read (n : Node) (size offset : ℕ) : List UInt8 :=
  window n.byte offset (min size (n.size - offset))

def truncate (cut : Cutting) (n : Node) (newSize : ℕ) : Node where
  mode := n.mode
  size := newSize
  byte := cut newSize n.byte

/-- No byte behind the end. -/
def Flat (n : Node) : Prop := ∀ p, n.size ≤ p → n.byte p = 0

theorem new_flat (mode : ℕ) : (new mode).Flat := fun _ _ => rfl

theorem Flat.write {n : Node} (h : n.Flat) (buf : List UInt8) (offset : ℕ) :
    (n.write buf offset).Flat := by
  intro p hp
  have hp' : max n.size (offset + buf.length) ≤ p := hp
  show patch n.byte offset buf.length (fun i => buf.getD i 0) p = 0
  unfold patch
  rw [if_neg (by omega)]
  exact h p (by omega)

theorem truncate_flat (n : Node) (newSize : ℕ) : (n.truncate flatCut newSize).Flat := by
  intro p hp
  have hp' : newSize ≤ p := hp
  show flatCut newSize n.byte p = 0
  unfold flatCut
  rw [if_neg (by omega)]

end Node

/-- Paths that name nodes, and handles of nodes. -/
@[ext]
structure FileSystem where
  names : Path → Option ℕ
  nodes : ℕ → Option Node
  handles : ℕ → Option ℕ

namespace FileSystem

/-- A new file system has a root. -/
def init : FileSystem where
  names := Function.update (fun _ => none) ['/'] (some 1)
  nodes := Function.update (fun _ => none) 1 (some (.new (sIfdir ||| 0o755)))
  handles := fun _ => none

variable {a a' : FileSystem} {op : Op} {out : Out} {cut cut' : Cutting}

/-! ### What a request is refused for -/

def node (a : FileSystem) (path : Path) : Option Node := (a.names path).bind a.nodes

def isDir (a : FileSystem) (path : Path) : Bool := (a.node path).any fun n => sIsdir n.mode

def isReg (a : FileSystem) (path : Path) : Bool := (a.node path).any fun n => sIsreg n.mode

/-- Something is named in the directory. -/
def HasEntry (a : FileSystem) (dir : Path) : Prop :=
  ∃ p, (a.names p).isSome ∧ p ≠ ['/'] ∧ branchPath p = dir

/-- A name can only be put into a directory. -/
def parentRefusal (a : FileSystem) (path : Path) : Option ℤ :=
  if a.names (branchPath path) = none then some enoent
  else if a.isDir (branchPath path) = false then some enotdir
  else none

/-- A new name has to be free. -/
def newRefusal (a : FileSystem) (path : Path) : Option ℤ :=
  (if path = ['/'] then none else a.parentRefusal path).or
    (if (a.names path).isSome then some eexist else none)

open Classical in
/-- What a rename may replace: a file a file, and a directory an empty directory that is not
inside it. -/
noncomputable def targetRefusal (a : FileSystem) (oldPath newPath : Path) : Option ℤ :=
  if a.names newPath = none then none
  else if a.isDir oldPath = true then
    if a.isDir newPath = false then some enotdir
    else if a.HasEntry newPath then some enotempty
    else if below oldPath newPath = true then some einval
    else none
  else if a.isDir newPath = true then some eisdir
  else none

open Classical in
/-- The error that the request is refused with, if it is. -/
noncomputable def refusal (a : FileSystem) : Op → Option ℤ
  | .create path _ => a.newRefusal path
  | .mkdir path _ => a.newRefusal path
  | .openFile path =>
    if a.names path = none then some enoent
    else if a.isReg path = false then some eio
    else none
  | .truncate path newSize =>
    if a.names path = none then some enoent
    else if a.isReg path = false ∨ newSize < 0 then some einval
    else none
  | .ftruncate _ newSize => if newSize < 0 then some einval else none
  | .unlink path =>
    if a.names path = none then some enoent
    else if a.isDir path = true then some eisdir
    else none
  | .rmdir path _ =>
    if a.isDir path = false then some enotdir
    else if a.HasEntry path then some enotempty
    else none
  | .rename oldPath newPath =>
    if a.names oldPath = none then some enoent
    else (a.parentRefusal newPath).or (a.targetRefusal oldPath newPath)
  | _ => none

/-! ### What a request does -/

/-- A new node and its name. -/
def link (a : FileSystem) (path : Path) (ino : ℕ) (n : Node) : FileSystem where
  names := Function.update a.names path (some ino)
  nodes := Function.update a.nodes ino (some n)
  handles := a.handles

/-- A name goes, with its node. -/
def unlink (a : FileSystem) (path : Path) : FileSystem where
  names := Function.update a.names path none
  nodes := fun i => if a.names path = some i then none else a.nodes i
  handles := a.handles

/-- The node changes. -/
def set (a : FileSystem) (ino : ℕ) (n : Node) : FileSystem :=
  { a with nodes := Function.update a.nodes ino (some n) }

def opens (a : FileSystem) (fh ino : ℕ) : FileSystem :=
  { a with handles := Function.update a.handles fh (some ino) }

def closes (a : FileSystem) (fh : ℕ) : FileSystem :=
  { a with handles := Function.update a.handles fh none }

/-- The old path and everything below it go to the new path. -/
def move (a : FileSystem) (oldPath newPath : Path) : FileSystem where
  names := fun q =>
    if q = newPath ∨ below newPath q = true then a.names (movePath newPath oldPath q)
    else if q = oldPath ∨ below oldPath q = true then none
    else a.names q
  nodes := a.nodes
  handles := a.handles

/-- A request, from one state to the next, and what it shows.  What `rmdir` answers for a name that
is not there is left open. -/
inductive Step (cut : Cutting) : FileSystem → Op → FileSystem → Out → Prop
  | refused {a : FileSystem} {op : Op} {e : ℤ} (reason : a.refusal op = some e) :
      Step cut a op a (.ret (-e))
  | create {a : FileSystem} {path : Path} {mode ino fh : ℕ}
      (allowed : a.refusal (.create path mode) = none) (free : a.nodes ino = none)
      (unused : a.handles fh = none) :
      Step cut a (.create path mode) ((a.link path ino (.new mode)).opens fh ino) (.opened fh)
  | mkdir {a : FileSystem} {path : Path} {mode ino : ℕ}
      (allowed : a.refusal (.mkdir path mode) = none) (free : a.nodes ino = none) :
      Step cut a (.mkdir path mode) (a.link path ino (.new (mode ||| sIfdir))) (.ret 0)
  | openFile {a : FileSystem} {path : Path} {ino fh : ℕ}
      (allowed : a.refusal (.openFile path) = none) (named : a.names path = some ino)
      (unused : a.handles fh = none) :
      Step cut a (.openFile path) (a.opens fh ino) (.opened fh)
  | release {a : FileSystem} (fh : ℕ) : Step cut a (.release fh) (a.closes fh) (.ret 0)
  | write {a : FileSystem} {fh ino : ℕ} {n : Node} (buf : List UInt8) (offset : ℕ)
      (opened : a.handles fh = some ino) (node : a.nodes ino = some n) :
      Step cut a (.write fh buf offset) (a.set ino (n.write buf offset)) (.ret buf.length)
  | read {a : FileSystem} {fh ino : ℕ} {n : Node} (size offset : ℕ)
      (opened : a.handles fh = some ino) (node : a.nodes ino = some n) :
      Step cut a (.read fh size offset) a (.bytes (n.read size offset))
  | truncate {a : FileSystem} {path : Path} {newSize ino : ℕ} {n : Node}
      (allowed : a.refusal (.truncate path newSize) = none) (named : a.names path = some ino)
      (node : a.nodes ino = some n) :
      Step cut a (.truncate path newSize) (a.set ino (n.truncate cut newSize)) (.ret 0)
  | ftruncate {a : FileSystem} {fh newSize ino : ℕ} {n : Node}
      (opened : a.handles fh = some ino) (node : a.nodes ino = some n) :
      Step cut a (.ftruncate fh newSize) (a.set ino (n.truncate cut newSize)) (.ret 0)
  | unlink {a : FileSystem} {path : Path} (allowed : a.refusal (.unlink path) = none) :
      Step cut a (.unlink path) (a.unlink path) (.ret 0)
  | rmdir {a : FileSystem} {path : Path} {memory : ℕ}
      (allowed : a.refusal (.rmdir path memory) = none) :
      Step cut a (.rmdir path memory) (a.unlink path) (.ret 0)
  | rmdirMissing {a : FileSystem} {path : Path} {memory : ℕ} {e : ℤ} (absent : a.names path = none)
      (answer : e = 0 ∨ e = -enotdir ∨ e = -enotempty) :
      Step cut a (.rmdir path memory) a (.ret e)
  | rename {a : FileSystem} {oldPath newPath : Path}
      (allowed : a.refusal (.rename oldPath newPath) = none) :
      Step cut a (.rename oldPath newPath) ((a.unlink newPath).move oldPath newPath) (.ret 0)
  | writerPass {a : FileSystem} (victims : List ℕ) : Step cut a (.writerPass victims) a (.ret 0)
  | remount {a : FileSystem} : Step cut a .remount { a with handles := fun _ => none } (.ret 0)
  | clock {a : FileSystem} (now : ℕ) : Step cut a (.clock now) a (.ret 0)

/-! ### Cuts -/

/-- The node that a truncation to the size works on. -/
inductive Truncates (a : FileSystem) : Op → ℕ → Node → Prop
  | byPath {path : Path} {newSize ino : ℕ} {n : Node} (named : a.names path = some ino)
      (node : a.nodes ino = some n) : Truncates a (.truncate path newSize) newSize n
  | byHandle {fh newSize ino : ℕ} {n : Node} (opened : a.handles fh = some ino)
      (node : a.nodes ino = some n) : Truncates a (.ftruncate fh newSize) newSize n

/-- **Cuts that agree on the node make the same steps possible.** -/
theorem Step.cut_congr (h : Step cut a op a' out)
    (hcut : ∀ newSize n, a.Truncates op newSize n →
      n.truncate cut newSize = n.truncate cut' newSize) :
    Step cut' a op a' out := by
  cases h with
  | refused reason => exact .refused reason
  | create allowed free unused => exact .create allowed free unused
  | mkdir allowed free => exact .mkdir allowed free
  | openFile allowed named unused => exact .openFile allowed named unused
  | release fh => exact .release fh
  | write buf offset opened node => exact .write buf offset opened node
  | read size offset opened node => exact .read size offset opened node
  | truncate allowed named node =>
    rw [hcut _ _ (.byPath named node)]
    exact .truncate allowed named node
  | ftruncate opened node =>
    rw [hcut _ _ (.byHandle opened node)]
    exact .ftruncate opened node
  | unlink allowed => exact .unlink allowed
  | rmdir allowed => exact .rmdir allowed
  | rmdirMissing absent answer => exact .rmdirMissing absent answer
  | rename allowed => exact .rename allowed
  | writerPass victims => exact .writerPass victims
  | remount => exact .remount
  | clock now => exact .clock now

/-- Every node is flat. -/
def Flat (a : FileSystem) : Prop := ∀ i n, a.nodes i = some n → n.Flat

theorem init_flat : init.Flat := by
  intro i n hn
  have hn' : Function.update (fun _ => none) 1 (some (Node.new (sIfdir ||| 0o755))) i = some n := hn
  rw [Function.update_apply] at hn'
  split at hn'
  · cases hn'
    exact Node.new_flat _
  · cases hn'

theorem Flat.update (h : a.Flat) {ino : ℕ} {n : Node} (hn : n.Flat) :
    ∀ i m, Function.update a.nodes ino (some n) i = some m → m.Flat := by
  intro i m hm
  rw [Function.update_apply] at hm
  split at hm
  · cases hm
    exact hn
  · exact h i m hm

theorem Flat.unlink (h : a.Flat) (path : Path) : (a.unlink path).Flat := by
  intro i n hn
  have hn' : (if a.names path = some i then none else a.nodes i) = some n := hn
  split at hn'
  · cases hn'
  · exact h i n hn'

/-- **Bytes behind the end stay zero** when a truncation keeps none. -/
theorem Step.flat (h : Step flatCut a op a' out) (hflat : a.Flat) : a'.Flat := by
  cases h with
  | refused reason => exact hflat
  | create allowed free unused => exact hflat.update (Node.new_flat _)
  | mkdir allowed free => exact hflat.update (Node.new_flat _)
  | openFile allowed named unused => exact hflat
  | release fh => exact hflat
  | write buf offset opened node => exact hflat.update ((hflat _ _ node).write buf offset)
  | read size offset opened node => exact hflat
  | truncate allowed named node => exact hflat.update (Node.truncate_flat _ _)
  | ftruncate opened node => exact hflat.update (Node.truncate_flat _ _)
  | unlink allowed => exact hflat.unlink _
  | rmdir allowed => exact hflat.unlink _
  | rmdirMissing absent answer => exact hflat
  | rename allowed => exact hflat.unlink _
  | writerPass victims => exact hflat
  | remount => exact hflat
  | clock now => exact hflat

/-- So they do in every run. -/
theorem runs_flat {ops : List Op} {outs : List Out} (h : SpecRuns (Step flatCut) a ops outs a')
    (hflat : a.Flat) : a'.Flat := by
  induction h with
  | nil a => exact hflat
  | cons first rest ih => exact ih (first.flat hflat)

end FileSystem

end Wwdedup
