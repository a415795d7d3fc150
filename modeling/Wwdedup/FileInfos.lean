import Wwdedup.Lib.RefCount
import Mathlib.Data.Fintype.Fin

/-!
# The `file_info`s

`getByPath` and `readdir` make a `file_info` for what they find, and `intrusive_ptr`s count who
works with it.  `Open`, `Create` and `Opendir` detach theirs: the bare address goes to `fh` with the
reference.  `Read`, `Write`, `Ftruncate` and `Readdir` make a pointer of the address again, and
`Release` and `Releasedir` take the reference of `fh` away.

A `Request` is given with what it comes upon; its actions on pointers are listed as the source has
them, a parameter by value as a copy that ends with the call.  `wrap_*` catches what is thrown, and
the pointers of the request are gone by then.

* `reachable_live`: whatever the threads are asked to do, in any order of their actions and
  whatever throws, no access meets a deleted `file_info`.
* `reachable_settled`: when all requests are over, every open `fh` has a `file_info` with one
  reference for itself, and so has every `fh` whose release threw before it came to the reference:
  the kernel does not ask again, and these are all that is left over.
-/

namespace Wwdedup

open RefCount

/-- What `BlocksCache::truncate` comes upon: the blocks that it releases, and whether the size is
another one. -/
structure CutCourse where
  negative : Bool
  rounds : List Bool
  changes : Bool

/-- How far `DataBase::rename` comes. -/
inductive RenameCourse where
  | noOld
  /-- there is no directory for the new path -/
  | noDirectory
  /-- whether the entries of the new path are counted, and whether rows change -/
  | named (counts moves : Bool)

/-- What a request of the kernel comes upon.  A Boolean of a round says whether `loadFileBlock` is
called for the block; `fh` is the number of the open file. -/
inductive Request where
  | getattr
  /-- `parent`: none for the root, else whether it is a directory -/
  | mkdir (parent : Option Bool)
  /-- none when there is no file -/
  | unlink (cut : Option CutCourse)
  | rmdir (isDir : Bool)
  | rename (course : RenameCourse)
  /-- none when there is no file -/
  | truncate (cut : Option CutCourse)
  | openFile (isFile : Bool) (fh : ℕ)
  | create (parent : Option Bool) (fh : Option ℕ)
  | read (rounds : List Bool) (fh : ℕ)
  | write (grows : Bool) (rounds : List Bool) (fh : ℕ)
  | ftruncate (cut : CutCourse) (fh : ℕ)
  | release (fh : ℕ)
  | opendir (isDir : Bool) (fh : ℕ)
  | readdir (entries : ℕ) (fh : ℕ)
  | releasedir (fh : ℕ)

namespace FileInfos

/-! ### What the functions do with pointers -/

/-- `DataBase::getByPath`; the caller's variable is `res`. -/
def getByPath : List (Act ℕ) := [.make, .use 0, .throws, .use 0, .throws]

/-- `DataBase::loadFileBlock` -/
def loadFileBlock : List (Act ℕ) := param [.use 0, .throws, .use 0, .throws]

/-- `DataBase::ftruncate` with a size that is not negative -/
def ftruncate (changes : Bool) : List (Act ℕ) :=
  param (.use 0 :: if changes then [.throws, .use 0, .throws, .use 0] else [])

/-- `DataBase::releaseStorageBlock` -/
def releaseStorageBlock (loads : Bool) : List (Act ℕ) :=
  param ([.throws, .use 0] ++ (if loads then loadFileBlock else []) ++ [.use 0, .throws])

/-- `DataBase::replaceStorageBlock` -/
def replaceStorageBlock : List (Act ℕ) := param [.throws, .use 0, .throws]

/-- `DataBase::dirEmpty` -/
def dirEmpty : List (Act ℕ) := param [.throws, .use 0, .throws]

/-- `BlocksCache::_getLockedFileBlock`; the functor of `ensure` has `finfo` by reference. -/
def getLockedFileBlock (loads : Bool) : List (Act ℕ) :=
  param ([.use 0, .throws] ++ (if loads then loadFileBlock else []) ++ [.throws])

/-- `BlocksCache::_getStorageBlock` -/
def getStorageBlock (loads : Bool) : List (Act ℕ) :=
  param (getLockedFileBlock loads ++ [.throws])

/-- `BlocksCache::_writeBlock` -/
def writeBlock : List (Act ℕ) := param (.throws :: (replaceStorageBlock ++ [.throws]))

/-- `BlocksCache::_writeBlockWrapper` -/
def writeBlockWrapper (loads : Bool) : List (Act ℕ) :=
  param (getLockedFileBlock loads ++ .throws :: writeBlock)

/-- The body of `BlocksCache::readBuf`. -/
def readBuf (rounds : List Bool) : List (Act ℕ) :=
  .use 0 :: rounds.flatMap fun loads => getStorageBlock loads ++ [.throws]

/-- The body of `BlocksCache::writeBuf`. -/
def writeBuf (grows : Bool) (rounds : List Bool) : List (Act ℕ) :=
  .use 0 :: ((if grows then ftruncate true else []) ++ rounds.flatMap writeBlockWrapper)

/-- The body of `BlocksCache::truncate`. -/
def truncate (cut : CutCourse) : List (Act ℕ) :=
  if cut.negative then [] else
    .use 0 :: ((cut.rounds.flatMap fun loads => releaseStorageBlock loads ++ [.throws]) ++
      ftruncate cut.changes)

/-- `DataBase::create`: the parent ends with its block. -/
def create (parent : Option Bool) : List (Act ℕ) :=
  match parent with
  | none => getByPath ++ [.use 0] ++ [.throws] ++ [.drop 0]
  | some false => getByPath ++ [.use 0] ++ [.drop 0]
  | some true =>
    getByPath ++ [.use 0] ++ [.drop 0] ++ (getByPath ++ [.use 0] ++ [.throws] ++ [.drop 0])

/-- `DataBase::rename` with its `oldFile`, `destDir` and `newFile`. -/
def rename : RenameCourse → List (Act ℕ)
  | .noOld => getByPath ++ [.use 0] ++ [.drop 0]
  | .noDirectory => getByPath ++ [.use 0] ++ (getByPath ++ [.use 0] ++ [.drop 0]) ++ [.drop 0]
  | .named counts moves =>
    getByPath ++ [.use 0] ++
      (getByPath ++ [.use 0] ++ ([.use 1] ++ getByPath ++ [.use 0] ++ [.use 2] ++
        (if counts then dirEmpty else []) ++
        (if moves then [.throws] ++ [.use 2] ++ [.throws] ++ [.use 1] ++ [.use 2] ++ [.throws]
          else []) ++ [.drop 0]) ++ [.drop 0]) ++ [.drop 0]

/-- A row of `DataBase::readdir`, behind `n` others: `fi` is pushed to the vector and ends. -/
def readdirRow (n : ℕ) : List (Act ℕ) :=
  [.throws] ++ [.make] ++ [.use 0] ++ [.use (n + 1)] ++ [.throws] ++ [.copy 0] ++ [.throws] ++
    [.drop 1]

def readdirRows : ℕ → List (Act ℕ)
  | 0 => []
  | n + 1 => readdirRows n ++ readdirRow n

/-- The elements of the vector are shown, and end. -/
def readdirShown : ℕ → List (Act ℕ)
  | 0 => []
  | n + 1 => [.use n] ++ readdirShown n ++ [.drop 0]

/-- `DedupFS::Readdir` behind the pointer that it makes of `fh`; the parameter of
`DataBase::readdir` ends before the vector is shown. -/
def readdir (entries : ℕ) : List (Act ℕ) :=
  [.copy 0] ++ [.use 0] ++ [.throws] ++ readdirRows entries ++ [.throws] ++ [.drop entries] ++
    [.use entries] ++ readdirShown entries ++ [.drop 0]

end FileInfos

open FileInfos in
/-- What a request does with pointers.  `DedupFS::Instance` may throw before all of it. -/
def Request.acts : Request → List (Act ℕ)
  | .getattr => [.throws] ++ getByPath ++ [.use 0] ++ [.drop 0]
  | .mkdir parent => [.throws] ++ FileInfos.create parent
  | .unlink cut =>
    [.throws] ++ getByPath ++ [.use 0] ++
      (cut.elim [] fun cut => param (FileInfos.truncate cut) ++ [.throws]) ++ [.drop 0]
  | .rmdir isDir =>
    [.throws] ++ getByPath ++ [.use 0] ++ (if isDir then dirEmpty ++ [.throws] else []) ++ [.drop 0]
  | .rename course => [.throws] ++ FileInfos.rename course
  | .truncate cut =>
    [.throws] ++ getByPath ++ [.use 0] ++
      (cut.elim [] fun cut => param (FileInfos.truncate cut)) ++ [.drop 0]
  | .openFile isFile fh =>
    if isFile then [.throws] ++ getByPath ++ [.use 0] ++ [.detach fh] else
      [.throws] ++ getByPath ++ [.use 0] ++ [.drop 0]
  | .create parent fh =>
    match fh with
    | none => [.throws] ++ FileInfos.create parent
    | some fh => [.throws] ++ FileInfos.create parent ++ getByPath ++ [.detach fh]
  | .read rounds fh => [.throws] ++ .borrow fh :: (readBuf rounds ++ [.drop 0])
  | .write grows rounds fh => [.throws] ++ .borrow fh :: (writeBuf grows rounds ++ [.drop 0])
  | .ftruncate cut fh => [.throws] ++ .borrow fh :: (FileInfos.truncate cut ++ [.drop 0])
  | .release fh => [.throws] ++ .release fh :: [.throws]
  | .opendir isDir fh =>
    if isDir then [.throws] ++ getByPath ++ [.use 0] ++ [.detach fh] else
      [.throws] ++ getByPath ++ [.use 0] ++ [.drop 0]
  | .readdir entries fh => [.throws] ++ .borrow fh :: FileInfos.readdir entries
  | .releasedir fh => [.throws] ++ .release fh :: [.throws]

/-! ### They keep to their pointers -/

namespace FileInfos

theorem piece_getByPath (n : ℕ) : Piece n (n + 1) getByPath :=
  (piece_make n).append
    (body_use.append (body_throws.append (body_use.append body_throws)) n)

theorem body_loadFileBlock : Body loadFileBlock :=
  (body_use.append (body_throws.append (body_use.append body_throws))).param

theorem body_ftruncate (changes : Bool) : Body (ftruncate changes) :=
  (body_use.append (.ite changes
    (body_throws.append (body_use.append (body_throws.append body_use))) body_nil)).param

theorem body_releaseStorageBlock (loads : Bool) : Body (releaseStorageBlock loads) :=
  (((body_throws.append body_use).append (.ite loads body_loadFileBlock body_nil)).append
    (body_use.append body_throws)).param

theorem body_replaceStorageBlock : Body replaceStorageBlock :=
  (body_throws.append (body_use.append body_throws)).param

theorem body_dirEmpty : Body dirEmpty := (body_throws.append (body_use.append body_throws)).param

theorem body_getLockedFileBlock (loads : Bool) : Body (getLockedFileBlock loads) :=
  (((body_use.append body_throws).append (.ite loads body_loadFileBlock body_nil)).append
    body_throws).param

theorem body_getStorageBlock (loads : Bool) : Body (getStorageBlock loads) :=
  ((body_getLockedFileBlock loads).append body_throws).param

theorem body_writeBlock : Body writeBlock :=
  (body_throws.append (body_replaceStorageBlock.append body_throws)).param

theorem body_writeBlockWrapper (loads : Bool) : Body (writeBlockWrapper loads) :=
  ((body_getLockedFileBlock loads).append (body_throws.append body_writeBlock)).param

theorem body_readBuf (rounds : List Bool) : Body (readBuf rounds) :=
  body_use.append (.flatMap (fun loads => (body_getStorageBlock loads).append body_throws) rounds)

theorem body_writeBuf (grows : Bool) (rounds : List Bool) : Body (writeBuf grows rounds) :=
  body_use.append (.append (.ite grows (body_ftruncate true) body_nil)
    (.flatMap body_writeBlockWrapper rounds))

theorem body_truncate (cut : CutCourse) : Body (truncate cut) :=
  .ite cut.negative body_nil (body_use.append
    (.append (.flatMap (fun loads => (body_releaseStorageBlock loads).append body_throws)
      cut.rounds) (body_ftruncate cut.changes)))

/-- A name is looked up, and what was found is looked at. -/
theorem piece_found (n : ℕ) : Piece n (n + 1) (getByPath ++ [.use 0]) :=
  (piece_getByPath n).append (body_use n)

theorem piece_created (n : ℕ) : Piece n n (getByPath ++ [.use 0] ++ [.throws] ++ [.drop 0]) :=
  ((piece_found n).append (body_throws n)).append (piece_drop (Nat.succ_pos n))

theorem piece_create (parent : Option Bool) (n : ℕ) : Piece n n (create parent) := by
  have hlooked : Piece n n (getByPath ++ [.use 0] ++ [.drop 0]) :=
    (piece_found n).append (piece_drop (Nat.succ_pos n))
  rcases parent with _ | _ | _
  · exact piece_created n
  · exact hlooked
  · exact hlooked.append (piece_created n)

theorem piece_rename (course : RenameCourse) : Piece 0 0 (rename course) := by
  have hdrop : ∀ n, Piece (n + 1) n [(.drop 0 : Act ℕ)] := fun n => piece_drop (Nat.succ_pos n)
  have huse : ∀ i n, i < n → Piece n n [(.use i : Act ℕ)] := fun i n hi => piece_use hi
  cases course with
  | noOld => exact (piece_found 0).append (hdrop 0)
  | noDirectory =>
    exact ((piece_found 0).append ((piece_found 1).append (hdrop 1))).append (hdrop 0)
  | named counts moves =>
    have hmoves := ((((((piece_throws 3).append (huse 2 3 (by omega))).append
      (piece_throws 3)).append (huse 1 3 (by omega))).append (huse 2 3 (by omega))).append
      (piece_throws 3))
    have hnew := ((huse 1 2 (by omega)).append (piece_getByPath 2)).append (huse 0 3 (by omega))
    have hcounted := (hnew.append (huse 2 3 (by omega))).append
      (.ite counts (body_dirEmpty 2) (.nil 3))
    have hmoved := (hcounted.append (.ite moves hmoves (.nil 3))).append (hdrop 2)
    exact ((piece_found 0).append (((piece_found 1).append hmoved).append (hdrop 1))).append
      (hdrop 0)

theorem piece_readdirRow (n m : ℕ) : Piece (n + m + 1) (n + m + 2) (readdirRow n) := by
  have huse : ∀ i, i < n + m + 2 → Piece (n + m + 2) (n + m + 2) [(.use i : Act ℕ)] :=
    fun i hi => piece_use hi
  have hmade := (((piece_throws (n + m + 1)).append (piece_make _)).append
    (huse 0 (by omega))).append (huse (n + 1) (by omega))
  have hpushed := ((hmade.append (piece_throws _)).append
    (piece_copy (Nat.succ_pos _))).append (piece_throws _)
  exact hpushed.append (piece_drop (by omega))

theorem piece_readdirRows (n m : ℕ) : Piece (m + 1) (n + m + 1) (readdirRows n) := by
  induction n with
  | zero =>
    rw [Nat.zero_add]
    exact .nil _
  | succ n ih =>
    have hrow := piece_readdirRow n m
    rw [show n + m + 2 = n + 1 + m + 1 by omega] at hrow
    exact ih.append hrow

theorem piece_readdirShown (n m : ℕ) : Piece (n + m) m (readdirShown n) := by
  induction n generalizing m with
  | zero =>
    rw [Nat.zero_add]
    exact .nil _
  | succ n ih =>
    have hrest := ih (m + 1)
    rw [show n + (m + 1) = n + 1 + m by omega] at hrest
    exact ((piece_use (by omega)).append hrest).append (piece_drop (Nat.succ_pos m))

theorem piece_readdir (entries : ℕ) : Piece 1 0 (readdir entries) := by
  have hbegun := ((piece_copy (κ := ℕ) Nat.one_pos).append (body_use 1)).append (body_throws 1)
  have hrows := (hbegun.append (piece_readdirRows entries 1)).append (piece_throws _)
  have hread := hrows.append (piece_drop (i := entries) (n := entries + 1) (by omega))
  have hlooked := hread.append (piece_use (i := entries) (by omega))
  exact (hlooked.append (piece_readdirShown entries 1)).append (piece_drop Nat.one_pos)

end FileInfos

open FileInfos

/-- **Every request** ends its pointers, and at most one of its actions is about `fh`. -/
theorem Request.callable (r : Request) : Callable r.acts := by
  have hinstance : Piece 0 0 [(.throws : Act ℕ)] := piece_throws 0
  have hend : Piece 1 0 [(.drop 0 : Act ℕ)] := piece_drop Nat.one_pos
  have hfound : Piece 0 1 ([.throws] ++ getByPath ++ [.use 0]) :=
    (hinstance.append (piece_getByPath 0)).append (body_use 0)
  cases r with
  | getattr => exact (hfound.append hend).callable
  | mkdir parent => exact (hinstance.append (piece_create parent 0)).callable
  | unlink cut =>
    refine ((hfound.append ?_).append hend).callable
    cases cut with
    | none => exact .nil 1
    | some cut => exact ((body_truncate cut).param.append body_throws) 0
  | rmdir isDir =>
    have hcounted : Body (if isDir then dirEmpty ++ [.throws] else []) :=
      .ite isDir (body_dirEmpty.append body_throws) body_nil
    exact ((hfound.append (hcounted 0)).append hend).callable
  | rename course => exact (hinstance.append (piece_rename course)).callable
  | truncate cut =>
    refine ((hfound.append ?_).append hend).callable
    cases cut with
    | none => exact .nil 1
    | some cut => exact (body_truncate cut).param 0
  | openFile isFile fh =>
    cases isFile with
    | true => exact hfound.callable_detach fh
    | false => exact (hfound.append hend).callable
  | create parent fh =>
    cases fh with
    | none => exact (hinstance.append (piece_create parent 0)).callable
    | some fh =>
      have hcreated := hinstance.append (piece_create parent 0)
      exact (hcreated.append (piece_getByPath 0)).callable_detach fh
  | read rounds fh => exact hinstance.callable_borrow ((body_readBuf rounds 0).append hend) fh
  | write grows rounds fh =>
    exact hinstance.callable_borrow ((body_writeBuf grows rounds 0).append hend) fh
  | ftruncate cut fh => exact hinstance.callable_borrow ((body_truncate cut 0).append hend) fh
  | release fh => exact hinstance.callable_release hinstance fh
  | opendir isDir fh =>
    cases isDir with
    | true => exact hfound.callable_detach fh
    | false => exact (hfound.append hend).callable
  | readdir entries fh => exact hinstance.callable_borrow (piece_readdir entries) fh
  | releasedir fh => exact hinstance.callable_release hinstance fh

/-! ### What the threads meet -/

/-- The threads are asked to do this. -/
def Asked (p : List (Act ℕ)) : Prop := ∃ r : Request, p = r.acts

theorem Asked.callable {p : List (Act ℕ)} (h : Asked p) : Callable p := by
  obtain ⟨r, rfl⟩ := h
  exact r.callable

variable {τ ι : Type*} [Fintype τ] [DecidableEq τ] [DecidableEq ι] {s : Heap τ ι ℕ}

theorem reachable_infos (h : Reachable Asked s) : Sound s ∧ Own s :=
  ⟨Reachable.sound (fun _ hp => hp.callable.1) h, Reachable.own (fun _ hp => hp.callable) h⟩

/-- **No access meets a deleted `file_info`**, and its counter says how many pointers and open
`fh`s point to it. -/
theorem reachable_live (h : Reachable Asked s) :
    (∀ t a p o, s.todo t = a :: p → s.target t a = some o → (s.count o).isSome) ∧
      ∀ o n, s.count o = some n → 0 < n ∧ n = s.owners o := by
  have hsound := (reachable_infos h).1
  refine ⟨fun t a p o hnext hto => hsound.live hnext hto, fun o n hn => ?_⟩
  have hcount := hsound.counted o
  rw [hn] at hcount
  split at hcount
  · cases hcount
  · cases hcount
    exact ⟨by omega, rfl⟩

/-! ### What the kernel knows -/

/-- The `fh` that the request is to release. -/
def Request.releases : Request → Option ℕ
  | .release fh => some fh
  | .releasedir fh => some fh
  | _ => none

theorem Request.release_mem_acts {r : Request} {fh : ℕ} :
    .release fh ∈ r.acts ↔ r.releases = some fh := by
  have hget : .release fh ∉ getByPath := (piece_getByPath 0).release_notMem fh
  have hcreate : ∀ parent, .release fh ∉ FileInfos.create parent :=
    fun parent => (piece_create parent 0).release_notMem fh
  have hbody : ∀ {p : List (Act ℕ)}, Body p → .release fh ∉ p :=
    fun hp => (hp 0).release_notMem fh
  cases r with
  | getattr => simp [acts, releases, hget]
  | mkdir parent => simp [acts, releases, hcreate parent]
  | unlink cut =>
    cases cut with
    | none => simp [acts, releases, hget]
    | some cut => simp [acts, releases, hget, hbody (body_truncate cut).param]
  | rmdir isDir => cases isDir <;> simp [acts, releases, hget, hbody body_dirEmpty]
  | rename course => simp [acts, releases, (piece_rename course).release_notMem fh]
  | truncate cut =>
    cases cut with
    | none => simp [acts, releases, hget]
    | some cut => simp [acts, releases, hget, hbody (body_truncate cut).param]
  | openFile isFile fh' => cases isFile <;> simp [acts, releases, hget]
  | create parent fh' => cases fh' <;> simp [acts, releases, hget, hcreate parent]
  | read rounds fh' => simp [acts, releases, hbody (body_readBuf rounds)]
  | write grows rounds fh' => simp [acts, releases, hbody (body_writeBuf grows rounds)]
  | ftruncate cut fh' => simp [acts, releases, hbody (body_truncate cut)]
  | release fh' => simp [acts, releases, eq_comm]
  | opendir isDir fh' => cases isDir <;> simp [acts, releases, hget]
  | readdir entries fh' =>
    simp [acts, releases, (piece_readdir entries).release_notMem fh]
  | releasedir fh' => simp [acts, releases, eq_comm]

/-- The threads; the `fh`s that the kernel has open, which are those that were given out and not
asked to be released; and those whose request threw before it gave the reference back. -/
structure Kernel (τ ι : Type*) where
  heap : Heap τ ι ℕ
  handles : Finset ℕ
  lost : Finset ℕ

/-- A turn of a thread.  An `fh` that gets a reference is open, and one is lost when the thread has
its release no longer to do while the reference is still there. -/
def Kernel.turned (k : Kernel τ ι) (t : τ) (s' : Heap τ ι ℕ) : Kernel τ ι where
  heap := s'
  handles := k.handles ∪ (s'.opened \ k.heap.opened)
  lost := k.lost ∪
    s'.opened.filter fun fh => .release fh ∈ k.heap.todo t ∧ .release fh ∉ s'.todo t

/-- The kernel works on open `fh`s, and it gives one up with the request to release it. -/
inductive Kernel.Step (k : Kernel τ ι) : Kernel τ ι → Prop
  | turn (t : τ) {s' : Heap τ ι ℕ} (turn : Turn k.heap t s') : Step k (k.turned t s')
  | call (t : τ) (r : Request) (done : k.heap.todo t = [])
      (promised : k.heap.Promised t r.acts)
      (known : ∀ fh, .borrow fh ∈ r.acts ∨ .release fh ∈ r.acts → fh ∈ k.handles) :
      Step k
        { k with
          heap := { k.heap with todo := Function.update k.heap.todo t r.acts }
          handles := k.handles \ r.releases.toFinset }

/-- What a run from nothing comes to. -/
def Kernel.Reachable (k : Kernel τ ι) : Prop :=
  Relation.ReflTransGen Kernel.Step ⟨.idle, ∅, ∅⟩ k

namespace Kernel

variable {k k' : Kernel τ ι}

/-- What the kernel knows is what the threads have. -/
structure Agrees (k : Kernel τ ι) : Prop where
  handles : ∀ fh ∈ k.handles, fh ∈ k.heap.opened ∧ ∀ t, .release fh ∉ k.heap.todo t
  lost : ∀ fh ∈ k.lost, fh ∈ k.heap.opened ∧ fh ∉ k.handles ∧ ∀ t, .release fh ∉ k.heap.todo t
  opened : ∀ fh ∈ k.heap.opened, fh ∈ k.handles ∨ fh ∈ k.lost ∨ ∃ t, .release fh ∈ k.heap.todo t

theorem Agrees.turn (h : k.Agrees) (hs : Sound k.heap) {t : τ} {s' : Heap τ ι ℕ}
    (hturn : Turn k.heap t s') : (k.turned t s').Agrees := by
  have hless : ∀ u fh, .release fh ∈ s'.todo u → .release fh ∈ k.heap.todo u := by
    intro u fh hin
    by_cases hu : u = t
    · exact hu ▸ hturn.less.mem (hu ▸ hin) nofun
    · rwa [hturn.todo_of_ne hu] at hin
  -- an `fh` that nobody is to release stays open
  have hkept : ∀ fh ∈ k.heap.opened, (∀ u, .release fh ∉ k.heap.todo u) → fh ∈ s'.opened := by
    intro fh hin hnone
    rcases hturn.opened with heq | ⟨fh', -, heq⟩ | ⟨fh', hrel, heq⟩
    · exact heq ▸ hin
    · exact heq ▸ Finset.mem_insert_of_mem hin
    · exact heq ▸ Finset.mem_erase_of_ne_of_mem (fun hfh => hnone t (hfh ▸ hrel)) hin
  have hpending : ∀ u fh, .release fh ∈ k.heap.todo u → fh ∈ k.heap.opened :=
    fun u fh hin => hs.opened u fh (.inr hin)
  refine ⟨fun fh hin => ?_, fun fh hin => ?_, fun fh hin => ?_⟩
  · rcases Finset.mem_union.mp hin with hin | hin
    · obtain ⟨hopened, hnone⟩ := h.handles fh hin
      exact ⟨hkept fh hopened hnone, fun u hu => hnone u (hless u fh hu)⟩
    · obtain ⟨hopened, hnew⟩ := Finset.mem_sdiff.mp hin
      exact ⟨hopened, fun u hu => hnew (hpending u fh (hless u fh hu))⟩
  · rcases Finset.mem_union.mp hin with hin | hin
    · obtain ⟨hopened, hclosed, hnone⟩ := h.lost fh hin
      refine ⟨hkept fh hopened hnone, fun hin' => ?_, fun u hu => hnone u (hless u fh hu)⟩
      rcases Finset.mem_union.mp hin' with hin' | hin'
      · exact hclosed hin'
      · exact (Finset.mem_sdiff.mp hin').2 hopened
    · obtain ⟨hopened, hbefore, hafter⟩ := Finset.mem_filter.mp hin
      refine ⟨hopened, fun hin' => ?_, fun u hu => ?_⟩
      · rcases Finset.mem_union.mp hin' with hin' | hin'
        · exact (h.handles fh hin').2 t hbefore
        · exact (Finset.mem_sdiff.mp hin').2 (hpending t fh hbefore)
      · by_cases hut : u = t
        · exact hafter (hut ▸ hu)
        · exact hs.compat t u (Ne.symm hut) fh (.inl hbefore) (.inr (.inl (hless u fh hu)))
  · by_cases hold : fh ∈ k.heap.opened
    · rcases h.opened fh hold with hin' | hin' | ⟨u, hu⟩
      · exact .inl (Finset.mem_union_left _ hin')
      · exact .inr (.inl (Finset.mem_union_left _ hin'))
      · by_cases hut : u = t
        · by_cases hafter : .release fh ∈ s'.todo t
          · exact .inr (.inr ⟨t, hafter⟩)
          · exact .inr (.inl (Finset.mem_union_right _
              (Finset.mem_filter.mpr ⟨hin, hut ▸ hu, hafter⟩)))
        · exact .inr (.inr ⟨u, hturn.todo_of_ne hut ▸ hu⟩)
    · exact .inl (Finset.mem_union_right _ (Finset.mem_sdiff.mpr ⟨hin, hold⟩))

theorem Agrees.step (h : k.Agrees) (hs : Sound k.heap) (hstep : Step k k') : k'.Agrees := by
  cases hstep with
  | turn t hturn => exact h.turn hs hturn
  | call t r done promised known =>
    have htodo : ∀ u fh, .release fh ∈ Function.update k.heap.todo t r.acts u ↔
        .release fh ∈ k.heap.todo u ∨ u = t ∧ r.releases = some fh := by
      intro u fh
      by_cases hu : u = t
      · rw [hu, Function.update_self, done, Request.release_mem_acts]
        simp
      · rw [Function.update_of_ne hu]
        simp [hu]
    refine ⟨fun fh hin => ?_, fun fh hin => ?_, fun fh hin => ?_⟩
    · obtain ⟨hin, hrel⟩ := Finset.mem_sdiff.mp hin
      rw [Option.mem_toFinset] at hrel
      obtain ⟨hopened, hnone⟩ := h.handles fh hin
      exact ⟨hopened, fun u hu => ((htodo u fh).mp hu).elim (hnone u) fun h => hrel h.2⟩
    · obtain ⟨hopened, hclosed, hnone⟩ := h.lost fh hin
      refine ⟨hopened, fun hin' => hclosed (Finset.mem_sdiff.mp hin').1, fun u hu => ?_⟩
      rcases (htodo u fh).mp hu with hu | ⟨-, hrel⟩
      · exact hnone u hu
      · exact hclosed (known fh (.inr (Request.release_mem_acts.mpr hrel)))
    · rcases h.opened fh hin with hin' | hin' | ⟨u, hu⟩
      · by_cases hrel : r.releases = some fh
        · exact .inr (.inr ⟨t, (htodo t fh).mpr (.inr ⟨rfl, hrel⟩)⟩)
        · refine .inl (Finset.mem_sdiff.mpr ⟨hin', ?_⟩)
          rwa [Option.mem_toFinset]
      · exact .inr (.inl hin')
      · exact .inr (.inr ⟨u, (htodo u fh).mpr (.inl hu)⟩)

omit [Fintype τ] in
/-- A run with the kernel is a run of the threads. -/
theorem Reachable.heap (h : k.Reachable) : RefCount.Reachable Asked k.heap := by
  induction h with
  | refl => exact .refl
  | tail _ hstep ih =>
    cases hstep with
    | turn t hturn => exact ih.tail (.turn t hturn)
    | call t r done promised _ => exact ih.tail (.call t r.acts done ⟨r, rfl⟩ promised)

theorem Reachable.agrees (h : k.Reachable) : k.Agrees := by
  induction h with
  | refl =>
    refine ⟨fun fh hin => ?_, fun fh hin => ?_, fun fh hin => ?_⟩
    · exact absurd hin (Finset.notMem_empty fh)
    · exact absurd hin (Finset.notMem_empty fh)
    · exact absurd hin (Finset.notMem_empty fh)
  | tail hreach hstep ih => exact ih.step (reachable_infos (Reachable.heap hreach)).1 hstep

end Kernel

/-- **What is left over when all requests are over**: a `file_info` for every open `fh` and for
every `fh` whose release threw before it gave the reference back, with that one reference. -/
theorem reachable_settled {k : Kernel τ ι} (h : k.Reachable) (hdone : ∀ t, k.heap.todo t = []) :
    Disjoint k.handles k.lost ∧
      (∀ fh ∈ k.handles ∪ k.lost, ∃ o, k.heap.addr fh = some o ∧ k.heap.count o = some 1 ∧
        ∀ fh' ∈ k.handles ∪ k.lost, k.heap.addr fh' = some o → fh' = fh) ∧
      ∀ o, (k.heap.count o).isSome → ∃ fh ∈ k.handles ∪ k.lost, k.heap.addr fh = some o := by
  have hagrees := h.agrees
  obtain ⟨hsound, hown⟩ := reachable_infos h.heap
  obtain ⟨hhandles, hobjects⟩ := hown.settled hsound hdone
  have hopened : ∀ fh, fh ∈ k.handles ∪ k.lost ↔ fh ∈ k.heap.opened := by
    intro fh
    refine ⟨fun hin => ?_, fun hin => ?_⟩
    · exact (Finset.mem_union.mp hin).elim (fun h => (hagrees.handles fh h).1) fun h =>
        (hagrees.lost fh h).1
    · rcases hagrees.opened fh hin with hin | hin | ⟨t, ht⟩
      · exact Finset.mem_union_left _ hin
      · exact Finset.mem_union_right _ hin
      · rw [hdone t] at ht
        cases ht
  refine ⟨?_, fun fh hin => ?_, fun o ho => ?_⟩
  · exact Finset.disjoint_left.mpr fun fh hin hlost => (hagrees.lost fh hlost).2.1 hin
  · rw [hopened] at hin
    obtain ⟨o, ho, hone⟩ := hhandles fh hin
    refine ⟨o, ho, hone, fun fh' hin' ho' => ?_⟩
    exact hown.handles fh' ((hopened fh').mp hin') fh hin (ho'.trans ho.symm)
  · obtain ⟨fh, hin, hfh⟩ := hobjects o ho
    exact ⟨fh, (hopened fh).mpr hin, hfh⟩

/-! ### A run -/

/-- One thread of two has opened a file. -/
theorem Kernel.reachable_one_open : ∃ k : Kernel (Fin 2) ℕ, k.Reachable ∧
    k.handles = {3} ∧ k.lost = ∅ ∧ k.heap.opened = {3} ∧ k.heap.todo = (fun _ => []) ∧
    k.heap.vars = (fun _ => []) ∧ k.heap.addr 3 = some 5 ∧ k.heap.count 5 = some 1 := by
  have hpromised : Heap.Promised (.idle : Heap (Fin 2) ℕ ℕ) 0 (Request.openFile true 3).acts := by
    refine ⟨fun h hh => ?_, fun h _ => Finset.notMem_empty h, fun u _ => ⟨fun h _ ht => ?_, ?_⟩⟩
    · simp [Request.acts, FileInfos.getByPath] at hh
    · simp [Touches, Heap.idle] at ht
    · exact fun h hh _ => by simp [Heap.idle] at hh
  have hknown : ∀ fh, .borrow fh ∈ (Request.openFile true 3).acts ∨
      .release fh ∈ (Request.openFile true 3).acts → fh ∈ (∅ : Finset ℕ) := by
    intro fh hh
    simp [Request.acts, FileInfos.getByPath] at hh
  have hcall : Kernel.Reachable _ := .single (.call (0 : Fin 2) _ rfl hpromised hknown)
  have hinstance := hcall.tail (.turn 0 (.passes _ rfl))
  have hmade := hinstance.tail (.turn 0 (.make 5 _ rfl rfl))
  have hzero := hmade.tail (.turn 0 (.use 0 _ rfl))
  have hrow := (hzero.tail (.turn 0 (.passes _ rfl))).tail (.turn 0 (.use 0 _ rfl))
  have hfound := (hrow.tail (.turn 0 (.passes _ rfl))).tail (.turn 0 (.use 0 _ rfl))
  refine ⟨_, hfound.tail (.turn 0 (.detach 3 5 [] _ rfl rfl)), ?_, ?_, ?_, ?_, ?_, ?_, ?_⟩
  · decide
  · decide
  · rfl
  · exact funext (Fin.forall_fin_two.mpr ⟨rfl, rfl⟩)
  · exact funext (Fin.forall_fin_two.mpr ⟨rfl, rfl⟩)
  · rfl
  · rfl

/-- The thread that reads comes to the `file_info` of its `fh`. -/
theorem reachable_live_opened : ∃ s : Heap (Fin 2) ℕ ℕ, Reachable Asked s ∧
    s.opened = {3} ∧ s.target 1 (.borrow 3) = some 5 ∧ (s.count 5).isSome := by
  obtain ⟨k, hk, -, -, hopened, htodo, hvars, haddr, -⟩ := Kernel.reachable_one_open
  have hpromised : k.heap.Promised 1 (Request.read [] 3).acts := by
    refine ⟨fun h hh => ?_, fun h hh => ?_, fun u _ => ⟨fun h hh => ?_, fun h hh => ?_⟩⟩
    · have hh : h = 3 := by simpa [Request.acts, readBuf] using hh
      rw [hh, hopened]
      exact Finset.mem_singleton_self 3
    · simp [Request.acts, readBuf] at hh
    · simp [Request.acts, readBuf] at hh
    · simp [htodo] at hh
  have hcall := hk.heap.tail (.call 1 _ (congrFun htodo 1) ⟨_, rfl⟩ hpromised)
  have hbegun := hcall.tail (.turn 1 (.passes _ rfl))
  refine ⟨_, hbegun, hopened, haddr, ?_⟩
  exact (reachable_live hbegun).1 1 _ _ 5 rfl haddr

/-- A release that throws before it comes to the reference leaves the `file_info`. -/
theorem reachable_settled_opened : ∃ k : Kernel (Fin 2) ℕ, k.Reachable ∧
    k.handles = ∅ ∧ k.lost = {3} ∧ k.heap.count 5 = some 1 ∧
    ∀ o, (k.heap.count o).isSome → ∃ fh ∈ k.handles ∪ k.lost, k.heap.addr fh = some o := by
  obtain ⟨k, hk, hhandles, hlost, hopened, htodo, hvars, haddr, hcount⟩ :=
    Kernel.reachable_one_open
  have hpromised : k.heap.Promised 1 (Request.release 3).acts := by
    refine ⟨fun h hh => ?_, fun h hh => ?_, fun u _ => ⟨fun h hh ht => ?_, fun h hh => ?_⟩⟩
    · have hh : h = 3 := by simpa [Request.acts] using hh
      rw [hh, hopened]
      exact Finset.mem_singleton_self 3
    · simp [Request.acts] at hh
    · simp [htodo, Touches] at ht
    · simp [htodo] at hh
  have hknown : ∀ fh, .borrow fh ∈ (Request.release 3).acts ∨
      .release fh ∈ (Request.release 3).acts → fh ∈ k.handles := by
    intro fh hh
    have hh : fh = 3 := by simpa [Request.acts] using hh
    rw [hh, hhandles]
    exact Finset.mem_singleton_self 3
  have hcall := Relation.ReflTransGen.tail hk
    (.call 1 (.release 3) (congrFun htodo 1) hpromised hknown)
  have hthrown := hcall.tail (.turn 1 (.throws _ rfl))
  refine ⟨_, hthrown, ?_, ?_, hcount, (reachable_settled hthrown ?_).2.2⟩
  · show k.handles \ {3} ∪ k.heap.opened \ k.heap.opened = ∅
    rw [hhandles, sdiff_self, sdiff_self, Finset.bot_eq_empty, Finset.empty_union]
  · show k.lost ∪ k.heap.opened.filter _ = {3}
    rw [hlost, hopened, Finset.empty_union]
    refine Finset.filter_true_of_mem fun fh hin => ?_
    obtain rfl := Finset.mem_singleton.mp hin
    simp [Request.acts, hvars]
  · refine Fin.forall_fin_two.mpr ⟨congrFun htodo 0, ?_⟩
    show List.replicate (k.heap.vars 1).length _ = []
    rw [hvars]
    rfl

end Wwdedup
