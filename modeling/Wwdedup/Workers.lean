import Wwdedup.Lib.GuardedRun
import Wwdedup.Lib.SlotTable
import Mathlib.Data.List.Infix
import Mathlib.Logic.Function.Basic

/-!
# The storage descriptor and the threads

`_storage` is one descriptor for the whole process, opened by the constructor that
`BlocksCache::start` uses.  Every thread that FUSE starts gets a `DedupFS` with a database
connection and a `BlocksCache` of its own; both hang on a `thread_specific_ptr` and are
deleted when the thread exits.  `BlocksCache` has two constructors and one destructor, and the
destructor closes `_storage`.

A run is what happens between `start` and `stop`: requests, exits of threads, and accesses of
the writer thread to the storage.  An access shows the file behind `_storage`.
-/

namespace Wwdedup

open GuardedRun

/-- What a descriptor is open on. -/
inductive OpenFile where
  | storage
  | database (connection : ℕ)
  | other
  deriving DecidableEq, Repr

/-- The thread of `main`, which calls `start` and `stop`, and the threads of FUSE. -/
inductive Thread where
  | main
  | worker (t : ℕ)
  deriving DecidableEq, Repr

structure Process where
  fds : SlotTable OpenFile
  /-- the global `_storage` -/
  storageFd : ℕ
  /-- the threads whose `_instance` of `BlocksCache` is set -/
  caches : Thread → Bool
  /-- the database descriptor of the thread's `DedupFS` -/
  databases : Thread → Option ℕ
  /-- the number of the next database connection -/
  nextConnection : ℕ

inductive Event where
  /-- a FUSE request in the thread, with the read of a block when it populates one -/
  | request (t : Thread) (populates : Bool)
  /-- the end of a FUSE thread -/
  | exit (t : ℕ)
  /-- a `pwrite` of the writer thread -/
  | pwrite
  deriving DecidableEq, Repr

namespace Process

/-- The constructor `BlocksCache(db_url, bits)` in `BlocksCache::start`, in a process that has
some files open. -/
def start (fds : SlotTable OpenFile) : Process where
  fds := fds.alloc .storage
  storageFd := fds.lowest
  caches := fun t => t = .main
  databases := fun _ => none
  nextConnection := 0

/-- The file that an access through `_storage` reads or writes; `none` when the descriptor is
closed. -/
def storageFile (p : Process) : Option OpenFile := p.fds.get p.storageFd

/-- `DedupFS::Instance`: the first request of a thread opens its database, and
`getThreadInstance` gives it a `BlocksCache` when it has none. -/
def threadInstance (p : Process) (t : Thread) : Process :=
  match p.databases t with
  | some _ => p
  | none =>
    { p with
      fds := p.fds.alloc (.database p.nextConnection)
      databases := Function.update p.databases t (some p.fds.lowest)
      nextConnection := p.nextConnection + 1
      caches := Function.update p.caches t true }

/-- `~DedupFS`, when the thread has one.  `sqlite3_close` refuses, as the prepared statements of the
`DataBase` are destroyed behind it: the connection and its descriptor stay open. -/
def deleteDedupFS (p : Process) (t : Thread) : Process :=
  match p.databases t with
  | some _ => { p with databases := Function.update p.databases t none }
  | none => p

/-- `~BlocksCache`, when the thread has one. -/
def deleteBlocksCache (p : Process) (t : Thread) : Process :=
  if p.caches t then
    { p with fds := p.fds.release p.storageFd, caches := Function.update p.caches t false }
  else p

/-- One event; an access shows the file behind `_storage`. -/
def step (p : Process) : Event → Except Empty (Process × Option (Option OpenFile))
  | .request t populates =>
    let p := p.threadInstance t
    .ok (p, if populates then some p.storageFile else none)
  | .exit t => .ok ((p.deleteDedupFS (.worker t)).deleteBlocksCache (.worker t), none)
  | .pwrite => .ok (p, some p.storageFile)

/-! ### What the threads do to the descriptor -/

/-- `_storage` is open on the storage file, and only threads with a `BlocksCache` have a
database connection. -/
structure Open (p : Process) : Prop where
  storage : p.storageFile = some .storage
  paired : ∀ t, p.databases t ≠ none → p.caches t = true

/-- The guard of a run: a thread that exits never had a request. -/
def Keeps (p : Process) : Event → Prop
  | .exit t => p.caches (.worker t) = false
  | _ => True

theorem open_start (fds : SlotTable OpenFile) : (start fds).Open where
  storage := by
    show (fds.alloc .storage).get fds.lowest = some .storage
    rw [SlotTable.get_alloc, if_pos rfl]
  paired := fun t h => absurd rfl h

theorem Open.threadInstance {p : Process} (h : p.Open) (t : Thread) :
    (p.threadInstance t).Open := by
  unfold Process.threadInstance
  split
  · exact h
  · refine ⟨SlotTable.get_alloc_of_some h.storage, fun t' ht' => ?_⟩
    by_cases ht : t' = t
    · subst ht
      exact Function.update_self ..
    · simp only [Function.update_of_ne ht] at ht' ⊢
      exact h.paired t' ht'

/-- A thread without an instance leaves nothing behind. -/
theorem Open.exit {p : Process} (h : p.Open) {t : Thread} (ht : p.caches t = false) :
    (p.deleteDedupFS t).deleteBlocksCache t = p := by
  have hnone : p.databases t = none := by
    by_contra hne
    rw [h.paired t hne] at ht
    cases ht
  have hdb : p.deleteDedupFS t = p := by
    unfold deleteDedupFS
    rw [hnone]
  rw [hdb, deleteBlocksCache, if_neg (by simp [ht])]

/-- The destructor of a thread's `BlocksCache` closes the descriptor of all. -/
theorem storageFile_exit {p : Process} {t : Thread} (ht : p.caches t = true) :
    ((p.deleteDedupFS t).deleteBlocksCache t).storageFile = none := by
  have hcaches : (p.deleteDedupFS t).caches t = true := by
    unfold deleteDedupFS
    split <;> exact ht
  unfold deleteBlocksCache
  rw [if_pos hcaches]
  show ((p.deleteDedupFS t).fds.release (p.deleteDedupFS t).storageFd).get _ = none
  rw [SlotTable.get_release, if_pos rfl]

theorem Open.step {p p' : Process} {i : Event} {o : Option (Option OpenFile)} (h : p.Open)
    (hi : p.Keeps i) (hstep : p.step i = .ok (p', o)) :
    p'.Open ∧ ∀ f, o = some f → f = some .storage := by
  cases i with
  | request t populates =>
    cases hstep
    have hopen := h.threadInstance t
    refine ⟨hopen, fun f hf => ?_⟩
    split at hf
    · rw [← Option.some.inj hf]
      exact hopen.storage
    · cases hf
  | exit t =>
    cases hstep
    rw [h.exit hi]
    exact ⟨h, by simp⟩
  | pwrite =>
    cases hstep
    refine ⟨h, fun f hf => ?_⟩
    rw [← Option.some.inj hf]
    exact h.storage

theorem Open.run {p p' : Process} {is : List Event} {os : List (Option (Option OpenFile))}
    (h : p.Open) (hok : Meets Process.step Keeps p is)
    (hrun : run Process.step p is = .ok (p', os)) :
    p'.Open ∧ ∀ f, some f ∈ os → f = some .storage := by
  induction is generalizing p os with
  | nil =>
    cases hrun
    exact ⟨h, by simp⟩
  | cons i is ih =>
    obtain ⟨p₁, o, os', hstep, hrest, rfl⟩ := run_cons_ok.mp hrun
    obtain ⟨hopen, ho⟩ := h.step hok.1 hstep
    obtain ⟨hend, hos⟩ := ih hopen (hok.2 p₁ o hstep) hrest
    refine ⟨hend, fun f hf => ?_⟩
    rcases List.mem_cons.mp hf with hf | hf
    · exact ho f hf.symm
    · exact hos f hf

/-- A run that never loses the descriptor has no exit of a thread with an instance. -/
theorem keeps_of_open {p : Process} {is : List Event}
    (hopen : ∀ js, js <+: is → ∀ p' os, GuardedRun.run step p js = .ok (p', os) →
      p'.storageFile = some .storage) : Meets step Keeps p is := by
  induction is generalizing p with
  | nil => trivial
  | cons i is ih =>
    refine ⟨?_, fun p' o hstep => ih fun js hjs p'' os hrun => ?_⟩
    · cases i with
      | request t populates => trivial
      | pwrite => trivial
      | exit t =>
        show p.caches (.worker t) = false
        by_contra hcache
        have hone : GuardedRun.run step p [.exit t] = .ok (_, [none]) :=
          run_cons_ok.mpr ⟨_, none, [], rfl, rfl, rfl⟩
        have hfile := hopen [.exit t] (by simp) _ _ hone
        rw [storageFile_exit (by simpa using hcache)] at hfile
        cases hfile
    · have hcons : i :: js <+: i :: is := by
        obtain ⟨ks, rfl⟩ := hjs
        exact ⟨ks, rfl⟩
      exact hopen (i :: js) hcons p'' (o :: os) (run_cons_ok.mpr ⟨p', o, os, hstep, hrun, rfl⟩)

/-- **When the storage descriptor outlives the threads.**  Throughout a run `_storage` stays
open on the storage file, with every access on that file, if and only if no thread that has
served a request exits in the run. -/
theorem storage_stays_open_iff (fds : SlotTable OpenFile) (is : List Event) :
    (∀ js, js <+: is → ∀ p os, GuardedRun.run step (start fds) js = .ok (p, os) →
      p.storageFile = some .storage ∧ ∀ f, some f ∈ os → f = some .storage) ↔
    Meets step Keeps (start fds) is := by
  constructor
  · intro h
    exact keeps_of_open fun js hjs p os hrun => (h js hjs p os hrun).1
  · rintro hok js ⟨ks, rfl⟩ p os hrun
    obtain ⟨hopen, hos⟩ := (open_start fds).run hok.left hrun
    exact ⟨hopen.storage, hos⟩

/-- Two threads serve a request, and the first one exits.  The writer's next `pwrite` meets a
closed descriptor; after a request in a third thread it goes into that thread's database. -/
theorem worker_exit_redirects_storage :
    ∃ p, GuardedRun.run step (start [some .other, some .other, some .other])
        [.request (.worker 1) true, .request (.worker 2) true, .exit 1, .pwrite,
          .request (.worker 3) false, .pwrite] =
      .ok (p, [some (some .storage), some (some .storage), none, some none, none,
        some (some (.database 2))]) :=
  ⟨_, rfl⟩

end Process

end Wwdedup
