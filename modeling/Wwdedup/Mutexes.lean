import Wwdedup.Lib.LockOrder
import Mathlib.Data.Fintype.Fin

/-!
# The mutexes

What the threads of the process do with mutexes.  `_getLockedFileBlock` locks a `block_info` by
hand, and its callers unlock it by hand; the mutexes of storage blocks are locked by guards, or
by hand in front of a handler that unlocks them; `writerMutex` is locked by guards.  Nothing else
waits: a transaction that another connection is in the way of is an exception.

Which storage blocks a round meets depends on the data and on the other threads, so a `Call` is
given with the mutexes that it comes upon.  Whether a place throws is left open.

* `reachable_alive`: a thread in a call can move, or waits behind one that can, or waits for a
  `block_info` that an exception left locked.
* `calls_return`: with no new calls, all calls but those return, and `writerMutex` and the mutexes
  of storage blocks are free.
-/

namespace Wwdedup

open LockOrder

/-- The mutexes of the process. -/
inductive Mutex where
  /-- `block_info::lock` -/
  | info (item : ℕ)
  /-- `writerMutex` -/
  | writer
  /-- `storage_block::lock` -/
  | block (item : ℕ)
  deriving DecidableEq, Repr

namespace Mutex

/-- The order in which they are locked. -/
def rank : Mutex → ℕ
  | .info _ => 0
  | .writer => 1
  | .block _ => 2

/-- They are unlocked by hand, and no handler does so. -/
def Unguarded (m : Mutex) : Prop := ∃ item, m = .info item

end Mutex

/-- What `_getLockedFileBlock` comes upon: the `block_info`, and the storage block that is put into
the cache for it. -/
structure LocatedBlock where
  item : ℕ
  placed : Option ℕ

/-- `_getLockedFileBlock`, from which a statement of `loadFileBlock` may throw. -/
def LocatedBlock.getLockedFileBlock (b : LocatedBlock) : List (Act Mutex) :=
  .throws [] :: b.placed.elim [] fun k => [.acquire (.block k), .release (.block k)]

/-- What a round of `readBuf` comes upon. -/
structure ReadRound extends LocatedBlock where
  shown : Option ℕ

/-- A guard around `_populateStorageBlock`. -/
def populated (k : ℕ) : List (Act Mutex) :=
  [.acquire (.block k), .throws [.block k], .release (.block k)]

def ReadRound.acts (b : ReadRound) : List (Act Mutex) :=
  .acquire (.info b.item) :: (b.getLockedFileBlock ++ [.release (.info b.item)]) ++
    b.shown.elim [] populated

/-- What a round of `writeBuf` comes upon: `firstBlock`, the `sblock` of the transaction, and the
storage block that takes the data. -/
structure WriteRound extends LocatedBlock where
  firstBlock : Option ℕ
  sblock : Option ℕ
  stored : Option ℕ

/-- The transaction cannot begin, or a statement fails, and the handler unlocks `sblock`. -/
def replaceStorageBlockActs (sblock : Option ℕ) : List (Act Mutex) :=
  .throws [] :: match sblock with
    | none => [.throws []]
    | some k => [.acquire (.block k), .throws [.block k], .release (.block k)]

def WriteRound.acts (b : WriteRound) : List (Act Mutex) :=
  .acquire (.info b.item) :: (b.getLockedFileBlock ++ b.firstBlock.elim [] populated ++
    replaceStorageBlockActs b.sblock ++
    (b.stored.elim [] fun k => [.acquire (.block k), .release (.block k)]) ++
    [.release (.info b.item)])

/-- What a thread calls. -/
inductive MutexCall where
  | readBuf (rounds : List ReadRound)
  | writeBuf (rounds : List WriteRound)
  /-- transactions only -/
  | truncate (blocks : ℕ)
  | sync
  /-- the writer thread, from the end of a `wait_for` to the next one -/
  | pass (visited : List ℕ)

def MutexCall.acts : MutexCall → List (Act Mutex)
  | .readBuf rounds => rounds.flatMap ReadRound.acts
  | .writeBuf rounds => .throws [] :: rounds.flatMap WriteRound.acts
  | .truncate blocks => List.replicate (blocks + 1) (.throws [])
  | .sync => [.acquire .writer, .release .writer]
  | .pass visited =>
    .acquire .writer :: (visited.flatMap fun k => [.acquire (.block k), .release (.block k)]) ++
      [.release .writer]

/-! ### The order -/

namespace Mutex

theorem rank_le (m : Mutex) : m.rank ≤ 2 := by
  cases m <;> simp [rank]

/-- Nothing is locked before the mutex of a `block_info`. -/
theorem not_unguarded_of_lt {m m' : Mutex} (h : m.rank < m'.rank) : ¬m'.Unguarded := by
  rintro ⟨item, rfl⟩
  exact Nat.not_lt_zero _ h

end Mutex

/-- A guard for one storage block, with the mutexes in front of it. -/
theorem balanced_block {held : Mutex → Prop} (hranks : ∀ m, held m → m.rank < 2) (k : ℕ) :
    Balanced Mutex.rank Mutex.Unguarded held [.acquire (.block k), .release (.block k)] :=
  Balanced.locked (l := Mutex.block k) (p := []) hranks .nil

/-- A guard around something that throws, while nothing else is locked but a `block_info`. -/
theorem balanced_populated {held : Mutex → Prop} (hheld : ∀ m, held m → m.Unguarded) (k : ℕ) :
    Balanced Mutex.rank Mutex.Unguarded held (populated k) := by
  refine Balanced.locked (l := Mutex.block k) (p := [.throws [Mutex.block k]]) (fun m hm => ?_)
    (.throws (List.nodup_singleton _) (fun m hm => .inl (List.mem_singleton.mp hm))
      fun m hm hnot => ?_)
  · obtain ⟨item, rfl⟩ := hheld m hm
    exact Nat.zero_lt_two
  · exact hheld m (hm.resolve_left fun heq => hnot (heq ▸ List.mem_singleton_self _))

/-- A place that throws, while nothing is locked but a `block_info`. -/
theorem balanced_throws {held : Mutex → Prop} (hheld : ∀ m, held m → m.Unguarded) :
    Balanced Mutex.rank Mutex.Unguarded held [.throws []] :=
  .throws List.nodup_nil (fun _ hm => absurd hm List.not_mem_nil) fun m hm _ => hheld m hm

section rounds

variable {held : Mutex → Prop} (hheld : ∀ m, held m → m.Unguarded)
include hheld

theorem balanced_getLockedFileBlock (b : LocatedBlock) :
    Balanced Mutex.rank Mutex.Unguarded held b.getLockedFileBlock := by
  have hranks : ∀ m, held m → m.rank < 2 := fun m hm => by
    obtain ⟨item, rfl⟩ := hheld m hm
    exact Nat.zero_lt_two
  have hblock := balanced_block hranks
  exact (balanced_throws hheld).append (.option hblock b.placed)

theorem balanced_replaceStorageBlock (sblock : Option ℕ) :
    Balanced Mutex.rank Mutex.Unguarded held (replaceStorageBlockActs sblock) := by
  refine (balanced_throws hheld).append ?_
  cases sblock with
  | none => exact balanced_throws hheld
  | some k => exact balanced_populated hheld k

end rounds

/-- With the `block_info` nothing is locked that a handler would unlock. -/
theorem unguarded_info (item : ℕ) (m : Mutex) (hm : m = .info item ∨ False) : m.Unguarded :=
  ⟨item, hm.resolve_right id⟩

theorem ReadRound.balanced (b : ReadRound) :
    Balanced Mutex.rank Mutex.Unguarded (fun _ => False) b.acts := by
  refine Balanced.append (.locked (fun _ hm => hm.elim) ?_)
    (.option (balanced_populated fun _ hm => hm.elim) b.shown)
  exact balanced_getLockedFileBlock (unguarded_info b.item) b.toLocatedBlock

theorem WriteRound.balanced (b : WriteRound) :
    Balanced Mutex.rank Mutex.Unguarded (fun _ => False) b.acts := by
  refine .locked (fun _ hm => hm.elim) ?_
  have hlocated := balanced_getLockedFileBlock (unguarded_info b.item) b.toLocatedBlock
  have hfirst := Balanced.option (balanced_populated (unguarded_info b.item))
    b.firstBlock
  have hreplaced := balanced_replaceStorageBlock (unguarded_info b.item) b.sblock
  have hranks : ∀ m : Mutex, m = .info b.item ∨ False → m.rank < 2 := fun m hm => by
    rw [hm.resolve_right id]
    exact Nat.zero_lt_two
  have hstored := Balanced.option (balanced_block hranks) b.stored
  exact ((hlocated.append hfirst).append hreplaced).append hstored

theorem balanced_truncate (n : ℕ) :
    Balanced Mutex.rank Mutex.Unguarded (fun _ => False) (List.replicate n (.throws [])) := by
  induction n with
  | zero => exact .nil
  | succ n ih => exact (balanced_throws fun _ hm => hm.elim).append ih

/-- **Every call locks in order** and leaves nothing locked but a `block_info`. -/
theorem MutexCall.disciplined (c : MutexCall) :
    Disciplined Mutex.rank Mutex.Unguarded (fun _ => False) c.acts := by
  refine Balanced.disciplined ?_
  cases c with
  | readBuf rounds => exact .flatMap ReadRound.balanced rounds
  | writeBuf rounds =>
    exact (balanced_throws fun _ hm => hm.elim).append (.flatMap WriteRound.balanced rounds)
  | truncate blocks => exact balanced_truncate (blocks + 1)
  | sync => exact Balanced.locked (l := Mutex.writer) (p := []) (fun _ hm => hm.elim) .nil
  | pass visited =>
    refine .locked (fun _ hm => hm.elim) (.flatMap (balanced_block fun m hm => ?_) visited)
    rw [hm.resolve_right id]
    exact Nat.one_lt_two

/-! ### Runs -/

/-- What a thread may begin. -/
def Called (p : List (Act Mutex)) : Prop := ∃ c : MutexCall, c.acts = p

section runs

variable {τ : Type} [DecidableEq τ] {s : Threads τ Mutex}

theorem reachable_sound (h : Reachable Called s) : Sound Mutex.rank Mutex.Unguarded s :=
  h.sound fun _ hp => by
    obtain ⟨c, rfl⟩ := hp
    exact c.disciplined

/-- **No deadlock but one.**  Whatever the threads call, in any order of their steps and whatever
throws: a thread in a call can move, or waits behind one that can, or waits for a `block_info` that
an exception left locked. -/
theorem reachable_alive (h : Reachable Called s) (t : τ) :
    s.todo t = [] ∨ Alive s t ∨
      ∃ item p, s.todo t = .acquire (.info item) :: p ∧ s.owner (.info item) = .abandoned := by
  have hsound := reachable_sound h
  rcases hsound.alive Mutex.rank_le (fun _ _ => Mutex.not_unguarded_of_lt) t with
    hdone | halive | ⟨m, p, hnext, hlost⟩
  · exact .inl hdone
  · exact .inr (.inl halive)
  · obtain ⟨item, rfl⟩ := hsound.abandoned m hlost
    exact .inr (.inr ⟨item, p, hnext, hlost⟩)

/-- **Calls return.**  When the threads begin nothing new, they take a number of steps that is
bounded from the start.  When none can take any more, all calls have returned but the reads and
writes that wait for a `block_info` that an exception left locked, and `writerMutex` and the
mutexes of all storage blocks are free. -/
theorem calls_return [Fintype τ] (h : Reachable Called s) {n : ℕ} {s' : Threads τ Mutex}
    (hturns : Turns n s s') : n ≤ s.weight ∧ ((∀ t s'', ¬Turn s' t s'') →
      (∀ t, s'.todo t = [] ∨
        ∃ item p, s'.todo t = .acquire (.info item) :: p ∧ s'.owner (.info item) = .abandoned) ∧
      s'.owner .writer = .free ∧ ∀ item, s'.owner (.block item) = .free) := by
  have hsound := hturns.sound (reachable_sound h)
  refine ⟨by have hbound := hturns.bounded; omega, fun hstuck => ?_⟩
  obtain ⟨htodo, howner⟩ :=
    hsound.settled Mutex.rank_le (fun _ _ => Mutex.not_unguarded_of_lt) hstuck
  have hguarded : ∀ m : Mutex, ¬m.Unguarded → s'.owner m = .free := fun m hm =>
    (howner m).resolve_right fun hlost => hm (hsound.abandoned m hlost)
  refine ⟨fun t => ?_, hguarded _ fun ⟨_, heq⟩ => (by cases heq), fun item =>
    hguarded _ fun ⟨_, heq⟩ => (by cases heq)⟩
  rcases htodo t with hdone | ⟨m, p, hnext, hlost⟩
  · exact .inl hdone
  · obtain ⟨item, rfl⟩ := hsound.abandoned m hlost
    exact .inr ⟨item, p, hnext, hlost⟩

end runs

/-- A write of one thread throws while it loads a block, and another thread reads the block. -/
theorem reachable_abandoned : ∃ s : Threads (Fin 2) Mutex, Reachable Called s ∧
    s.todo 1 = MutexCall.acts (.readBuf [⟨⟨0, none⟩, some 1⟩]) ∧
    s.owner (.info 0) = .abandoned := by
  have hcall : Reachable Called (_ : Threads (Fin 2) Mutex) :=
    .tail .refl (.call 0 _ rfl ⟨.writeBuf [⟨⟨0, none⟩, none, none, some 1⟩], rfl⟩)
  have hgrown := hcall.tail (.turn 0 (.passes [] _ rfl))
  have hlocked := hgrown.tail (.turn 0 (.acquire (.info 0) _ rfl rfl))
  have hthrown := hlocked.tail (.turn 0 (.throws [] _ rfl))
  exact ⟨_, hthrown.tail (.call 1 _ rfl ⟨.readBuf [⟨⟨0, none⟩, some 1⟩], rfl⟩), rfl, rfl⟩

/-- The second thread waits for a `block_info` that nobody will unlock. -/
theorem reachable_alive_abandoned : ∃ s : Threads (Fin 2) Mutex,
    s.owner (.info 0) = .abandoned ∧ (s.todo 1 = [] ∨ Alive s 1 ∨
      ∃ item p, s.todo 1 = .acquire (.info item) :: p ∧ s.owner (.info item) = .abandoned) := by
  obtain ⟨s, hs, -, hlost⟩ := reachable_abandoned
  exact ⟨s, hlost, reachable_alive hs 1⟩

/-- The write takes three turns, the last one by an exception, and then no turn is left to take. -/
theorem calls_return_abandoned : ∃ s s' : Threads (Fin 2) Mutex,
    Turns 3 s s' ∧ 3 ≤ s.weight ∧ s'.owner (.info 0) = .abandoned ∧ (∀ t s'', ¬Turn s' t s'') ∧
      (∀ t, s'.todo t = [] ∨
        ∃ item p, s'.todo t = .acquire (.info item) :: p ∧ s'.owner (.info item) = .abandoned) ∧
      s'.owner .writer = .free ∧ ∀ item, s'.owner (.block item) = .free := by
  have hwrite : Reachable Called (_ : Threads (Fin 2) Mutex) :=
    .tail .refl (.call 0 _ rfl ⟨.writeBuf [⟨⟨0, none⟩, none, none, some 1⟩], rfl⟩)
  have hboth := hwrite.tail (.call 1 _ rfl ⟨.readBuf [⟨⟨0, none⟩, some 1⟩], rfl⟩)
  obtain ⟨s, hs, p, q, hwrites, hreads, hfree⟩ : ∃ s : Threads (Fin 2) Mutex, Reachable Called s ∧
      ∃ p q, s.todo 0 = .throws [] :: .acquire (.info 0) :: .throws [] :: p ∧
        s.todo 1 = .acquire (.info 0) :: q ∧ s.owner (.info 0) = .free :=
    ⟨_, hboth, _, _, rfl, rfl, rfl⟩
  obtain ⟨s', hturns, hdone, hwaits, hlost⟩ : ∃ s', Turns 3 s s' ∧ s'.todo 0 = [] ∧
      s'.todo 1 = .acquire (.info 0) :: q ∧ s'.owner (.info 0) = .abandoned :=
    ⟨_, .cons 0 (.passes [] _ hwrites) (.cons 0 (.acquire (.info 0) _ rfl hfree)
      (.cons 0 (.throws [] _ rfl) (.refl _))), rfl, hreads, rfl⟩
  have hstuck : ∀ t s'', ¬Turn s' t s'' := by
    refine Fin.forall_fin_two.mpr ⟨fun s'' hturn => ?_, fun s'' hturn => ?_⟩
    · cases hturn <;> simp_all
    · cases hturn <;> simp_all
  obtain ⟨hbound, hsettled⟩ := calls_return hs hturns
  exact ⟨s, s', hturns, hbound, hlost, hstuck, hsettled hstuck⟩

end Wwdedup
