import Wwdedup.WriterLoop
import Mathlib.Logic.Function.Basic

/-!
# Requests for a pass

`sync` sets `writeTriggered` and notifies the writer thread, both with `writerMutex`; the writer
thread clears it after `wait_for` and before the pass.  `Monitor` is the loop of the writer thread
with its mutex and the threads in `sync`, each taking one small step at a time: `wait_for` tests
the predicate with the mutex, gives the mutex back when it blocks, may wake up at any time, by a
notification, by the timeout or for no reason, and then needs the mutex again.

* `writer_projects`: what the writer thread does here are the steps of `Loop.writer`.
* `Monitor.Sound` is the invariant: who has the mutex, what a thread in `sync` has done, and what
  is due at each place of the writer thread.
* `no_sync_lost`: a writer thread that is blocked and was not triggered owes nobody a pass.
-/

namespace Wwdedup

open GuardedRun

variable {bits : ℕ} {H : Type} [DecidableEq H]

/-! ### The log -/

/-- What the log remembers: the end of a `sync`, and the beginning and the end of the flush loop of
a pass. -/
inductive Mark where
  | released
  | started
  | flushed
  deriving DecidableEq, Repr

/-- The marks after the last `released`, all of them when there is none. -/
def sinceRelease (log : List Mark) : List Mark :=
  log.foldl (fun later mark => if mark = .released then [] else later ++ [mark]) []

/-- After the last `sync` a pass started and went through the cache, or there was no `sync`. -/
def Served (log : List Mark) : Prop :=
  .released ∉ log ∨ [.started, .flushed].Sublist (sinceRelease log)

/-- A pass started after the last `sync`. -/
def Begun (log : List Mark) : Prop := .started ∈ sinceRelease log

theorem sinceRelease_concat (log : List Mark) {mark : Mark} (h : mark ≠ .released) :
    sinceRelease (log ++ [mark]) = sinceRelease log ++ [mark] := by
  unfold sinceRelease
  rw [List.foldl_append]
  exact if_neg h

theorem begun_concat (log : List Mark) : Begun (log ++ [.started]) := by
  unfold Begun
  rw [sinceRelease_concat log (by decide)]
  exact List.mem_append_right _ (List.mem_singleton.mpr rfl)

theorem Begun.served {log : List Mark} (h : Begun log) : Served (log ++ [.flushed]) := by
  refine .inr ?_
  rw [sinceRelease_concat log (by decide)]
  have hstarted : [Mark.started].Sublist (sinceRelease log) := List.singleton_sublist.mpr h
  exact hstarted.append (List.Sublist.refl [Mark.flushed])

/-! ### The threads -/

/-- Where the writer thread stands with its lock. -/
inductive LockPhase where
  /-- `unique_lock<mutex> lck(writerMutex)` -/
  | lock
  /-- in the loop, but not in `wait_for` -/
  | loop
  /-- `wait_for` tests `writeTriggered` -/
  | predicate
  /-- `wait_for` found `false` -/
  | unlock
  /-- `wait_for` waits, without the mutex -/
  | blocked
  /-- `wait_for` woke up and needs the mutex -/
  | relock (timedOut : Bool)
  /-- after `wait_for` -/
  | woken
  | stopped
  deriving DecidableEq, Repr

/-- The writer thread has the mutex. -/
def LockPhase.holds : LockPhase → Bool
  | .loop | .predicate | .unlock | .woken => true
  | .lock | .blocked | .relock _ | .stopped => false

/-- Where a thread stands in `sync`. -/
inductive Caller where
  | outside
  | lock
  | locked
  | triggered
  | notified
  deriving DecidableEq, Repr

/-- The thread has the mutex. -/
def Caller.holds : Caller → Bool
  | .locked | .triggered | .notified => true
  | .outside | .lock => false

/-- The thread has set `writeTriggered`. -/
def Caller.sets : Caller → Bool
  | .triggered | .notified => true
  | .outside | .lock | .locked => false

/-- Who has `writerMutex`. -/
inductive Holder where
  | writer
  | caller (t : ℕ)
  deriving DecidableEq, Repr

/-- The writer thread and the threads that call `sync`. -/
structure Monitor (bits : ℕ) (H : Type) where
  loop : Loop bits H
  phase : LockPhase
  holder : Option Holder
  callers : ℕ → Caller
  log : List Mark

/-- What moves. -/
inductive Turn where
  | writer
  /-- `wait_for` wakes up -/
  | wake (timedOut : Bool)
  /-- a thread in `sync`, or about to call it -/
  | caller (t : ℕ)
  /-- a request in another thread, up to its `sync` -/
  | request (op : Op)
  /-- `terminated = true` -/
  | stop
  deriving DecidableEq, Repr

namespace Monitor

/-- The thread is created; the constructor cleared `writeTriggered`. -/
def init (bits : ℕ) (H : Type) [DecidableEq H] : Monitor bits H where
  loop := .init bits H
  phase := .lock
  holder := none
  callers := fun _ => .outside
  log := []

def setCaller (m : Monitor bits H) (t : ℕ) (c : Caller) : Monitor bits H :=
  { m with callers := Function.update m.callers t c }

/-- The writer thread in the loop, outside of `wait_for`. -/
def loopStep (m : Monitor bits H) : Monitor bits H :=
  match m.loop.pc with
  | .test =>
    if m.loop.terminated then
      { m with loop := m.loop.writer, phase := .stopped, holder := none }
    else if m.loop.repeatPass then { m with loop := m.loop.writer, log := m.log ++ [.started] }
    else { m with phase := .predicate }
  | .flush next =>
    match m.loop.fs.store.nextBlock next with
    | some _ => { m with loop := m.loop.writer }
    | none => { m with loop := m.loop.writer, log := m.log ++ [.flushed] }
  | _ => { m with loop := m.loop.writer }

/-- The next step of the writer thread. -/
def writer (m : Monitor bits H) : Except Stuck (Monitor bits H) :=
  match m.phase with
  | .lock =>
    if m.holder = none then .ok { m with phase := .loop, holder := some .writer }
    else .error .blocked
  | .loop => .ok m.loopStep
  | .predicate =>
    if m.loop.writeTriggered then .ok { m with phase := .woken }
    else .ok { m with loop := { m.loop with pc := .wait }, phase := .unlock }
  | .unlock => .ok { m with phase := .blocked, holder := none }
  | .blocked => .error .blocked
  | .relock timedOut =>
    if m.holder = none then
      .ok { m with phase := if timedOut then .woken else .predicate, holder := some .writer }
    else .error .blocked
  | .woken =>
    .ok
      { m with
        loop := { m.loop with writeTriggered := false }.beginPass
        phase := .loop
        log := m.log ++ [.started] }
  | .stopped => .error .blocked

/-- `notify_one`: the writer thread is the only one that waits. -/
def notify (m : Monitor bits H) : Monitor bits H :=
  if m.phase = .blocked then { m with phase := .relock false } else m

/-- The next step of a thread in `sync`. -/
def caller (m : Monitor bits H) (t : ℕ) : Except Stuck (Monitor bits H) :=
  match m.callers t with
  | .outside => .ok (m.setCaller t .lock)
  | .lock =>
    if m.holder = none then .ok { m.setCaller t .locked with holder := some (.caller t) }
    else .error .blocked
  | .locked => .ok { m.setCaller t .triggered with loop := m.loop.sync }
  | .triggered => .ok (m.setCaller t .notified).notify
  | .notified =>
    .ok { m.setCaller t .outside with holder := none, log := m.log ++ [.released] }

def step (cfg : Config bits H) (m : Monitor bits H) : Turn → Except Stuck (Monitor bits H × Unit)
  | .writer => m.writer.map fun m' => (m', ())
  | .wake timedOut =>
    if m.phase = .blocked then .ok ({ m with phase := .relock timedOut }, ())
    else .error .blocked
  | .caller t => (m.caller t).map fun m' => (m', ())
  | .request op =>
    if !op.isRequest then .error .blocked
    else
      match m.loop.fs.step cfg op with
      | .error e => .error (.failed e)
      | .ok (fs, _) =>
        .ok
          ({ m with
            loop :=
              { m.loop with
                fs := fs
                journal := m.loop.journal ++ m.loop.fs.placedBy cfg op } }, ())
  | .stop => .ok ({ m with loop := m.loop.stop }, ())

end Monitor

/-! ### What the writer thread does -/

/-- In a pass, behind the flush loop. -/
def WriterPc.later : WriterPc → Bool
  | .choose _ _ | .erase _ | .sleep => true
  | .test | .wait | .flush _ | .stopped => false

namespace Loop

variable {l : Loop bits H}

omit [DecidableEq H] in
theorem writer_flush {next : ℕ} (hpc : l.pc = .flush next) :
    l.writer.writeTriggered = l.writeTriggered ∧
      match l.fs.store.nextBlock next with
      | some _ => ∃ k, l.writer.pc = .flush k
      | none => l.writer.pc.later = true := by
  unfold writer
  rw [hpc]
  dsimp only
  cases l.fs.store.nextBlock next with
  | some b => exact ⟨rfl, b.storageBlockNum + 1, rfl⟩
  | none =>
    refine ⟨rfl, ?_⟩
    dsimp only
    split <;> rfl

omit [DecidableEq H] in
theorem writer_later (hpc : l.pc.later = true) :
    l.writer.writeTriggered = l.writeTriggered ∧
      (l.writer.pc.later = true ∨ l.writer.pc = .test) := by
  unfold writer
  split
  case h_1 htest =>
    rw [htest] at hpc
    cases hpc
  case h_2 hwait =>
    rw [hwait] at hpc
    cases hpc
  case h_3 hflush =>
    rw [hflush] at hpc
    cases hpc
  case h_4 =>
    split
    · exact ⟨rfl, .inl rfl⟩
    · split
      · split <;> exact ⟨rfl, .inl rfl⟩
      · exact ⟨rfl, .inl rfl⟩
  case h_5 => exact ⟨rfl, .inl rfl⟩
  case h_6 => exact ⟨rfl, .inl rfl⟩
  case h_7 => exact ⟨rfl, .inr rfl⟩
  case h_8 hstopped =>
    rw [hstopped] at hpc
    cases hpc

end Loop

namespace Monitor

/-- Where the loop stands for the writer thread in its lock. -/
def Placed (m : Monitor bits H) : Prop :=
  match m.phase with
  | .lock => m.loop.pc = .test
  | .loop => m.loop.pc ≠ .wait ∧ m.loop.pc ≠ .stopped
  | .predicate => m.loop.pc = .wait ∨ (m.loop.pc = .test ∧ m.loop.repeatPass = false)
  | .unlock | .blocked | .relock _ => m.loop.pc = .wait
  | .woken => m.loop.pc = .wait ∨
      (m.loop.pc = .test ∧ m.loop.repeatPass = false ∧ m.loop.writeTriggered = true)
  | .stopped => m.loop.pc = .stopped

/-- The steps of the writer thread. -/
inductive Acts (m : Monitor bits H) : Monitor bits H → Prop
  | enters (phase : m.phase = .lock) (free : m.holder = none) :
      Acts m { m with phase := .loop, holder := some .writer }
  | stops (phase : m.phase = .loop) (pc : m.loop.pc = .test) (asked : m.loop.terminated = true) :
      Acts m { m with loop := { m.loop with pc := .stopped }, phase := .stopped, holder := none }
  | repeats (phase : m.phase = .loop) (pc : m.loop.pc = .test)
      (running : m.loop.terminated = false) (again : m.loop.repeatPass = true) :
      Acts m
        { m with
          loop := { m.loop with repeatPass := false }.beginPass
          log := m.log ++ [.started] }
  | waits (phase : m.phase = .loop) (pc : m.loop.pc = .test)
      (running : m.loop.terminated = false) (once : m.loop.repeatPass = false) :
      Acts m { m with phase := .predicate }
  | flushes {next k : ℕ} (phase : m.phase = .loop) (pc : m.loop.pc = .flush next)
      (pc' : m.loop.writer.pc = .flush k)
      (flag : m.loop.writer.writeTriggered = m.loop.writeTriggered) :
      Acts m { m with loop := m.loop.writer }
  | flushed {next : ℕ} (phase : m.phase = .loop) (pc : m.loop.pc = .flush next)
      (pc' : m.loop.writer.pc.later = true)
      (flag : m.loop.writer.writeTriggered = m.loop.writeTriggered) :
      Acts m { m with loop := m.loop.writer, log := m.log ++ [.flushed] }
  | goesOn (phase : m.phase = .loop) (pc : m.loop.pc.later = true)
      (pc' : m.loop.writer.pc.later = true ∨ m.loop.writer.pc = .test)
      (flag : m.loop.writer.writeTriggered = m.loop.writeTriggered) :
      Acts m { m with loop := m.loop.writer }
  | finds (phase : m.phase = .predicate) (flag : m.loop.writeTriggered = true) :
      Acts m { m with phase := .woken }
  | misses (phase : m.phase = .predicate) (flag : m.loop.writeTriggered = false) :
      Acts m { m with loop := { m.loop with pc := .wait }, phase := .unlock }
  | blocks (phase : m.phase = .unlock) : Acts m { m with phase := .blocked, holder := none }
  | relocks {timedOut : Bool} (phase : m.phase = .relock timedOut) (free : m.holder = none) :
      Acts m
        { m with
          phase := if timedOut then .woken else .predicate
          holder := some .writer }
  | begins (phase : m.phase = .woken) :
      Acts m
        { m with
          loop := { m.loop with writeTriggered := false }.beginPass
          phase := .loop
          log := m.log ++ [.started] }

section

omit [DecidableEq H]

theorem loopStep_acts {m : Monitor bits H} (h : m.Placed) (hphase : m.phase = .loop) :
    m.Acts m.loopStep := by
  unfold Placed at h
  rw [hphase] at h
  cases hpc : m.loop.pc with
  | test =>
    have hstep : m.loopStep =
        if m.loop.terminated then
          { m with loop := { m.loop with pc := .stopped }, phase := .stopped, holder := none }
        else if m.loop.repeatPass then
          { m with
            loop := { m.loop with repeatPass := false }.beginPass
            log := m.log ++ [.started] }
        else { m with phase := .predicate } := by
      unfold loopStep Loop.writer
      rw [hpc]
      dsimp only
      split
      · rfl
      · split <;> rfl
    rw [hstep]
    split
    · rename_i hstop
      exact .stops hphase hpc hstop
    · rename_i hrun
      split
      · rename_i hrepeat
        exact .repeats hphase hpc (Bool.eq_false_iff.mpr hrun) hrepeat
      · rename_i honce
        exact .waits hphase hpc (Bool.eq_false_iff.mpr hrun) (Bool.eq_false_iff.mpr honce)
  | flush next =>
    obtain ⟨hflag, hafter⟩ := Loop.writer_flush hpc
    unfold loopStep
    rw [hpc]
    dsimp only
    cases hnext : m.loop.fs.store.nextBlock next with
    | some b =>
      rw [hnext] at hafter
      obtain ⟨k, hk⟩ := hafter
      exact .flushes hphase hpc hk hflag
    | none =>
      rw [hnext] at hafter
      exact .flushed hphase hpc hafter hflag
  | wait => exact absurd hpc h.1
  | stopped => exact absurd hpc h.2
  | _ =>
    have hlater : m.loop.pc.later = true := by rw [hpc]; rfl
    obtain ⟨hflag, hafter⟩ := Loop.writer_later hlater
    unfold loopStep
    rw [hpc]
    exact .goesOn hphase hlater hafter hflag

theorem writer_acts {m m' : Monitor bits H} (h : m.Placed) (hstep : m.writer = .ok m') :
    m.Acts m' := by
  unfold writer at hstep
  split at hstep
  case h_1 hphase =>
    split at hstep
    · rename_i hfree
      cases hstep
      exact .enters hphase hfree
    · cases hstep
  case h_2 hphase =>
    cases hstep
    exact loopStep_acts h hphase
  case h_3 hphase =>
    split at hstep
    · rename_i hflag
      cases hstep
      exact .finds hphase hflag
    · rename_i hflag
      cases hstep
      exact .misses hphase (Bool.eq_false_iff.mpr hflag)
  case h_4 hphase =>
    cases hstep
    exact .blocks hphase
  case h_5 => cases hstep
  case h_6 hphase =>
    split at hstep
    · rename_i hfree
      cases hstep
      exact .relocks hphase hfree
    · cases hstep
  case h_7 hphase =>
    cases hstep
    exact .begins hphase
  case h_8 => cases hstep

/-- **The steps of the writer thread** are those of `Loop.writer`, as long as it is not stopped
between the test and the wait. -/
theorem writer_projects {m m' : Monitor bits H} (h : m.Placed) (hstep : m.writer = .ok m')
    (hrun : m.loop.terminated = false) : m'.loop = m.loop ∨ m'.loop = m.loop.writer := by
  have htest : m.loop.pc = .test → m.loop.writer =
      if m.loop.repeatPass then { m.loop with repeatPass := false }.beginPass
      else if m.loop.writeTriggered then { m.loop with writeTriggered := false }.beginPass
      else { m.loop with pc := .wait } := by
    intro hpc
    unfold Loop.writer
    rw [hpc]
    dsimp only
    rw [if_neg (by rw [hrun]; decide)]
    rfl
  have hwait : m.loop.pc = .wait →
      m.loop.writer = { m.loop with writeTriggered := false }.beginPass := by
    intro hpc
    unfold Loop.writer
    rw [hpc]
    rfl
  cases writer_acts h hstep with
  | enters phase free => exact .inl rfl
  | stops phase pc asked =>
    rw [hrun] at asked
    cases asked
  | repeats phase pc running again =>
    refine .inr ?_
    rw [htest pc, if_pos again]
  | waits phase pc running once => exact .inl rfl
  | flushes phase pc pc' flag => exact .inr rfl
  | flushed phase pc pc' flag => exact .inr rfl
  | goesOn phase pc pc' flag => exact .inr rfl
  | finds phase flag => exact .inl rfl
  | misses phase flag =>
    unfold Placed at h
    rw [phase] at h
    rcases h with hpc | ⟨hpc, honce⟩
    · refine .inl ?_
      show { m.loop with pc := .wait } = m.loop
      rw [← hpc]
    · refine .inr ?_
      rw [htest hpc, if_neg (by rw [honce]; decide), if_neg (by rw [flag]; decide)]
  | blocks phase => exact .inl rfl
  | relocks phase free => exact .inl rfl
  | begins phase =>
    unfold Placed at h
    rw [phase] at h
    refine .inr ?_
    rcases h with hpc | ⟨hpc, honce, hflag⟩
    · rw [hwait hpc]
    · rw [htest hpc, if_neg (by rw [honce]; decide), if_pos hflag]

end

/-! ### The invariant -/

/-- Whoever called `sync` had a pass, or the next one is asked for. -/
def Answered (m : Monitor bits H) : Prop := m.loop.writeTriggered = true ∨ Served m.log

/-- What is due where the writer thread stands. -/
def Due (m : Monitor bits H) : Prop :=
  match m.phase with
  | .lock | .predicate | .unlock | .blocked | .relock _ => m.Answered
  | .loop =>
    match m.loop.pc with
    | .test => m.Answered
    | .flush _ => Begun m.log
    | .choose _ _ | .erase _ | .sleep => Served m.log
    | .wait | .stopped => True
  | .woken | .stopped => True

structure Sound (m : Monitor bits H) : Prop where
  placed : m.Placed
  writerHolds : m.holder = some .writer ↔ m.phase.holds = true
  callerHolds : ∀ t, m.holder = some (.caller t) ↔ (m.callers t).holds = true
  triggered : ∀ t, (m.callers t).sets = true → m.loop.writeTriggered = true
  due : m.Due

theorem init_sound : (init bits H).Sound where
  placed := rfl
  writerHolds := iff_of_false (fun h => by cases h) fun h => by cases h
  callerHolds t := iff_of_false (fun h => by cases h) fun h => by cases h
  triggered t h := by cases h
  due := .inr (.inl List.not_mem_nil)

end Monitor

theorem Caller.holds_of_sets {c : Caller} (h : c.sets = true) : c.holds = true := by
  cases c with
  | triggered => rfl
  | notified => rfl
  | _ => cases h

namespace Monitor

variable {m m' : Monitor bits H}

section

omit [DecidableEq H]

/-- The writer thread takes the mutex when it is free, and gives back only its own. -/
theorem Acts.lock (h : m.Acts m') (hw : m.holder = some .writer ↔ m.phase.holds = true) :
    m'.callers = m.callers ∧ (m.holder = none ∨ m.holder = some .writer) ∧
      m'.holder = if m'.phase.holds then some .writer else none := by
  have hhas : ∀ p, m.phase = p → p.holds = true → m.holder = some .writer := by
    rintro p rfl hp
    exact hw.mpr hp
  cases h with
  | enters phase free => exact ⟨rfl, .inl free, rfl⟩
  | stops phase pc asked => exact ⟨rfl, .inr (hhas _ phase rfl), rfl⟩
  | waits phase pc running once => exact ⟨rfl, .inr (hhas _ phase rfl), hhas _ phase rfl⟩
  | finds phase flag => exact ⟨rfl, .inr (hhas _ phase rfl), hhas _ phase rfl⟩
  | misses phase flag => exact ⟨rfl, .inr (hhas _ phase rfl), hhas _ phase rfl⟩
  | blocks phase => exact ⟨rfl, .inr (hhas _ phase rfl), rfl⟩
  | @relocks timedOut phase free => cases timedOut <;> exact ⟨rfl, .inl free, rfl⟩
  | begins phase => exact ⟨rfl, .inr (hhas _ phase rfl), hhas _ phase rfl⟩
  | repeats phase | flushes phase | flushed phase | goesOn phase =>
    have hholder := hhas _ phase rfl
    refine ⟨rfl, .inr hholder, ?_⟩
    show m.holder = if m.phase.holds then some .writer else none
    rw [hholder, phase]
    rfl

theorem Acts.placed (h : m.Acts m') (hp : m.Placed) : m'.Placed := by
  unfold Placed at hp
  cases h with
  | enters phase free =>
    rw [phase] at hp
    have hpc : m.loop.pc = .test := hp
    constructor <;> (rw [hpc]; decide)
  | stops phase pc asked => rfl
  | repeats phase pc running again =>
    unfold Placed
    rw [phase]
    constructor <;> (intro hpc; cases hpc)
  | waits phase pc running once => exact .inr ⟨pc, once⟩
  | flushes phase pc pc' flag =>
    unfold Placed
    rw [phase]
    constructor <;> (rw [pc']; intro hpc; cases hpc)
  | flushed phase pc pc' flag =>
    unfold Placed
    rw [phase]
    constructor <;> (intro hpc; rw [hpc] at pc'; cases pc')
  | goesOn phase pc pc' flag =>
    unfold Placed
    rw [phase]
    constructor <;> (intro hpc; rw [hpc] at pc'; rcases pc' with pc' | pc' <;> cases pc')
  | finds phase flag =>
    rw [phase] at hp
    exact hp.imp_right fun h => ⟨h.1, h.2, flag⟩
  | misses phase flag => rfl
  | blocks phase =>
    rw [phase] at hp
    exact hp
  | @relocks timedOut phase free =>
    rw [phase] at hp
    cases timedOut <;> exact .inl hp
  | begins phase => constructor <;> (intro hpc; cases hpc)

theorem Acts.due (h : m.Acts m') (hp : m.Placed) (hd : m.Due) : m'.Due := by
  unfold Due at hd
  cases h with
  | enters phase free =>
    unfold Placed at hp
    rw [phase] at hp hd
    unfold Due
    rw [hp]
    exact hd
  | stops phase pc asked => trivial
  | repeats phase pc running again =>
    unfold Due
    rw [phase]
    exact begun_concat m.log
  | waits phase pc running once =>
    rw [phase, pc] at hd
    exact hd
  | flushes phase pc pc' flag =>
    rw [phase, pc] at hd
    unfold Due
    rw [phase, pc']
    exact hd
  | flushed phase pc pc' flag =>
    rw [phase, pc] at hd
    have hserved : Served (m.log ++ [.flushed]) := Begun.served hd
    unfold Due
    rw [phase]
    cases hpc : m.loop.writer.pc with
    | choose next toDelete => exact hserved
    | erase toDelete => exact hserved
    | sleep => exact hserved
    | _ =>
      rw [hpc] at pc'
      cases pc'
  | goesOn phase pc pc' flag =>
    have hserved : Served m.log := by
      rw [phase] at hd
      cases hpc : m.loop.pc with
      | choose next toDelete | erase toDelete | sleep =>
        rw [hpc] at hd
        exact hd
      | _ =>
        rw [hpc] at pc
        cases pc
    unfold Due
    rw [phase]
    cases hpc : m.loop.writer.pc with
    | choose next toDelete => exact hserved
    | erase toDelete => exact hserved
    | sleep => exact hserved
    | test => exact .inr hserved
    | _ =>
      rw [hpc] at pc'
      rcases pc' with pc' | pc' <;> cases pc'
  | finds phase flag => trivial
  | misses phase flag =>
    rw [phase] at hd
    exact hd
  | blocks phase =>
    rw [phase] at hd
    exact hd
  | @relocks timedOut phase free =>
    rw [phase] at hd
    cases timedOut with
    | false => exact hd
    | true => trivial
  | begins phase => exact begun_concat m.log

/-- Who does not have the mutex is not where it is needed. -/
theorem Sound.out (h : m.Sound) {t : ℕ} (hne : m.holder ≠ some (.caller t)) :
    (m.callers t).holds = false := by
  rw [Bool.eq_false_iff]
  exact fun hholds => hne ((h.callerHolds t).mpr hholds)

/-- While a thread in `sync` has the mutex, or nobody, the writer thread is where it needs none. -/
theorem Sound.phase_holds (h : m.Sound) (hne : m.holder ≠ some .writer) :
    m.phase.holds = false := by
  rw [Bool.eq_false_iff]
  exact fun hholds => hne (h.writerHolds.mpr hholds)

end

omit [DecidableEq H] in
/-- **What the writer thread does keeps the invariant.** -/
theorem Sound.acts (h : m.Sound) (ha : m.Acts m') : m'.Sound := by
  obtain ⟨hcallers, hhad, hholder⟩ := ha.lock h.writerHolds
  have hout : ∀ t, (m'.callers t).holds = false := by
    intro t
    rw [hcallers]
    refine h.out fun hhas => ?_
    rw [hhas] at hhad
    rcases hhad with hnone | hwriter
    · cases hnone
    · cases hwriter
  refine ⟨ha.placed h.placed, ?_, fun t => ?_, fun t hsets => ?_, ha.due h.placed h.due⟩
  · rw [hholder]
    cases m'.phase.holds <;> simp
  · rw [hholder, hout t]
    cases m'.phase.holds <;> simp
  · have hholds := Caller.holds_of_sets hsets
    rw [hout t] at hholds
    cases hholds

/-! ### The other threads -/

section

omit [DecidableEq H]

/-- A thread outside of `sync` takes the mutex, gives it back, or is where the mutex does not
matter. -/
theorem Sound.setCaller (h : m.Sound) {t : ℕ} {c : Caller} (hholds : c.holds = (m.callers t).holds)
    (hsets : c.sets = true → m.loop.writeTriggered = true) : (m.setCaller t c).Sound where
  placed := h.placed
  writerHolds := h.writerHolds
  callerHolds t' := by
    show m.holder = some (.caller t') ↔ (Function.update m.callers t c t').holds = true
    rw [h.callerHolds t', Function.update_apply]
    split
    · rename_i heq
      rw [heq, hholds]
    · rfl
  triggered t' := by
    show (Function.update m.callers t c t').sets = true → m.loop.writeTriggered = true
    rw [Function.update_apply]
    split
    · exact hsets
    · exact h.triggered t'
  due := h.due

/-- `writeTriggered = true`. -/
theorem Sound.sync (h : m.Sound) : ({ m with loop := m.loop.sync } : Monitor bits H).Sound where
  placed := by
    have hp := h.placed
    unfold Placed at hp ⊢
    cases hphase : m.phase with
    | woken =>
      rw [hphase] at hp
      exact hp.imp_right fun hwoken => ⟨hwoken.1, hwoken.2.1, rfl⟩
    | _ =>
      rw [hphase] at hp
      exact hp
  writerHolds := h.writerHolds
  callerHolds := h.callerHolds
  triggered _ _ := rfl
  due := by
    have hd := h.due
    unfold Due at hd ⊢
    cases hphase : m.phase with
    | loop =>
      have hsame : m.loop.sync.pc = m.loop.pc := rfl
      rw [hphase] at hd
      dsimp only at hd ⊢
      rw [hsame]
      cases hpc : m.loop.pc with
      | test => exact .inl rfl
      | _ =>
        rw [hpc] at hd
        exact hd
    | woken => trivial
    | stopped => trivial
    | _ => exact .inl rfl

/-- `wait_for` wakes up. -/
theorem Sound.wake (h : m.Sound) (hphase : m.phase = .blocked) (timedOut : Bool) :
    ({ m with phase := .relock timedOut } : Monitor bits H).Sound where
  placed := by
    have hp := h.placed
    unfold Placed at hp
    rw [hphase] at hp
    exact hp
  writerHolds := by
    rw [h.writerHolds, hphase]
    exact Iff.rfl
  callerHolds := h.callerHolds
  triggered := h.triggered
  due := by
    have hd := h.due
    unfold Due at hd
    rw [hphase] at hd
    exact hd

theorem Sound.notify (h : m.Sound) : m.notify.Sound := by
  unfold Monitor.notify
  split
  · rename_i hphase
    exact h.wake hphase false
  · exact h

/-- Where the writer thread does not have the mutex, an end of `sync` with the flag set is no
surprise. -/
theorem Due.release (h : m.phase.holds = false) (hflag : m.loop.writeTriggered = true) :
    ({ m with holder := none, log := m.log ++ [.released] } : Monitor bits H).Due := by
  unfold Due
  cases hphase : m.phase with
  | stopped => trivial
  | loop | woken =>
    rw [hphase] at h
    cases h
  | _ => exact .inl hflag

/-- **What a thread in `sync` does keeps the invariant.** -/
theorem Sound.caller (h : m.Sound) {t : ℕ} (hstep : m.caller t = .ok m') : m'.Sound := by
  unfold Monitor.caller at hstep
  split at hstep
  case h_1 hat =>
    cases hstep
    exact h.setCaller (by rw [hat]; rfl) (by rintro ⟨⟩)
  case h_2 hat =>
    split at hstep
    · rename_i hfree
      cases hstep
      have hnone : ∀ x : Holder, m.holder ≠ some x := by
        intro x hx
        rw [hfree] at hx
        cases hx
      refine ⟨h.placed, ?_, fun t' => ?_, fun t' => ?_, h.due⟩
      · show some (Holder.caller t) = some .writer ↔ m.phase.holds = true
        rw [h.phase_holds (hnone _)]
        exact iff_of_false (fun hholder => by cases hholder) fun hholds => by cases hholds
      · show some (Holder.caller t) = some (.caller t') ↔
          (Function.update m.callers t .locked t').holds = true
        rw [Function.update_apply]
        split
        · rename_i heq
          rw [heq]
          exact ⟨fun _ => rfl, fun _ => rfl⟩
        · rename_i hne
          rw [h.out (hnone _)]
          constructor
          · intro heq
            cases heq
            exact absurd rfl hne
          · intro hholds
            cases hholds
      · show (Function.update m.callers t .locked t').sets = true → _
        rw [Function.update_apply]
        split
        · rintro ⟨⟩
        · exact h.triggered t'
    · cases hstep
  case h_3 hat =>
    cases hstep
    exact h.sync.setCaller (by rw [hat]; rfl) fun _ => rfl
  case h_4 hat =>
    cases hstep
    exact (h.setCaller (by rw [hat]; rfl) fun _ => h.triggered t (by rw [hat]; rfl)).notify
  case h_5 hat =>
    cases hstep
    have hholder : m.holder = some (.caller t) := (h.callerHolds t).mpr (by rw [hat]; rfl)
    have hphase : m.phase.holds = false := by
      refine h.phase_holds ?_
      rw [hholder]
      rintro ⟨⟩
    have hflag := h.triggered t (by rw [hat]; rfl)
    refine ⟨h.placed, ?_, fun t' => ?_, fun t' _ => hflag, Due.release hphase hflag⟩
    · show none = some Holder.writer ↔ m.phase.holds = true
      rw [hphase]
      exact iff_of_false (fun hnone => by cases hnone) fun hholds => by cases hholds
    · show none = some (Holder.caller t') ↔
        (Function.update m.callers t .outside t').holds = true
      rw [Function.update_apply]
      split
      · constructor
        · intro hnone
          cases hnone
        · intro hholds
          cases hholds
      · rename_i hne
        have hother : m.holder ≠ some (.caller t') := by
          rw [hholder]
          rintro ⟨⟩
          exact hne rfl
        rw [h.out hother]
        exact iff_of_false (fun hnone => by cases hnone) fun hholds => by cases hholds

end

theorem step_sound {cfg : Config bits H} {a : Turn} {o : Unit} (h : m.Sound)
    (hstep : m.step cfg a = .ok (m', o)) : m'.Sound := by
  cases a with
  | writer =>
    obtain ⟨m₁, hwriter, heq⟩ := ok_of_map hstep
    cases heq
    exact h.acts (writer_acts h.placed hwriter)
  | wake timedOut =>
    unfold step at hstep
    dsimp only at hstep
    split at hstep
    · rename_i hphase
      cases hstep
      exact h.wake hphase timedOut
    · cases hstep
  | caller t =>
    obtain ⟨m₁, hcaller, heq⟩ := ok_of_map hstep
    cases heq
    exact h.caller hcaller
  | request op =>
    unfold step at hstep
    dsimp only at hstep
    split at hstep
    · cases hstep
    · split at hstep
      · cases hstep
      · cases hstep
        exact ⟨h.placed, h.writerHolds, h.callerHolds, h.triggered, h.due⟩
  | stop =>
    cases hstep
    exact ⟨h.placed, h.writerHolds, h.callerHolds, h.triggered, h.due⟩

theorem reachable_sound {cfg : Config bits H} (h : Reachable (step cfg) (init bits H) m) :
    m.Sound :=
  reachable_invariant (fun _ _ _ _ h hstep => step_sound h hstep) init_sound h

/-- **No `sync` is lost.**  Whatever the order of the steps, when the writer thread is blocked in
`wait_for` and `writeTriggered` is not set, a flush pass over the cache has started and finished
after the last `sync` gave the mutex back, or there was none. -/
theorem no_sync_lost (cfg : Config bits H) (m : Monitor bits H)
    (h : Reachable (step cfg) (init bits H) m) (hblocked : m.phase = .blocked)
    (hflag : m.loop.writeTriggered = false) : Served m.log := by
  have hdue := (reachable_sound h).due
  unfold Due at hdue
  rw [hblocked] at hdue
  rcases hdue with hset | hserved
  · rw [hflag] at hset
    cases hset
  · exact hserved

/-- The state after the steps; the first one when a step has to wait. -/
def after (cfg : Config bits H) (turns : List Turn) : Monitor bits H :=
  match run (step cfg) (init bits H) turns with
  | .ok (m, _) => m
  | .error _ => init bits H

theorem after_reachable (cfg : Config bits H) (turns : List Turn) :
    Reachable (step cfg) (init bits H) (after cfg turns) := by
  unfold after
  cases h : run (step cfg) (init bits H) turns with
  | error e => exact .refl _
  | ok q => exact ⟨turns, q.2, h⟩

/-- The writer thread blocks, a thread calls `sync`, a second one calls it while the writer thread
needs the mutex again, and after the pass the writer thread blocks again. -/
def twoCalls : List Turn :=
  [.writer, .writer, .writer, .writer, .caller 0, .caller 0, .caller 0, .caller 0, .caller 0,
    .caller 1, .caller 1, .caller 1, .caller 1, .caller 1, .writer, .writer, .writer, .writer,
    .writer, .writer, .writer, .writer]

theorem no_sync_lost_twoCalls :
    (after (plainConfig 0) twoCalls).log = [.released, .released, .started, .flushed] ∧
      Served (after (plainConfig 0) twoCalls).log :=
  ⟨rfl, no_sync_lost (plainConfig 0) _ (after_reachable _ _) rfl rfl⟩

end Monitor

end Wwdedup
