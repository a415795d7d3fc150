import Wwdedup.BlocksCache
import Wwdedup.Lib.GuardedRun

/-!
# One descriptor for all threads

`_populateStorageBlock` goes to the slot of its block with `lseek` and reads it with `read`.
Each thread holds the lock of its block meanwhile, but all threads use one descriptor, and the
kernel keeps one offset for it.  `Loaders` has the system calls of any number of threads and the
`pwrite`s of the writer as its steps.
-/

namespace Wwdedup

open GuardedRun

variable {bits : ℕ} {T : Type} [DecidableEq T]

/-! ### The offset in bytes -/

/-- A `read` of `block_size` bytes at an offset, `none` when it comes back short. -/
def Storage.readAt (st : Storage bits) (offset : ℕ) : Option (Block bits) :=
  if offset + blockSize bits ≤ st.size then some fun i => st.byte (offset + i) else none

/-- At the start of a slot the `read` is that of the slot. -/
theorem Storage.readAt_slot (st : Storage bits) (n : ℕ) : st.readAt (n <<< bits) = st.read n := by
  have hshift : n <<< bits = n * blockSize bits := by rw [Nat.shiftLeft_eq, blockSize_eq]
  have hhas : n * blockSize bits + blockSize bits ≤ st.size ↔ st.Has n := by
    rw [Has, Nat.succ_mul]
  unfold readAt read
  rw [hshift]
  simp only [byte_slot]
  exact if_congr hhas rfl rfl

/-! ### Threads that load -/

/-- Where a thread is in `_populateStorageBlock`. -/
inductive Loading (bits : ℕ) where
  | outside
  | locked
  | sought
  | loaded (x : Block bits)
  | threw
  | left (data : Option (Block bits))

namespace Loading

/-- The thread holds the lock of its block. -/
def holds : Loading bits → Bool
  | .outside => false
  | .left _ => false
  | _ => true

/-- What the thread has put into its block. -/
def data : Loading bits → Option (Block bits)
  | .loaded x => some x
  | .left x => x
  | _ => none

end Loading

/-- The storage file with the offset of its descriptor, the locks of the blocks, and the threads;
`num` is the number of the block that a thread loads. -/
structure Loaders (bits : ℕ) (T : Type) where
  num : T → ℕ
  storage : Storage bits
  offset : ℕ
  held : ℕ → Bool
  thread : T → Loading bits

/-- A call of a thread, or a `pwrite` of the writer. -/
inductive SysCall (bits : ℕ) (T : Type) where
  | lock (t : T)
  | lseek (t : T)
  | read (t : T)
  | unlock (t : T)
  | pwrite (n : ℕ) (data : Block bits)

namespace Loaders

def goto (s : Loaders bits T) (t : T) (l : Loading bits) : Loaders bits T :=
  { s with thread := Function.update s.thread t l }

/-- The step of a call; a call that cannot be made now is an error. -/
def step (s : Loaders bits T) : SysCall bits T → Except Unit (Loaders bits T × Unit)
  | .lock t =>
    match s.thread t with
    | .outside =>
      if s.held (s.num t) then .error ()
      else .ok ({ s.goto t .locked with held := Function.update s.held (s.num t) true }, ())
    | _ => .error ()
  | .lseek t =>
    match s.thread t with
    | .locked => .ok ({ s.goto t .sought with offset := s.num t <<< bits }, ())
    | _ => .error ()
  | .read t =>
    match s.thread t with
    | .sought =>
      match s.storage.readAt s.offset with
      | some x => .ok ({ s.goto t (.loaded x) with offset := s.offset + blockSize bits }, ())
      | none => .ok ({ s.goto t .threw with offset := max s.offset s.storage.size }, ())
    | _ => .error ()
  | .unlock t =>
    match s.thread t with
    | .loaded x =>
      .ok ({ s.goto t (.left (some x)) with held := Function.update s.held (s.num t) false }, ())
    | .threw =>
      .ok ({ s.goto t (.left none) with held := Function.update s.held (s.num t) false }, ())
    | _ => .error ()
  | .pwrite n data =>
    if s.held n then .error () else .ok ({ s with storage := s.storage.pwrite n data }, ())

/-- Before the first call. -/
def start (num : T → ℕ) (st : Storage bits) (offset : ℕ) : Loaders bits T :=
  ⟨num, st, offset, fun _ => false, fun _ => .outside⟩

/-- What each call does. -/
inductive Took (s : Loaders bits T) : SysCall bits T → Loaders bits T → Prop
  | lock (t : T) (here : s.thread t = .outside) (free : s.held (s.num t) = false) :
      Took s (.lock t)
        { s.goto t .locked with held := Function.update s.held (s.num t) true }
  | lseek (t : T) (here : s.thread t = .locked) :
      Took s (.lseek t) { s.goto t .sought with offset := s.num t <<< bits }
  | read (t : T) (x : Block bits) (here : s.thread t = .sought)
      (slot : s.storage.readAt s.offset = some x) :
      Took s (.read t) { s.goto t (.loaded x) with offset := s.offset + blockSize bits }
  | short (t : T) (here : s.thread t = .sought) (slot : s.storage.readAt s.offset = none) :
      Took s (.read t) { s.goto t .threw with offset := max s.offset s.storage.size }
  | unlock (t : T) (l : Loading bits) (here : s.thread t = l)
      (done : (∃ x, l = .loaded x) ∨ l = .threw) :
      Took s (.unlock t)
        { s.goto t (.left l.data) with held := Function.update s.held (s.num t) false }
  | pwrite (n : ℕ) (data : Block bits) (free : s.held n = false) :
      Took s (.pwrite n data) { s with storage := s.storage.pwrite n data }

variable {s s' : Loaders bits T} {call : SysCall bits T} {out : Unit}

theorem step_took (h : s.step call = .ok (s', out)) : Took s call s' := by
  cases call with
  | lock t =>
    simp only [step] at h
    split at h
    · rename_i here
      split at h
      · cases h
      · rename_i free
        cases h
        exact .lock t here (by simpa using free)
    · cases h
  | lseek t =>
    simp only [step] at h
    split at h
    · rename_i here
      cases h
      exact .lseek t here
    · cases h
  | read t =>
    simp only [step] at h
    split at h
    · rename_i here
      split at h
      · rename_i x slot
        cases h
        exact .read t x here slot
      · rename_i slot
        cases h
        exact .short t here slot
    · cases h
  | unlock t =>
    simp only [step] at h
    split at h
    · rename_i x here
      cases h
      exact .unlock t (.loaded x) here (.inl ⟨x, rfl⟩)
    · rename_i here
      cases h
      exact .unlock t .threw here (.inr rfl)
    · cases h
  | pwrite n data =>
    simp only [step] at h
    split at h
    · cases h
    · rename_i free
      cases h
      exact .pwrite n data (by simpa using free)

theorem thread_goto (s : Loaders bits T) (t u : T) (l : Loading bits) :
    (s.goto t l).thread u = if u = t then l else s.thread u := by
  by_cases h : u = t
  · rw [if_pos h, h]
    exact Function.update_self ..
  · rw [if_neg h]
    exact Function.update_of_ne h ..

/-- A thread holds the lock of its block, and has loaded the bytes of its slot; it throws only
when its slot is not in the file. -/
structure Loads (num : T → ℕ) (st : Storage bits) (s : Loaders bits T) : Prop where
  nums : s.num = num
  size : st.size ≤ s.storage.size
  held : ∀ t, (s.thread t).holds = true → s.held (num t) = true
  loaded : ∀ t x, s.thread t = .loaded x → s.storage.read (num t) = some x
  threw : ∀ t, s.thread t = .threw → st.read (num t) = none

/-- A thread reads where its slot is. -/
def AtOwnSlot (s : Loaders bits T) : SysCall bits T → Prop
  | .read t => s.thread t = .sought → s.offset = s.num t <<< bits
  | _ => True

variable {num : T → ℕ} {st : Storage bits}

/-- A thread goes on with the file as it is. -/
theorem Loads.goto (h : Loads num st s) (t : T) (l : Loading bits) (offset : ℕ) (held : ℕ → Bool)
    (hother : ∀ u, u ≠ t → s.held (num u) = true → held (num u) = true)
    (hheld : l.holds = true → held (num t) = true)
    (hloaded : ∀ x, l = .loaded x → s.storage.read (num t) = some x)
    (hthrew : l = .threw → st.read (num t) = none) :
    Loads num st { s.goto t l with offset := offset, held := held } := by
  have hthread : ∀ u, ({ s.goto t l with offset := offset, held := held } :
      Loaders bits T).thread u = if u = t then l else s.thread u := fun u => thread_goto s t u l
  refine ⟨h.nums, h.size, fun u hu => ?_, fun u x hu => ?_, fun u hu => ?_⟩
  · rw [hthread] at hu
    by_cases hut : u = t
    · rw [if_pos hut] at hu
      rw [hut]
      exact hheld hu
    · rw [if_neg hut] at hu
      exact hother u hut (h.held u hu)
  · rw [hthread] at hu
    by_cases hut : u = t
    · rw [if_pos hut] at hu
      rw [hut]
      exact hloaded x hu
    · rw [if_neg hut] at hu
      exact h.loaded u x hu
  · rw [hthread] at hu
    by_cases hut : u = t
    · rw [if_pos hut] at hu
      rw [hut]
      exact hthrew hu
    · rw [if_neg hut] at hu
      exact h.threw u hu

/-- **A call keeps it**, when the thread that reads reads where its slot is. -/
theorem Loads.step (hnum : Function.Injective num) (h : Loads num st s)
    (hcall : s.AtOwnSlot call) (hstep : s.step call = .ok (s', out)) : Loads num st s' := by
  have hsame : ∀ t u, u ≠ t → s.held (num u) = true → s.held (num u) = true := fun _ _ _ hu => hu
  cases step_took hstep with
  | lock t here free =>
    rw [h.nums]
    refine h.goto t .locked s.offset _ (fun u hut hu => ?_) (fun _ => Function.update_self ..)
      (fun x hx => by cases hx) (fun hx => by cases hx)
    rw [Function.update_of_ne (hnum.ne hut)]
    exact hu
  | lseek t here =>
    exact h.goto t .sought _ s.held (hsame t) (fun _ => h.held t (by rw [here]; rfl))
      (fun x hx => by cases hx) (fun hx => by cases hx)
  | read t x here slot =>
    have hoffset : s.offset = num t <<< bits := by
      rw [← h.nums]
      exact hcall here
    rw [hoffset, Storage.readAt_slot] at slot
    refine h.goto t (.loaded x) _ s.held (hsame t) (fun _ => h.held t (by rw [here]; rfl))
      (fun y hy => ?_) (fun hx => by cases hx)
    cases hy
    exact slot
  | short t here slot =>
    have hoffset : s.offset = num t <<< bits := by
      rw [← h.nums]
      exact hcall here
    rw [hoffset, Storage.readAt_slot] at slot
    refine h.goto t .threw _ s.held (hsame t) (fun _ => h.held t (by rw [here]; rfl))
      (fun x hx => by cases hx) (fun _ => ?_)
    -- the file has only grown
    unfold Storage.read at slot ⊢
    split at slot
    · cases slot
    · rename_i hends
      exact if_neg fun hhas => hends (le_trans hhas h.size)
  | unlock t l here done =>
    rw [h.nums]
    refine h.goto t (.left l.data) s.offset _ (fun u hut hu => ?_) (fun hx => by cases hx)
      (fun x hx => by cases hx) (fun hx => by cases hx)
    rw [Function.update_of_ne (hnum.ne hut)]
    exact hu
  | pwrite n data free =>
    refine ⟨h.nums, ?_, h.held, fun t x ht => ?_, h.threw⟩
    · exact h.size.trans (le_max_left ..)
    · refine Storage.read_pwrite_of_ne _ data x (h.loaded t x ht) fun heq => ?_
      have hlocked := h.held t (by rw [ht]; rfl)
      rw [heq, free] at hlocked
      cases hlocked

/-! ### Seeks that do not overlap -/

/-- A thread goes to its slot when no other is between its `lseek` and its `read`. -/
def Alone (s : Loaders bits T) : SysCall bits T → Prop
  | .lseek _ => ∀ u, s.thread u ≠ .sought
  | _ => True

/-- The offset is that of the only thread between its calls. -/
def Aimed (s : Loaders bits T) : Prop :=
  ∀ t, s.thread t = .sought → s.offset = s.num t <<< bits ∧ ∀ u, s.thread u = .sought → u = t

theorem Aimed.step (h : s.Aimed) (hcall : s.Alone call) (hstep : s.step call = .ok (s', out)) :
    s'.Aimed := by
  have hstays : ∀ (t : T) (l : Loading bits) (offset : ℕ) (held : ℕ → Bool), l ≠ .sought →
      (∀ u, u ≠ t → s.thread u = .sought → offset = s.offset) →
      ({ s.goto t l with offset := offset, held := held } : Loaders bits T).Aimed := by
    intro t l offset held hl hoffset u hu
    have hthread : ∀ v, ({ s.goto t l with offset := offset, held := held } :
        Loaders bits T).thread v = if v = t then l else s.thread v := fun v => thread_goto s t v l
    have hback : ∀ v, ({ s.goto t l with offset := offset, held := held } :
        Loaders bits T).thread v = .sought → v ≠ t ∧ s.thread v = .sought := by
      intro v hv
      rw [hthread] at hv
      by_cases hvt : v = t
      · rw [if_pos hvt] at hv
        exact absurd hv hl
      · rw [if_neg hvt] at hv
        exact ⟨hvt, hv⟩
    obtain ⟨hut, hsought⟩ := hback u hu
    obtain ⟨haim, hall⟩ := h u hsought
    exact ⟨(hoffset u hut hsought).trans haim, fun v hv => hall v (hback v hv).2⟩
  cases step_took hstep with
  | lock t here free => exact hstays t .locked s.offset _ (fun h => by cases h) fun _ _ _ => rfl
  | lseek t here =>
    intro u hu
    have hthread := thread_goto s t u .sought
    have hut : u = t := by
      by_contra hut
      rw [if_neg hut] at hthread
      exact hcall u (hthread.symm.trans hu)
    refine ⟨by rw [hut]; rfl, fun v hv => ?_⟩
    rw [hut]
    by_contra hvt
    have hv' := thread_goto s t v .sought
    rw [if_neg hvt] at hv'
    exact hcall v (hv'.symm.trans hv)
  | read t x here slot =>
    refine hstays t (.loaded x) _ s.held (fun h => by cases h) fun u hut hu => ?_
    exact absurd ((h t here).2 u hu) hut
  | short t here slot =>
    refine hstays t .threw _ s.held (fun h => by cases h) fun u hut hu => ?_
    exact absurd ((h t here).2 u hu) hut
  | unlock t l here done =>
    exact hstays t (.left l.data) s.offset _ (fun h => by cases h) fun _ _ _ => rfl
  | pwrite n data free => exact h

omit [DecidableEq T] in
theorem Aimed.atOwnSlot (h : s.Aimed) (call : SysCall bits T) : s.AtOwnSlot call := by
  cases call with
  | read t => exact fun here => (h t here).1
  | _ => trivial

end Loaders

section loads

variable {num : T → ℕ} {st : Storage bits} {s s' : Loaders bits T} {out : Unit}

omit [DecidableEq T] in
theorem Loaders.start_loads (num : T → ℕ) (st : Storage bits) (offset : ℕ) :
    (Loaders.start num st offset).Loads num st := by
  refine ⟨rfl, le_refl _, fun u hu => ?_, fun u x hu => ?_, fun u hu => ?_⟩ <;> cases hu

/-- A block whose slot is in the file is left with the bytes of the slot. -/
theorem Loaders.Loads.unlock (h : s.Loads num st) {t : T} (hslot : st.Has (num t))
    (hstep : s.step (.unlock t) = .ok (s', out)) :
    s'.thread t = .left (s'.storage.read (num t)) := by
  have hread : st.read (num t) = some (st.slot (num t)) := if_pos hslot
  cases step_took hstep with
  | unlock _ l here done =>
    refine (thread_goto s t t _).trans ?_
    rw [if_pos rfl]
    show Loading.left l.data = Loading.left (s.storage.read (num t))
    rcases done with ⟨x, rfl⟩ | rfl
    · rw [h.loaded t x here]
      rfl
    · have hnone := h.threw t here
      rw [hread] at hnone
      cases hnone

/-- **When concurrent loads do not mix**: in every run in which each thread reads where its slot
is, a block that was loaded has the bytes of its slot, no thread throws whose slot is in the
file, and its block is left with the bytes of the slot. -/
theorem run_loads_own (num : T → ℕ) (hnum : Function.Injective num) (st : Storage bits)
    (offset : ℕ) (calls : List (SysCall bits T)) (s : Loaders bits T) (outs : List Unit)
    (hcalls : Meets Loaders.step (fun s call => s.AtOwnSlot call) (.start num st offset) calls)
    (hrun : run Loaders.step (.start num st offset) calls = .ok (s, outs)) (t : T) :
    (∀ x, s.thread t = .loaded x → s.storage.read (num t) = some x) ∧
      (st.Has (num t) → s.thread t ≠ .threw ∧
        ∀ s' out, s.step (.unlock t) = .ok (s', out) →
          s'.thread t = .left (s'.storage.read (num t))) := by
  have h := run_invariant (I := fun s => Loaders.Loads num st s)
    (fun s call s' out h hcall hstep => h.step hnum hcall hstep)
    (Loaders.start_loads num st offset) hcalls hrun
  refine ⟨h.loaded t, fun hslot => ⟨fun hthrew => ?_, fun s' out hstep => h.unlock hslot hstep⟩⟩
  have hnone := h.threw t hthrew
  rw [show st.read (num t) = some (st.slot (num t)) from if_pos hslot] at hnone
  cases hnone

/-- **Seeks that do not overlap are enough**: each thread reads where its slot is when no thread
goes to its slot while another is between its `lseek` and its `read`. -/
theorem meets_atOwnSlot (num : T → ℕ) (st : Storage bits) (offset : ℕ)
    (calls : List (SysCall bits T))
    (hcalls : Meets Loaders.step (fun s call => s.Alone call) (.start num st offset) calls) :
    Meets Loaders.step (fun s call => s.AtOwnSlot call) (.start num st offset) calls := by
  refine hcalls.of_invariant (I := fun s => Loaders.Aimed s)
    (fun s call s' out h hcall hstep => h.step hcall hstep) (fun s call h _ => h.atOwnSlot call)
    fun t ht => ?_
  cases ht

/-- A `read` takes the bytes at the offset. -/
theorem step_read (t : T) (hsought : s.thread t = .sought) :
    ∃ s', s.step (.read t) = .ok (s', ()) ∧ (s'.thread t).data = s.storage.readAt s.offset := by
  have hthread : ∀ (l : Loading bits) (offset : ℕ),
      ({ s.goto t l with offset := offset } : Loaders bits T).thread t = l := fun l _ =>
    (Loaders.thread_goto s t t l).trans (if_pos rfl)
  simp only [Loaders.step, hsought]
  cases s.storage.readAt s.offset with
  | some x =>
    refine ⟨_, rfl, ?_⟩
    rw [hthread]
    rfl
  | none =>
    refine ⟨_, rfl, ?_⟩
    rw [hthread]
    rfl

/-- A thread by itself loads what `_populateStorageBlock` loads. -/
theorem run_alone {H : Type} (s : Loaders bits T) (t : T) (hlocked : s.thread t = .locked)
    (b : StorageBlock bits H) (hb : b.storageBlockNum = s.num t) (hnum : b.storageBlockNum ≠ 0)
    (hdata : b.data = none) :
    ∃ s' outs, run Loaders.step s [.lseek t, .read t] = .ok (s', outs) ∧
      (s'.thread t).data = (populateStorageBlock s.storage b).toOption.bind StorageBlock.data := by
  have hpopulate : (populateStorageBlock s.storage b).toOption.bind StorageBlock.data =
      s.storage.read (s.num t) := by
    have hempty : ¬(b.data.isSome ∨ b.storageBlockNum = 0) := by
      rw [hdata]
      simpa using hnum
    rw [populateStorageBlock, if_neg hempty, hb]
    cases s.storage.read (s.num t) <;> rfl
  have hseek : s.step (.lseek t) =
      .ok ({ s.goto t .sought with offset := s.num t <<< bits }, ()) := by
    simp only [Loaders.step, hlocked]
  obtain ⟨s', hread, hload⟩ := step_read
    (s := { s.goto t .sought with offset := s.num t <<< bits }) t
    ((Loaders.thread_goto s t t _).trans (if_pos rfl))
  rw [hpopulate, ← Storage.readAt_slot]
  refine ⟨s', [(), ()], ?_, hload⟩
  exact run_cons_ok.mpr ⟨_, _, _, hseek, run_cons_ok.mpr ⟨_, _, _, hread, rfl, rfl⟩, rfl⟩

end loads

/-- A file with two blocks behind the signature. -/
def twoSlots : Storage 0 := ((Storage.create 0).pwrite 1 fun _ => 7).pwrite 2 fun _ => 8

/-- Threads for the blocks 1 and 2. -/
def twoNums (t : Bool) : ℕ := if t then 2 else 1

theorem twoNums_injective : Function.Injective twoNums := by decide

/-- The threads one after the other. -/
def inTurn : List (SysCall 0 Bool) :=
  [.lock false, .lseek false, .read false, .lock true, .lseek true, .read true]

/-- Both go to their slots before they read. -/
def crossed : List (SysCall 0 Bool) :=
  [.lock false, .lock true, .lseek false, .lseek true, .read false, .read true]

/-- The state after the calls. -/
def loadersAfter (calls : List (SysCall 0 Bool)) : Loaders 0 Bool :=
  match run Loaders.step (.start twoNums twoSlots 0) calls with
  | .ok (s, _) => s
  | .error _ => .start twoNums twoSlots 0

/-- The second of two threads that read in turn. -/
theorem run_loads_own_inTurn :
    (∀ x, (loadersAfter inTurn).thread true = .loaded x →
        (loadersAfter inTurn).storage.read (twoNums true) = some x) ∧
      (twoSlots.Has (twoNums true) → (loadersAfter inTurn).thread true ≠ .threw ∧
        ∀ s' out, (loadersAfter inTurn).step (.unlock true) = .ok (s', out) →
          s'.thread true = .left (s'.storage.read (twoNums true))) := by
  refine run_loads_own twoNums twoNums_injective twoSlots 0 inTurn _ _ ?_ rfl true
  refine meets_atOwnSlot twoNums twoSlots 0 inTurn ?_
  refine .cons trivial rfl (.cons (fun u => ?_) rfl (.cons trivial rfl (.cons trivial rfl
    (.cons (fun u => ?_) rfl (.cons trivial rfl trivial)))))
  · cases u <;> exact fun h => by cases h
  · cases u <;> exact fun h => by cases h

/-- **Concurrent loads get mixed up.**  Both threads go to their slots before they read: the
first gets the byte of the second one's block, and the second reads past it. -/
theorem crossed_loads :
    (¬∀ (calls : List (SysCall 0 Bool)) (s : Loaders 0 Bool) (outs : List Unit),
      run Loaders.step (.start twoNums twoSlots 0) calls = .ok (s, outs) →
      ∀ t x, s.thread t = .loaded x → s.storage.read (twoNums t) = some x) ∧
    ((loadersAfter crossed).thread false).data.map (fun x => x ⟨0, by decide⟩) = some 8 ∧
    ((loadersAfter crossed).storage.read 1).map (fun x => x ⟨0, by decide⟩) = some 7 ∧
    (loadersAfter crossed).thread true = .threw := by
  refine ⟨fun hall => ?_, rfl, rfl, rfl⟩
  have h := hall crossed _ _ rfl false _ rfl
  have hbyte := congrArg (Option.map fun x : Block 0 => x ⟨0, by decide⟩) h
  revert hbyte
  decide

end Wwdedup
