import Wwdedup.RoundSteps
import Wwdedup.WriterPass
import Mathlib.Data.List.MinMax

/-!
# The loop of the writer thread

`BlocksCache::run` step by step, between complete requests: the test of `terminated`, the
wait, the loop that flushes one block after the other, the loop that flushes and collects the
victims, their erasing, and the sleep.  The thread holds `writerMutex` all the time but in the
wait, and `sync` needs it.

The skip list is ordered by number, so a loop over it goes on to the least number that it has
not passed, also when blocks come in meanwhile.  The `journal` remembers, in order, the data
that writes put into blocks and the data that `pwrite` took to the slots.
-/

namespace Wwdedup

open GuardedRun

variable {bits : ℕ} {H : Type} [DecidableEq H]

/-- Where the writer thread stands in `run`. -/
inductive WriterPc where
  /-- `while (!terminated)` -/
  | test
  /-- in `wait_for`, without the mutex -/
  | wait
  /-- the flush loop; the blocks from `next` on are still to come -/
  | flush (next : ℕ)
  /-- the loop over the victims -/
  | choose (next : ℕ) (toDelete : List ℕ)
  | erase (toDelete : List ℕ)
  | sleep
  | stopped
  deriving DecidableEq, Repr

/-- What happened to a block: new data in the cache, or its data in the slot. -/
inductive Entry (bits : ℕ) where
  | set (n : ℕ) (data : Block bits)
  | pwrite (n : ℕ) (data : Block bits)

/-- The file system with the state of its writer thread. -/
structure Loop (bits : ℕ) (H : Type) where
  fs : Fs bits H
  pc : WriterPc
  repeatPass : Bool
  mintime : ℕ
  terminated : Bool
  writeTriggered : Bool
  journal : List (Entry bits)

/-- What moves: a complete request, the writer thread, or a thread in `sync`. -/
inductive Input where
  | op (o : Op)
  | writer
  | sync
  deriving DecidableEq, Repr

/-- Why a step is not taken: the request fails, or it has to wait for the mutex. -/
inductive Stuck where
  | failed (e : Fault)
  | blocked
  deriving DecidableEq, Repr

/-- The steps of the file system that are not made of steps of the writer thread. -/
def Op.isRequest : Op → Bool
  | .writerPass _ => false
  | .remount => false
  | _ => true

/-- `DedupFS::Release` calls `sync`. -/
def Op.syncs : Op → Bool
  | .release _ => true
  | _ => false

/-! ### What a request puts into blocks -/

/-- The data that a round puts into a cached block: those of a block write that does not find
its hash in the tables. -/
def placed (cfg : Config bits H) (p : Store bits H × FileInfo H) : Round → Option (Entry bits)
  | .write buf c =>
    let l := getLockedFileBlock cfg p.1 p.2 c.block
    match oldData l.store l.fblock c.len with
    | .error _ => none
    | .ok (s, old) =>
      let r := commitBlock s l.finfo.stIno (cfg.murmur (c.data buf old)) l.fblock
      if r.present then none else some (.set r.fblock.storageBlockNum (c.data buf old))
  | _ => none

/-- The data that the rounds put into blocks, in order. -/
def placedIn (cfg : Config bits H) : Store bits H × FileInfo H → List Round → List (Entry bits)
  | _, [] => []
  | p, r :: rs =>
    match roundStep cfg p r with
    | .error _ => []
    | .ok (p', _) => (placed cfg p r).toList ++ placedIn cfg p' rs

def Fs.placedBy (cfg : Config bits H) (fs : Fs bits H) (op : Op) : List (Entry bits) :=
  match fs.rounds op with
  | none => []
  | some (fi, rs) => placedIn cfg (fs.store, fi) rs

/-! ### The steps -/

namespace Store

/-- The cached block with the least number that is not below `n`. -/
def nextBlock (s : Store bits H) (n : ℕ) : Option (StorageBlock bits H) :=
  (s.blocks.rows.filter fun b => n ≤ b.storageBlockNum).argmin StorageBlock.storageBlockNum

/-- The critical section of the writer on one block. -/
def flushBlock (s : Store bits H) (n : ℕ) : Store bits H :=
  s.flush fun b => b.storageBlockNum = n

/-- `_blocks->erase`. -/
def eraseBlock (s : Store bits H) (n : ℕ) : Store bits H :=
  { s with blocks := s.blocks.delete fun b => b.storageBlockNum = n }

/-- `_blocks->size()`. -/
def size (s : Store bits H) : ℕ := s.blocks.rows.length

end Store

/-- The `pwrite` of a dirty block. -/
def StorageBlock.pwrites (b : StorageBlock bits H) : List (Entry bits) :=
  if b.dirty then (b.data.map (.pwrite b.storageBlockNum)).toList else []

namespace Loop

def init (bits : ℕ) (H : Type) [DecidableEq H] : Loop bits H where
  fs := .init bits H
  pc := .test
  repeatPass := false
  mintime := 0
  terminated := false
  writeTriggered := false
  journal := []

/-- Nobody holds `writerMutex`. -/
def mutexFree (l : Loop bits H) : Bool :=
  match l.pc with
  | .wait => true
  | .stopped => true
  | _ => false

/-- `mintime = time(nullptr)`, and the flush loop begins. -/
def beginPass (l : Loop bits H) : Loop bits H :=
  { l with pc := .flush 0, mintime := l.fs.store.now }

/-- Flush a block in its critical section. -/
def flushBlock (l : Loop bits H) (b : StorageBlock bits H) : Loop bits H :=
  { l with
    fs := l.fs.setStore (l.fs.store.flushBlock b.storageBlockNum)
    journal := l.journal ++ b.pwrites }

/-- The next step of the writer thread. -/
def writer (l : Loop bits H) : Loop bits H :=
  match l.pc with
  | .test =>
    if l.terminated then { l with pc := .stopped }
    else if l.repeatPass then { l with repeatPass := false }.beginPass
    else if l.writeTriggered then { l with writeTriggered := false }.beginPass
    else { l with pc := .wait }
  | .wait => { l with writeTriggered := false }.beginPass
  | .flush next =>
    match l.fs.store.nextBlock next with
    | some b =>
      { l.flushBlock b with
        pc := .flush (b.storageBlockNum + 1)
        mintime := min l.mintime b.atime }
    | none => { l with pc := if l.fs.store.size > 500 then .choose 0 [] else .sleep }
  | .choose next toDelete =>
    if toDelete.length > 63 then { l with pc := .erase toDelete }
    else
      match l.fs.store.nextBlock next with
      | some b =>
        if b.atime < l.mintime + 10 then
          { l.flushBlock b with
            pc := .choose (b.storageBlockNum + 1) (toDelete ++ [b.storageBlockNum]) }
        else { l with pc := .choose (b.storageBlockNum + 1) toDelete }
      | none => { l with pc := .erase toDelete }
  | .erase [] =>
    { l with pc := .sleep, repeatPass := l.fs.store.size > 500 }
  | .erase (n :: toDelete) =>
    { l with pc := .erase toDelete, fs := l.fs.setStore (l.fs.store.eraseBlock n) }
  | .sleep => { l with pc := .test }
  | .stopped => l

/-- The body of `sync`, with the mutex. -/
def sync (l : Loop bits H) : Loop bits H := { l with writeTriggered := true }

/-- `BlocksCache::stop` up to `thr.join()`. -/
def stop (l : Loop bits H) : Loop bits H := { l with terminated := true }

/-- A complete request; `Release` ends with a `sync`. -/
def request (cfg : Config bits H) (l : Loop bits H) (op : Op) :
    Except Stuck (Loop bits H × Out) :=
  if !op.isRequest then .error .blocked
  else
    match l.fs.step cfg op with
    | .error e => .error (.failed e)
    | .ok (fs, out) =>
      let l' := { l with fs := fs, journal := l.journal ++ l.fs.placedBy cfg op }
      if !op.syncs then .ok (l', out)
      else if l.mutexFree then .ok (l'.sync, out)
      else .error .blocked

/-- One step; it shows what a request or a `sync` returns. -/
def step (cfg : Config bits H) (l : Loop bits H) : Input → Except Stuck (Loop bits H × Option Out)
  | .op o => (l.request cfg o).map fun r => (r.1, some r.2)
  | .writer => .ok (l.writer, none)
  | .sync => if l.mutexFree then .ok (l.sync, some (.ret 0)) else .error .blocked

end Loop

/-! ### The journal -/

/-- The data last set for the block `n`, and whether a `pwrite` took data of it since. -/
def Entry.record (n : ℕ) (q : Option (Block bits × Bool)) : Entry bits → Option (Block bits × Bool)
  | .set k data => if k = n then some (data, false) else q
  | .pwrite k _ => if k = n then q.map fun x => (x.1, true) else q

def recorded (j : List (Entry bits)) (n : ℕ) : Option (Block bits × Bool) :=
  j.foldl (Entry.record n) none

/-- The latest data of a block. -/
def latest (j : List (Entry bits)) (n : ℕ) : Option (Block bits) := (recorded j n).map Prod.fst

theorem recorded_append (j j' : List (Entry bits)) (n : ℕ) :
    recorded (j ++ j') n = j'.foldl (Entry.record n) (recorded j n) := by
  rw [recorded, List.foldl_append]
  rfl

/-- What the journal says of a block and what the store has: data that no `pwrite` took yet are
in a dirty cached block, and data that were taken are in the slot of a block that is not dirty. -/
structure Tracks (s : Store bits H) (j : List (Entry bits)) : Prop where
  never : ∀ n b, recorded j n = none → s.blocks.find n = some b → b.dirty = false
  waiting : ∀ n data, recorded j n = some (data, false) →
    ∃ b, s.blocks.find n = some b ∧ b.dirty = true ∧ b.data = some data
  stored : ∀ n data, recorded j n = some (data, true) → s.storage.read n = some data ∧
    ∀ b, s.blocks.find n = some b → b.dirty = false

omit [DecidableEq H] in
/-- A dirty block has data that no `pwrite` took. -/
theorem Tracks.dirty_iff {s : Store bits H} {j : List (Entry bits)} (h : Tracks s j) (n : ℕ) :
    s.dirty n ↔ ∃ data, recorded j n = some (data, false) := by
  constructor
  · rintro ⟨b, hb, hdirty⟩
    rcases hr : recorded j n with _ | ⟨data, flag⟩
    · rw [h.never n b hr hb] at hdirty
      cases hdirty
    · cases flag with
      | false => exact ⟨data, rfl⟩
      | true =>
        rw [(h.stored n data hr).2 b hb] at hdirty
        cases hdirty
  · rintro ⟨data, hr⟩
    obtain ⟨b, hb, hdirty, -⟩ := h.waiting n data hr
    exact ⟨b, hb, hdirty⟩

/-! ### Parts that leave dirty blocks alone -/

/-- Nothing is flushed, lost or set: cached blocks stay with their data and their mark, and the
blocks that come in are clean. -/
structure Store.Quiet (s s' : Store bits H) : Prop where
  storage : s'.storage = s.storage
  kept : ∀ n b, s.blocks.find n = some b → ∃ b', s'.blocks.find n = some b' ∧
    b'.dirty = b.dirty ∧ ∀ x, b.data = some x → b'.data = some x
  fresh : ∀ n b', s.blocks.find n = none → s'.blocks.find n = some b' → b'.dirty = false

namespace Store.Quiet

section

omit [DecidableEq H]

/-- The tables, the clock and the stamps do not matter. -/
theorem of_eq {s s' : Store bits H} (hstorage : s'.storage = s.storage)
    (hblocks : s'.blocks = s.blocks) : s.Quiet s' where
  storage := hstorage
  kept n b hb := ⟨b, hblocks ▸ hb, rfl, fun _ h => h⟩
  fresh n b' hnone hb' := by
    rw [hblocks, hnone] at hb'
    cases hb'

theorem refl (s : Store bits H) : s.Quiet s := of_eq rfl rfl

theorem trans {s s' s'' : Store bits H} (h : s.Quiet s') (h' : s'.Quiet s'') : s.Quiet s'' where
  storage := h'.storage.trans h.storage
  kept n b hb := by
    obtain ⟨b', hb', hdirty, hdata⟩ := h.kept n b hb
    obtain ⟨b'', hb'', hdirty', hdata'⟩ := h'.kept n b' hb'
    exact ⟨b'', hb'', hdirty'.trans hdirty, fun x hx => hdata' x (hdata x hx)⟩
  fresh n b'' hnone hb'' := by
    cases hb' : s'.blocks.find n with
    | none => exact h'.fresh n b'' hb' hb''
    | some b' =>
      obtain ⟨b₁, hb₁, hdirty, -⟩ := h'.kept n b' hb'
      rw [hb''] at hb₁
      cases hb₁
      exact hdirty.trans (h.fresh n b' hnone hb')

/-- A cached block changed in place, but for its mark and its data. -/
theorem put {s : Store bits H} {b : StorageBlock bits H} (b' : StorageBlock bits H)
    (hfind : s.blocks.find b'.storageBlockNum = some b) (hdirty : b'.dirty = b.dirty)
    (hdata : ∀ x, b.data = some x → b'.data = some x) : s.Quiet (s.put b') where
  storage := rfl
  kept n b₀ hb₀ := by
    by_cases hn : n = b'.storageBlockNum
    · rw [hn, hfind] at hb₀
      cases hb₀
      exact ⟨b', by rw [find_put, if_pos hn], hdirty, hdata⟩
    · exact ⟨b₀, by rw [find_put, if_neg hn, hb₀], rfl, fun _ h => h⟩
  fresh n b₀ hnone hb₀ := by
    by_cases hn : n = b'.storageBlockNum
    · rw [hn, hfind] at hnone
      cases hnone
    · rw [find_put, if_neg hn, hnone] at hb₀
      cases hb₀

theorem setDb (s : Store bits H) (db : Db H) : s.Quiet (s.setDb db) := of_eq rfl rfl

theorem adjust (s : Store bits H) (n : ℕ) (d : ℤ) : s.Quiet (s.adjust n d) := by
  unfold Store.adjust
  cases h : s.blocks.find n with
  | none => exact refl s
  | some b =>
    obtain rfl : b.storageBlockNum = n := KeyedTable.key_of_find h
    exact put { b with useCount := b.useCount + d } h rfl fun _ hx => hx

theorem releaseLocked (s : Store bits H) (w : Option WeakPtr) : s.Quiet (s.releaseLocked w) := by
  cases h : s.lock w with
  | none =>
    rw [releaseLocked_none h]
    exact refl s
  | some b =>
    rw [releaseLocked_some h]
    exact adjust s _ _

theorem of_touches {s s' : Store bits H} (h : s.Touches s') : s.Quiet s' := by
  cases h with
  | none => exact refl s
  | seen b now hfind => exact put { b with atime := now } hfind rfl fun _ hx => hx
  | filled b now x hfind num data slot =>
    refine put { b with atime := now, data := some x } hfind rfl fun y hy => ?_
    rw [data] at hy
    cases hy

theorem ensureLoaded (s : Store bits H) (fb : BlockInfo H) (u : ℤ) :
    s.Quiet (ensureLoaded s fb u).1 := by
  unfold Wwdedup.ensureLoaded
  cases h : s.blocks.find fb.storageBlockNum with
  | some item => exact of_eq rfl rfl
  | none =>
    refine ⟨rfl, fun n b hb => ⟨b, ?_, rfl, fun _ hx => hx⟩, fun n b' hnone hb' => ?_⟩
    · refine (find_put _ _ n).trans ?_
      rw [if_neg, hb]
      rintro rfl
      rw [show s.blocks.find fb.storageBlockNum = some b from hb] at h
      cases h
    · have hb'' := (find_put _ _ n).symm.trans hb'
      split at hb''
      · cases hb''
        rfl
      · rw [show s.blocks.find n = some b' from hb''] at hnone
        cases hnone

end

theorem getLockedFileBlock (cfg : Config bits H) (s : Store bits H) (fi : FileInfo H) (n : ℕ) :
    s.Quiet (getLockedFileBlock cfg s fi n).store := by
  have h := getLockedFileBlock_locates cfg s fi n
  generalize Wwdedup.getLockedFileBlock cfg s fi n = l at h ⊢
  cases h with
  | kept h => exact refl s
  | reloaded filled dead => exact ensureLoaded s _ _

end Store.Quiet

/-! ### Requests keep track -/

namespace Tracks

variable {s s' : Store bits H} {j : List (Entry bits)}

omit [DecidableEq H] in
theorem quiet (h : Tracks s j) (hq : s.Quiet s') : Tracks s' j where
  never n b' hr hb' := by
    cases hb : s.blocks.find n with
    | none => exact hq.fresh n b' hb hb'
    | some b =>
      obtain ⟨b₁, hb₁, hdirty, -⟩ := hq.kept n b hb
      rw [hb'] at hb₁
      cases hb₁
      exact hdirty.trans (h.never n b hr hb)
  waiting n data hr := by
    obtain ⟨b, hb, hdirty, hdata⟩ := h.waiting n data hr
    obtain ⟨b', hb', hdirty', hdata'⟩ := hq.kept n b hb
    exact ⟨b', hb', hdirty'.trans hdirty, hdata' data hdata⟩
  stored n data hr := by
    obtain ⟨hread, hclean⟩ := h.stored n data hr
    refine ⟨by rw [hq.storage, hread], fun b' hb' => ?_⟩
    cases hb : s.blocks.find n with
    | none => exact hq.fresh n b' hb hb'
    | some b =>
      obtain ⟨b₁, hb₁, hdirty, -⟩ := hq.kept n b hb
      rw [hb'] at hb₁
      cases hb₁
      exact hdirty.trans (hclean b hb)

omit [DecidableEq H] in
/-- New data for one block. -/
theorem place (h : Tracks s j) (n : ℕ) (data : Block bits) (hash : H) :
    Tracks (s.place n data hash) (j ++ [.set n data]) := by
  have hrec : ∀ k, recorded (j ++ [.set n data]) k =
      if n = k then some (data, false) else recorded j k := fun k => recorded_append j _ k
  refine ⟨fun k b hr hb => ?_, fun k x hr => ?_, fun k x hr => ?_⟩
  · rw [hrec] at hr
    split at hr
    · cases hr
    · rename_i hne
      rw [find_place, if_neg (Ne.symm hne)] at hb
      exact h.never k b hr hb
  · rw [hrec] at hr
    split at hr
    · rename_i heq
      cases hr
      exact ⟨_, by rw [find_place, if_pos heq.symm], rfl, rfl⟩
    · rename_i hne
      rw [find_place, if_neg (Ne.symm hne)]
      exact h.waiting k x hr
  · rw [hrec] at hr
    split at hr
    · cases hr
    · rename_i hne
      obtain ⟨hread, hclean⟩ := h.stored k x hr
      refine ⟨hread, fun b hb => ?_⟩
      rw [find_place, if_neg (Ne.symm hne)] at hb
      exact hclean b hb

end Tracks

/-- A block write is quiet up to the data that it puts into one block. -/
theorem writeBlock_quiet (cfg : Config bits H) (s : Store bits H) (ino : ℕ) (data : Block bits)
    (fb : BlockInfo H) :
    let r := commitBlock s ino (cfg.murmur data) fb
    if r.present then s.Quiet (writeBlock cfg s ino data fb).1
    else ∃ s₁, s.Quiet s₁ ∧
      (writeBlock cfg s ino data fb).1 =
        s₁.place r.fblock.storageBlockNum data (cfg.murmur data) := by
  have hc := commitBlock_commits s ino (cfg.murmur data) fb
  unfold writeBlock
  dsimp only
  generalize commitBlock s ino (cfg.murmur data) fb = c at hc ⊢
  cases hc with
  | hit row sel =>
    exact ((Store.Quiet.releaseLocked s _).trans (.setDb _ _)).trans (.adjust _ _ _)
  | inPlace b locked one sel =>
    have hput : s.Quiet (s.put b) :=
      .put b (Store.find_of_lock locked) rfl fun _ hx => hx
    exact ⟨_, hput.trans (.setDb _ _), congrArg Prod.fst (updateCache_new _ _ _ _)⟩
  | fresh shared sel =>
    exact ⟨_, (Store.Quiet.releaseLocked s _).trans (.setDb _ _),
      congrArg Prod.fst (updateCache_new _ _ _ _)⟩

theorem writeBlockWrapper_tracks {cfg : Config bits H} {s s' : Store bits H}
    {fi fi' : FileInfo H} {buf : List UInt8} {c : Chunk} {j : List (Entry bits)} (h : Tracks s j)
    (hw : writeBlockWrapper cfg s fi buf c = .ok (s', fi')) :
    Tracks s' (j ++ (placed cfg (s, fi) (.write buf c)).toList) := by
  unfold writeBlockWrapper at hw
  unfold placed
  dsimp only at hw ⊢
  have hlocated := h.quiet (.getLockedFileBlock cfg s fi c.block)
  generalize getLockedFileBlock cfg s fi c.block = l at hw hlocated ⊢
  cases hold : oldData l.store l.fblock c.len with
  | error e => simp [hold] at hw
  | ok q =>
    obtain ⟨s₁, old⟩ := q
    rw [hold] at hw
    cases hw
    have htouched := hlocated.quiet (.of_touches (oldData_ok hold).1)
    have hquiet := writeBlock_quiet cfg s₁ l.finfo.stIno (c.data buf old) l.fblock
    dsimp only at hquiet ⊢
    split at hquiet
    · rename_i hpresent
      rw [if_pos hpresent, Option.toList_none, List.append_nil]
      exact htouched.quiet hquiet
    · rename_i hpresent
      rw [if_neg hpresent]
      obtain ⟨s₂, hs₂, heq⟩ := hquiet
      have hplace := (htouched.quiet hs₂).place (commitBlock s₁ l.finfo.stIno
        (cfg.murmur (c.data buf old)) l.fblock).fblock.storageBlockNum (c.data buf old)
        (cfg.murmur (c.data buf old))
      rw [← heq] at hplace
      exact hplace

theorem roundStep_tracks {cfg : Config bits H} {s s' : Store bits H} {fi fi' : FileInfo H}
    {r : Round} {o : List UInt8} {j : List (Entry bits)} (h : Tracks s j)
    (hr : roundStep cfg (s, fi) r = .ok ((s', fi'), o)) :
    Tracks s' (j ++ (placed cfg (s, fi) r).toList) := by
  cases r with
  | resize newSize =>
    cases hr
    simpa [placed] using h.quiet (.setDb s _)
  | write buf c =>
    cases hw : writeBlockWrapper cfg s fi buf c with
    | error e => simp [roundStep, hw, Except.map] at hr
    | ok q =>
      obtain ⟨s₁, fi₁⟩ := q
      simp only [roundStep, hw, Except.map] at hr
      cases hr
      exact writeBlockWrapper_tracks h hw
  | read c =>
    cases roundStep_stepped hr with
    | read _ x touched shown =>
      have hq := (Store.Quiet.getLockedFileBlock cfg s fi c.block).trans (.of_touches touched)
      simpa [placed] using h.quiet hq
  | release n =>
    cases roundStep_stepped hr with
    | release _ g hash =>
      have hq : s.Quiet (s.released fi.stIno n g (heldBlock cfg s.db fi n).storageBlockNum) := by
        unfold Store.released
        split
        · exact (Store.Quiet.setDb s _).trans (.adjust _ _ _)
        · exact .setDb s _
      simpa [placed] using h.quiet hq

theorem run_tracks {cfg : Config bits H} {s s' : Store bits H} {fi fi' : FileInfo H}
    {rs : List Round} {os : List (List UInt8)} {j : List (Entry bits)} (h : Tracks s j)
    (hrun : run (roundStep cfg) (s, fi) rs = .ok ((s', fi'), os)) :
    Tracks s' (j ++ placedIn cfg (s, fi) rs) := by
  induction rs generalizing s fi j os with
  | nil =>
    cases hrun
    simpa [placedIn] using h
  | cons r rs ih =>
    obtain ⟨⟨s₁, fi₁⟩, o, os', hr, hrest, rfl⟩ := run_cons_ok.mp hrun
    rw [placedIn, hr]
    dsimp only
    rw [← List.append_assoc]
    exact ih (roundStep_tracks h hr) hrest

/-- **A request keeps track** of the data that it puts into blocks. -/
theorem Fs.step_tracks {cfg : Config bits H} {fs fs' : Fs bits H} {op : Op} {out : Out}
    {j : List (Entry bits)} (h : Tracks fs.store j) (hop : op.isRequest = true)
    (hstep : fs.step cfg op = .ok (fs', out)) : Tracks fs'.store (j ++ fs.placedBy cfg op) := by
  cases hrounds : fs.rounds op with
  | none =>
    rw [Fs.placedBy, hrounds, List.append_nil]
    cases step_moves hstep with
    | same => exact h
    | through fh acts opened rounds ran =>
      rw [hrounds] at rounds
      cases rounds
    | byPath path acts files rounds ran =>
      rw [hrounds] at rounds
      cases rounds
    | files files => exact h.quiet (.setDb _ _)
    | opens path files => exact h.quiet (.setDb _ _)
    | closes fh => exact h
    | pass victims asked =>
      rw [asked] at hop
      cases hop
    | remount files asked =>
      rw [asked] at hop
      cases hop
    | clock now => exact h.quiet (.of_eq rfl rfl)
  | some p =>
    obtain ⟨fi, rs⟩ := p
    rw [Fs.placedBy, hrounds]
    dsimp only
    cases op with
    | write fh buf offset =>
      obtain ⟨fi₁, fi', s', os, -, hr, hrun, rfl, -⟩ := step_write_ok hstep
      rw [hr] at hrounds
      cases hrounds
      exact run_tracks h hrun
    | read fh size offset =>
      obtain ⟨fi₁, fi', s', os, -, -, hr, hrun, rfl, -⟩ := step_read_ok hstep
      rw [hr] at hrounds
      cases hrounds
      exact run_tracks h hrun
    | truncate path newSize =>
      obtain ⟨-, hr⟩ | ⟨n, fi', s', os, -, hr, hrun, rfl⟩ := step_truncate_ok hstep
      · rw [hr] at hrounds
        cases hrounds
      · rw [hr] at hrounds
        cases hrounds
        exact run_tracks h hrun
    | ftruncate fh newSize =>
      obtain ⟨-, hr⟩ | ⟨n, fi₁, fi', s', os, -, -, hr, hrun, rfl⟩ := step_ftruncate_ok hstep
      · rw [hr] at hrounds
        cases hrounds
      · rw [hr] at hrounds
        cases hrounds
        exact run_tracks h hrun
    | unlink path =>
      obtain ⟨-, hr⟩ | ⟨fi', s', os, hr, hrun, rfl⟩ := step_unlink_ok hstep
      · rw [hr] at hrounds
        cases hrounds
      · rw [hr] at hrounds
        cases hrounds
        exact (run_tracks h hrun).quiet (.setDb _ _)
    | _ => cases hrounds

/-! ### The writer keeps track -/

namespace Store

section

omit [DecidableEq H]

theorem nextBlock_eq_some {s : Store bits H} {n : ℕ} {b : StorageBlock bits H}
    (h : s.nextBlock n = some b) :
    s.blocks.find b.storageBlockNum = some b ∧ n ≤ b.storageBlockNum ∧
      ∀ k b', s.blocks.find k = some b' → n ≤ k → b.storageBlockNum ≤ k := by
  have hmem := List.argmin_mem h
  obtain ⟨hrow, hle⟩ := List.mem_filter.mp hmem
  refine ⟨KeyedTable.find_of_mem hrow, by simpa using hle, fun k b' hb' hk => ?_⟩
  obtain ⟨hrow', rfl⟩ := KeyedTable.find_eq_some.mp hb'
  exact List.le_of_mem_argmin (List.mem_filter.mpr ⟨hrow', by simpa using hk⟩) h

theorem nextBlock_eq_none {s : Store bits H} {n : ℕ} (h : s.nextBlock n = none) {k : ℕ}
    {b : StorageBlock bits H} (hb : s.blocks.find k = some b) : k < n := by
  obtain ⟨hrow, rfl⟩ := KeyedTable.find_eq_some.mp hb
  by_contra hlt
  have hnil := List.argmin_eq_none.mp h
  have hmem : b ∈ s.blocks.rows.filter fun b => n ≤ b.storageBlockNum :=
    List.mem_filter.mpr ⟨hrow, by simpa using Nat.not_lt.mp hlt⟩
  rw [hnil] at hmem
  cases hmem

theorem find_flushBlock (s : Store bits H) (n k : ℕ) :
    (s.flushBlock n).blocks.find k =
      if k = n then (s.blocks.find k).map fun b => { b with dirty := false }
      else s.blocks.find k := by
  rw [flushBlock, find_flush]
  cases hb : s.blocks.find k with
  | none => simp
  | some b =>
    have hnum : b.storageBlockNum = k := KeyedTable.key_of_find hb
    by_cases hk : k = n <;> simp [hk, hnum]

theorem find_eraseBlock (s : Store bits H) (n k : ℕ) :
    (s.eraseBlock n).blocks.find k = if k = n then none else s.blocks.find k := by
  rw [eraseBlock, KeyedTable.find_delete]
  cases hb : s.blocks.find k with
  | none => simp
  | some b =>
    have hnum : b.storageBlockNum = k := KeyedTable.key_of_find hb
    by_cases hk : k = n <;> simp [hk, hnum]

theorem dirty_flushBlock {s : Store bits H} {n k : ℕ} (h : (s.flushBlock n).dirty k) :
    s.dirty k ∧ k ≠ n := by
  obtain ⟨b, hb, hdirty⟩ := h
  rw [find_flushBlock] at hb
  split at hb
  · obtain ⟨b₀, -, rfl⟩ := Option.map_eq_some_iff.mp hb
    cases hdirty
  · rename_i hne
    exact ⟨⟨b, hb, hdirty⟩, hne⟩

theorem dirty_eraseBlock {s : Store bits H} {n k : ℕ} (h : (s.eraseBlock n).dirty k) :
    s.dirty k := by
  obtain ⟨b, hb, hdirty⟩ := h
  rw [find_eraseBlock] at hb
  split at hb
  · cases hb
  · exact ⟨b, hb, hdirty⟩

/-- The slot of another block, or of a block that is not dirty, stays. -/
theorem flushBlock_read {s : Store bits H} {n k : ℕ} {x : Block bits}
    (hread : s.storage.read k = some x)
    (hclean : k = n → ∀ b, s.blocks.find k = some b → b.dirty = false) :
    (s.flushBlock n).storage.read k = some x := by
  refine flush_read hread fun b hb hp hdirty => ?_
  have hnum : b.storageBlockNum = k := KeyedTable.key_of_find hb
  have hkn : k = n := by rw [← hnum]; simpa using hp
  rw [hclean hkn b hb] at hdirty
  cases hdirty

end

end Store

omit [DecidableEq H] in
theorem Tracks.flushBlock {s : Store bits H} {j : List (Entry bits)} (h : Tracks s j)
    {b : StorageBlock bits H} (hb : s.blocks.find b.storageBlockNum = some b) :
    Tracks (s.flushBlock b.storageBlockNum) (j ++ b.pwrites) := by
  have hother : ∀ k, k ≠ b.storageBlockNum →
      recorded (j ++ b.pwrites) k = recorded j k := by
    intro k hk
    rw [recorded_append]
    unfold StorageBlock.pwrites
    split
    · cases b.data with
      | none => rfl
      | some d => exact if_neg (Ne.symm hk)
    · rfl
  have hself : recorded (j ++ b.pwrites) b.storageBlockNum =
      (recorded j b.storageBlockNum).map fun x => (x.1, true) := by
    rw [recorded_append]
    unfold StorageBlock.pwrites
    rcases hr : recorded j b.storageBlockNum with _ | ⟨data, flag⟩
    · rw [if_neg (by simp [h.never _ b hr hb])]
      rfl
    · cases flag with
      | true =>
        rw [if_neg (by simp [(h.stored _ data hr).2 b hb])]
        rfl
      | false =>
        obtain ⟨b', hb', hdirty, hdata⟩ := h.waiting _ data hr
        rw [hb] at hb'
        cases hb'
        rw [if_pos hdirty, hdata]
        exact if_pos rfl
  have hclean : ∀ b', (s.flushBlock b.storageBlockNum).blocks.find b.storageBlockNum = some b' →
      b'.dirty = false := by
    intro b' hb'
    rw [Store.find_flushBlock, if_pos rfl, hb] at hb'
    cases hb'
    rfl
  refine ⟨fun k b' hr hb' => ?_, fun k data hr => ?_, fun k data hr => ?_⟩
  · by_cases hk : k = b.storageBlockNum
    · subst hk
      exact hclean b' hb'
    · rw [hother k hk] at hr
      rw [Store.find_flushBlock, if_neg hk] at hb'
      exact h.never k b' hr hb'
  · by_cases hk : k = b.storageBlockNum
    · rw [hk, hself, Option.map_eq_some_iff] at hr
      obtain ⟨x, -, hx⟩ := hr
      cases hx
    · rw [hother k hk] at hr
      rw [Store.find_flushBlock, if_neg hk]
      exact h.waiting k data hr
  · by_cases hk : k = b.storageBlockNum
    · subst hk
      refine ⟨?_, hclean⟩
      rw [hself, Option.map_eq_some_iff] at hr
      obtain ⟨⟨x, flag⟩, hrec, hx⟩ := hr
      cases hx
      cases flag with
      | true =>
        obtain ⟨hread, hnot⟩ := h.stored _ x hrec
        exact Store.flushBlock_read hread fun _ => hnot
      | false =>
        obtain ⟨b', hb', hdirty, hdata⟩ := h.waiting _ x hrec
        rw [hb] at hb'
        cases hb'
        exact Store.flush_read_written hb (by simp) hdirty hdata
    · rw [hother k hk] at hr
      obtain ⟨hread, hnot⟩ := h.stored k data hr
      refine ⟨Store.flushBlock_read hread fun hkn => absurd hkn hk, fun b' hb' => ?_⟩
      rw [Store.find_flushBlock, if_neg hk] at hb'
      exact hnot b' hb'

omit [DecidableEq H] in
/-- A clean block can be erased. -/
theorem Tracks.eraseBlock {s : Store bits H} {j : List (Entry bits)} (h : Tracks s j) {n : ℕ}
    (hclean : ¬ s.dirty n) : Tracks (s.eraseBlock n) j := by
  refine ⟨fun k b hr hb => ?_, fun k data hr => ?_, fun k data hr => ?_⟩
  · rw [Store.find_eraseBlock] at hb
    split at hb
    · cases hb
    · exact h.never k b hr hb
  · rw [Store.find_eraseBlock, if_neg]
    · exact h.waiting k data hr
    · rintro rfl
      exact hclean ((h.dirty_iff k).mpr ⟨data, hr⟩)
  · obtain ⟨hread, hnot⟩ := h.stored k data hr
    refine ⟨hread, fun b hb => ?_⟩
    rw [Store.find_eraseBlock] at hb
    split at hb
    · cases hb
    · exact hnot b hb

namespace Loop

/-- The guard of a run: a victim is still clean when it is erased. -/
def ErasesClean (l : Loop bits H) : Input → Prop
  | .writer => ∀ n toDelete, l.pc = .erase (n :: toDelete) → ¬ l.fs.store.dirty n
  | _ => True

omit [DecidableEq H] in
theorem writer_tracks {l : Loop bits H} (h : Tracks l.fs.store l.journal)
    (hok : l.ErasesClean .writer) : Tracks l.writer.fs.store l.writer.journal := by
  unfold writer
  split
  · split
    · exact h
    · split
      · exact h
      · split <;> exact h
  · exact h
  · split
    · rename_i b hb
      exact h.flushBlock (Store.nextBlock_eq_some hb).1
    · exact h
  · split
    · exact h
    · split
      · rename_i b hb
        split
        · exact h.flushBlock (Store.nextBlock_eq_some hb).1
        · exact h
      · exact h
  · exact h
  · rename_i n toDelete hpc
    exact h.eraseBlock (hok n toDelete hpc)
  · exact h
  · exact h

theorem request_ok {cfg : Config bits H} {l l' : Loop bits H} {op : Op} {out : Out}
    (h : l.request cfg op = .ok (l', out)) :
    op.isRequest = true ∧ ∃ fs, l.fs.step cfg op = .ok (fs, out) ∧ l'.fs = fs ∧
      l'.journal = l.journal ++ l.fs.placedBy cfg op ∧ l'.pc = l.pc ∧
      l'.terminated = l.terminated := by
  unfold request at h
  split at h
  · cases h
  · rename_i hop
    refine ⟨by simpa using hop, ?_⟩
    cases hstep : l.fs.step cfg op with
    | error e => simp [hstep] at h
    | ok r =>
      obtain ⟨fs, out'⟩ := r
      simp only [hstep] at h
      split at h
      · cases h
        exact ⟨fs, rfl, rfl, rfl, rfl, rfl⟩
      · split at h
        · cases h
          exact ⟨fs, rfl, rfl, rfl, rfl, rfl⟩
        · cases h

/-- **Every step keeps track**, as long as only clean victims are erased. -/
theorem step_tracks {cfg : Config bits H} {l l' : Loop bits H} {i : Input} {o : Option Out}
    (h : Tracks l.fs.store l.journal) (hok : l.ErasesClean i)
    (hstep : l.step cfg i = .ok (l', o)) : Tracks l'.fs.store l'.journal := by
  cases i with
  | op o' =>
    obtain ⟨r, hr, heq⟩ := ok_of_map hstep
    cases heq
    obtain ⟨hop, fs, hfs, hfs', hj, -, -⟩ := request_ok hr
    rw [hfs', hj]
    exact Fs.step_tracks h hop hfs
  | writer =>
    cases hstep
    exact writer_tracks h hok
  | sync =>
    simp only [step] at hstep
    split at hstep
    · cases hstep
      exact h
    · cases hstep

theorem tracks_init : Tracks (init bits H).fs.store (init bits H).journal where
  never n b _ hb := by cases hb
  waiting n data hr := by cases hr
  stored n data hr := by cases hr

end Loop

end Wwdedup
