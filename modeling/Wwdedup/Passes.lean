import Wwdedup.WriterLoop

/-!
# Passes of the writer thread

A pass over a cache of more than 500 blocks erases the first ones, 64 at most, that were not used
for ten seconds more than the block that was unused for longest; when more than 500 are left, the
next pass follows without a wait.  No request runs meanwhile, so that only the writer thread
changes the cache, and the clock is read when a pass begins.

* `InPass` says, for every place in `run`, what the cache is by that of the beginning of the pass;
  `InPass.writer` is its step lemma, and `remaining` goes down with every step.
* `eviction_progress`: each pass over more than 500 blocks erases some, and passes follow each
  other until at most 500 are left.
-/

namespace Wwdedup

variable {bits : ℕ} {H : Type} [DecidableEq H]

/-- `block->dirty = false`. -/
def StorageBlock.clean (b : StorageBlock bits H) : StorageBlock bits H := { b with dirty := false }

namespace Loop

/-- The pass begins: `repeat = false; mintime = time(nullptr)`. -/
def startPass (l : Loop bits H) (now : ℕ) : Loop bits H :=
  { l with
    fs := l.fs.setStore { l.fs.store with now := now }
    repeatPass := false }.beginPass

/-- The writer thread runs until it sleeps, for a number of steps at most. -/
def untilSleep : ℕ → Loop bits H → Loop bits H
  | 0, l => l
  | steps + 1, l => if l.pc = .sleep then l else untilSleep steps l.writer

/-- The pass that begins at the time `now`, up to the sleep at its end. -/
def pass (l : Loop bits H) (now : ℕ) : Loop bits H :=
  untilSleep (3 * l.fs.store.size + 3) (l.startPass now)

/-- A number of passes one after the other, each at its time. -/
def passes (l : Loop bits H) (clock : ℕ → ℕ) : ℕ → Loop bits H
  | 0 => l
  | n + 1 => (l.passes clock n).pass (clock n)

omit [DecidableEq H] in
/-- With `repeat` the writer thread comes from the sleep to the next pass without a wait. -/
theorem writer_writer_of_repeat {l : Loop bits H} (hpc : l.pc = .sleep)
    (hterm : l.terminated = false) (hrepeat : l.repeatPass = true) :
    l.writer.writer = l.startPass l.fs.store.now := by
  have hsleep : l.writer = { l with pc := .test } := by
    unfold writer
    rw [hpc]
  rw [hsleep]
  unfold writer
  dsimp only
  rw [if_neg (by rw [hterm]; decide), if_pos hrepeat]
  rfl

end Loop

/-! ### What a pass leaves -/

namespace Store

variable {s s' : Store bits H}

/-- The cache of `s'` is that of `s` without the blocks `erased`, and clean. -/
def CleanWithout (s : Store bits H) (erased : List ℕ) (s' : Store bits H) : Prop :=
  ∀ n, s'.blocks.find n = if n ∈ erased then none else (s.blocks.find n).map StorageBlock.clean

/-- Victims of a pass. -/
structure Chosen (s : Store bits H) (victims : List ℕ) : Prop where
  nodup : victims.Nodup
  cached : ∀ n ∈ victims, (s.blocks.find n).isSome = true
  nonempty : 1 ≤ victims.length
  few : victims.length ≤ 64

section

omit [DecidableEq H]

/-- What is erased is what is missing. -/
theorem CleanWithout.size {erased : List ℕ} (h : s.CleanWithout erased s') (hnodup : erased.Nodup)
    (hcached : ∀ n ∈ erased, (s.blocks.find n).isSome = true) :
    s'.size + erased.length = s.size := by
  have hmem : ∀ n, (s'.blocks.find n).isSome = true ↔
      n ∉ erased ∧ (s.blocks.find n).isSome = true := by
    intro n
    rw [h n]
    by_cases hn : n ∈ erased
    · simp [hn]
    · simp [hn]
  have hkeys : (erased ++ s'.blocks.rows.map StorageBlock.storageBlockNum).Nodup := by
    rw [List.nodup_append]
    refine ⟨hnodup, s'.blocks.nodup, ?_⟩
    rintro n hn m hm rfl
    exact ((hmem n).mp (KeyedTable.mem_keys.mp hm)).1 hn
  have hlen := KeyedTable.length_rows s.blocks hkeys fun n => by
    rw [List.mem_append, KeyedTable.mem_keys, hmem]
    constructor
    · intro hn
      by_cases herased : n ∈ erased
      · exact .inl herased
      · exact .inr ⟨herased, hn⟩
    · rintro (hn | ⟨-, hn⟩)
      · exact hcached n hn
      · exact hn
  rw [List.length_append, List.length_map] at hlen
  unfold Store.size
  omega

theorem CleanWithout.not_dirty {erased : List ℕ} (h : s.CleanWithout erased s') (n : ℕ) :
    ¬s'.dirty n := by
  rintro ⟨b, hb, hdirty⟩
  rw [h n] at hb
  split at hb
  · cases hb
  · obtain ⟨b₀, -, rfl⟩ := Option.map_eq_some_iff.mp hb
    cases hdirty

/-- The pass of the file system, which takes any victims, leaves such a cache. -/
theorem cleanWithout_writerPass (s : Store bits H) (victims : List ℕ) :
    s.CleanWithout victims (s.writerPass victims) := by
  intro n
  rw [writerPass_eq, find_evict, find_flush, find_flush]
  by_cases hn : n ∈ victims
  · rw [if_pos hn, if_pos hn]
  · rw [if_neg hn, if_neg hn]
    cases hb : s.blocks.find n with
    | none => rfl
    | some b =>
      show some (if decide (b.storageBlockNum ∈ victims) = true then _ else b.clean) = _
      split <;> rfl

end

/-- The blocks of the cache from a number on. -/
def ahead (s : Store bits H) (next : ℕ) : ℕ := s.blocks.count fun b => next ≤ b.storageBlockNum

omit [DecidableEq H] in
theorem ahead_zero (s : Store bits H) : s.ahead 0 = s.size := by
  unfold ahead KeyedTable.count Store.size
  exact List.countP_eq_length.mpr fun b _ => by simp

omit [DecidableEq H] in
/-- A loop over the blocks has one block less to come after each round. -/
theorem ahead_lt {n next : ℕ} {b : StorageBlock bits H} (h : s.blocks.find n = some b)
    (hle : next ≤ n) : s.ahead (n + 1) < s.ahead next := by
  have hnum : b.storageBlockNum = n := KeyedTable.key_of_find h
  refine KeyedTable.count_lt (fun b' _ hb' => ?_) h ?_ ?_
  · rw [decide_eq_true_eq] at hb' ⊢
    omega
  · rw [decide_eq_false_iff_not]
    omega
  · rw [decide_eq_true_eq]
    omega

end Store

/-! ### A pass step by step -/

namespace Loop

variable {s : Store bits H} {l : Loop bits H}

/-- Some block was last used at the time `m` or before. -/
def Aged (s : Store bits H) (m : ℕ) : Prop := ∃ n b, s.blocks.find n = some b ∧ b.atime ≤ m

/-- The victims found among the blocks below `next`. -/
structure Collected (s : Store bits H) (mintime next : ℕ) (toDelete : List ℕ) : Prop where
  nodup : toDelete.Nodup
  few : toDelete.length ≤ 64
  passed : ∀ n ∈ toDelete, n < next ∧ (s.blocks.find n).isSome = true
  all : ∀ n b, s.blocks.find n = some b → n < next → b.atime < mintime + 10 → n ∈ toDelete

namespace Collected

omit [DecidableEq H]

variable {mintime next k : ℕ} {toDelete : List ℕ} {b : StorageBlock bits H}

theorem chosen (h : Collected s mintime next toDelete) (hpos : 1 ≤ toDelete.length) :
    s.Chosen toDelete :=
  ⟨h.nodup, fun n hn => (h.passed n hn).2, hpos, h.few⟩

/-- A block that is passed now is the next one, or it was passed before. -/
theorem passed_before (hskipped : ∀ n b', s.blocks.find n = some b' → next ≤ n → k ≤ n) {n : ℕ}
    {b' : StorageBlock bits H} (hb' : s.blocks.find n = some b') (hn : n < k + 1) :
    n < next ∨ n = k := by
  by_cases hbefore : n < next
  · exact .inl hbefore
  · have hge := hskipped n b' hb' (by omega)
    exact .inr (by omega)

/-- The next block is old enough: it is a victim as well. -/
theorem take (h : Collected s mintime next toDelete) (hk : s.blocks.find k = some b)
    (hle : next ≤ k) (hskipped : ∀ n b', s.blocks.find n = some b' → next ≤ n → k ≤ n)
    (hroom : toDelete.length < 64) : Collected s mintime (k + 1) (toDelete ++ [k]) where
  nodup := by
    rw [List.nodup_append]
    refine ⟨h.nodup, List.nodup_singleton _, ?_⟩
    intro n hn k' hk'
    rw [List.mem_singleton] at hk'
    have hbefore := (h.passed n hn).1
    omega
  few := by
    rw [List.length_append, List.length_singleton]
    omega
  passed := by
    intro n hn
    rcases List.mem_append.mp hn with hn | hn
    · obtain ⟨hbefore, hcached⟩ := h.passed n hn
      exact ⟨by omega, hcached⟩
    · rw [List.mem_singleton.mp hn, hk]
      exact ⟨Nat.lt_succ_self _, rfl⟩
  all := by
    intro n b' hb' hn hage
    rcases passed_before hskipped hb' hn with hbefore | rfl
    · exact List.mem_append_left _ (h.all n b' hb' hbefore hage)
    · exact List.mem_append_right _ (List.mem_singleton_self _)

/-- The next block was used too recently. -/
theorem skip (h : Collected s mintime next toDelete) (hk : s.blocks.find k = some b)
    (hle : next ≤ k) (hskipped : ∀ n b', s.blocks.find n = some b' → next ≤ n → k ≤ n)
    (hrecent : ¬b.atime < mintime + 10) : Collected s mintime (k + 1) toDelete where
  nodup := h.nodup
  few := h.few
  passed := by
    intro n hn
    obtain ⟨hbefore, hcached⟩ := h.passed n hn
    exact ⟨by omega, hcached⟩
  all := by
    intro n b' hb' hn hage
    rcases passed_before hskipped hb' hn with hbefore | rfl
    · exact h.all n b' hb' hbefore hage
    · rw [hk] at hb'
      cases hb'
      exact absurd hage hrecent

end Collected

/-- The state of a pass that began with the cache of `s`, by the place in `run`. -/
def InPass (s : Store bits H) (l : Loop bits H) : Prop :=
  match l.pc with
  | .flush next => l.repeatPass = false ∧ (0 < s.size → Aged s l.mintime) ∧
      ∀ n, l.fs.store.blocks.find n =
        (s.blocks.find n).map fun b => if n < next then b.clean else b
  | .choose next toDelete => l.repeatPass = false ∧ 500 < s.size ∧ Aged s l.mintime ∧
      s.CleanWithout [] l.fs.store ∧ Collected s l.mintime next toDelete
  | .erase toDelete => 500 < s.size ∧ ∃ erased, s.Chosen (erased ++ toDelete) ∧
      s.CleanWithout erased l.fs.store
  | .sleep => l.repeatPass = decide (500 < l.fs.store.size) ∧ ∃ erased,
      s.CleanWithout erased l.fs.store ∧
        if 500 < s.size then s.Chosen erased else erased = []
  | _ => False

/-- A bound for the steps to the end of the pass. -/
def remaining (s : Store bits H) (l : Loop bits H) : ℕ :=
  match l.pc with
  | .flush next => s.ahead next + 2 * s.size + 3
  | .choose next toDelete => 2 * s.ahead next + toDelete.length + 2
  | .erase toDelete => toDelete.length + 1
  | _ => 0

namespace InPass

section

omit [DecidableEq H]

theorem flush {next : ℕ} (hpc : l.pc = .flush next) (h : InPass s l) :
    InPass s l.writer ∧ remaining s l.writer < remaining s l := by
  unfold InPass at h
  rw [hpc] at h
  obtain ⟨hrepeat, haged, hfind⟩ := h
  have hrem : remaining s l = s.ahead next + 2 * s.size + 3 := by
    unfold remaining
    rw [hpc]
  unfold writer
  rw [hpc]
  dsimp only
  cases hnext : l.fs.store.nextBlock next with
  | some b =>
    obtain ⟨hb, hle, hleast⟩ := Store.nextBlock_eq_some hnext
    have hold : s.blocks.find b.storageBlockNum = some b := by
      rw [hfind, Option.map_eq_some_iff] at hb
      obtain ⟨b₀, hb₀, heq⟩ := hb
      rw [if_neg (by omega)] at heq
      rw [hb₀, heq]
    constructor
    · refine ⟨hrepeat, fun hpos => ?_, fun n => ?_⟩
      · obtain ⟨k, b₀, hb₀, hatime⟩ := haged hpos
        by_cases hmin : l.mintime ≤ b.atime
        · exact ⟨k, b₀, hb₀, by show _ ≤ min l.mintime b.atime; omega⟩
        · exact ⟨_, b, hold, by show _ ≤ min l.mintime b.atime; omega⟩
      · refine (Store.find_flushBlock l.fs.store b.storageBlockNum n).trans ?_
        rw [hfind]
        cases hn : s.blocks.find n with
        | none => simp
        | some b₀ =>
          have hgt : next ≤ n → b.storageBlockNum ≤ n :=
            hleast n (if n < next then b₀.clean else b₀) (by rw [hfind, hn]; rfl)
          rw [Option.map_some, Option.map_some, Option.map_some]
          by_cases hsame : n = b.storageBlockNum
          · rw [if_pos hsame, if_neg (by omega), if_pos (by omega)]
            rfl
          · rw [if_neg hsame]
            by_cases hlt : n < next
            · rw [if_pos hlt, if_pos (by omega)]
            · rw [if_neg hlt, if_neg (by omega)]
    · have hlt := Store.ahead_lt hold hle
      rw [hrem]
      show s.ahead (b.storageBlockNum + 1) + 2 * s.size + 3 < _
      omega
  | none =>
    have hclean : s.CleanWithout [] l.fs.store := by
      intro n
      rw [if_neg List.not_mem_nil, hfind]
      cases hn : s.blocks.find n with
      | none => rfl
      | some b₀ =>
        have hlt : n < next := Store.nextBlock_eq_none hnext
          (b := if n < next then b₀.clean else b₀) (by rw [hfind, hn]; rfl)
        rw [Option.map_some, Option.map_some, if_pos hlt]
    have hsize : l.fs.store.size + 0 = s.size :=
      hclean.size List.nodup_nil fun n hn => absurd hn List.not_mem_nil
    rw [hrem]
    dsimp only
    by_cases hmany : l.fs.store.size > 500
    · rw [if_pos hmany]
      have hzero := Store.ahead_zero s
      refine ⟨⟨hrepeat, by omega, haged (by omega), hclean, List.nodup_nil, Nat.zero_le _,
        fun n hn => absurd hn List.not_mem_nil, fun n b _ hlt => absurd hlt (Nat.not_lt_zero n)⟩,
        ?_⟩
      show 2 * s.ahead 0 + 0 + 2 < _
      omega
    · rw [if_neg hmany]
      refine ⟨⟨?_, [], hclean, ?_⟩, ?_⟩
      · show l.repeatPass = decide (500 < l.fs.store.size)
        rw [hrepeat, decide_eq_false hmany]
      · rw [if_neg (by omega)]
      · show 0 < _
        omega

/-- A flush of a clean cache changes nothing. -/
theorem cleanWithout_flushBlock {s' : Store bits H} {erased : List ℕ}
    (h : s.CleanWithout erased s') (n : ℕ) : s.CleanWithout erased (s'.flushBlock n) := by
  intro k
  rw [Store.find_flushBlock, h k]
  by_cases herased : k ∈ erased
  · rw [if_pos herased]
    split <;> rfl
  · rw [if_neg herased]
    split
    · cases s.blocks.find k <;> rfl
    · rfl

theorem choose {next : ℕ} {toDelete : List ℕ} (hpc : l.pc = .choose next toDelete)
    (h : InPass s l) : InPass s l.writer ∧ remaining s l.writer < remaining s l := by
  unfold InPass at h
  rw [hpc] at h
  obtain ⟨hrepeat, hmany, haged, hclean, hcol⟩ := h
  have hrem : remaining s l = 2 * s.ahead next + toDelete.length + 2 := by
    unfold remaining
    rw [hpc]
  have hfind : ∀ n, l.fs.store.blocks.find n = (s.blocks.find n).map StorageBlock.clean := by
    intro n
    rw [hclean n, if_neg List.not_mem_nil]
  unfold writer
  rw [hpc]
  dsimp only
  by_cases hfull : toDelete.length > 63
  · rw [if_pos hfull, hrem]
    refine ⟨⟨hmany, [], hcol.chosen (by omega), hclean⟩, ?_⟩
    show toDelete.length + 1 < _
    omega
  rw [if_neg hfull]
  cases hnext : l.fs.store.nextBlock next with
  | none =>
    -- the block that was unused for longest has been passed
    obtain ⟨n, b, hb, hatime⟩ := haged
    have hlt : n < next := Store.nextBlock_eq_none hnext (b := b.clean) (by rw [hfind, hb]; rfl)
    have hmem := hcol.all n b hb hlt (by omega)
    rw [hrem]
    refine ⟨⟨hmany, [], hcol.chosen (List.length_pos_of_mem hmem), hclean⟩, ?_⟩
    show toDelete.length + 1 < _
    omega
  | some b =>
    obtain ⟨hb, hle, hleast⟩ := Store.nextBlock_eq_some hnext
    obtain ⟨b₀, hb₀, hb₀clean⟩ :
        ∃ b₀, s.blocks.find b.storageBlockNum = some b₀ ∧ b₀.clean = b := by
      rw [hfind, Option.map_eq_some_iff] at hb
      exact hb
    have hlt := Store.ahead_lt hb₀ hle
    have hatime : b.atime = b₀.atime := by
      rw [← hb₀clean]
      rfl
    have hskipped : ∀ n b', s.blocks.find n = some b' → next ≤ n → b.storageBlockNum ≤ n :=
      fun n b' hb' hn => hleast n b'.clean (by rw [hfind, hb']; rfl) hn
    rw [hrem]
    dsimp only
    by_cases hage : b.atime < l.mintime + 10
    · rw [if_pos hage]
      refine ⟨⟨hrepeat, hmany, haged, cleanWithout_flushBlock hclean _,
        hcol.take hb₀ hle hskipped (by omega)⟩, ?_⟩
      show 2 * s.ahead (b.storageBlockNum + 1) + (toDelete ++ [b.storageBlockNum]).length + 2 < _
      rw [List.length_append, List.length_singleton]
      omega
    · rw [if_neg hage]
      refine ⟨⟨hrepeat, hmany, haged, hclean, hcol.skip hb₀ hle hskipped (hatime ▸ hage)⟩, ?_⟩
      show 2 * s.ahead (b.storageBlockNum + 1) + toDelete.length + 2 < _
      omega

theorem erase {toDelete : List ℕ} (hpc : l.pc = .erase toDelete) (h : InPass s l) :
    InPass s l.writer ∧ remaining s l.writer < remaining s l := by
  unfold InPass at h
  rw [hpc] at h
  obtain ⟨hmany, erased, hchosen, hclean⟩ := h
  have hrem : remaining s l = toDelete.length + 1 := by
    unfold remaining
    rw [hpc]
  unfold writer
  rw [hpc, hrem]
  cases toDelete with
  | nil =>
    rw [List.append_nil] at hchosen
    refine ⟨⟨rfl, erased, hclean, ?_⟩, Nat.succ_pos _⟩
    rw [if_pos hmany]
    exact hchosen
  | cons n toDelete =>
    refine ⟨⟨hmany, erased ++ [n], ?_, fun k => ?_⟩, ?_⟩
    · rw [List.append_assoc]
      exact hchosen
    · refine (Store.find_eraseBlock l.fs.store n k).trans ?_
      rw [hclean k]
      by_cases hk : k = n
      · rw [if_pos hk, if_pos (List.mem_append_right _ (List.mem_singleton.mpr hk))]
      · rw [if_neg hk]
        by_cases herased : k ∈ erased
        · rw [if_pos herased, if_pos (List.mem_append_left _ herased)]
        · rw [if_neg herased, if_neg]
          intro hmem
          rcases List.mem_append.mp hmem with hmem | hmem
          · exact herased hmem
          · exact hk (List.mem_singleton.mp hmem)
    · show toDelete.length + 1 < (n :: toDelete).length + 1
      rw [List.length_cons]
      omega

/-- **One step of a pass.** -/
theorem writer (h : InPass s l) (hpc : l.pc ≠ .sleep) :
    InPass s l.writer ∧ remaining s l.writer < remaining s l := by
  cases heq : l.pc with
  | flush next => exact flush heq h
  | choose next toDelete => exact choose heq h
  | erase toDelete => exact erase heq h
  | sleep => exact absurd heq hpc
  | test | wait | stopped =>
    unfold InPass at h
    rw [heq] at h
    exact h.elim

/-- **A pass ends**, after as many steps as were bounded. -/
theorem untilSleep (h : InPass s l) (steps : ℕ) : InPass s (Loop.untilSleep steps l) ∧
    (remaining s l ≤ steps → (Loop.untilSleep steps l).pc = .sleep) := by
  induction steps generalizing l with
  | zero =>
    refine ⟨h, fun hle => ?_⟩
    show l.pc = .sleep
    by_contra hpc
    have hlt := (h.writer hpc).2
    omega
  | succ steps ih =>
    unfold Loop.untilSleep
    split
    · rename_i hpc
      exact ⟨h, fun _ => hpc⟩
    · rename_i hpc
      obtain ⟨hnext, hlt⟩ := h.writer hpc
      obtain ⟨hin, hends⟩ := ih hnext
      exact ⟨hin, fun hle => hends (by omega)⟩

/-- A victim is clean when it is erased. -/
theorem erasesClean (h : InPass s l) : l.ErasesClean .writer := by
  intro n toDelete hpc
  unfold InPass at h
  rw [hpc] at h
  obtain ⟨-, erased, -, hclean⟩ := h
  exact hclean.not_dirty n

theorem start (hcache : s.blocks = l.fs.store.blocks) {now : ℕ}
    (htime : ∀ n b, s.blocks.find n = some b → b.atime ≤ now) : InPass s (l.startPass now) := by
  refine ⟨rfl, fun hpos => ?_, fun n => ?_⟩
  · obtain ⟨b, hb⟩ := List.exists_mem_of_length_pos hpos
    exact ⟨_, b, KeyedTable.find_of_mem hb, htime _ b (KeyedTable.find_of_mem hb)⟩
  · show l.fs.store.blocks.find n = _
    rw [← hcache]
    cases s.blocks.find n with
    | none => rfl
    | some b => exact congrArg some (if_neg (Nat.not_lt_zero n)).symm

end

end InPass

/-! ### Passes one after the other -/

/-- What a pass over a cache does: it erases between one and 64 blocks when there are more than 500,
and no block otherwise, none of them dirty when it is erased; the others stay and are clean; and it
is repeated when more than 500 are left. -/
structure PassOver (l : Loop bits H) (now : ℕ) : Prop where
  ends : (l.pass now).pc = .sleep
  cache : ∃ erased, l.fs.store.CleanWithout erased (l.pass now).fs.store ∧
    (l.pass now).fs.store.size + erased.length = l.fs.store.size ∧
    if 500 < l.fs.store.size then l.fs.store.Chosen erased else erased = []
  again : (l.pass now).repeatPass = decide (500 < (l.pass now).fs.store.size)
  clean : ∀ steps n toDelete, (untilSleep steps (l.startPass now)).pc = .erase (n :: toDelete) →
    ¬(untilSleep steps (l.startPass now)).fs.store.dirty n

omit [DecidableEq H] in
theorem pass_over (l : Loop bits H) {now : ℕ}
    (htime : ∀ n b, l.fs.store.blocks.find n = some b → b.atime ≤ now) : l.PassOver now := by
  have hstart : InPass l.fs.store (l.startPass now) := InPass.start rfl htime
  have hzero := Store.ahead_zero l.fs.store
  have hrem : remaining l.fs.store (l.startPass now) = 3 * l.fs.store.size + 3 := by
    show l.fs.store.ahead 0 + 2 * l.fs.store.size + 3 = _
    omega
  obtain ⟨hin, hends⟩ := hstart.untilSleep (3 * l.fs.store.size + 3)
  have hpc : (l.pass now).pc = .sleep := hends (le_of_eq hrem)
  change InPass l.fs.store (l.pass now) at hin
  unfold InPass at hin
  rw [hpc] at hin
  obtain ⟨hagain, erased, hclean, hchosen⟩ := hin
  refine ⟨hpc, ⟨erased, hclean, ?_, hchosen⟩, hagain, fun steps n toDelete hpc' => ?_⟩
  · by_cases hmany : 500 < l.fs.store.size
    · rw [if_pos hmany] at hchosen
      exact hclean.size hchosen.nodup hchosen.cached
    · rw [if_neg hmany] at hchosen
      rw [hchosen] at hclean ⊢
      exact hclean.size List.nodup_nil fun n hn => absurd hn List.not_mem_nil
  · exact (hstart.untilSleep steps).1.erasesClean n toDelete hpc'

omit [DecidableEq H] in
/-- **The passes of the file system** include those of the thread: with the victims that the thread
takes they leave the same cache. -/
theorem PassOver.writerPass {now : ℕ} (h : l.PassOver now) : ∃ victims, ∀ n,
    (l.pass now).fs.store.blocks.find n = (l.fs.store.writerPass victims).blocks.find n := by
  obtain ⟨erased, hclean, -⟩ := h.cache
  exact ⟨erased, fun n => (hclean n).trans (Store.cleanWithout_writerPass _ _ n).symm⟩

section passes

variable {clock : ℕ → ℕ}

omit [DecidableEq H] in
/-- After some passes the blocks are those of the beginning, but for their marks. -/
theorem passes_kept (hclock : Monotone clock)
    (htime : ∀ n b, l.fs.store.blocks.find n = some b → b.atime ≤ clock 0) (i : ℕ) :
    (l.passes clock i).PassOver (clock i) ∧
      ∀ n b, (l.passes clock i).fs.store.blocks.find n = some b →
        ∃ b₀, l.fs.store.blocks.find n = some b₀ ∧ b.clean = b₀.clean := by
  have hpass : ∀ i, (∀ n b, (l.passes clock i).fs.store.blocks.find n = some b →
      ∃ b₀, l.fs.store.blocks.find n = some b₀ ∧ b.clean = b₀.clean) →
      (l.passes clock i).PassOver (clock i) := by
    intro i hkept
    have hlater : clock 0 ≤ clock i := hclock (Nat.zero_le i)
    refine pass_over _ fun n b hb => ?_
    obtain ⟨b₀, hb₀, hsame⟩ := hkept n b hb
    have hatime : b.clean.atime = b₀.clean.atime := by rw [hsame]
    change b.atime = b₀.atime at hatime
    have hle := htime n b₀ hb₀
    omega
  suffices hkept : ∀ n b, (l.passes clock i).fs.store.blocks.find n = some b →
      ∃ b₀, l.fs.store.blocks.find n = some b₀ ∧ b.clean = b₀.clean from ⟨hpass i hkept, hkept⟩
  induction i with
  | zero =>
    intro n b hb
    exact ⟨b, hb, rfl⟩
  | succ i ih =>
    intro n b hb
    obtain ⟨erased, hclean, -⟩ := (hpass i ih).cache
    have hfind := hclean n
    change (l.passes clock (i + 1)).fs.store.blocks.find n = _ at hfind
    rw [hfind] at hb
    split at hb
    · cases hb
    · obtain ⟨b', hb', rfl⟩ := Option.map_eq_some_iff.mp hb
      exact ih n b' hb'

omit [DecidableEq H] in
/-- Passes are repeated a number of times only: each one makes the cache smaller. -/
theorem exists_last (hpass : ∀ i, (l.passes clock i).PassOver (clock i)) (i : ℕ) :
    ∃ n, i < n ∧ (∀ k, i < k → k < n → (l.passes clock k).repeatPass = true) ∧
      (l.passes clock n).repeatPass = false ∧ (l.passes clock n).fs.store.size ≤ 500 := by
  induction hsize : (l.passes clock i).fs.store.size using Nat.strong_induction_on
    generalizing i with
  | _ size ih =>
    obtain ⟨erased, -, hgone, hchosen⟩ := (hpass i).cache
    have hagain := (hpass i).again
    change (l.passes clock (i + 1)).fs.store.size + erased.length = _ at hgone
    change (l.passes clock (i + 1)).repeatPass =
      decide (500 < (l.passes clock (i + 1)).fs.store.size) at hagain
    by_cases hmany : 500 < (l.passes clock (i + 1)).fs.store.size
    · rw [if_pos (by omega)] at hchosen
      have hpos := hchosen.nonempty
      obtain ⟨n, hn, hbetween, hlast, hfew⟩ := ih _ (by omega) (i + 1) rfl
      refine ⟨n, by omega, fun k hk hkn => ?_, hlast, hfew⟩
      by_cases hnext : k = i + 1
      · rw [hnext, hagain, decide_eq_true hmany]
      · exact hbetween k (by omega) hkn
    · refine ⟨i + 1, Nat.lt_succ_self i, fun k hk hkn => by omega, ?_, by omega⟩
      rw [hagain, decide_eq_false hmany]

end passes

omit [DecidableEq H] in
/-- **Eviction makes progress.**  Whatever is in the cache, when the clock does not run backwards
and no block was used later than the first pass begins: each pass erases between one and 64 clean
blocks of more than 500, and passes are repeated until, after finitely many, at most 500 blocks are
left, clean and otherwise as they were. -/
theorem eviction_progress (l : Loop bits H) (clock : ℕ → ℕ) (hclock : Monotone clock)
    (htime : ∀ n b, l.fs.store.blocks.find n = some b → b.atime ≤ clock 0) :
    (∀ i, (l.passes clock i).PassOver (clock i)) ∧
    ∃ n, 0 < n ∧ (∀ i, 0 < i → i < n → (l.passes clock i).repeatPass = true) ∧
      (l.passes clock n).repeatPass = false ∧ (l.passes clock n).fs.store.size ≤ 500 ∧
      (∀ k, ¬(l.passes clock n).fs.store.dirty k) ∧
      ∀ k b, (l.passes clock n).fs.store.blocks.find k = some b →
        ∃ b₀, l.fs.store.blocks.find k = some b₀ ∧ b = b₀.clean := by
  have hpass := fun i => (passes_kept hclock htime i).1
  obtain ⟨n, hpos, hbetween, hlast, hfew⟩ := exists_last hpass 0
  obtain ⟨i, rfl⟩ := Nat.exists_eq_succ_of_ne_zero (Nat.pos_iff_ne_zero.mp hpos)
  obtain ⟨erased, hclean, -⟩ := (hpass i).cache
  refine ⟨hpass, i + 1, Nat.succ_pos i, hbetween, hlast, hfew, hclean.not_dirty, fun k b hb => ?_⟩
  have hfind := hclean k
  change (l.passes clock (i + 1)).fs.store.blocks.find k = _ at hfind
  rw [hfind] at hb
  split at hb
  · cases hb
  · obtain ⟨b', hb', rfl⟩ := Option.map_eq_some_iff.mp hb
    exact (passes_kept hclock htime i).2 k b' hb'

/-- A cache of as many blocks, all of them new at the time 0. -/
def ofSize (size : ℕ) : Loop 0 (List UInt8) :=
  { init 0 (List UInt8) with
    fs := (Fs.init 0 (List UInt8)).setStore
      { (Fs.init 0 (List UInt8)).store with
        blocks :=
          { rows := (List.range size).map fun i => .new (i + 1) i 0
            nodup := by
              rw [List.map_map]
              exact List.nodup_range.map (Nat.succ_injective) } } }

theorem ofSize_atime (size n : ℕ) (b : StorageBlock 0 (List UInt8))
    (h : (ofSize size).fs.store.blocks.find n = some b) : b.atime ≤ 0 := by
  obtain ⟨i, -, rfl⟩ := List.mem_map.mp (KeyedTable.mem_of_find h)
  exact le_refl 0

theorem eviction_progress_many :
    (∀ i, ((ofSize 600).passes (fun i => i) i).PassOver i) ∧
    ∃ n, 0 < n ∧ (∀ i, 0 < i → i < n → ((ofSize 600).passes (fun i => i) i).repeatPass = true) ∧
      ((ofSize 600).passes (fun i => i) n).repeatPass = false ∧
      ((ofSize 600).passes (fun i => i) n).fs.store.size ≤ 500 ∧
      (∀ k, ¬((ofSize 600).passes (fun i => i) n).fs.store.dirty k) ∧
      ∀ k b, ((ofSize 600).passes (fun i => i) n).fs.store.blocks.find k = some b →
        ∃ b₀, (ofSize 600).fs.store.blocks.find k = some b₀ ∧ b = b₀.clean :=
  eviction_progress (ofSize 600) (fun i => i) monotone_id (ofSize_atime 600)

/-! ### The passes are steps of the loop -/

open GuardedRun

theorem run_untilSleep (cfg : Config bits H) (steps : ℕ) (l : Loop bits H) :
    ∃ k os, run (step cfg) l (List.replicate k .writer) = .ok (untilSleep steps l, os) := by
  induction steps generalizing l with
  | zero => exact ⟨0, [], rfl⟩
  | succ steps ih =>
    unfold untilSleep
    split
    · exact ⟨0, [], rfl⟩
    · obtain ⟨k, os, hrun⟩ := ih l.writer
      exact ⟨k + 1, none :: os, run_cons_ok.mpr ⟨_, _, _, rfl, hrun, rfl⟩⟩

/-- **A repeated pass is a part of a run**: from the sleep the clock goes on and the writer thread
makes its steps, up to the sleep at the end of the next pass. -/
theorem run_pass (cfg : Config bits H) (hpc : l.pc = .sleep) (hterm : l.terminated = false)
    (hrepeat : l.repeatPass = true) (now : ℕ) :
    ∃ k os, run (step cfg) l (.op (.clock now) :: List.replicate k .writer) =
      .ok (l.pass now, os) := by
  have htick : step cfg l (.op (.clock now)) =
      .ok ({ l with fs := l.fs.setStore { l.fs.store with now := now } }, some (.ret 0)) := by
    simp [step, request, Fs.step, Op.isRequest, Op.syncs, Fs.placedBy, Fs.rounds, Except.map]
  have hstart := writer_writer_of_repeat
    (l := { l with fs := l.fs.setStore { l.fs.store with now := now } }) hpc hterm hrepeat
  obtain ⟨k, os, hrun⟩ := run_untilSleep cfg (3 * l.fs.store.size + 3) (l.startPass now)
  refine ⟨k + 2, some (.ret 0) :: none :: none :: os, ?_⟩
  refine run_cons_ok.mpr ⟨_, _, _, htick, ?_, rfl⟩
  refine run_cons_ok.mpr ⟨_, _, _, rfl, ?_, rfl⟩
  refine run_cons_ok.mpr ⟨_, _, _, rfl, ?_, rfl⟩
  rw [hstart]
  exact hrun

end Loop

end Wwdedup
