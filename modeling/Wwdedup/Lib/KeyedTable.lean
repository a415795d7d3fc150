import Mathlib.Data.List.Nodup
import Mathlib.Data.List.Count
import Mathlib.Tactic.Common

/-!
# Tables whose rows are found by a key

`KeyedTable R κ key` is a finite list of rows in which no two rows have the same key; the
uniqueness is a field, so that a table that breaks it cannot be built.  The operations are
those of a relational table with a unique column (`find`, `modify`, `delete`, `replace`, and
`insert` under the next number when the key is a number) and every one has a lemma that says
what `find` returns afterwards.  `count` counts rows by a predicate, and `count_replace`,
`count_deleteKey` say how replacing or deleting the row of one key moves a count.
-/

/-- Rows found by a key that no two of them share. -/
structure KeyedTable (R κ : Type*) (key : R → κ) where
  rows : List R
  nodup : (rows.map key).Nodup

namespace KeyedTable

variable {R κ : Type*} [DecidableEq κ] {key : R → κ}

/-- The row with the given key. -/
def find (t : KeyedTable R κ key) (k : κ) : Option R := t.rows.find? fun r => key r = k

/-- The number of rows that satisfy a predicate. -/
def count (t : KeyedTable R κ key) (p : R → Bool) : ℕ := t.rows.countP p

def empty : KeyedTable R κ key := ⟨[], List.nodup_nil⟩

/-- Rows that satisfy `p` go. -/
def delete (t : KeyedTable R κ key) (p : R → Bool) : KeyedTable R κ key where
  rows := t.rows.filter fun r => !p r
  nodup := t.nodup.sublist (List.filter_sublist.map key)

omit [DecidableEq κ] in
/-- Nothing goes where no row satisfies `p`. -/
theorem delete_of_forall_not (t : KeyedTable R κ key) {p : R → Bool}
    (h : ∀ r ∈ t.rows, p r = false) : t.delete p = t := by
  have hrows : (t.rows.filter fun r => !p r) = t.rows := by
    rw [List.filter_eq_self]
    intro r hr
    rw [h r hr]
    rfl
  cases t
  unfold delete
  congr

/-- Rows that satisfy `p` are changed by `f`, which leaves the key alone. -/
def modify (t : KeyedTable R κ key) (p : R → Bool) (f : R → R) (hf : ∀ r, key (f r) = key r) :
    KeyedTable R κ key where
  rows := t.rows.map fun r => if p r then f r else r
  nodup := by
    have hkeys : (t.rows.map fun r => if p r then f r else r).map key = t.rows.map key := by
      rw [List.map_map]
      apply List.map_congr_left
      intro r _
      by_cases hp : p r <;> simp [hp, hf]
    rw [hkeys]
    exact t.nodup

/-- The keys, in the order of the rows. -/
def keys (t : KeyedTable R κ key) : List κ := t.rows.map key

omit [DecidableEq κ] in
theorem keys_modify (t : KeyedTable R κ key) (p : R → Bool) (f : R → R)
    (hf : ∀ r, key (f r) = key r) : (t.modify p f hf).keys = t.keys := by
  rw [keys, keys, modify, List.map_map]
  apply List.map_congr_left
  intro r _
  by_cases hp : p r <;> simp [hp, hf]

def deleteKey (t : KeyedTable R κ key) (k : κ) : KeyedTable R κ key := t.delete fun r => key r = k

/-- The row takes the place of the one with its key, if there is one. -/
def replace (t : KeyedTable R κ key) (r : R) : KeyedTable R κ key where
  rows := (t.deleteKey (key r)).rows ++ [r]
  nodup := by
    rw [List.map_append, List.nodup_append]
    refine ⟨(t.deleteKey (key r)).nodup, List.nodup_singleton _, ?_⟩
    intro a ha b hb hab
    obtain ⟨q, hq, rfl⟩ := List.mem_map.mp ha
    rw [List.map_singleton, List.mem_singleton] at hb
    have hne := (List.mem_filter.mp hq).2
    simp [hab, hb] at hne

/-- The row that was put in last stays. -/
theorem replace_replace (t : KeyedTable R κ key) {r r' : R} (h : key r = key r') :
    (t.replace r).replace r' = t.replace r' := by
  have hrows : ((t.replace r).replace r').rows = (t.replace r').rows := by
    show ((t.rows.filter _ ++ [r]).filter _) ++ [r'] = t.rows.filter _ ++ [r']
    rw [List.filter_append, h, List.filter_filter]
    simp [h]
  cases hq : (t.replace r).replace r'
  cases hq' : t.replace r'
  rw [hq, hq'] at hrows
  cases hrows
  rfl

/-! ### What `find` sees -/

theorem mem_of_find {t : KeyedTable R κ key} {k : κ} {r : R} (h : t.find k = some r) :
    r ∈ t.rows := List.mem_of_find?_eq_some h

theorem key_of_find {t : KeyedTable R κ key} {k : κ} {r : R} (h : t.find k = some r) :
    key r = k := by simpa using List.find?_some h

theorem find_of_mem {t : KeyedTable R κ key} {r : R} (h : r ∈ t.rows) :
    t.find (key r) = some r := by
  obtain ⟨rows, hnd⟩ := t
  induction rows with
  | nil => simp at h
  | cons a rows ih =>
    rw [List.map_cons, List.nodup_cons] at hnd
    by_cases ha : key a = key r
    · rcases List.mem_cons.mp h with rfl | hr
      · simp [find]
      · exact absurd (ha ▸ List.mem_map_of_mem hr) hnd.1
    · rcases List.mem_cons.mp h with rfl | hr
      · exact absurd rfl ha
      · have := ih hnd.2 hr
        simpa [find, ha] using this

theorem find_eq_some {t : KeyedTable R κ key} {k : κ} {r : R} :
    t.find k = some r ↔ r ∈ t.rows ∧ key r = k := by
  constructor
  · intro h
    exact ⟨mem_of_find h, key_of_find h⟩
  · rintro ⟨h, rfl⟩
    exact find_of_mem h

theorem find_eq_none {t : KeyedTable R κ key} {k : κ} :
    t.find k = none ↔ ∀ r ∈ t.rows, key r ≠ k := by simp [find]

@[simp] theorem find_empty (k : κ) : (empty : KeyedTable R κ key).find k = none := rfl

theorem find_delete (t : KeyedTable R κ key) (p : R → Bool) (k : κ) :
    (t.delete p).find k = (t.find k).filter fun r => !p r := by
  cases h : t.find k with
  | none =>
    rw [Option.filter_none, find_eq_none]
    intro r hr
    exact find_eq_none.mp h r (List.mem_filter.mp hr).1
  | some r =>
    obtain ⟨hr, hk⟩ := find_eq_some.mp h
    by_cases hp : p r
    · rw [Option.filter_some_neg (by simp [hp]), find_eq_none]
      intro q hq hqk
      have hmem := List.mem_filter.mp hq
      have : q = r := by
        have h' := find_of_mem hmem.1
        rw [hqk, h] at h'
        exact (Option.some.inj h').symm
      simp [this, hp] at hmem
    · rw [Option.filter_some_pos (by simp [hp]), find_eq_some]
      exact ⟨List.mem_filter.mpr ⟨hr, by simp [hp]⟩, hk⟩

theorem find_modify (t : KeyedTable R κ key) (p : R → Bool) (f : R → R)
    (hf : ∀ r, key (f r) = key r) (k : κ) :
    (t.modify p f hf).find k = (t.find k).map fun r => if p r then f r else r := by
  have hkey : ∀ r, key (if p r then f r else r) = key r := by
    intro r
    by_cases hp : p r <;> simp [hp, hf]
  simp only [find, modify, List.find?_map, Function.comp_def, hkey]

theorem find_deleteKey (t : KeyedTable R κ key) (k k' : κ) :
    (t.deleteKey k).find k' = if k' = k then none else t.find k' := by
  rw [deleteKey, find_delete]
  cases h : t.find k' with
  | none => simp
  | some r =>
    have hk := key_of_find h
    by_cases hkk : k' = k
    · rw [Option.filter_some_neg (by simp [hk, hkk]), if_pos hkk]
    · rw [Option.filter_some_pos (by simp [hk, hkk]), if_neg hkk]

theorem find_replace (t : KeyedTable R κ key) (r : R) (k : κ) :
    (t.replace r).find k = if k = key r then some r else t.find k := by
  have hdel := find_deleteKey t (key r) k
  unfold find at hdel ⊢
  rw [replace, List.find?_append, hdel]
  by_cases hk : k = key r
  · simp [hk]
  · simp [hk, Ne.symm hk]

/-! ### Counting rows -/

theorem filter_key (t : KeyedTable R κ key) (k : κ) :
    (t.rows.filter fun r => key r = k) = (t.find k).toList := by
  obtain ⟨rows, hnd⟩ := t
  induction rows with
  | nil => rfl
  | cons a rows ih =>
    rw [List.map_cons, List.nodup_cons] at hnd
    by_cases ha : key a = k
    · have hrest : (rows.filter fun r => decide (key r = k)) = [] := by
        rw [List.filter_eq_nil_iff]
        intro r hr
        have : key r ≠ k := fun h => hnd.1 (ha ▸ h ▸ List.mem_map_of_mem hr)
        simpa using this
      simp [find, ha, hrest]
    · have := ih hnd.2
      simpa [find, ha] using this

/-- Deleting the row of a key takes one from the count when that row was counted. -/
theorem count_deleteKey (t : KeyedTable R κ key) (p : R → Bool) (k : κ) :
    (t.deleteKey k).count p + (if (t.find k).any p then 1 else 0) = t.count p := by
  have hsplit := List.countP_eq_countP_filter_add t.rows p fun r => !decide (key r = k)
  simp only [Bool.not_not] at hsplit
  rw [filter_key] at hsplit
  unfold count
  rw [hsplit]
  congr 1
  cases t.find k <;> simp [List.countP_cons]

theorem count_replace (t : KeyedTable R κ key) (p : R → Bool) (r : R) :
    (t.replace r).count p + (if (t.find (key r)).any p then 1 else 0) =
      t.count p + (if p r then 1 else 0) := by
  have hdel := count_deleteKey t p (key r)
  have happ : (t.replace r).count p =
      (t.deleteKey (key r)).count p + (if p r then 1 else 0) := by
    simp [count, replace, List.countP_append, List.countP_cons]
  omega

theorem count_pos {t : KeyedTable R κ key} {p : R → Bool} {k : κ} {r : R}
    (h : t.find k = some r) (hp : p r) : 0 < t.count p :=
  List.countP_pos_iff.mpr ⟨r, mem_of_find h, hp⟩

theorem count_eq_zero {t : KeyedTable R κ key} {p : R → Bool}
    (h : ∀ k r, t.find k = some r → p r = false) : t.count p = 0 := by
  rw [count, List.countP_eq_zero]
  intro r hr
  simpa using h (key r) r (find_of_mem hr)

/-- A condition that leaves out a row of another one counts fewer rows. -/
theorem count_lt {t : KeyedTable R κ key} {p q : R → Bool} {k : κ} {r : R}
    (h : ∀ r ∈ t.rows, p r = true → q r = true) (hr : t.find k = some r) (hp : p r = false)
    (hq : q r = true) : t.count p < t.count q := by
  have hdelp := count_deleteKey t p k
  have hdelq := count_deleteKey t q k
  rw [hr, Option.any_some, hp, if_neg (by decide)] at hdelp
  rw [hr, Option.any_some, if_pos hq] at hdelq
  have hle : (t.deleteKey k).count p ≤ (t.deleteKey k).count q :=
    List.countP_mono_left fun r hr => h r (List.mem_filter.mp hr).1
  omega

/-- Two keys whose rows are counted make the count at least two. -/
theorem two_le_count {t : KeyedTable R κ key} {p : R → Bool} {k k' : κ} {r r' : R}
    (h : t.find k = some r) (hp : p r) (h' : t.find k' = some r') (hp' : p r')
    (hne : k ≠ k') : 2 ≤ t.count p := by
  have hdel := count_deleteKey t p k
  have hrest : (t.deleteKey k).find k' = some r' := by
    rw [find_deleteKey, if_neg (Ne.symm hne), h']
  have := count_pos hrest hp'
  rw [h, Option.any_some, if_pos hp] at hdel
  omega

theorem mem_keys {t : KeyedTable R κ key} {k : κ} :
    k ∈ t.rows.map key ↔ (t.find k).isSome = true := by
  rw [List.mem_map]
  constructor
  · rintro ⟨r, hr, rfl⟩
    rw [find_of_mem hr]
    rfl
  · intro h
    obtain ⟨r, hr⟩ := Option.isSome_iff_exists.mp h
    exact ⟨r, find_eq_some.mp hr⟩

/-- A table has as many rows as there are keys. -/
theorem length_rows (t : KeyedTable R κ key) {keys : List κ} (hkeys : keys.Nodup)
    (h : ∀ k, (t.find k).isSome = true ↔ k ∈ keys) : t.rows.length = keys.length := by
  have hperm : (t.rows.map key).Perm keys :=
    (List.perm_ext_iff_of_nodup t.nodup hkeys).mpr fun k => mem_keys.trans (h k)
  rw [← hperm.length_eq, List.length_map]

/-! ### Rows under a number of their own -/

section ids

variable {id : R → ℕ}

/-- One more than the largest number in use, 1 in an empty table. -/
def nextId (t : KeyedTable R ℕ id) : ℕ := (t.rows.map id).foldr max 0 + 1

theorem le_foldr_max {n : ℕ} {l : List ℕ} (h : n ∈ l) : n ≤ l.foldr max 0 := by
  induction l with
  | nil => simp at h
  | cons a l ih =>
    rw [List.foldr_cons]
    rcases List.mem_cons.mp h with rfl | hl
    · omega
    · have := ih hl
      omega

theorem lt_nextId {t : KeyedTable R ℕ id} {r : R} (h : r ∈ t.rows) : id r < t.nextId :=
  Nat.lt_succ_of_le (le_foldr_max (List.mem_map_of_mem h))

theorem find_nextId (t : KeyedTable R ℕ id) : t.find t.nextId = none := by
  rw [find_eq_none]
  intro r hr
  exact Nat.ne_of_lt (lt_nextId hr)

theorem nextId_pos (t : KeyedTable R ℕ id) : t.nextId ≠ 0 := Nat.succ_ne_zero _

/-- The next number of a table with the numbers 1, …, n. -/
theorem nextId_eq (t : KeyedTable R ℕ id) {n : ℕ}
    (h : ∀ k, (t.find k).isSome = true ↔ 1 ≤ k ∧ k ≤ n) : t.nextId = n + 1 := by
  have hle : ∀ l : List ℕ, (∀ k ∈ l, k ≤ n) → l.foldr max 0 ≤ n := by
    intro l hl
    induction l with
    | nil => exact Nat.zero_le n
    | cons k l ih =>
      have hk := hl k (List.mem_cons_self ..)
      have hrest := ih fun j hj => hl j (List.mem_cons_of_mem _ hj)
      show max k (l.foldr max 0) ≤ n
      omega
  have hupper : t.nextId ≤ n + 1 :=
    Nat.succ_le_succ (hle _ fun k hk => ((h k).mp (mem_keys.mp hk)).2)
  have hfree : ¬(1 ≤ t.nextId ∧ t.nextId ≤ n) := by
    rw [← h, find_nextId]
    nofun
  have hpos := Nat.pos_of_ne_zero t.nextId_pos
  omega

/-- Add a row under the next number. -/
def insert (t : KeyedTable R ℕ id) (mk : ℕ → R) (hmk : ∀ n, id (mk n) = n) :
    KeyedTable R ℕ id where
  rows := t.rows ++ [mk t.nextId]
  nodup := by
    rw [List.map_append, List.nodup_append]
    refine ⟨t.nodup, List.nodup_singleton _, ?_⟩
    intro a ha b hb hab
    obtain ⟨r, hr, rfl⟩ := List.mem_map.mp ha
    rw [List.map_singleton, List.mem_singleton, hmk] at hb
    exact Nat.ne_of_lt (lt_nextId hr) (hab.trans hb)

theorem find_insert (t : KeyedTable R ℕ id) (mk : ℕ → R) (hmk : ∀ n, id (mk n) = n) (k : ℕ) :
    (t.insert mk hmk).find k = if k = t.nextId then some (mk k) else t.find k := by
  have hnone := find_nextId t
  unfold find at hnone ⊢
  rw [insert, List.find?_append]
  by_cases hk : k = t.nextId
  · subst hk
    simp [hnone, hmk]
  · simp [hk, hmk, Ne.symm hk]

end ids

end KeyedTable
