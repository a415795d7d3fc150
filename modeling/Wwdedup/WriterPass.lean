import Wwdedup.Content

/-!
# A pass of the writer thread

`writeOut` in a loop puts the data of every dirty block into its slot and leaves the slots of
all other numbers alone, because no two cached blocks have the same number.  So a flush keeps
what every number contains, and afterwards a chosen block has its data in its slot: erasing it
from the cache loses nothing.
-/

namespace Wwdedup

variable {bits : ℕ} {H : Type} [DecidableEq H]

/-! ### The loop of `pwrite` -/

section

omit [DecidableEq H]

/-- A `pwrite` keeps a slot unless it puts other data there. -/
theorem writeOut_read {st : Storage bits} {b : StorageBlock bits H} {k : ℕ} {x : Block bits}
    (hread : st.read k = some x)
    (hsame : b.storageBlockNum = k → b.dirty = true → ∀ d, b.data = some d → d = x) :
    (writeOut st b).read k = some x := by
  unfold writeOut
  split
  · rename_i hdirty
    cases hdata : b.data with
    | none => exact hread
    | some d =>
      show (st.pwrite b.storageBlockNum d).read k = some x
      by_cases hk : b.storageBlockNum = k
      · rw [hsame hk hdirty d hdata, hk]
        exact Storage.read_pwrite_self st k x
      · exact Storage.read_pwrite_of_ne st d x hread (Ne.symm hk)
  · exact hread

theorem writeOut_read_self {st : Storage bits} {b : StorageBlock bits H} {x : Block bits}
    (hdirty : b.dirty = true) (hdata : b.data = some x) :
    (writeOut st b).read b.storageBlockNum = some x := by
  rw [writeOut, if_pos hdirty, hdata]
  exact Storage.read_pwrite_self st _ x

/-- A slot is kept when no dirty block of the list has other data for it. -/
theorem foldl_writeOut_read {rows : List (StorageBlock bits H)} {st : Storage bits} {k : ℕ}
    {x : Block bits} (hread : st.read k = some x)
    (hsame : ∀ b ∈ rows, b.storageBlockNum = k → b.dirty = true → ∀ d, b.data = some d → d = x) :
    (rows.foldl writeOut st).read k = some x := by
  induction rows generalizing st with
  | nil => exact hread
  | cons b rows ih =>
    exact ih (writeOut_read hread (hsame b (List.mem_cons_self ..)))
      fun b' hb' => hsame b' (List.mem_cons_of_mem _ hb')

/-- The slot of a dirty block of the list gets its data. -/
theorem foldl_writeOut_written {rows : List (StorageBlock bits H)} {st : Storage bits}
    {b : StorageBlock bits H} {x : Block bits}
    (hnodup : (rows.map StorageBlock.storageBlockNum).Nodup) (hb : b ∈ rows)
    (hdirty : b.dirty = true) (hdata : b.data = some x) :
    (rows.foldl writeOut st).read b.storageBlockNum = some x := by
  induction rows generalizing st with
  | nil => cases hb
  | cons a rows ih =>
    rw [List.map_cons, List.nodup_cons] at hnodup
    rcases List.mem_cons.mp hb with rfl | hb
    · rw [List.foldl_cons]
      refine foldl_writeOut_read (writeOut_read_self hdirty hdata) fun b' hb' hnum => ?_
      exact absurd (hnum ▸ List.mem_map_of_mem hb') hnodup.1
    · exact ih hnodup.2 hb

end

/-! ### A flush -/

/-- A row whose content is in the cache only. -/
def Store.dirty (s : Store bits H) (n : ℕ) : Prop :=
  ∃ b, s.blocks.find n = some b ∧ b.dirty = true

namespace Store

variable {s : Store bits H} {p : StorageBlock bits H → Bool}

section

omit [DecidableEq H]

theorem clean_of_not_dirty {n : ℕ} (h : ¬s.dirty n) {b : StorageBlock bits H}
    (hb : s.blocks.find n = some b) : b.dirty = false := by
  by_contra hd
  exact h ⟨b, hb, by simpa using hd⟩

@[simp] theorem flush_db : (s.flush p).db = s.db := rfl

@[simp] theorem flush_nextUid : (s.flush p).nextUid = s.nextUid := rfl

theorem find_flush (k : ℕ) :
    (s.flush p).blocks.find k =
      (s.blocks.find k).map fun b => if p b then { b with dirty := false } else b :=
  KeyedTable.find_modify s.blocks p (fun b => { b with dirty := false }) (fun _ => rfl) k

end

section

omit [DecidableEq H]

theorem flush_read {k : ℕ} {x : Block bits} (hread : s.storage.read k = some x)
    (hsame : ∀ b, s.blocks.find k = some b → p b = true → b.dirty = true →
      ∀ d, b.data = some d → d = x) :
    (s.flush p).storage.read k = some x := by
  refine foldl_writeOut_read hread fun b hb hnum => ?_
  obtain ⟨hrow, hp⟩ := List.mem_filter.mp hb
  exact hsame b (hnum ▸ KeyedTable.find_of_mem hrow) hp

theorem flush_read_written {k : ℕ} {b : StorageBlock bits H} {x : Block bits}
    (hfind : s.blocks.find k = some b) (hp : p b = true) (hdirty : b.dirty = true)
    (hdata : b.data = some x) : (s.flush p).storage.read k = some x := by
  obtain ⟨hrow, rfl⟩ := KeyedTable.find_eq_some.mp hfind
  have hnodup : ((s.blocks.rows.filter p).map StorageBlock.storageBlockNum).Nodup :=
    s.blocks.nodup.sublist (List.filter_sublist.map _)
  exact foldl_writeOut_written hnodup (List.mem_filter.mpr ⟨hrow, hp⟩) hdirty hdata

theorem cnt_flush (k : ℕ) : (s.flush p).cnt k = s.cnt k := by
  rw [cnt, cnt, find_flush, Option.map_map]
  congr 1
  funext b
  by_cases hp : p b <;> simp [hp]

theorem stamp_flush (k : ℕ) : (s.flush p).stamp k = s.stamp k := by
  rw [stamp, stamp, find_flush, Option.map_map]
  congr 1
  funext b
  by_cases hp : p b <;> simp [hp]

/-- **A flush keeps what every number contains.** -/
theorem content_flush {k : ℕ} {x : Block bits} (h : s.content k = some x) :
    (s.flush p).content k = some x := by
  have hdata : (((s.flush p).blocks.find k).bind StorageBlock.data) =
      (s.blocks.find k).bind StorageBlock.data := by
    rw [find_flush]
    cases s.blocks.find k with
    | none => rfl
    | some b =>
      show (if p b then { b with dirty := false } else b).data = b.data
      split <;> rfl
  rw [content, hdata]
  rw [content, Option.or_eq_some_iff] at h
  rcases h with h | ⟨hnone, hread⟩
  · rw [h]
    rfl
  · rw [hnone, Option.none_or]
    refine flush_read hread fun b hfind _ _ d hd => ?_
    rw [hfind, Option.bind_some, hd] at hnone
    cases hnone

theorem of_find_flush {k : ℕ} {b : StorageBlock bits H}
    (hfind : (s.flush p).blocks.find k = some b) :
    ∃ b₀, s.blocks.find k = some b₀ ∧ b.data = b₀.data ∧ b.useCount = b₀.useCount ∧
      b.storageBlockNum = b₀.storageBlockNum ∧
      (b = b₀ ∧ p b₀ = false ∨ b.dirty = false ∧ p b₀ = true) := by
  rw [find_flush, Option.map_eq_some_iff] at hfind
  obtain ⟨b₀, hb₀, rfl⟩ := hfind
  refine ⟨b₀, hb₀, ?_⟩
  by_cases hp : p b₀ = true
  · rw [if_pos hp]
    exact ⟨rfl, rfl, rfl, .inr ⟨rfl, hp⟩⟩
  · rw [if_neg hp]
    exact ⟨rfl, rfl, rfl, .inl ⟨rfl, Bool.eq_false_iff.mpr hp⟩⟩

end

/-! ### Erasing -/

/-- `_blocks->erase` for all victims. -/
def evict (s : Store bits H) (victims : List ℕ) : Store bits H :=
  { s with blocks := s.blocks.delete fun b => b.storageBlockNum ∈ victims }

section

omit [DecidableEq H]

theorem writerPass_eq (s : Store bits H) (victims : List ℕ) :
    s.writerPass victims =
      ((s.flush fun _ => true).flush fun b => b.storageBlockNum ∈ victims).evict victims := rfl

theorem find_evict (victims : List ℕ) (k : ℕ) :
    (s.evict victims).blocks.find k = if k ∈ victims then none else s.blocks.find k := by
  rw [evict, KeyedTable.find_delete]
  cases h : s.blocks.find k with
  | none => simp
  | some b =>
    have hk : b.storageBlockNum = k := KeyedTable.key_of_find h
    by_cases hv : k ∈ victims <;> simp [hk, hv]

theorem cnt_evict (victims : List ℕ) (k : ℕ) :
    (s.evict victims).cnt k = if k ∈ victims then none else s.cnt k := by
  rw [cnt, find_evict]
  split <;> rfl

/-- Erasing a block whose data is in its slot keeps what the number contains. -/
theorem content_evict {victims : List ℕ}
    (hclean : ∀ k b x, s.blocks.find k = some b → k ∈ victims → b.data = some x →
      s.storage.read k = some x) (k : ℕ) {x : Block bits} (h : s.content k = some x) :
    (s.evict victims).content k = some x := by
  rw [content, find_evict]
  by_cases hv : k ∈ victims
  · rw [if_pos hv]
    rw [content, Option.or_eq_some_iff] at h
    rcases h with h | ⟨-, hread⟩
    · obtain ⟨b, hb, hx⟩ := Option.bind_eq_some_iff.mp h
      exact hclean k b x hb hv hx
    · exact hread
  · rw [if_neg hv]
    exact h

end

/-! ### A whole pass -/

/-- The data of the clean blocks are in their slots. -/
def Stored (s : Store bits H) : Prop :=
  ∀ k b x, s.blocks.find k = some b → b.dirty = false → b.data = some x → s.storage.read k = some x

section

omit [DecidableEq H]

theorem Stored.flush (h : s.Stored) (p : StorageBlock bits H → Bool) : (s.flush p).Stored := by
  intro k b x hb hd hx
  obtain ⟨b₀, hb₀, hdata, -, -, hcase⟩ := of_find_flush hb
  rw [hdata] at hx
  cases hdirty : b₀.dirty with
  | true =>
    rcases hcase with ⟨rfl, -⟩ | ⟨-, hp⟩
    · rw [hdirty] at hd
      cases hd
    · exact flush_read_written hb₀ hp hdirty hx
  | false =>
    apply flush_read (h k b₀ x hb₀ hdirty hx)
    intro b' hb' _ hdirty'
    rw [hb₀] at hb'
    cases hb'
    rw [hdirty] at hdirty'
    cases hdirty'

theorem find_flush_all {k : ℕ} {b : StorageBlock bits H}
    (h : (s.flush fun _ => true).blocks.find k = some b) : b.dirty = false := by
  obtain ⟨b₀, -, -, -, -, ⟨-, hp⟩ | ⟨hd, -⟩⟩ := of_find_flush h
  · cases hp
  · exact hd

/-- After both flushes of a pass no block is dirty. -/
theorem find_flush_flush {k : ℕ} {b : StorageBlock bits H}
    (h : ((s.flush fun _ => true).flush p).blocks.find k = some b) : b.dirty = false := by
  obtain ⟨b₀, hb₀, -, -, -, ⟨rfl, -⟩ | ⟨hd, -⟩⟩ := of_find_flush h
  · exact find_flush_all hb₀
  · exact hd

/-- **A pass keeps what every number contains.** -/
theorem Stored.content_writerPass (h : s.Stored) (victims : List ℕ) {k : ℕ} {x : Block bits}
    (hx : s.content k = some x) : (s.writerPass victims).content k = some x := by
  rw [writerPass_eq]
  apply content_evict _ k (content_flush (content_flush hx))
  intro k b y hb _ hy
  exact (h.flush _).flush _ k b y hb (find_flush_flush hb) hy

end

end Store

end Wwdedup
