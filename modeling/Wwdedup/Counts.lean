import Wwdedup.Coherence

/-!
# Use counts and references

`Counted R` compares, for every row of `block_hashes`, the number of `file_blocks` rows with its
hash to the use count in the table and to the one in the cache.  `R` is equality where the
counts are to be exact, and `≤` where they are only to be large enough for the in-place branch
of `replaceStorageBlock` to be taken on unshared blocks; `Tally` says what the argument needs of
it.  One block write and one released block keep `Counted R` when the `block_info` that they
work with says what the tables say.
-/

namespace Wwdedup

open GuardedRun

variable {bits : ℕ} {H : Type} [DecidableEq H]

/-- How references may compare to a count. -/
structure Tally (R : ℤ → ℤ → Prop) : Prop where
  shift : ∀ a b d, R a b → R (a + d) (b + d)
  self : R 1 1
  one : ∀ a, 1 ≤ a → R a 1 → a = 1

theorem tally_eq : Tally (· = ·) where
  shift _ _ _ h := by rw [h]
  self := rfl
  one _ _ h := h

theorem tally_le : Tally (· ≤ ·) where
  shift _ _ d h := Int.add_le_add_right h d
  self := Int.le_refl 1
  one _ h h' := Int.le_antisymm h' h

/-- Every hash of `file_blocks` has a row, and the counts of every row compare to its references
as `R` says. -/
structure Counted (R : ℤ → ℤ → Prop) (s : Store bits H) : Prop where
  found : ∀ f o g, s.db.fileHash f o = some g → ∃ k, s.db.rowHash k = some g
  use : ∀ k g u, s.db.rowHash k = some g → s.db.useOf k = some u → R (s.db.refs g) u
  cnt : ∀ k g c, s.db.rowHash k = some g → s.cnt k = some c → R (s.db.refs g) c

/-- Views that say the same keep the comparison. -/
theorem Counted.congr {R : ℤ → ℤ → Prop} {s s' : Store bits H} (h : Counted R s)
    (hrow : ∀ k, s'.db.rowHash k = s.db.rowHash k) (huse : ∀ k, s'.db.useOf k = s.db.useOf k)
    (hfile : ∀ f o, s'.db.fileHash f o = s.db.fileHash f o)
    (hrefs : ∀ g, s'.db.refs g = s.db.refs g)
    (hcnt : ∀ k c, s'.cnt k = some c → s.cnt k = some c) : Counted R s' where
  found f o g hf := by
    obtain ⟨k, hk⟩ := h.found f o g (hfile f o ▸ hf)
    exact ⟨k, (hrow k).trans hk⟩
  use k g u hk hu := hrefs g ▸ h.use k g u (hrow k ▸ hk) (huse k ▸ hu)
  cnt k g c hk hc := hrefs g ▸ h.cnt k g c (hrow k ▸ hk) (hcnt k c hc)

/-! ### A block write -/

section write

variable {R : ℤ → ℤ → Prop} {cfg : Config bits H} {s : Store bits H} {ino : ℕ}
  {data : Block bits} {hash : H} {fb : BlockInfo H} {r : Store bits H × BlockInfo H}

/-- What the write relies on: a locked block is the one that the tables give for the file block,
and the new hash is another. -/
def HeldBlock (s : Store bits H) (ino : ℕ) (hash : H) (fb : BlockInfo H) : Prop :=
  ∀ b, s.lock fb.storageBlock = some b →
    ∃ g, s.db.fileHash ino fb.fileBlockNum = some g ∧
      s.db.rowHash b.storageBlockNum = some g ∧ g ≠ hash

/-- The references of a hash after the write, from the reference that the file block gives up
and the one that it takes. -/
theorem Wrote.refs_cases (h : Wrote s ino data hash fb r) (g : H) :
    (g = hash ∧ s.db.fileHash ino fb.fileBlockNum ≠ some g ∧
        (r.1.db.refs g : ℤ) = s.db.refs g + 1) ∨
      (g = hash ∧ s.db.fileHash ino fb.fileBlockNum = some g ∧
        (r.1.db.refs g : ℤ) = s.db.refs g) ∨
      (g ≠ hash ∧ s.db.fileHash ino fb.fileBlockNum = some g ∧
        (r.1.db.refs g : ℤ) = s.db.refs g - 1) ∨
      (g ≠ hash ∧ s.db.fileHash ino fb.fileBlockNum ≠ some g ∧
        (r.1.db.refs g : ℤ) = s.db.refs g) := by
  have hrefs := h.refs_eq g
  by_cases hg : hash = g <;> by_cases hold : s.db.fileHash ino fb.fileBlockNum = some g <;>
    simp only [hg, hold, if_true, if_false] at hrefs
  · exact .inr (.inl ⟨hg.symm, hold, by omega⟩)
  · exact .inl ⟨hg.symm, hold, by omega⟩
  · exact .inr (.inr (.inl ⟨Ne.symm hg, hold, by omega⟩))
  · exact .inr (.inr (.inr ⟨Ne.symm hg, hold, by omega⟩))

/-- The rows after the write. -/
theorem Wrote.rowHash_eq (h : Wrote s ino data hash fb r)
    (hb : Replaces.Backed s.db fb (s.lock fb.storageBlock)) (k : ℕ) :
    r.1.db.rowHash k = if k = r.2.storageBlockNum then some hash else s.db.rowHash k := by
  obtain ⟨fblock, sblock, present, hr, hnum⟩ := h.replaces
  split
  · rename_i hk
    rw [hk, ← hnum]
    exact hr.rowHash_self hb
  · rename_i hk
    exact hr.rowHash_of_ne hb (hnum ▸ hk)

/-- The rows of the other hashes stay where they are. -/
theorem Wrote.rowHash_iff (h : Wrote s ino data hash fb r)
    (hb : Replaces.Backed s.db fb (s.lock fb.storageBlock)) {k : ℕ} {g : H} (hg : g ≠ hash) :
    r.1.db.rowHash k = some g ↔ k ≠ r.2.storageBlockNum ∧ s.db.rowHash k = some g := by
  rw [h.rowHash_eq hb]
  by_cases hk : k = r.2.storageBlockNum
  · simp [hk, Ne.symm hg]
  · simp [hk]

/-- When the in-place branch is taken, no file block but the one that is written has the hash of
the row that is overwritten. -/
def InPlaceUnshared (s : Store bits H) (ino : ℕ) (hash : H) (fb : BlockInfo H) : Prop :=
  ∀ b, s.lock fb.storageBlock = some b → b.useCount = 1 → s.db.selectBlockHash hash = none →
    ∀ f o g, s.db.rowHash b.storageBlockNum = some g → s.db.fileHash f o = some g →
      (f, o) = (ino, fb.fileBlockNum)

/-- A hash that another file block has keeps its row in the transaction. -/
theorem Replaces.rowHash_kept {q : Replaced bits H}
    (h : Replaces s.db ino fb (s.lock fb.storageBlock) hash q)
    (hb : Replaces.Backed s.db fb (s.lock fb.storageBlock)) (hin : InPlaceUnshared s ino hash fb)
    {f o k : ℕ} {g : H} (hne : (f, o) ≠ (ino, fb.fileBlockNum))
    (hf : s.db.fileHash f o = some g) (hk : s.db.rowHash k = some g) :
    q.db.rowHash k = some g := by
  by_cases hkn : k = q.fblock.storageBlockNum
  · cases h with
    | hit row sel => rwa [rowHash_hit (.hit row sel) rfl]
    | inPlace b locked one sel =>
      have hnum : b.storageBlockNum = k := (hb b locked).1.trans hkn.symm
      exact absurd (hin b locked one sel f o g (hnum ▸ hk) hf) hne
    | fresh shared sel =>
      rw [show k = s.db.blockHashes.nextId from hkn, Db.rowHash_nextId] at hk
      cases hk
  · rwa [h.rowHash_of_ne hb hkn]

/-- A hash that another file block has keeps its row. -/
theorem Wrote.rowHash_kept (h : Wrote s ino data hash fb r)
    (hb : Replaces.Backed s.db fb (s.lock fb.storageBlock)) (hin : InPlaceUnshared s ino hash fb)
    {f o k : ℕ} {g : H} (hne : (f, o) ≠ (ino, fb.fileBlockNum))
    (hf : s.db.fileHash f o = some g) (hk : s.db.rowHash k = some g) :
    r.1.db.rowHash k = some g := by
  obtain ⟨_, _, _, hr, -⟩ := h.replaces
  exact hr.rowHash_kept hb hin hne hf hk

/-- A row keeps its content, unless it is overwritten in place. -/
theorem Wrote.content_known (h : Wrote s ino data hash fb r)
    (hb : Replaces.Backed s.db fb (s.lock fb.storageBlock)) {k : ℕ}
    (hk : k ≠ s.db.blockHashes.nextId)
    (hplace : s.db.selectBlockHash hash = none → ∀ b, s.lock fb.storageBlock = some b →
      b.useCount = 1 → k ≠ b.storageBlockNum) : r.1.content k = s.content k := by
  rw [h.content_eq, if_neg]
  rintro ⟨hsel, hnum⟩
  cases h with
  | hit row sel =>
    rw [sel] at hsel
    cases hsel
  | inPlace b locked one sel => exact hplace sel b locked one (hnum.trans (hb b locked).1.symm)
  | fresh shared sel => exact hk hnum

/-- A write takes no block out of the cache and puts none in that a `block_info` points to. -/
theorem Wrote.lock_isSome_iff (h : Wrote s ino data hash fb r)
    (hb : Replaces.Backed s.db fb (s.lock fb.storageBlock)) {item : BlockInfo H}
    (hitem : item.Ok s.db) :
    (r.1.lock item.storageBlock).isSome ↔ (s.lock item.storageBlock).isSome := by
  cases hp : item.storageBlock with
  | none => rfl
  | some p =>
    rw [Store.lock_isSome, Store.lock_isSome, hitem.ptr p hp, h.stamp_eq hb hitem.ne_nextId]

/-- How a count of the row `k` moves in a write that ends on the row `n`: the row that was found
gains one, a new row gets 1, the row of the locked block gets what its cached count leaves, and
the others keep theirs. -/
inductive CountStep (s : Store bits H) (w : Option WeakPtr) (n : ℕ) (hash : H) (x : ℕ → Option ℤ)
    (k : ℕ) : ℤ → Prop
  | found (hk : k = n) (row : s.db.rowHash k = some hash) {v : ℤ} (old : x k = some v) :
      CountStep s w n hash x k (v + 1)
  | new (hk : k = n) (absent : s.db.selectBlockHash hash = none) : CountStep s w n hash x k 1
  | left (hk : k ≠ n) (held : s.holds w k) {c : ℤ} (old : s.cnt k = some c) :
      CountStep s w n hash x k (c - 1)
  | other (hk : k ≠ n) (free : ¬s.holds w k) {v : ℤ} (old : x k = some v) :
      CountStep s w n hash x k v

section

omit [DecidableEq H]

/-- The end of a transaction that has released the locked block. -/
theorem useOf_mapFileBlock_release (s : Store bits H) (w : Option WeakPtr) (db : Db H)
    (f o : ℕ) (hash : H) (k : ℕ) :
    (db.mapFileBlock f o hash ((s.lock w).map StorageBlock.release)).useOf k =
      if s.holds w k then (db.useOf k).map fun _ => (s.cnt k).getD 0 - 1 else db.useOf k := by
  cases hl : s.lock w with
  | none =>
    rw [if_neg (Store.not_holds hl k)]
    exact Db.useOf_mapFileBlock_none ..
  | some b =>
    rw [Option.map_some, Db.useOf_mapFileBlock_some]
    show (if k = b.storageBlockNum then (db.useOf k).map fun _ => b.useCount - 1 else _) = _
    by_cases hk : k = b.storageBlockNum
    · rw [if_pos ((Store.holds_iff hl k).mpr hk), if_pos hk, hk, Store.cnt_of_lock hl]
      rfl
    · rw [if_neg fun hh => hk ((Store.holds_iff hl k).mp hh)]
      exact if_neg hk

/-- The number of the locked block has a cached count. -/
theorem Store.cnt_of_holds {w : Option WeakPtr} {k : ℕ} (h : s.holds w k) :
    ∃ c, s.cnt k = some c := by
  obtain ⟨b, hl, rfl⟩ := h
  exact ⟨b.useCount, Store.cnt_of_lock hl⟩

/-- The row of the locked block does not have the new hash. -/
theorem HeldBlock.rowHash_ne (hheld : HeldBlock s ino hash fb) {k : ℕ}
    (h : s.holds fb.storageBlock k) : s.db.rowHash k ≠ some hash := by
  obtain ⟨b, hl, rfl⟩ := h
  obtain ⟨g, -, hg, hne⟩ := hheld b hl
  rw [hg]
  exact fun heq => hne (Option.some.inj heq)

end

/-- A row that has the new hash already is the one that the write ends on. -/
theorem Wrote.num_of_rowHash (h : Wrote s ino data hash fb r) (hu : s.db.HashUnique) {k : ℕ}
    (hk : s.db.rowHash k = some hash) : k = r.2.storageBlockNum := by
  obtain ⟨_, _, _, hr, hnum⟩ := h.replaces
  exact (hr.num_of_rowHash hu hk).trans hnum

variable (hu : s.db.HashUnique)
include hu

/-- The use count in the table. -/
theorem Wrote.useOf_step (h : Wrote s ino data hash fb r)
    (hb : Replaces.Backed s.db fb (s.lock fb.storageBlock)) (hheld : HeldBlock s ino hash fb)
    {k : ℕ} {u : ℤ} (huse : r.1.db.useOf k = some u) :
    CountStep s fb.storageBlock r.2.storageBlockNum hash s.db.useOf k u := by
  cases h with
  | hit row sel =>
    have hrow := Db.rowHash_of_select sel
    rw [Store.adjust_db, Store.setDb_db, useOf_mapFileBlock_release,
      Db.useOf_increaseUseCount] at huse
    by_cases hk : k = row.id
    · have hfree : ¬s.holds fb.storageBlock k := fun hh => hheld.rowHash_ne hh (hk ▸ hrow)
      rw [if_neg hfree, if_pos (hk ▸ hrow)] at huse
      obtain ⟨v, hv, rfl⟩ := Option.map_eq_some_iff.mp huse
      exact .found hk (hk ▸ hrow) hv
    · rw [if_neg fun hkh => hk (hu _ _ _ hkh hrow)] at huse
      by_cases hh : s.holds fb.storageBlock k
      · obtain ⟨c, hc⟩ := Store.cnt_of_holds hh
        rw [if_pos hh, hc] at huse
        obtain ⟨v, -, rfl⟩ := Option.map_eq_some_iff.mp huse
        exact .left hk hh hc
      · rw [if_neg hh] at huse
        exact .other hk hh huse
  | inPlace b locked one sel =>
    have hnum := (hb b locked).1
    rw [place_db, Store.setDb_db, Db.useOf_mapFileBlock_some, Db.useOf_updateBlockHash] at huse
    by_cases hk : k = b.storageBlockNum
    · rw [if_pos hk, one] at huse
      obtain ⟨v, -, rfl⟩ := Option.map_eq_some_iff.mp huse
      exact .new (hk.trans hnum) sel
    · rw [if_neg hk] at huse
      exact .other (hnum ▸ hk) (fun hh => hk ((Store.holds_iff locked k).mp hh)) huse
  | fresh shared sel =>
    rw [place_db, Store.setDb_db, useOf_mapFileBlock_release, Db.useOf_insertBlockHash] at huse
    by_cases hk : k = s.db.blockHashes.nextId
    · have hfree : ¬s.holds fb.storageBlock k := by
        rintro ⟨b, hl, hbk⟩
        obtain ⟨g, -, hg, -⟩ := hheld b hl
        rw [hbk, hk, Db.rowHash_nextId] at hg
        cases hg
      rw [if_neg hfree, if_pos hk] at huse
      cases huse
      exact .new hk sel
    · rw [if_neg hk] at huse
      by_cases hh : s.holds fb.storageBlock k
      · obtain ⟨c, hc⟩ := Store.cnt_of_holds hh
        rw [if_pos hh, hc] at huse
        obtain ⟨v, -, rfl⟩ := Option.map_eq_some_iff.mp huse
        exact .left hk hh hc
      · rw [if_neg hh] at huse
        exact .other hk hh huse

omit hu in
/-- The use count in the cache. -/
theorem Wrote.cnt_step (h : Wrote s ino data hash fb r)
    (hb : Replaces.Backed s.db fb (s.lock fb.storageBlock)) (hheld : HeldBlock s ino hash fb)
    {k : ℕ} {c : ℤ} (hc : r.1.cnt k = some c) :
    CountStep s fb.storageBlock r.2.storageBlockNum hash s.cnt k c := by
  cases h with
  | hit row sel =>
    have hrow := Db.rowHash_of_select sel
    rw [Store.cnt_adjust, Store.cnt_setDb, Store.cnt_releaseLocked] at hc
    by_cases hk : k = row.id
    · have hfree : ¬s.holds fb.storageBlock k := fun hh => hheld.rowHash_ne hh (hk ▸ hrow)
      rw [if_pos hk, if_neg hfree] at hc
      obtain ⟨v, hv, rfl⟩ := Option.map_eq_some_iff.mp hc
      exact .found hk (hk ▸ hrow) hv
    · rw [if_neg hk] at hc
      by_cases hh : s.holds fb.storageBlock k
      · rw [if_pos hh] at hc
        obtain ⟨v, hv, rfl⟩ := Option.map_eq_some_iff.mp hc
        exact .left hk hh hv
      · rw [if_neg hh] at hc
        exact .other hk hh hc
  | inPlace b locked one sel =>
    have hnum := (hb b locked).1
    rw [cnt_place, Store.cnt_setDb] at hc
    by_cases hk : k = fb.storageBlockNum
    · rw [if_pos hk] at hc
      cases hc
      exact .new hk sel
    · rw [if_neg hk, Store.cnt_put, if_neg (hnum ▸ hk)] at hc
      exact .other hk (fun hh => hk (((Store.holds_iff locked k).mp hh).trans hnum)) hc
  | fresh shared sel =>
    rw [cnt_place, Store.cnt_setDb, Store.cnt_releaseLocked] at hc
    by_cases hk : k = s.db.blockHashes.nextId
    · rw [if_pos hk] at hc
      cases hc
      exact .new hk sel
    · rw [if_neg hk] at hc
      by_cases hh : s.holds fb.storageBlock k
      · rw [if_pos hh] at hc
        obtain ⟨v, hv, rfl⟩ := Option.map_eq_some_iff.mp hc
        exact .left hk hh hv
      · rw [if_neg hh] at hc
        exact .other hk hh hc

/-- A count that moves with the write stays what it was to the references of its row. -/
theorem Wrote.tally (hR : Tally R) (h : Wrote s ino data hash fb r)
    (hb : Replaces.Backed s.db fb (s.lock fb.storageBlock)) (hheld : HeldBlock s ino hash fb)
    (hs : Counted R s)
    (hlost : s.lock fb.storageBlock = none → ∀ g, s.db.fileHash ino fb.fileBlockNum = some g →
      ∀ a b, R a b → R (a - 1) b)
    {x : ℕ → Option ℤ} (hx : ∀ k g v, s.db.rowHash k = some g → x k = some v → R (s.db.refs g) v)
    {k : ℕ} {g : H} {v : ℤ} (hrow : r.1.db.rowHash k = some g)
    (hv : CountStep s fb.storageBlock r.2.storageBlockNum hash x k v) :
    R (r.1.db.refs g) v := by
  -- a hash without a row has no references
  have habsent : s.db.selectBlockHash hash = none → s.db.refs hash = 0 := fun hsel =>
    Db.refs_eq_zero fun f o hf => by
      obtain ⟨j, hj⟩ := hs.found f o hash hf
      exact Db.selectBlockHash_none hsel j hj
  rw [h.rowHash_eq hb] at hrow
  cases hv with
  | found hk row old =>
    rename_i v
    rw [if_pos hk] at hrow
    cases hrow
    have hle := hx k hash v row old
    rcases h.refs_cases hash with ⟨-, -, heq⟩ | ⟨-, hold, heq⟩ | ⟨hne, -⟩ | ⟨hne, -⟩
    · rw [heq]
      exact hR.shift _ _ 1 hle
    · -- the block had this hash before, so nothing was locked
      cases hl : s.lock fb.storageBlock with
      | some b =>
        obtain ⟨g, hg, -, hne⟩ := hheld b hl
        rw [hg] at hold
        exact absurd (Option.some.inj hold) hne
      | none =>
        rw [heq]
        have hdown := hlost hl hash hold _ _ (hR.shift _ _ 1 hle)
        rwa [Int.add_sub_cancel] at hdown
    · exact absurd rfl hne
    · exact absurd rfl hne
  | new hk absent =>
    rw [if_pos hk] at hrow
    cases hrow
    have hzero := habsent absent
    rcases h.refs_cases hash with ⟨-, -, heq⟩ | ⟨-, hold, -⟩ | ⟨hne, -⟩ | ⟨hne, -⟩
    · rw [heq, hzero]
      exact hR.self
    · have := Db.refs_pos hold
      omega
    · exact absurd rfl hne
    · exact absurd rfl hne
  | left hk held old =>
    rename_i c
    rw [if_neg hk] at hrow
    obtain ⟨b, hl, rfl⟩ := held
    obtain ⟨g', hold', hg', hne'⟩ := hheld b hl
    rw [hrow] at hg'
    cases hg'
    rcases h.refs_cases g with ⟨heq, -⟩ | ⟨heq, -⟩ | ⟨-, -, heq⟩ | ⟨-, hold, -⟩
    · exact absurd heq hne'
    · exact absurd heq hne'
    · rw [heq]
      exact hR.shift _ _ (-1) (hs.cnt _ g c hrow old)
    · exact absurd hold' hold
  | other hk free old =>
    rw [if_neg hk] at hrow
    have hle := hx k g v hrow old
    rcases h.refs_cases g with ⟨rfl, hold, -⟩ | ⟨rfl, hold, heq⟩ | ⟨hne, hold, heq⟩ | ⟨-, -, heq⟩
    · -- the row with the new hash is the one that the write ends on
      exact absurd (h.num_of_rowHash hu hrow) hk
    · rw [heq]
      exact hle
    · rw [heq]
      cases hl : s.lock fb.storageBlock with
      | none => exact hlost hl g hold _ _ hle
      | some b =>
        obtain ⟨g', hg', hb', -⟩ := hheld b hl
        rw [hold] at hg'
        cases hg'
        exact absurd ⟨b, hl, hu _ _ g hb' hrow⟩ free
    · rw [heq]
      exact hle

omit hu in
/-- **The in-place branch is taken on a block of one file block only.** -/
theorem Counted.inPlaceUnshared (hR : Tally R) (hs : Counted R s)
    (hheld : HeldBlock s ino hash fb) : InPlaceUnshared s ino hash fb := by
  intro b hl hone _ f o g hg hf
  obtain ⟨g', hold, hg', -⟩ := hheld b hl
  rw [hg] at hg'
  cases hg'
  by_contra hne
  have htwo := Db.two_le_refs hf hold hne
  have hle := hs.cnt _ g 1 hg (hone ▸ Store.cnt_of_lock hl)
  have := hR.one _ (by omega) hle
  omega

/-- **A block write keeps the counts**, when it holds the block that the tables give for the
file block, or holds none and `R` allows to lose a reference. -/
theorem Wrote.counted (hR : Tally R) (h : Wrote s ino data hash fb r)
    (hb : Replaces.Backed s.db fb (s.lock fb.storageBlock)) (hheld : HeldBlock s ino hash fb)
    (hs : Counted R s)
    (hlost : s.lock fb.storageBlock = none → ∀ g, s.db.fileHash ino fb.fileBlockNum = some g →
      ∀ a b, R a b → R (a - 1) b) : Counted R r.1 where
  found f o g hf := by
    rw [h.fileHash_eq] at hf
    split at hf
    · cases hf
      exact ⟨r.2.storageBlockNum, by rw [h.rowHash_eq hb, if_pos rfl]⟩
    · rename_i hne
      obtain ⟨k, hk⟩ := hs.found f o g hf
      exact ⟨k, h.rowHash_kept hb (hs.inPlaceUnshared hR hheld) hne hf hk⟩
  use k g u hk huse := h.tally hu hR hb hheld hs hlost hs.use hk (h.useOf_step hu hb hheld huse)
  cnt k g c hk hc := h.tally hu hR hb hheld hs hlost hs.cnt hk (h.cnt_step hb hheld hc)

end write

/-! ### A released block -/

section release

variable {R : ℤ → ℤ → Prop} {s : Store bits H} {ino n k : ℕ} {g : H}

/-- Releasing the block of a file takes the reference and one of each count. -/
theorem Counted.released (hR : Tally R) (hs : Counted R s) (hu : s.db.HashUnique)
    (hold : s.db.fileHash ino n = some g) (hk : s.db.rowHash k = some g) :
    Counted R ((s.setDb (s.db.released ino n (some g))).adjust k (-1)) := by
  have hrow : ∀ j, ((s.setDb (s.db.released ino n (some g))).adjust k (-1)).db.rowHash j =
      s.db.rowHash j := fun j => by
    rw [Store.adjust_db]
    exact rowHash_released ..
  have hrefs : ∀ g',
      ((((s.setDb (s.db.released ino n (some g))).adjust k (-1)).db.refs g' : ℕ) : ℤ) =
        s.db.refs g' - if g' = g then 1 else 0 := fun g' => by
    rw [Store.adjust_db]
    have hd := Db.refs_deleteFileBlock s.db g' ino n
    rw [hold] at hd
    show (((s.db.deleteFileBlock ino n).refs g' : ℕ) : ℤ) = _
    by_cases hg : g' = g
    · rw [if_pos (by rw [hg])] at hd
      rw [if_pos hg]
      omega
    · rw [if_neg fun h => hg (Option.some.inj h).symm] at hd
      rw [if_neg hg]
      omega
  refine ⟨fun f o g' hf => ?_, fun j g' u hj huse => ?_, fun j g' c hj hc => ?_⟩
  · rw [Store.adjust_db, Store.setDb_db, fileHash_released] at hf
    split at hf
    · cases hf
    · obtain ⟨j, hj⟩ := hs.found f o g' hf
      exact ⟨j, (hrow j).trans hj⟩
  · rw [hrow] at hj
    rw [Store.adjust_db, Store.setDb_db] at huse
    rw [hrefs]
    change ((s.db.deleteFileBlock ino n).decreaseUseCount g).useOf j = some u at huse
    rw [Db.useOf_decreaseUseCount, Db.rowHash_deleteFileBlock, Db.useOf_deleteFileBlock, hj] at huse
    by_cases hg : g' = g
    · rw [if_pos (by rw [hg])] at huse
      rw [if_pos hg]
      obtain ⟨v, hv, rfl⟩ := Option.map_eq_some_iff.mp huse
      exact hR.shift _ _ (-1) (hs.use j g' v hj hv)
    · rw [if_neg fun h => hg (Option.some.inj h)] at huse
      rw [if_neg hg, Int.sub_zero]
      exact hs.use j g' u hj huse
  · rw [hrow] at hj
    rw [Store.cnt_adjust, Store.cnt_setDb] at hc
    rw [hrefs]
    by_cases hjk : j = k
    · have hg : g' = g := by
        rw [hjk, hk] at hj
        exact (Option.some.inj hj).symm
      rw [if_pos hjk] at hc
      rw [if_pos hg]
      obtain ⟨v, hv, rfl⟩ := Option.map_eq_some_iff.mp hc
      exact hR.shift _ _ (-1) (hs.cnt j g' v hj hv)
    · have hg : g' ≠ g := fun h => hjk (hu j k g (h ▸ hj) hk)
      rw [if_neg hjk] at hc
      rw [if_neg hg, Int.sub_zero]
      exact hs.cnt j g' c hj hc

end release

/-! ### Rounds -/

/-- The number of the `block_info` that the handle keeps for a block, if any, is cached when the
pointer has expired: its use count is not loaded again. -/
def StillCached (s : Store bits H) (fi : FileInfo H) (n : ℕ) : Prop :=
  ∀ item, fi.blocks n = some item → item.empty = false → s.lock item.storageBlock = none →
    (s.cnt item.storageBlockNum).isSome

/-- The `block_info` that the handle keeps for a block, if any, is empty with an expired
pointer, or has the number that the tables give for the block, and that number is cached. -/
def Current (s : Store bits H) (fi : FileInfo H) (n : ℕ) : Prop :=
  ∀ item, fi.blocks n = some item →
    (item.empty = true ∧ s.lock item.storageBlock = none) ∨
      ∃ g, s.db.fileHash fi.stIno n = some g ∧ s.db.rowHash item.storageBlockNum = some g ∧
        (s.cnt item.storageBlockNum).isSome

/-- The tables have a hash for the block, but the handle takes it for a hole. -/
def Lost (cfg : Config bits H) (s : Store bits H) (fi : FileInfo H) (n : ℕ) : Prop :=
  (s.db.fileHash fi.stIno n).isSome ∧ (fileBlock cfg s fi n).1.empty = true ∧
    s.lock (fileBlock cfg s fi n).1.storageBlock = none

/-- The contents that a round of `writeBuf` can give to its block. -/
def NewContent (cfg : Config bits H) (s : Store bits H) (fi : FileInfo H) (buf : List UInt8)
    (c : Chunk) (x : Block bits) : Prop :=
  ∃ old, (c.len < blockSize bits → (getLockedFileBlock cfg s fi c.block).store.shown
      (getLockedFileBlock cfg s fi c.block).fblock.storageBlock = some old) ∧ x = c.data buf old

/-- The write does not give the block the hash that it has already, unless the handle takes it
for a hole. -/
def Changes (cfg : Config bits H) (s : Store bits H) (fi : FileInfo H) (buf : List UInt8)
    (c : Chunk) : Prop :=
  ¬Lost cfg s fi c.block → ∀ x, NewContent cfg s fi buf c x →
    s.db.fileHash fi.stIno c.block ≠ some (cfg.murmur x)

/-- The `block_info` that the handle keeps for a block, if any, has no hash, or the hash and the
number that the tables have. -/
def Accurate (s : Store bits H) (fi : FileInfo H) (n : ℕ) : Prop :=
  ∀ item, fi.blocks n = some item → item.hash = .null ∨
    ∃ g, item.hash = .digest g ∧ s.db.fileHash fi.stIno n = some g ∧
      s.db.rowHash item.storageBlockNum = some g

section rounds

variable {R : ℤ → ℤ → Prop} {cfg : Config bits H} {s s' : Store bits H} {fi fi' : FileInfo H}
  {n : ℕ}

omit [DecidableEq H] in
theorem Current.stillCached (h : Current s fi n) : StillCached s fi n := by
  intro item hitem hfilled _
  rcases h item hitem with ⟨hempty, -⟩ | ⟨-, -, -, hcnt⟩
  · rw [hfilled] at hempty
    cases hempty
  · exact hcnt

/-- The count that comes with a block that the handle does not know is that of its row. -/
theorem fileBlock_useCount
    (hfound : ∀ f o g, s.db.fileHash f o = some g → ∃ k, s.db.rowHash k = some g)
    (hnew : fi.blocks n = none) (hfilled : (fileBlock cfg s fi n).1.empty = false) :
    s.db.useOf (fileBlock cfg s fi n).1.storageBlockNum = some (fileBlock cfg s fi n).2 := by
  unfold fileBlock at hfilled ⊢
  rw [hnew] at hfilled ⊢
  dsimp only at hfilled ⊢
  have hl := loadFileBlock_loads cfg s.db fi n
  generalize loadFileBlock cfg s.db fi (.new n) = q at hl hfilled ⊢
  cases hl with
  | skipped past => cases hfilled
  | absent unmapped => cases hfilled
  | dangling g mapped sel =>
    obtain ⟨j, hj⟩ := hfound _ _ g mapped
    exact absurd hj (Db.selectBlockHash_none sel j)
  | found row mapped sel => exact Db.useOf_of_select sel

/-- **A block is loaded with the count of its row**: a cached count was there before the block was
located, or is that of the table. -/
theorem cnt_locate (hfound : ∀ f o g, s.db.fileHash f o = some g → ∃ k, s.db.rowHash k = some g)
    (hcached : StillCached s fi n) {k : ℕ} {c : ℤ}
    (hc : (getLockedFileBlock cfg s fi n).store.cnt k = some c) :
    s.cnt k = some c ∨ s.cnt k = none ∧ s.db.useOf k = some c := by
  have hloc := getLockedFileBlock_locates cfg s fi n
  generalize getLockedFileBlock cfg s fi n = l at hloc hc
  cases hloc with
  | kept h => exact .inl hc
  | reloaded filled dead =>
    obtain ⟨-, -, -, hcnt, -⟩ := ensureLoaded_views s (fileBlock cfg s fi n).1
      (fileBlock cfg s fi n).2
    rw [hcnt] at hc
    split at hc
    · rename_i hnew
      obtain ⟨rfl, hnone⟩ := hnew
      cases hc
      cases hfb : fi.blocks n with
      | some item =>
        -- the count of a block that the handle knows is not loaded again
        have hitem : (fileBlock cfg s fi n).1 = item := by
          unfold fileBlock
          rw [hfb]
        rw [hitem] at filled dead hnone
        have hsome := hcached item hfb filled dead
        rw [hnone] at hsome
        cases hsome
      | none => exact .inr ⟨hnone, fileBlock_useCount hfound hfb filled⟩
    · exact .inl hc

/-- Locating a block takes none out of the cache. -/
theorem cnt_locate_none {k : ℕ} (h : (getLockedFileBlock cfg s fi n).store.cnt k = none) :
    s.cnt k = none := by
  have hloc := getLockedFileBlock_locates cfg s fi n
  generalize getLockedFileBlock cfg s fi n = l at hloc h
  cases hloc with
  | kept => exact h
  | reloaded filled dead =>
    rw [(ensureLoaded_views s _ _).2.2.2.1] at h
    split at h
    · cases h
    · exact h

/-- Locating a block keeps the counts, when it loads the count of a row from the tables only. -/
theorem Counted.locate (hs : Counted R s) (hcached : StillCached s fi n) :
    Counted R (getLockedFileBlock cfg s fi n).store := by
  have hdb := (getLockedFileBlock_locates cfg s fi n).db_eq
  refine ⟨hdb ▸ hs.found, hdb ▸ hs.use, fun k g c hk hc => ?_⟩
  rw [hdb] at hk ⊢
  rcases cnt_locate hs.found hcached hc with hold | ⟨-, huse⟩
  · exact hs.cnt k g c hk hold
  · exact hs.use k g c hk huse

/-- A block that can be locked after it was located is the one that the tables give. -/
theorem Current.held (hcur : Current s fi n) (hco : Coherent cfg s) (hfi : fi.Ok s.db)
    {b : StorageBlock bits H}
    (hb : (getLockedFileBlock cfg s fi n).store.lock
      (getLockedFileBlock cfg s fi n).fblock.storageBlock = some b)
    (hmap : ∀ g, s.db.fileHash fi.stIno n = some g → ∃ k, s.db.rowHash k = some g) :
    ∃ g, s.db.fileHash fi.stIno n = some g ∧ s.db.rowHash b.storageBlockNum = some g := by
  have hok := (hco.locate hfi n).2.2
  have hnum : b.storageBlockNum = (getLockedFileBlock cfg s fi n).fblock.storageBlockNum :=
    hok.ptr _ (Store.lock_eq_some.mp hb).1
  have hloc := getLockedFileBlock_locates cfg s fi n
  rw [hnum, hloc.fblock_eq.2.1]
  have hlive : ¬((fileBlock cfg s fi n).1.empty = true ∧
      s.lock (fileBlock cfg s fi n).1.storageBlock = none) := by
    rintro ⟨hempty, hnone⟩
    generalize getLockedFileBlock cfg s fi n = l at hloc hb
    cases hloc with
    | kept h =>
      rw [hnone] at hb
      cases hb
    | reloaded filled dead =>
      rw [filled] at hempty
      cases hempty
  clear hloc hnum hok hb
  revert hlive
  unfold fileBlock
  cases hfb : fi.blocks n with
  | some item =>
    intro hlive
    obtain ⟨g, hg, hrow, -⟩ := (hcur item hfb).resolve_left hlive
    exact ⟨g, hg, hrow⟩
  | none =>
    dsimp only
    have hl := loadFileBlock_loads cfg s.db fi n
    generalize loadFileBlock cfg s.db fi (.new n) = q at hl ⊢
    intro hlive
    cases hl with
    | skipped past => exact absurd ⟨rfl, rfl⟩ hlive
    | absent unmapped => exact absurd ⟨rfl, rfl⟩ hlive
    | dangling g mapped sel =>
      obtain ⟨k, hk⟩ := hmap g mapped
      exact absurd hk (Db.selectBlockHash_none sel k)
    | found row mapped sel => exact ⟨row.hash, mapped, Db.rowHash_of_select sel⟩

theorem lost_iff :
    Lost cfg s fi n ↔ (s.db.fileHash fi.stIno n).isSome ∧
      (getLockedFileBlock cfg s fi n).store.lock
        (getLockedFileBlock cfg s fi n).fblock.storageBlock = none := by
  refine and_congr_right fun _ => ?_
  have hloc := getLockedFileBlock_locates cfg s fi n
  generalize getLockedFileBlock cfg s fi n = l at hloc ⊢
  constructor
  · rintro ⟨hempty, hnone⟩
    cases hloc with
    | kept h => exact hnone
    | reloaded filled dead =>
      rw [filled] at hempty
      cases hempty
  · intro hnone
    have hempty : (fileBlock cfg s fi n).1.empty = true := by
      by_contra hfilled
      have := hloc.lock_isSome (Bool.eq_false_iff.mpr hfilled)
      rw [hnone] at this
      cases this
    cases hloc with
    | kept h => exact ⟨hempty, hnone⟩
    | reloaded filled dead =>
      rw [filled] at hempty
      cases hempty

/-- What a round relies on: the handle's `block_info` is up to date, and a write changes the
hash of the block.  A read relies on the count of the block not being loaded again. -/
def Round.UpToDate (cfg : Config bits H) (p : Store bits H × FileInfo H) : Round → Prop
  | .resize _ => True
  | .read c => StillCached p.1 p.2 c.block
  | .write buf c => Current p.1 p.2 c.block ∧ Changes cfg p.1 p.2 buf c
  | .release n => Accurate p.1 p.2 n

/-- The block that a write locks when its round is up to date. -/
theorem heldBlock_of_current (hs : Counted R s) (hco : Coherent cfg s) (hfi : fi.Ok s.db)
    {buf : List UInt8} {c : Chunk} (hcur : Current s fi c.block) (hch : Changes cfg s fi buf c)
    {s₁ : Store bits H} (hsame : (getLockedFileBlock cfg s fi c.block).store.Same s₁)
    {x : Block bits} (hx : NewContent cfg s fi buf c x) :
    HeldBlock s₁ fi.stIno (cfg.murmur x) (getLockedFileBlock cfg s fi c.block).fblock := by
  have hdb : s₁.db = s.db := hsame.db.trans (getLockedFileBlock_locates cfg s fi c.block).db_eq
  have hnum := (hco.locate hfi c.block).2.1
  intro b hb
  obtain ⟨b', hb', hbn, -⟩ := hsame.symm.lock hb
  obtain ⟨g, hg, hrow⟩ := hcur.held hco hfi hb' fun g hg => hs.found _ _ g hg
  rw [hnum, hdb]
  refine ⟨g, hg, hbn ▸ hrow, fun heq => ?_⟩
  have hnot : ¬Lost cfg s fi c.block := fun hl => by
    rw [(lost_iff.mp hl).2] at hb'
    cases hb'
  exact hch hnot x hx (heq ▸ hg)

/-- The block that a release gives up is the one that the tables give. -/
theorem Accurate.held (hs : Counted R s) (hacc : Accurate s fi n) {g : Option H}
    (hhash : (heldBlock cfg s.db fi n).hash = g.elim .empty .digest) :
    ∃ g', g = some g' ∧ s.db.fileHash fi.stIno n = some g' ∧
      s.db.rowHash (heldBlock cfg s.db fi n).storageBlockNum = some g' := by
  unfold heldBlock at hhash ⊢
  cases hfb : fi.blocks n with
  | some item =>
    rw [hfb] at hhash
    dsimp only at hhash ⊢
    rcases hacc item hfb with hnull | ⟨g', hg', hfile, hrow⟩
    · rw [hnull] at hhash
      cases g <;> cases hhash
    · rw [hg'] at hhash
      cases g <;> cases hhash
      exact ⟨g', rfl, hfile, hrow⟩
  | none =>
    rw [hfb] at hhash
    dsimp only at hhash ⊢
    have hl := loadFileBlock_loads cfg s.db fi n
    generalize loadFileBlock cfg s.db fi (.new n) = q at hl hhash ⊢
    cases hl with
    | skipped past => cases g <;> cases hhash
    | absent unmapped => cases g <;> cases hhash
    | dangling g' mapped sel =>
      obtain ⟨k, hk⟩ := hs.found _ _ g' mapped
      exact absurd hk (Db.selectBlockHash_none sel k)
    | found row mapped sel =>
      cases g <;> cases hhash
      exact ⟨row.hash, rfl, mapped, Db.rowHash_of_select sel⟩

/-- Locating and touching a block keeps the counts. -/
theorem Counted.touched (hs : Counted R s) (hcached : StillCached s fi n) {s₁ : Store bits H}
    (htouch : (getLockedFileBlock cfg s fi n).store.Touches s₁) : Counted R s₁ := by
  refine (hs.locate hcached).congr ?_ ?_ ?_ ?_ fun k c hc => htouch.same.cnt k ▸ hc
  all_goals
    rw [htouch.same.db]
    intros
    rfl

/-- **A round keeps the counts** when it is up to date, and does not write to a lost block
unless `R` allows to lose a reference. -/
theorem roundStep_counted (hR : Tally R) (hs : Counted R s) (hco : Coherent cfg s)
    (hfi : fi.Ok s.db) {r : Round} {o : List UInt8} (hok : r.UpToDate cfg (s, fi))
    (hlost : ∀ buf c, r = .write buf c → Lost cfg s fi c.block → ∀ a b, R a b → R (a - 1) b)
    (hr : roundStep cfg (s, fi) r = .ok ((s', fi'), o)) : Counted R s' := by
  cases roundStep_stepped hr with
  | resize newSize =>
    obtain ⟨files, hfiles⟩ := ftruncate_files s.db fi newSize
    refine hs.congr (fun k => ?_) (fun k => ?_) (fun f o => ?_) (fun g => ?_) fun k c hc => hc
    all_goals
      rw [Store.setDb_db, hfiles]
      rfl
  | read c x touched shown => exact hs.touched hok touched
  | @write buf c s₁ old touched shown r ran wrote =>
    obtain ⟨hcur, hch⟩ := hok
    have hloc := getLockedFileBlock_locates cfg s fi c.block
    obtain ⟨hl, hnum, hfb⟩ := hco.locate hfi c.block
    have hdb : s₁.db = s.db := touched.same.db.trans hloc.db_eq
    have hco₁ := hl.touches touched
    refine wrote.counted hco₁.unique hR (hco₁.backed (hdb ▸ hfb))
      (heldBlock_of_current hs hco hfi hcur hch touched.same ⟨old, shown, rfl⟩)
      (hs.touched hcur.stillCached touched) fun hnone g hg => ?_
    rw [hnum, hdb] at hg
    apply hlost buf c rfl
    rw [lost_iff]
    refine ⟨by rw [hg]; rfl, ?_⟩
    rw [← Option.isNone_iff_eq_none, ← Option.not_isSome, ← touched.same.lock_isSome, hnone]
    rfl
  | release n g hash =>
    obtain ⟨g', rfl, hfile, hrow⟩ := hok.held hs hash
    have hne : (heldBlock cfg s.db fi n).storageBlockNum ≠ 0 := by
      intro h0
      rw [h0, hco.zero] at hrow
      cases hrow
    rw [Store.released, if_pos hne]
    exact hs.released hR hco.unique hfile hrow

end rounds

end Wwdedup
