import Wwdedup.HandleReads
import Mathlib.Data.UInt

/-!
# One write through a new handle

A new handle looks up every block that it writes, and a single call visits a block once.  So the
block that it locks is the one that the tables give (`LocksOwn`), and the use count that it works
with, the cached one or else that of the row (`Store.count`), is the number of references.  A
block that is written with its own bytes leaves its row one too low, but the cached count is
right, and it is the cached count that the rest of the call goes by.  `Usable` collects what a
block write needs and keeps.
-/

namespace Wwdedup

open GuardedRun

variable {bits : ℕ} {H : Type} [DecidableEq H]

/-- The use count that a request works with: the cached one, or else that of the row. -/
def Store.count (s : Store bits H) (k : ℕ) : Option ℤ := (s.cnt k).or (s.db.useOf k)

/-- The hashes of `file_blocks` have rows, every row has a content with its hash, and the counts
that requests work with are the numbers of references. -/
structure Usable (cfg : Config bits H) (s : Store bits H) : Prop where
  numbered : s.db.rowHash 0 = none
  unique : s.db.HashUnique
  found : ∀ f o g, s.db.fileHash f o = some g → ∃ k, s.db.rowHash k = some g
  row : ∀ k g, s.db.rowHash k = some g → ∃ x, s.content k = some x ∧ cfg.murmur x = g
  count : ∀ k g, s.db.rowHash k = some g → s.count k = some (s.db.refs g : ℤ)

/-- The `block_info` locks the block that the tables give for the file block, and no block where
there is no row. -/
structure LocksOwn (s : Store bits H) (ino : ℕ) (fb : BlockInfo H) : Prop where
  hole : s.lock fb.storageBlock = none → s.db.fileHash ino fb.fileBlockNum = none
  held : ∀ b, s.lock fb.storageBlock = some b → b.storageBlockNum = fb.storageBlockNum ∧
    ∃ g, s.db.fileHash ino fb.fileBlockNum = some g ∧ s.db.rowHash b.storageBlockNum = some g

section own

variable {s s' : Store bits H} {ino : ℕ} {fb : BlockInfo H}

section

omit [DecidableEq H]

theorem LocksOwn.backed (h : LocksOwn s ino fb) :
    Replaces.Backed s.db fb (s.lock fb.storageBlock) := by
  intro b hl
  obtain ⟨hnum, g, -, hrow⟩ := h.held b hl
  exact ⟨hnum, fun _ => by rw [hrow]; rfl⟩

/-- The row with the old hash of the file block is that of the locked block. -/
theorem LocksOwn.holds_iff (h : LocksOwn s ino fb) (hu : s.db.HashUnique) {k : ℕ} {g : H}
    (hk : s.db.rowHash k = some g) :
    s.holds fb.storageBlock k ↔ s.db.fileHash ino fb.fileBlockNum = some g := by
  constructor
  · rintro ⟨b, hl, rfl⟩
    obtain ⟨-, g', hfile, hrow⟩ := h.held b hl
    rw [hk] at hrow
    cases hrow
    exact hfile
  · intro hfile
    cases hl : s.lock fb.storageBlock with
    | none =>
      rw [h.hole hl] at hfile
      cases hfile
    | some b =>
      obtain ⟨-, g', hfile', hrow⟩ := h.held b hl
      rw [hfile] at hfile'
      cases hfile'
      exact ⟨b, hl, hu _ _ g hrow hk⟩

theorem LocksOwn.same (h : LocksOwn s ino fb) (hs : s.Same s') : LocksOwn s' ino fb where
  hole hl := by
    rw [hs.db]
    apply h.hole
    rw [← Option.not_isSome_iff_eq_none, ← hs.lock_isSome, hl]
    nofun
  held b hl := by
    obtain ⟨b', hb', hnum, -⟩ := hs.symm.lock hl
    rw [hs.db, ← hnum]
    exact h.held b' hb'

end

theorem Usable.same {cfg : Config bits H} (h : Usable cfg s) (hs : s.Same s') :
    Usable cfg s' where
  numbered := hs.db ▸ h.numbered
  unique := hs.db ▸ h.unique
  found := hs.db ▸ h.found
  row k g hk := by
    rw [hs.content]
    exact h.row k g (hs.db ▸ hk)
  count k g hk := by
    unfold Store.count
    rw [hs.cnt, hs.db]
    exact h.count k g (hs.db ▸ hk)

end own

/-! ### Locating a block for the first time -/

section locate

variable {cfg : Config bits H} {s : Store bits H} {fi : FileInfo H} {n : ℕ}

theorem Usable.mapped (h : Usable cfg s) (f o : ℕ) (g : H) (hg : s.db.fileHash f o = some g) :
    (s.db.selectBlockHash g).isSome := by
  obtain ⟨k, hk⟩ := h.found f o g hg
  exact Db.selectBlockHash_isSome hk

theorem Usable.slots (h : Usable cfg s) (k : ℕ) (hk : (s.db.rowHash k).isSome) :
    (s.content k).isSome := by
  obtain ⟨g, hg⟩ := Option.isSome_iff_exists.mp hk
  obtain ⟨x, hx, -⟩ := h.row k g hg
  rw [hx]
  rfl

omit [DecidableEq H] in
/-- A block that is put into the cache with the count of its row keeps the count. -/
theorem Locates.count_eq {item : BlockInfo H} {u : ℤ} {l : Located bits H}
    (hl : Locates s fi item u l)
    (hu : item.empty = false → s.db.useOf item.storageBlockNum = some u) (k : ℕ) :
    l.store.count k = s.count k := by
  cases hl with
  | kept => rfl
  | reloaded filled dead =>
    obtain ⟨hdb, -, -, hcnt, -⟩ := ensureLoaded_views s item u
    unfold Store.count
    rw [hcnt, hdb]
    split
    · rename_i hk
      rw [hk.2, hk.1, hu filled]
      rfl
    · rfl

/-- A located block that follows the tables is the file block's own. -/
theorem Locates.locksOwn {item : BlockInfo H} {u : ℤ} {l : Located bits H}
    (hl : Locates s fi item u l) {ino : ℕ} (hitem : item.Follows s.db ino) :
    LocksOwn l.store ino l.fblock := by
  have hnum := hl.fblock_eq.1
  have hdb := hl.db_eq
  refine ⟨fun hnone => ?_, fun b hb => ?_⟩
  · cases hempty : item.empty with
    | true =>
      rw [hdb, hnum]
      exact (hitem.hole hempty).2
    | false =>
      have hsome := hl.lock_isSome hempty
      rw [hnone] at hsome
      cases hsome
  · have hptr : ∀ p, l.fblock.storageBlock = some p → p.num = l.fblock.storageBlockNum := by
      cases hl with
      | kept => exact hitem.ok.ptr
      | reloaded filled dead =>
        intro p hp
        cases hp
        exact (ensureLoaded_views s _ _).2.2.2.2.2.2.1
    have hbn : b.storageBlockNum = l.fblock.storageBlockNum :=
      hptr _ (Store.lock_eq_some.mp hb).1
    refine ⟨hbn, ?_⟩
    rw [hbn, hl.fblock_eq.2.1, hdb, hnum]
    cases hempty : item.empty with
    | true =>
      -- a hole locks nothing
      cases hl with
      | kept h =>
        rw [(hitem.hole hempty).1] at hb
        cases hb
      | reloaded filled dead =>
        rw [filled] at hempty
        cases hempty
    | false =>
      obtain ⟨row, hrow, hid⟩ := hitem.row hempty
      obtain ⟨g, hg, hsel⟩ := Option.bind_eq_some_iff.mp hrow
      exact ⟨g, hg, hid ▸ Db.rowHash_of_select hsel⟩

/-- **The first access to a block** keeps what a write needs, locks the block's own storage block
and shows what the tables give. -/
theorem Usable.locate (h : Usable cfg s) (hnew : fi.blocks n = none)
    (hdb : cfg.dbBlockSize ≤ blockSize bits) (hin : n * blockSize bits ≤ fi.stSize) :
    let l := getLockedFileBlock cfg s fi n
    Usable cfg l.store ∧ l.fblock.fileBlockNum = n ∧ LocksOwn l.store fi.stIno l.fblock ∧
      l.store.shown l.fblock.storageBlock = some (s.blockOf fi.stIno n) := by
  obtain ⟨hnum, hfollows⟩ := fileBlock_follows h.mapped
    (fun item hitem => nomatch hnew.symm.trans hitem) hdb hin
  have hl := getLockedFileBlock_locates cfg s fi n
  have hshown := hl.shown_follows hfollows h.numbered h.slots
  have hcount := hl.count_eq (fileBlock_useCount h.found hnew)
  rw [hnum] at hshown
  refine ⟨⟨?_, ?_, ?_, ?_, ?_⟩, hl.fblock_eq.1.trans hnum, hl.locksOwn hfollows, hshown⟩
  · exact hl.db_eq ▸ h.numbered
  · exact hl.db_eq ▸ h.unique
  · exact hl.db_eq ▸ h.found
  · intro k g hk
    rw [hl.content_eq]
    exact h.row k g (hl.db_eq ▸ hk)
  · intro k g hk
    rw [hcount, hl.db_eq]
    exact h.count k g (hl.db_eq ▸ hk)

end locate

/-! ### A block write -/

section write

variable {cfg : Config bits H} {s : Store bits H} {ino : ℕ} {data : Block bits} {hash : H}
  {fb : BlockInfo H} {r : Store bits H × BlockInfo H}

omit [DecidableEq H] in
/-- The counts after a transaction that has released the locked block. -/
theorem count_releaseLocked (s : Store bits H) (w : Option WeakPtr) (db : Db H) (f o : ℕ)
    (hash : H) (k : ℕ) :
    ((s.releaseLocked w).setDb
        (db.mapFileBlock f o hash ((s.lock w).map StorageBlock.release))).count k =
      if s.holds w k then (s.cnt k).map (· - 1) else (s.cnt k).or (db.useOf k) := by
  unfold Store.count
  rw [Store.cnt_setDb, Store.cnt_releaseLocked, Store.setDb_db, useOf_mapFileBlock_release]
  by_cases hh : s.holds w k
  · obtain ⟨c, hc⟩ := Store.cnt_of_holds hh
    rw [if_pos hh, if_pos hh, if_pos hh, hc]
    rfl
  · rw [if_neg hh, if_neg hh, if_neg hh]

omit [DecidableEq H] in
theorem count_place (s : Store bits H) (n : ℕ) (data : Block bits) (hash : H) (k : ℕ) :
    (s.place n data hash).count k = if k = n then some 1 else s.count k := by
  unfold Store.count
  rw [cnt_place, place_db]
  split <;> rfl

/-- A hash that was found: its row gains one, and the locked block loses one, which for the same
row leaves its count as it was. -/
theorem count_hit (hu : s.db.HashUnique) {row : BlockHashRow H} {w : Option WeakPtr}
    (sel : s.db.selectBlockHash hash = some row) (f o k : ℕ) :
    (((s.releaseLocked w).setDb ((s.db.increaseUseCount hash).mapFileBlock f o hash
        ((s.lock w).map StorageBlock.release))).adjust row.id 1).count k =
      (s.count k).map fun c =>
        c + (if k = row.id then 1 else 0) - if s.holds w k then 1 else 0 := by
  have hrow := Db.rowHash_of_select sel
  have hcount : ∀ (s : Store bits H) d, (s.adjust row.id d).count k =
      ((if k = row.id then (s.cnt k).map (· + d) else s.cnt k).or (s.db.useOf k)) := by
    intro s d
    unfold Store.count
    rw [Store.cnt_adjust, Store.adjust_db]
  rw [hcount, Store.cnt_setDb, Store.cnt_releaseLocked, Store.setDb_db,
    useOf_mapFileBlock_release, Db.useOf_increaseUseCount]
  unfold Store.count
  obtain rfl | hk := eq_or_ne k row.id
  · rw [if_pos rfl, if_pos rfl, if_pos hrow]
    by_cases hh : s.holds w row.id
    · obtain ⟨c, hc⟩ := Store.cnt_of_holds hh
      simp [hh, hc]
    · cases hc : s.cnt row.id with
      | some c => simp [hh]
      | none => simp [hh]
  · have hne : s.db.rowHash k ≠ some hash := fun hk' => hk (hu _ _ _ hk' hrow)
    rw [if_neg hk, if_neg hk, if_neg hne]
    by_cases hh : s.holds w k
    · obtain ⟨c, hc⟩ := Store.cnt_of_holds hh
      simp [hh, hc]
    · simp [hh]

/-- A hash without a row is that of no file block. -/
theorem Usable.not_fileHash (hs : Usable cfg s) (hsel : s.db.selectBlockHash hash = none)
    (f o : ℕ) : s.db.fileHash f o ≠ some hash := by
  intro hf
  obtain ⟨k, hk⟩ := hs.found f o hash hf
  exact Db.selectBlockHash_none hsel k hk

/-- The row of a new hash has one reference, that of the file block. -/
theorem Wrote.refs_new (h : Wrote s ino data hash fb r) (hs : Usable cfg s)
    (hsel : s.db.selectBlockHash hash = none) : r.1.db.refs hash = 1 := by
  have hzero : s.db.refs hash = 0 := Db.refs_eq_zero (hs.not_fileHash hsel)
  have hrefs := h.refs_eq hash
  rw [if_neg (hs.not_fileHash hsel _ _), if_pos rfl, hzero] at hrefs
  exact hrefs

/-- **The counts stay the numbers of references**, whichever of the three the write does. -/
theorem Wrote.count_eq (h : Wrote s ino data hash fb r) (hs : Usable cfg s)
    (hown : LocksOwn s ino fb) {k : ℕ} {g : H} (hk : r.1.db.rowHash k = some g) :
    r.1.count k = some (r.1.db.refs g : ℤ) := by
  have hnew : s.db.selectBlockHash hash = none → hash = g → r.1.db.refs g = 1 :=
    fun hsel hg => hg ▸ h.refs_new hs hsel
  have hrefs := h.refs_eq g
  rw [h.rowHash_eq hown.backed] at hk
  generalize r.1.db.refs g = n at hnew hrefs ⊢
  cases h with
  | hit row sel =>
    have hrow := Db.rowHash_of_select sel
    have hk₀ : s.db.rowHash k = some g := by
      split at hk
      · rename_i hkn
        rw [show k = row.id from hkn, hrow]
        exact hk
      · exact hk
    have hat : k = row.id ↔ hash = g := by
      constructor
      · rintro rfl
        rw [hrow] at hk₀
        exact Option.some.inj hk₀
      · rintro rfl
        exact hs.unique _ _ _ hk₀ hrow
    have hheld := hown.holds_iff hs.unique hk₀
    rw [count_hit hs.unique sel, hs.count k g hk₀, Option.map_some, if_congr hat rfl rfl,
      if_congr hheld rfl rfl]
    congr 1
    split_ifs at hrefs ⊢ <;> omega
  | inPlace b locked one sel =>
    have hnum := (hown.held b locked).1
    rw [count_place]
    by_cases hkn : k = fb.storageBlockNum
    · rw [if_pos hkn] at hk
      rw [if_pos hkn, hnew sel (Option.some.inj hk)]
      rfl
    · rw [if_neg hkn] at hk
      have hfree : s.db.fileHash ino fb.fileBlockNum ≠ some g := by
        rw [ne_eq, ← hown.holds_iff hs.unique hk, Store.holds_iff locked, hnum]
        exact hkn
      have hne : hash ≠ g := by
        rintro rfl
        exact Db.selectBlockHash_none sel k hk
      rw [if_neg hfree, if_neg hne, Nat.add_zero, Nat.add_zero] at hrefs
      rw [if_neg hkn]
      unfold Store.count
      rw [Store.cnt_setDb, Store.cnt_put, if_neg (hnum ▸ hkn), Store.setDb_db,
        Db.useOf_mapFileBlock_some, if_neg (hnum ▸ hkn), Db.useOf_updateBlockHash, hrefs]
      exact hs.count k g hk
  | fresh shared sel =>
    rw [count_place]
    by_cases hkn : k = s.db.blockHashes.nextId
    · rw [if_pos hkn] at hk
      rw [if_pos hkn, hnew sel (Option.some.inj hk)]
      rfl
    · rw [if_neg hkn] at hk
      have hne : hash ≠ g := by
        rintro rfl
        exact Db.selectBlockHash_none sel k hk
      have hheld := hown.holds_iff hs.unique hk
      have hcount := hs.count k g hk
      rw [if_neg hne, Nat.add_zero] at hrefs
      rw [if_neg hkn, count_releaseLocked, Db.useOf_insertBlockHash, if_neg hkn]
      by_cases hh : s.holds fb.storageBlock k
      · obtain ⟨c, hc⟩ := Store.cnt_of_holds hh
        rw [if_pos (hheld.mp hh)] at hrefs
        rw [if_pos hh, hc]
        unfold Store.count at hcount
        rw [hc, Option.some_or] at hcount
        cases hcount
        rw [Option.map_some]
        congr 1
        omega
      · rw [if_neg (mt hheld.mpr hh), Nat.add_zero] at hrefs
        rw [if_neg hh, hrefs]
        exact hcount

/-- The in-place branch is taken on a block that no other file block has. -/
theorem LocksOwn.inPlaceUnshared (hown : LocksOwn s ino fb) (hs : Usable cfg s) :
    InPlaceUnshared s ino hash fb := by
  intro b hl hone _ f o g hg hf
  obtain ⟨-, g', hold, hg'⟩ := hown.held b hl
  rw [hg] at hg'
  cases hg'
  by_contra hne
  have htwo := Db.two_le_refs hf hold hne
  have hcount := hs.count _ g hg
  unfold Store.count at hcount
  rw [Store.cnt_of_lock hl, hone] at hcount
  have := Option.some.inj hcount
  omega

/-- **A block write keeps what block writes need.** -/
theorem Wrote.usable (h : Wrote s ino data (cfg.murmur data) fb r) (hs : Usable cfg s)
    (hown : LocksOwn s ino fb) : Usable cfg r.1 := by
  have hrow := h.rowHash_eq hown.backed
  obtain ⟨fblock, sblock, present, hr, hnum⟩ := h.replaces
  have hne := hr.num_ne_zero hown.backed hs.numbered
  refine ⟨?_, hr.hashUnique hs.unique, fun f o g hf => ?_, fun k g hk => ?_,
    fun k g hk => h.count_eq hs hown hk⟩
  · rw [hrow, if_neg (hnum ▸ Ne.symm hne)]
    exact hs.numbered
  · rw [h.fileHash_eq] at hf
    split at hf
    · cases hf
      exact ⟨r.2.storageBlockNum, by rw [hrow, if_pos rfl]⟩
    · rename_i hother
      obtain ⟨k, hk⟩ := hs.found f o g hf
      exact ⟨k, h.rowHash_kept hown.backed (hown.inPlaceUnshared hs) hother hf hk⟩
  · rw [h.content_eq]
    rw [hrow] at hk
    by_cases hkn : k = r.2.storageBlockNum
    · rw [if_pos hkn] at hk
      cases hk
      cases hsel : s.db.selectBlockHash (cfg.murmur data) with
      | none => exact ⟨data, if_pos ⟨rfl, hkn⟩, rfl⟩
      | some row =>
        have hat := h.num_of_select hsel
        obtain ⟨x, hx, hmx⟩ := hs.row row.id _ (Db.rowHash_of_select hsel)
        refine ⟨x, ?_, hmx⟩
        rw [if_neg (by simp), hkn, hat]
        exact hx
    · rw [if_neg hkn] at hk
      rw [if_neg fun hh => hkn hh.2]
      exact hs.row k g hk

/-- The contents of rows after a write are the new data and contents that rows had before. -/
theorem Wrote.content_cases (h : Wrote s ino data hash fb r)
    (hb : Replaces.Backed s.db fb (s.lock fb.storageBlock)) {k : ℕ} {x : Block bits}
    (hk : (r.1.db.rowHash k).isSome) (hx : r.1.content k = some x) :
    x = data ∨ (s.db.rowHash k).isSome ∧ s.content k = some x := by
  rw [h.content_eq] at hx
  rw [h.rowHash_eq hb] at hk
  by_cases hkn : k = r.2.storageBlockNum
  · cases hsel : s.db.selectBlockHash hash with
    | none =>
      rw [if_pos ⟨by rw [hsel]; rfl, hkn⟩] at hx
      exact .inl (Option.some.inj hx).symm
    | some row =>
      rw [if_neg (by simp [hsel])] at hx
      refine .inr ⟨?_, hx⟩
      rw [hkn, h.num_of_select hsel, Db.rowHash_of_select hsel]
      rfl
  · rw [if_neg hkn] at hk
    rw [if_neg fun hh => hkn hh.2] at hx
    exact .inr ⟨hk, hx⟩

end write

/-! ### A round of the write -/

/-- What a round leaves that gives the block `n` of the file the new content. -/
structure WritesBlock (cfg : Config bits H) (s : Store bits H) (fi : FileInfo H) (n : ℕ)
    (data : Block bits) (s' : Store bits H) (fi' : FileInfo H) : Prop where
  usable : Usable cfg s'
  self : s'.blockOf fi.stIno n = data
  others : ∀ f o, (f, o) ≠ (fi.stIno, n) → s'.blockOf f o = s.blockOf f o
  files : s'.db.files = s.db.files
  contents : ∀ k x, (s'.db.rowHash k).isSome → s'.content k = some x →
    x = data ∨ (s.db.rowHash k).isSome ∧ s.content k = some x
  stIno : fi'.stIno = fi.stIno
  stSize : fi'.stSize = fi.stSize
  blocks : ∀ m, m ≠ n → fi'.blocks m = fi.blocks m

section rounds

variable {cfg : Config bits H} {s : Store bits H} {fi : FileInfo H}

/-- The content that the round gives to the block: the old one under the new bytes. -/
def Store.newBlock (s : Store bits H) (fi : FileInfo H) (buf : List UInt8) (c : Chunk) :
    Block bits :=
  overlay (s.blockOf fi.stIno c.block) c.startOffset c.len fun i => buf.getD (c.pos + i) 0

/-- **A round writes its bytes over the old content** of a block that the handle does not know,
when the hash of the result is that of no other content. -/
theorem writeBlockWrapper_writes (h : Usable cfg s) (hdb : cfg.dbBlockSize ≤ blockSize bits)
    {buf : List UInt8} {c : Chunk} (hnew : fi.blocks c.block = none)
    (hfits : c.startOffset + c.len ≤ blockSize bits)
    (hin : c.block * blockSize bits ≤ fi.stSize)
    (hgen : ∀ row, s.db.selectBlockHash (cfg.murmur (s.newBlock fi buf c)) = some row →
      s.content row.id = some (s.newBlock fi buf c)) :
    ∃ s' fi', writeBlockWrapper cfg s fi buf c = .ok (s', fi') ∧
      WritesBlock cfg s fi c.block (s.newBlock fi buf c) s' fi' := by
  obtain ⟨husable, hnum, hown, hshown⟩ := h.locate hnew hdb hin
  have hloc := getLockedFileBlock_locates cfg s fi c.block
  obtain ⟨⟨s', fi'⟩, hwrite⟩ := @writeBlockWrapper_isOk _ _ _ cfg s fi buf c (by rw [hshown]; rfl)
  refine ⟨s', fi', hwrite, ?_⟩
  obtain ⟨l, s₁, old, rfl, htouch, hold, rfl, rfl⟩ := writeBlockWrapper_ok hwrite
  have hdata : c.data buf old = s.newBlock fi buf c := by
    by_cases hpart : c.len < blockSize bits
    · have holds := hold hpart
      rw [hshown] at holds
      cases holds
      rfl
    · exact overlay_whole _ _ _ _ _ hfits hpart
  have hino : (getLockedFileBlock cfg s fi c.block).finfo.stIno = fi.stIno := by
    rw [hloc.finfo_eq]
    rfl
  rw [hdata, hino]
  have hsame := htouch.same
  have hdb₁ : s₁.db = s.db := hsame.db.trans hloc.db_eq
  have hcontent₁ : ∀ k, s₁.content k = s.content k :=
    fun k => (hsame.content k).trans (hloc.content_eq k)
  have hown₁ := hown.same hsame
  have husable₁ := husable.same hsame
  have hblocks₁ : ∀ f o, s₁.blockOf f o = s.blockOf f o := by
    intro f o
    simp only [Store.blockOf, hdb₁, hcontent₁]
  have hw := writeBlock_wrote cfg s₁ fi.stIno (s.newBlock fi buf c)
    (getLockedFileBlock cfg s fi c.block).fblock
  generalize writeBlock cfg s₁ fi.stIno (s.newBlock fi buf c)
    (getLockedFileBlock cfg s fi c.block).fblock = r at hw ⊢
  have husable' := hw.usable husable₁ hown₁
  refine ⟨husable', ?_, ?_, hw.files_eq.trans (congrArg Db.files hdb₁), ?_, ?_, ?_, ?_⟩
  · rw [← hnum]
    apply (hw.blockOf_self husable'.unique hown₁.backed _).1
    intro row hrow
    rw [hdb₁] at hrow
    rw [hcontent₁]
    exact hgen row hrow
  · intro f o hne
    rw [← hblocks₁]
    apply hw.blockOf_other husable₁.unique husable'.unique husable₁.slots hown₁.backed
      (hown₁.inPlaceUnshared husable₁)
    · rw [hnum]
      exact hne
    · exact husable₁.found f o
  · intro k x hk hx
    have hcases := hw.content_cases hown₁.backed hk hx
    rw [hdb₁, hcontent₁] at hcases
    exact hcases
  · rw [FileInfo.setBlock_stIno, hino]
  · rw [FileInfo.setBlock_stSize, hloc.finfo_eq]
    rfl
  · intro m hm
    rw [FileInfo.setBlock_blocks, hw.fblock_eq.1, hnum, Function.update_of_ne hm, hloc.finfo_eq,
      FileInfo.setBlock_blocks, hnum, Function.update_of_ne hm]

section bytes

variable {s' : Store bits H} {fi' : FileInfo H} {buf : List UInt8} {c : Chunk}

/-- The bytes of the file change in the range of the chunk. -/
theorem WritesBlock.byteOf_self
    (h : WritesBlock cfg s fi c.block (s.newBlock fi buf c) s' fi')
    (hfits : c.startOffset + c.len ≤ blockSize bits) :
    s'.byteOf fi.stIno = patch (s.byteOf fi.stIno) (c.block * blockSize bits + c.startOffset)
      c.len fun i => buf.getD (c.pos + i) 0 := by
  apply eq_of_blockView bits
  intro m
  rw [s'.blockView_byteOf]
  by_cases hm : m = c.block
  · rw [hm, h.self, ← overlay_blockView, s.blockView_byteOf]
    rfl
  · rw [blockView_patch_of_ne _ _ hfits hm, s.blockView_byteOf]
    apply h.others
    intro heq
    exact hm (Prod.mk.inj heq).2

theorem WritesBlock.byteOf_other {n : ℕ} {data : Block bits}
    (h : WritesBlock cfg s fi n data s' fi') {f : ℕ} (hf : f ≠ fi.stIno) :
    s'.byteOf f = s.byteOf f := by
  funext p
  unfold Store.byteOf
  rw [h.others f _ fun heq => hf (Prod.mk.inj heq).1]

end bytes

end rounds

/-! ### The whole call -/

section calls

variable {cfg : Config bits H}

/-- **The rounds of the call write the range that their chunks cover**, when no two contents that
occur have one hash. -/
theorem writeChunks_writes (hdb : cfg.dbBlockSize ≤ blockSize bits) {occurs : Set (Block bits)}
    (hinj : Set.InjOn cfg.murmur occurs) {buf : List UInt8} {f : ℕ → UInt8} {offset p q : ℕ}
    {cs : List Chunk} (htiles : Tiles bits offset p cs q)
    (hord : cs.Pairwise fun c d => c.block < d.block) {s : Store bits H} {fi : FileInfo H}
    (h : Usable cfg s)
    (hrows : ∀ k x, (s.db.rowHash k).isSome → s.content k = some x → x ∈ occurs)
    (hdata : ∀ c ∈ cs, blockView bits (patch f offset q fun i => buf.getD i 0) c.block ∈ occurs)
    (hnew : ∀ c ∈ cs, fi.blocks c.block = none) (hin : offset + q ≤ fi.stSize)
    (hf : s.byteOf fi.stIno = patch f offset p fun i => buf.getD i 0) :
    ∃ s' fi', writeChunks cfg buf s fi cs = .ok (s', fi') ∧
      s'.byteOf fi.stIno = (patch f offset q fun i => buf.getD i 0) ∧
      (∀ id, id ≠ fi.stIno → s'.byteOf id = s.byteOf id) ∧ s'.db.files = s.db.files := by
  induction htiles generalizing s fi with
  | nil p => exact ⟨s, fi, rfl, hf, fun _ _ => rfl, rfl⟩
  | @cons p q c cs pos place fits rest ih =>
    obtain ⟨hlt, hord⟩ := List.pairwise_cons.mp hord
    have hle := rest.le
    have hpatch : (patch (patch f offset p fun i => buf.getD i 0)
        (c.block * blockSize bits + c.startOffset) c.len fun i => buf.getD (c.pos + i) 0) =
        patch f offset (p + c.len) fun i => buf.getD i 0 := by
      rw [place, pos]
      exact patch_patch f offset p c.len fun i => buf.getD i 0
    -- the block gets its content of the whole call, since no later chunk writes to it
    have hblock : s.newBlock fi buf c =
        blockView bits (patch f offset q fun i => buf.getD i 0) c.block := by
      rw [← rest.blockView_patch hlt, ← hpatch, ← overlay_blockView, ← hf, s.blockView_byteOf]
      rfl
    have hmem : s.newBlock fi buf c ∈ occurs := hblock ▸ hdata c (List.mem_cons_self ..)
    obtain ⟨s₁, fi₁, hfirst, hw⟩ := @writeBlockWrapper_writes _ _ _ cfg s fi h hdb buf c
      (hnew c (List.mem_cons_self ..)) fits (by omega) (by
        intro row hsel
        have hrow := Db.rowHash_of_select hsel
        obtain ⟨x, hx, hmx⟩ := h.row row.id _ hrow
        have hxmem := hrows row.id x (by rw [hrow]; rfl) hx
        rw [← hinj hxmem hmem hmx]
        exact hx)
    obtain ⟨s', fi', hrest, hself, hothers, hfiles⟩ := @ih hord s₁ fi₁ hw.usable
      (fun k x hk hx => by
        rcases hw.contents k x hk hx with rfl | ⟨hk', hx'⟩
        · exact hmem
        · exact hrows k x hk' hx')
      (fun d hd => hdata d (List.mem_cons_of_mem _ hd))
      (fun d hd => by
        rw [hw.blocks d.block (Nat.ne_of_gt (hlt d hd))]
        exact hnew d (List.mem_cons_of_mem _ hd))
      (hw.stSize ▸ hin)
      (by rw [hw.stIno, hw.byteOf_self fits, hf, hpatch])
    rw [hw.stIno] at hself hothers
    refine ⟨s', fi', ?_, hself, fun id hid => ?_, hfiles.trans hw.files⟩
    · rw [writeChunks, hfirst]
      exact hrest
    · exact (hothers id hid).trans (hw.byteOf_other hid)

/-- A consistent state: no two rows have one hash, every hash of `file_blocks` has a row, the use
counts of table and cache are the numbers of references, every row has a content with its hash,
and a file has no bytes but zeros past its end. -/
structure Consistent (cfg : Config bits H) (s : Store bits H) : Prop where
  numbered : s.db.rowHash 0 = none
  unique : s.db.HashUnique
  counted : Counted (· = ·) s
  row : ∀ k g, s.db.rowHash k = some g → ∃ x, s.content k = some x ∧ cfg.murmur x = g
  beyond : ∀ row ∈ s.db.files.rows, ∀ p, row.size ≤ p → s.byteOf row.id p = 0

theorem Consistent.usable {s : Store bits H} (h : Consistent cfg s) : Usable cfg s where
  numbered := h.numbered
  unique := h.unique
  found := h.counted.found
  row := h.row
  count k g hk := by
    unfold Store.count
    cases hc : s.cnt k with
    | some c =>
      rw [h.counted.cnt k g c hk hc]
      rfl
    | none =>
      have hsome : (s.db.useOf k).isSome := by
        rw [Db.useOf_isSome, hk]
        rfl
      obtain ⟨u, hu⟩ := Option.isSome_iff_exists.mp hsome
      rw [hu, h.counted.use k g u hk hu]
      rfl

/-- The logical content of a file: one array, with zeros past its end. -/
def Consistent.file {s : Store bits H} (h : Consistent cfg s) (row : FileRow)
    (hrow : row ∈ s.db.files.rows) : FlatFile UInt8 where
  size := row.size
  entry := s.byteOf row.id
  beyond p hp := h.beyond row hrow p hp

/-- The contents that occur: those of the rows, and those that the write gives to its blocks. -/
def Occurs (s : Store bits H) (ino : ℕ) (buf : List UInt8) (offset : ℕ) : Set (Block bits) :=
  { x | (∃ k, (s.db.rowHash k).isSome ∧ s.content k = some x) ∨
    ∃ c ∈ chunks bits buf.length offset,
      x = blockView bits (patch (s.byteOf ino) offset buf.length fun i => buf.getD i 0) c.block }

/-- The table `files` plays no part in a block write. -/
theorem Usable.setFiles {s : Store bits H} (h : Usable cfg s)
    (files : KeyedTable FileRow ℕ FileRow.id) : Usable cfg (s.setFiles files) :=
  ⟨h.numbered, h.unique, h.found, h.row, h.count⟩

/-- **A call of `writeBuf`** through a handle that knows no block yet. -/
theorem writeBuf_writes (hdb : cfg.dbBlockSize ≤ blockSize bits) {s : Store bits H}
    {fi : FileInfo H} (h : Usable cfg s) {buf : List UInt8} {offset : ℕ}
    (hinj : Set.InjOn cfg.murmur (Occurs s fi.stIno buf offset))
    (hnew : ∀ n, fi.blocks n = none) {row : FileRow} (hrow : s.db.files.find fi.stIno = some row)
    (hsize : fi.stSize = row.size) :
    ∃ s' fi', writeBuf cfg s fi buf offset = .ok (s', fi') ∧
      s'.byteOf fi.stIno =
        (patch (s.byteOf fi.stIno) offset buf.length fun i => buf.getD i 0) ∧
      s'.db.files.find fi.stIno = some { row with size := max row.size (offset + buf.length) } ∧
      ∀ id, id ≠ fi.stIno → s'.byteOf id = s.byteOf id ∧
        s'.db.files.find id = s.db.files.find id := by
  have hrows : ∀ k x, (s.db.rowHash k).isSome → s.content k = some x →
      x ∈ Occurs s fi.stIno buf offset := fun k x hk hx => .inl ⟨k, hk, hx⟩
  have hdata : ∀ c ∈ chunks bits buf.length offset, blockView bits (patch (s.byteOf fi.stIno)
      offset buf.length fun i => buf.getD i 0) c.block ∈ Occurs s fi.stIno buf offset :=
    fun c hc => .inr ⟨c, hc, rfl⟩
  have htiles := chunks_tiles bits buf.length offset
  have hord := @chunks_pairwise bits buf.length offset
  unfold writeBuf growFile
  split
  · rename_i hgrow
    have hne : fi.stSize ≠ buf.length + offset := by omega
    have hmax : max row.size (offset + buf.length) = buf.length + offset := by omega
    obtain ⟨s', fi', hwrite, hself, hothers, hfiles⟩ := @writeChunks_writes _ _ _ cfg hdb _ hinj
      buf _ offset 0 _ _ htiles hord
      (s.setFiles (s.db.updateFileSize (buf.length + offset) fi.stIno).files)
      { fi with stSize := buf.length + offset } (h.setFiles _) hrows hdata
      (fun c _ => hnew c.block) (Nat.add_comm _ _).le (patch_empty ..).symm
    refine ⟨s', fi', ?_, hself, ?_, fun id hid => ⟨hothers id hid, ?_⟩⟩
    · have hsize' : (fi.stSize : ℤ) ≠ (buf.length + offset : ℕ) := by omega
      rw [Db.ftruncate, if_neg (by omega), if_neg hsize', Int.toNat_natCast]
      exact hwrite
    · rw [hfiles, hmax]
      exact find_updateFileSize_self hrow _
    · rw [hfiles]
      show (s.db.updateFileSize (buf.length + offset) fi.stIno).files.find id = _
      rw [Db.find_updateFileSize]
      cases hfind : s.db.files.find id with
      | none => rfl
      | some other =>
        have hother : other.id = id := KeyedTable.key_of_find hfind
        rw [Option.map_some, if_neg (hother ▸ hid)]
  · obtain ⟨s', fi', hwrite, hself, hothers, hfiles⟩ := @writeChunks_writes _ _ _ cfg hdb _ hinj
      buf _ offset 0 _ _ htiles hord s fi h hrows hdata (fun c _ => hnew c.block) (by omega)
      (patch_empty ..).symm
    have hmax : max row.size (offset + buf.length) = row.size := by omega
    refine ⟨s', fi', hwrite, hself, ?_, fun id hid => ⟨hothers id hid, ?_⟩⟩
    · rw [hfiles, hmax, hrow]
    · rw [hfiles]

/-- **One write through a newly opened handle.**  In a consistent state it returns the number of
bytes, the file becomes what a write to an array of bytes makes of it, zeros in the gap
included, and no other file changes, when no two contents that occur have one hash. -/
theorem single_write (cfg : Config bits H) (fs fs₁ : Fs bits H) (path : Path) (row : FileRow)
    (fh : ℕ) (buf : List UInt8) (offset : ℕ) (hdb : cfg.dbBlockSize = blockSize bits)
    (hs : Consistent cfg fs.store)
    (hrow : fs.store.db.files.rows.find? (fun r => r.path = path) = some row)
    (hopen : fs.step cfg (.openFile path) = .ok (fs₁, .opened fh))
    (hinj : Set.InjOn cfg.murmur (Occurs fs.store row.id buf offset)) :
    ∃ fs', fs₁.step cfg (.write fh buf offset) = .ok (fs', .ret buf.length) ∧
      ∃ file : FlatFile UInt8,
        file = (hs.file row (List.mem_of_find?_eq_some hrow)).write buf offset ∧
        fs'.store.db.files.find row.id = some { row with size := file.size } ∧
        fs'.store.byteOf row.id = file.entry ∧
        ∀ id, id ≠ row.id → fs'.store.byteOf id = fs.store.byteOf id ∧
          fs'.store.db.files.find id = fs.store.db.files.find id := by
  have hfi : fs.store.db.getByPath path =
      ⟨path, row.depth, row.id, row.size, row.mode, fun _ => none⟩ := by
    unfold Db.getByPath Db.getByPathIn
    rw [hrow]
  have hfind : fs.store.db.files.find row.id = some row :=
    KeyedTable.find_of_mem (List.mem_of_find?_eq_some hrow)
  have hstart : fs₁ = fs.addHandle (fs.store.db.getByPath path) ∧ fh = fs.nextFh := by
    simp only [Fs.step, Fs.openFile, Except.ok.injEq] at hopen
    split at hopen
    · cases hopen
    · split at hopen
      · cases hopen
      · cases hopen
        exact ⟨rfl, rfl⟩
  obtain ⟨rfl, rfl⟩ := hstart
  have hhandle : (fs.addHandle (fs.store.db.getByPath path)).handles fs.nextFh =
      some (fs.store.db.getByPath path) := Function.update_self ..
  have hsize₀ : (fs.store.db.getByPath path).stSize = row.size := by rw [hfi]
  have hino : (fs.store.db.getByPath path).stIno = row.id := by rw [hfi]
  rw [← hino] at hfind hinj
  obtain ⟨s', fi', hwrite, hself, hsize, hothers⟩ := @writeBuf_writes _ _ _ cfg hdb.le fs.store
    (fs.store.db.getByPath path) hs.usable buf offset hinj (Db.getByPath_blocks _ path) row hfind
    hsize₀
  rw [hino] at hself hsize hothers
  refine ⟨((fs.addHandle (fs.store.db.getByPath path)).setStore s').setHandle fs.nextFh fi', ?_,
    _, rfl, hsize, hself, hothers⟩
  have hwrite' : writeBuf cfg (fs.addHandle (fs.store.db.getByPath path)).store
      (fs.store.db.getByPath path) buf offset = .ok (s', fi') := hwrite
  simp only [Fs.step, Fs.write, hhandle, hwrite', factSize_eq]

/-- The byte 7 that the file has is written again, and once more behind it. -/
theorem single_write_again :
    ∃ fs', (Fs.after (plainConfig 0) [.create ['/', 'f'] sIfreg, .write 0 [7] 0,
        .openFile ['/', 'f']]).step (plainConfig 0) (.write 1 [7, 7] 0) = .ok (fs', .ret 2) ∧
      fs'.store.db.files.find 2 = some ⟨2, ['/', 'f'], 1, 2, sIfreg⟩ ∧
      window (fs'.store.byteOf 2) 0 2 = [7, 7] := by
  have hco := (Fs.reachable_coherent (Fs.after_reachable (plainConfig 0)
    [.create ['/', 'f'] sIfreg, .write 0 [7] 0])).1
  generalize hfs : Fs.after (plainConfig 0) [.create ['/', 'f'] sIfreg, .write 0 [7] 0] = fs at hco
  have hfile : ∀ f o g, fs.store.db.fileHash f o = some g → f = 2 ∧ o = 0 ∧ g = [7] := by
    intro f o g hg
    obtain ⟨r, hr, rfl⟩ := Option.map_eq_some_iff.mp hg
    obtain ⟨hmem, hkey⟩ := KeyedTable.find_eq_some.mp hr
    rw [← hfs] at hmem
    rw [List.mem_singleton.mp (show r ∈ [⟨2, 0, [7]⟩] from hmem)] at hkey ⊢
    cases hkey
    exact ⟨rfl, rfl, rfl⟩
  have hrow : ∀ k g, fs.store.db.rowHash k = some g → k = 1 ∧ g = [7] := by
    intro k g hk
    obtain ⟨r, hr, rfl⟩ := Option.map_eq_some_iff.mp hk
    obtain ⟨hmem, rfl⟩ := KeyedTable.find_eq_some.mp hr
    rw [← hfs] at hmem
    rw [List.mem_singleton.mp (show r ∈ [⟨1, [7], 1⟩] from hmem)]
    exact ⟨rfl, rfl⟩
  have hs : Consistent (plainConfig 0) fs.store := by
    refine ⟨hco.zero, hco.unique, ⟨fun f o g hg => ?_, fun k g u hk hu => ?_,
      fun k g c hk hc => ?_⟩, fun k g hk => hco.row k g (fun h => h) hk, fun row hmem p hp => ?_⟩
    · obtain ⟨-, -, rfl⟩ := hfile f o g hg
      exact ⟨1, by rw [← hfs]; rfl⟩
    · obtain ⟨rfl, rfl⟩ := hrow k g hk
      rw [← hfs] at hu ⊢
      cases hu
      rfl
    · obtain ⟨rfl, rfl⟩ := hrow k g hk
      rw [← hfs] at hc ⊢
      cases hc
      rfl
    · have hnone : fs.store.db.fileHash row.id (p / blockSize 0) = none := by
        rw [← Option.not_isSome_iff_eq_none, Option.isSome_iff_exists]
        rintro ⟨g, hg⟩
        obtain ⟨hid, hzero, -⟩ := hfile _ _ g hg
        rw [← hfs] at hmem
        have hrows : row ∈ [⟨1, ['/'], 0, 0, sIfdir ||| 0o755⟩, ⟨2, ['/', 'f'], 1, 1, sIfreg⟩] :=
          hmem
        simp only [List.mem_cons, List.not_mem_nil, or_false] at hrows
        have hdiv : p / blockSize 0 = p := Nat.div_one p
        rcases hrows with rfl | rfl
        · cases hid
        · change 1 ≤ p at hp
          omega
      rw [Store.byteOf, Store.blockOf_of_fileHash_none hnone]
      rfl
  obtain ⟨fs', hwrite, file, rfl, hsize, hbytes, -⟩ := single_write (plainConfig 0) fs
    (fs.addHandle (fs.store.db.getByPath ['/', 'f'])) ['/', 'f'] ⟨2, ['/', 'f'], 1, 1, sIfreg⟩ 1
    [7, 7] 0 rfl hs (by rw [← hfs]; rfl) (by rw [← hfs]; rfl) List.ofFn_injective.injOn
  refine ⟨fs', ?_, hsize, ?_⟩
  · rw [← hfs] at hwrite
    exact hwrite
  · rw [hbytes]
    rfl

end calls

end Wwdedup
