import Wwdedup.Coherence

/-!
# What a handle opened now reads

`blockOf` is the content that the tables give for a block of a file: the content of the row with
its hash, zeros where there is none.  In a coherent store `freshRead` shows these contents and
never fails (`freshRead_eq`): its rounds go over blocks that the new handle does not know yet,
and they change neither the tables nor a content.
-/

namespace Wwdedup

open GuardedRun

variable {bits : ℕ} {H : Type} [DecidableEq H]

/-! ### Chunks go upwards -/

theorem laterChunks_block_lt (size fuel factSize cur : ℕ) :
    ∀ c ∈ laterChunks bits size fuel factSize cur, cur < c.block := by
  induction fuel generalizing factSize cur with
  | zero => simp [laterChunks]
  | succ fuel ih =>
    intro c hc
    rw [laterChunks] at hc
    split at hc
    · rcases List.mem_cons.mp hc with rfl | hc
      · exact Nat.lt_succ_self cur
      · have := ih _ _ c hc
        omega
    · cases hc

theorem laterChunks_pairwise (size fuel factSize cur : ℕ) :
    (laterChunks bits size fuel factSize cur).Pairwise fun c d => c.block < d.block := by
  induction fuel generalizing factSize cur with
  | zero => exact .nil
  | succ fuel ih =>
    rw [laterChunks]
    split
    · exact .cons (fun d hd => laterChunks_block_lt _ _ _ _ d hd) (ih _ _)
    · exact .nil

/-- Every chunk is of a later block than the one before. -/
theorem chunks_pairwise (size offset : ℕ) :
    (chunks bits size offset).Pairwise fun c d => c.block < d.block :=
  .cons (fun d hd => laterChunks_block_lt _ _ _ _ d hd) (laterChunks_pairwise _ _ _ _)

/-! ### The contents of a file -/

/-- The content that the tables give for a block of a file. -/
def Store.blockOf (s : Store bits H) (fileId offset : ℕ) : Block bits :=
  (((s.db.fileHash fileId offset).bind s.db.selectBlockHash).bind fun row =>
    s.content row.id).getD (zeroBlock bits)

/-- What the first access of a handle to a block shows: nothing behind the end of the file, by
the block size of the database layer. -/
def Store.freshBlock (cfg : Config bits H) (s : Store bits H) (fi : FileInfo H) (n : ℕ) :
    Block bits :=
  if (n : ℤ) * cfg.dbBlockSize > fi.stSize then zeroBlock bits else s.blockOf fi.stIno n

variable {cfg : Config bits H} {s : Store bits H} {fi : FileInfo H}

theorem Store.blockOf_of_fileHash_none {f o : ℕ} (h : s.db.fileHash f o = none) :
    s.blockOf f o = zeroBlock bits := by
  rw [blockOf, h]
  rfl

theorem Store.blockOf_of_select {f o : ℕ} {g : H} {row : BlockHashRow H} {x : Block bits}
    (h : s.db.fileHash f o = some g) (hsel : s.db.selectBlockHash g = some row)
    (hx : s.content row.id = some x) : s.blockOf f o = x := by
  rw [blockOf, h, Option.bind_some, hsel, Option.bind_some, hx]
  rfl

/-- A block that the handle does not know yet is shown as the tables give it. -/
theorem Coherent.shown_fresh (h : Coherent cfg s) (hfi : fi.Ok s.db) {n : ℕ}
    (hnew : fi.blocks n = none) :
    (getLockedFileBlock cfg s fi n).store.shown
      (getLockedFileBlock cfg s fi n).fblock.storageBlock = some (s.freshBlock cfg fi n) := by
  rw [(getLockedFileBlock_locates cfg s fi n).shown_eq (fileBlock_num_ok n hfi).2]
  unfold fileBlock Store.freshBlock
  rw [hnew]
  dsimp only
  have hl := loadFileBlock_loads cfg s.db fi n
  generalize loadFileBlock cfg s.db fi (.new n) = q at hl ⊢
  cases hl with
  | skipped past =>
    rw [if_pos past]
    exact if_pos (.inr rfl)
  | absent unmapped =>
    rw [Store.blockOf_of_fileHash_none unmapped, ite_self]
    exact if_pos (.inr rfl)
  | dangling g mapped sel inside =>
    rw [if_neg inside, Store.blockOf, mapped, Option.bind_some, sel]
    exact if_pos (.inr rfl)
  | found row mapped sel inside =>
    have hrow := Db.rowHash_of_select sel
    obtain ⟨x, hx, -⟩ := h.row _ _ (fun hf => hf) hrow
    have hne : row.id ≠ 0 := fun h0 => by
      rw [h0, h.zero] at hrow
      cases hrow
    rw [if_neg inside, Store.blockOf_of_select mapped sel hx, if_neg]
    · exact hx
    · rintro (⟨hf, -⟩ | h0)
      · cases hf
      · exact hne h0

/-! ### A whole read -/

/-- The bytes of the chunks, each as the first access shows it. -/
def Store.freshBytes (cfg : Config bits H) (s : Store bits H) (fi : FileInfo H)
    (cs : List Chunk) : List UInt8 :=
  (cs.map fun c => slice (s.freshBlock cfg fi c.block) c.startOffset c.len).flatten

theorem readChunks_fresh {cs : List Chunk} (s₀ : Store bits H) (fi₀ : FileInfo H)
    (h : Coherent cfg s) (hfi : fi.Ok s.db) (hdb : s.db = s₀.db)
    (hcontent : ∀ k, s.content k = s₀.content k)
    (hino : fi.stIno = fi₀.stIno) (hsize : fi.stSize = fi₀.stSize)
    (hord : cs.Pairwise fun c d => c.block < d.block)
    (hnew : ∀ c ∈ cs, fi.blocks c.block = none) :
    ∃ s' fi', readChunks cfg s fi cs = .ok (s', fi', s₀.freshBytes cfg fi₀ cs) := by
  induction cs generalizing s fi with
  | nil => exact ⟨s, fi, rfl⟩
  | cons c cs ih =>
    obtain ⟨hlt, hord⟩ := List.pairwise_cons.mp hord
    have hshown := h.shown_fresh hfi (hnew c (List.mem_cons_self ..))
    obtain ⟨⟨s₁, fi₁, bytes⟩, hread⟩ := readChunk_isOk (by rw [hshown]; rfl)
    obtain ⟨ht, rfl, x, hx, rfl⟩ := readChunk_ok hread
    rw [hshown] at hx
    cases hx
    obtain ⟨hl, hnum, hok⟩ := h.locate hfi c.block
    have hloc := getLockedFileBlock_locates cfg s fi c.block
    have hdb₁ : s₁.db = s.db := ht.same.db.trans hloc.db_eq
    rw [hloc.finfo_eq] at hread
    have hsame : s.freshBlock cfg fi c.block = s₀.freshBlock cfg fi₀ c.block := by
      simp only [Store.freshBlock, Store.blockOf, hdb, hcontent, hino, hsize]
    have hfi₁ : (fi.setBlock (getLockedFileBlock cfg s fi c.block).fblock).Ok s₁.db :=
      hdb₁ ▸ hfi.setBlock hok
    obtain ⟨s', fi', hrest⟩ := ih (hl.touches ht) hfi₁ (hdb₁.trans hdb)
      (fun k => ((ht.same.content k).trans (hloc.content_eq k)).trans (hcontent k))
      hino hsize hord fun d hd => by
        rw [FileInfo.setBlock_blocks, hnum, Function.update_of_ne (Nat.ne_of_gt (hlt d hd))]
        exact hnew d (List.mem_cons_of_mem _ hd)
    refine ⟨s', fi', ?_⟩
    rw [readChunks, hread]
    dsimp only
    rw [hrest]
    dsimp only
    rw [hsame]
    rfl

/-- **A handle opened now reads what the tables give.** -/
theorem freshRead_eq (h : Coherent cfg s) (path : Path) :
    freshRead cfg s path = .ok (s.freshBytes cfg (s.db.getByPath path)
      (chunks bits (s.db.getByPath path).stSize 0)) := by
  unfold freshRead readBuf
  dsimp only
  rw [if_pos (readStart_of_le (Nat.zero_le _)), Nat.add_zero, if_neg (Nat.lt_irrefl _)]
  obtain ⟨s', fi', hread⟩ := readChunks_fresh s (s.db.getByPath path) h
    (.getByPath s.db path) rfl (fun _ => rfl) rfl rfl
    (@chunks_pairwise bits (s.db.getByPath path).stSize 0)
    (fun c _ => Db.getByPath_blocks s.db path c.block)
  rw [hread]
  rfl

/-- Two coherent stores that give a file the same row and the same contents read the same. -/
theorem freshRead_congr {s' : Store bits H} (h : Coherent cfg s) (h' : Coherent cfg s')
    {path : Path} (hfile : s'.db.getByPath path = s.db.getByPath path)
    (hblocks : ∀ o, s'.blockOf (s.db.getByPath path).stIno o =
      s.blockOf (s.db.getByPath path).stIno o) :
    freshRead cfg s' path = freshRead cfg s path := by
  rw [freshRead_eq h, freshRead_eq h', hfile]
  simp only [Store.freshBytes, Store.freshBlock, hblocks]

end Wwdedup
