import Wwdedup.Lib.FlatFile
import Wwdedup.RoundSteps

/-!
# Blocks of a flat file

The loops of `writeBuf` and `readBuf` cut a range of the file into chunks of one block each.
`Tiles` says how the chunks follow each other; `chunks_tiles` that they cover the range and no
more.  `blockView n` is the block `n` of a file that is one array, and reading or writing the
chunks of a range reads or writes the range.
-/

namespace Wwdedup

variable {bits : ℕ} {H : Type} [DecidableEq H]

/-- The chunks cover the positions from the first to the second of the caller's buffer, and the
byte at position `p` is the byte `offset + p` of the file. -/
inductive Tiles (bits offset : ℕ) : ℕ → List Chunk → ℕ → Prop
  | nil (p : ℕ) : Tiles bits offset p [] p
  | cons {p q : ℕ} {c : Chunk} {cs : List Chunk} (pos : c.pos = p)
      (place : c.block * blockSize bits + c.startOffset = offset + p)
      (fits : c.startOffset + c.len ≤ blockSize bits)
      (rest : Tiles bits offset (p + c.len) cs q) : Tiles bits offset p (c :: cs) q

theorem laterChunks_tiles {size offset fuel factSize cur : ℕ} (hfuel : size - factSize ≤ fuel)
    (hle : factSize ≤ size) (hplace : factSize < size →
      (cur + 1) * blockSize bits = offset + factSize) :
    Tiles bits offset factSize (laterChunks bits size fuel factSize cur) size := by
  induction fuel generalizing factSize cur with
  | zero =>
    have : factSize = size := by omega
    rw [laterChunks, this]
    exact .nil size
  | succ fuel ih =>
    have hpos := blockSize_pos bits
    rw [laterChunks]
    dsimp only
    split
    · rename_i hlt
      have hmul : (cur + 1 + 1) * blockSize bits = (cur + 1) * blockSize bits + blockSize bits :=
        Nat.succ_mul ..
      have hat := hplace hlt
      apply Tiles.cons
      · rfl
      · show (cur + 1) * blockSize bits + 0 = offset + factSize
        omega
      · show 0 + min (blockSize bits) (size - factSize) ≤ blockSize bits
        omega
      · apply ih
        · show size - (factSize + min (blockSize bits) (size - factSize)) ≤ fuel
          omega
        · show factSize + min (blockSize bits) (size - factSize) ≤ size
          omega
        · intro hmore
          change factSize + min (blockSize bits) (size - factSize) < size at hmore
          show (cur + 1 + 1) * blockSize bits =
            offset + (factSize + min (blockSize bits) (size - factSize))
          omega
    · have : factSize = size := by omega
      rw [this]
      exact .nil size

/-- **The chunks of a call cover its range.** -/
theorem chunks_tiles (bits size offset : ℕ) :
    Tiles bits offset 0 (chunks bits size offset) size := by
  have hpos := blockSize_pos bits
  have hstart : (offset >>> bits) <<< bits = offset >>> bits * blockSize bits := by
    rw [blockSize_eq, Nat.shiftLeft_eq]
  have hdiv : offset >>> bits * blockSize bits + offset % blockSize bits = offset := by
    rw [Nat.shiftRight_eq_div_pow, ← blockSize_eq]
    exact Nat.div_add_mod' offset (blockSize bits)
  have hmod := Nat.mod_lt offset hpos
  have hmul : (offset >>> bits + 1) * blockSize bits =
      offset >>> bits * blockSize bits + blockSize bits := Nat.succ_mul ..
  unfold chunks
  dsimp only
  rw [hstart]
  apply Tiles.cons
  · rfl
  · show offset >>> bits * blockSize bits + (offset - offset >>> bits * blockSize bits) = offset + 0
    omega
  · show offset - offset >>> bits * blockSize bits +
      min size (blockSize bits - (offset - offset >>> bits * blockSize bits)) ≤ blockSize bits
    omega
  · show Tiles bits offset
      (0 + min size (blockSize bits - (offset - offset >>> bits * blockSize bits))) _ size
    rw [Nat.zero_add]
    apply laterChunks_tiles
    · omega
    · omega
    · intro hmore
      omega

theorem Tiles.le {offset p q : ℕ} {cs : List Chunk} (h : Tiles bits offset p cs q) : p ≤ q := by
  induction h with
  | nil p => exact le_refl p
  | cons pos place fits rest ih => omega

/-- Chunks that hold bytes lie in blocks that start before the end of the range. -/
theorem Tiles.block_lt {offset p q : ℕ} {cs : List Chunk} (h : Tiles bits offset p cs q)
    (hlen : ∀ c ∈ cs, 0 < c.len) : ∀ c ∈ cs, c.block * blockSize bits < q + offset := by
  induction h with
  | nil p =>
    intro c hc
    exact absurd hc List.not_mem_nil
  | cons pos place fits rest ih =>
    intro c hc
    rcases List.mem_cons.mp hc with rfl | hc
    · have hle := rest.le
      have hpos := hlen c (List.mem_cons_self ..)
      omega
    · exact ih (fun c' hc' => hlen c' (List.mem_cons_of_mem _ hc')) c hc

theorem laterChunks_len_pos (size fuel factSize cur : ℕ) :
    ∀ c ∈ laterChunks bits size fuel factSize cur, 0 < c.len := by
  have hpos := blockSize_pos bits
  induction fuel generalizing factSize cur with
  | zero =>
    intro c hc
    exact absurd hc List.not_mem_nil
  | succ fuel ih =>
    intro c hc
    rw [laterChunks] at hc
    dsimp only at hc
    split at hc
    · rcases List.mem_cons.mp hc with rfl | hc
      · show 0 < min (blockSize bits) (size - factSize)
        omega
      · exact ih _ _ c hc
    · exact absurd hc List.not_mem_nil

/-- Every chunk of a call with a buffer holds bytes. -/
theorem chunks_len_pos {size : ℕ} (hsize : 0 < size) (offset : ℕ) :
    ∀ c ∈ chunks bits size offset, 0 < c.len := by
  intro c hc
  rcases List.mem_cons.mp hc with rfl | hc
  · have hlt : offset - (offset >>> bits) <<< bits < blockSize bits := by
      have hmod := Nat.mod_lt offset (blockSize_pos bits)
      have hdiv := Nat.div_add_mod' offset (blockSize bits)
      rw [Nat.shiftRight_eq_div_pow, Nat.shiftLeft_eq, ← blockSize_eq]
      omega
    show 0 < min size (blockSize bits - (offset - (offset >>> bits) <<< bits))
    omega
  · exact laterChunks_len_pos _ _ _ _ c hc

/-! ### Blocks of an array -/

/-- The block `n` of a file that is one array. -/
def blockView (bits : ℕ) (f : ℕ → UInt8) (n : ℕ) : Block bits :=
  fun i => f (n * blockSize bits + i)

/-- Two files with the same blocks are the same. -/
theorem eq_of_blockView (bits : ℕ) {f g : ℕ → UInt8}
    (h : ∀ n, blockView bits f n = blockView bits g n) :
    f = g := by
  funext p
  have hp := congrFun (h (p / blockSize bits))
    ⟨p % blockSize bits, Nat.mod_lt p (blockSize_pos bits)⟩
  have hdiv := Nat.div_add_mod' p (blockSize bits)
  change f (p / blockSize bits * blockSize bits + p % blockSize bits) =
    g (p / blockSize bits * blockSize bits + p % blockSize bits) at hp
  rwa [hdiv] at hp

/-- Positions in two blocks are the same only in the same block. -/
theorem block_eq_of_pos {b m n i j : ℕ} (hi : i < b) (hj : j < b) (h : m * b + i = n * b + j) :
    m = n := by
  have hb : 0 < b := by omega
  have hm : (m * b + i) / b = m := by
    rw [Nat.mul_comm, Nat.mul_add_div hb, Nat.div_eq_of_lt hi, Nat.add_zero]
  have hn : (n * b + j) / b = n := by
    rw [Nat.mul_comm, Nat.mul_add_div hb, Nat.div_eq_of_lt hj, Nat.add_zero]
  rw [← hm, ← hn, h]

theorem slice_blockView (f : ℕ → UInt8) {n start len : ℕ} (h : start + len ≤ blockSize bits) :
    slice (blockView bits f n) start len = window f (n * blockSize bits + start) len := by
  rw [slice, window, List.range'_eq_map_range, List.range'_eq_map_range, List.map_map,
    List.map_map]
  apply List.map_congr_left
  intro i hi
  have hlt : i < len := List.mem_range.mp hi
  show (if h : start + i < blockSize bits then _ else _) = _
  rw [dif_pos (by omega)]
  show f (n * blockSize bits + (start + i)) = f (n * blockSize bits + start + i)
  rw [Nat.add_assoc]

/-- Writing a part of the block writes that part of the file. -/
theorem overlay_blockView (f : ℕ → UInt8) (n start len : ℕ) (src : ℕ → UInt8) :
    overlay (blockView bits f n) start len src =
      blockView bits (patch f (n * blockSize bits + start) len src) n := by
  funext i
  unfold overlay blockView patch
  by_cases h : start ≤ i.val ∧ i.val < start + len
  · rw [if_pos h, if_pos (by omega)]
    congr 1
    omega
  · rw [if_neg h, if_neg (by omega)]

/-- Writing the whole block needs nothing of the old one. -/
theorem overlay_whole (old old' : Block bits) (start len : ℕ) (src : ℕ → UInt8)
    (hfits : start + len ≤ blockSize bits) (hlen : ¬len < blockSize bits) :
    overlay old start len src = overlay old' start len src := by
  funext i
  have hi := i.isLt
  unfold overlay
  rw [if_pos (by omega), if_pos (by omega)]

/-- Writing a part of one block leaves the other blocks. -/
theorem blockView_patch_of_ne (f : ℕ → UInt8) {n m start len : ℕ} (src : ℕ → UInt8)
    (hfits : start + len ≤ blockSize bits) (hne : m ≠ n) :
    blockView bits (patch f (n * blockSize bits + start) len src) m = blockView bits f m := by
  funext i
  unfold blockView patch
  apply if_neg
  rintro ⟨hlow, hhigh⟩
  apply hne
  have hi := i.isLt
  apply block_eq_of_pos (i := i) (j := m * blockSize bits + i - n * blockSize bits) hi
  · omega
  · omega

/-- Later chunks leave a block that lies in front of them. -/
theorem Tiles.blockView_patch {offset p q n : ℕ} {cs : List Chunk} (h : Tiles bits offset p cs q)
    (hlt : ∀ d ∈ cs, n < d.block) (f : ℕ → UInt8) (src : ℕ → UInt8) :
    blockView bits (patch f offset p src) n = blockView bits (patch f offset q src) n := by
  cases h with
  | nil p => rfl
  | @cons p q d cs pos place fits rest =>
    have hle := rest.le
    have hblock := hlt d (List.mem_cons_self ..)
    have hmul : (n + 1) * blockSize bits ≤ d.block * blockSize bits :=
      Nat.mul_le_mul_right _ hblock
    rw [Nat.succ_mul] at hmul
    funext i
    have hi := i.isLt
    unfold blockView patch
    by_cases hfrom : offset ≤ n * blockSize bits + i
    · rw [if_pos (by omega), if_pos (by omega)]
    · rw [if_neg (by omega), if_neg (by omega)]

end Wwdedup
