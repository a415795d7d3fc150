import Wwdedup.Chunks
import Wwdedup.FilesTable
import Wwdedup.Lib.FixedWidth

/-!
# The loops of `writeBuf` and `readBuf`

The store model hands a call the list `chunks` of the parts that it handles.  Here the two loops
stand as they are written, with their `assert`, on the integers that the source declares:
`off64_t` of 64 bits and `int` of 32 bits, both signed, and the `size_t` that `memcpy` and `memset`
take.  What a round does is the parameter `body`.

* `writeBufLoop_eq` and `readBufLoop_eq`: the rounds are those of `chunks`, whatever they do, and
  the loop returns.
* `writeBuf_eq_loop` and `readBuf_eq_loop`: with the bodies of the store model the loops are its
  `writeBuf` and `readBuf`.
* `loops_tile`: both loops take the same chunks, and these tile the range.
* `reads_in_bounds_iff`: the copies of `readBuf` are in bounds for ranges that start in the file.
  Behind its end the length is negative, and what the conversions to `int` and `size_t` make of it
  is 0 or wrong: the store model goes on with 0 and gives up where it is wrong.

`block_size` is an `int`, so it is below 2^31.
-/

namespace Wwdedup

open FixedWidth

variable {bits : ℕ} {H : Type} [DecidableEq H] {σ E : Type}

/-! ### The loops of the source -/

/-- The value of an `off64_t`. -/
def off64 (x : ℤ) : ℤ := signed 64 x

/-- The value of an `int`. -/
def int32 (x : ℤ) : ℤ := signed 32 x

/-- What a round works with: the arguments of `_writeBlockWrapper`, or those of `_getStorageBlock`
and of `memcpy` or `memset`; `pos` is the position in the caller's buffer. -/
structure Call where
  blockNum : ℤ
  startOffset : ℤ
  chunkSize : ℤ
  pos : ℤ
  deriving DecidableEq, Repr

/-- How a loop ends without a result: an `assert` fails, it is still running, or a round throws. -/
inductive Unfinished (E : Type) where
  | assertion
  | running
  | thrown (e : E)
  deriving DecidableEq, Repr

/-- `while (factSize < size)`, for a number of rounds. -/
def laterRounds (bits : ℕ) (body : σ → Call → Except E σ) (size endBlockNum : ℤ) :
    ℕ → ℤ → ℤ → σ → Except (Unfinished E) (σ × ℤ)
  | 0, _, factSize, s => if factSize < size then .error .running else .ok (s, factSize)
  | fuel + 1, curBlockNum, factSize, s =>
    if factSize < size then
      if curBlockNum ≤ endBlockNum then
        let chunkSize := int32 (min (blockSize bits) (off64 (size - factSize)))
        match body s ⟨off64 (curBlockNum + 1), 0, chunkSize, factSize⟩ with
        | .error e => .error (.thrown e)
        | .ok s =>
          laterRounds bits body size endBlockNum fuel (off64 (curBlockNum + 1))
            (off64 (factSize + chunkSize)) s
      else .error .assertion
    else .ok (s, factSize)

/-- The first round, for the block that `offset` lies in, and the loop. -/
def chunkRounds (bits : ℕ) (body : σ → Call → Except E σ) (size offset endBlockNum : ℤ) (s : σ) :
    Except (Unfinished E) (σ × ℤ) :=
  let startBlockNum := offset >>> bits
  let startOffset := int32 (off64 (offset - off64 (startBlockNum * 2 ^ bits)))
  let chunkSize := int32 (min size (int32 (blockSize bits - startOffset)))
  match body s ⟨startBlockNum, startOffset, chunkSize, 0⟩ with
  | .error e => .error (.thrown e)
  | .ok s => laterRounds bits body size endBlockNum size.toNat startBlockNum chunkSize s

/-- `writeBuf` after the file has grown. -/
def writeBufLoop (bits : ℕ) (body : σ → Call → Except E σ) (size offset : ℤ) (s : σ) :
    Except (Unfinished E) (σ × ℤ) :=
  chunkRounds bits body size offset (off64 (off64 (offset + size) - 1) >>> bits) s

/-- `readBuf` on a handle with the given `st_size`. -/
def readBufLoop (bits : ℕ) (body : σ → Call → Except E σ) (stSize size offset : ℤ) (s : σ) :
    Except (Unfinished E) (σ × ℤ) :=
  let size := if off64 (size + offset) > stSize then off64 (stSize - offset) else size
  chunkRounds bits body size offset (off64 (offset + size) >>> bits) s

/-! ### What the loops do -/

/-- A chunk as a call. -/
def Chunk.call (c : Chunk) : Call := ⟨c.block, c.startOffset, c.len, c.pos⟩

/-- The end of a loop that returns the number unless a round throws. -/
def finish (r : Except E σ) (factSize : ℤ) : Except (Unfinished E) (σ × ℤ) :=
  match r with
  | .error e => .error (.thrown e)
  | .ok s => .ok (s, factSize)

theorem finish_foldlM_cons (body : σ → Call → Except E σ) (c : Call) (cs : List Call) (s : σ)
    (n : ℤ) : finish ((c :: cs).foldlM body s) n =
      match body s c with
      | .error e => .error (.thrown e)
      | .ok s => finish (cs.foldlM body s) n := by
  rw [List.foldlM_cons]
  cases body s c <;> rfl

theorem off64_eq {x : ℤ} (hlow : 0 ≤ x) (hhigh : x < 2 ^ 63) : off64 x = x :=
  signed_of_fits (by omega) (by omega)

theorem int32_eq {x : ℤ} (hlow : 0 ≤ x) (hhigh : x < 2 ^ 31) : int32 x = x :=
  signed_of_fits (by omega) (by omega)

section loops

variable (body : σ → Call → Except E σ)

/-- **The loop runs through the later chunks.**  The block that comes next starts where the last
one ended, so it lies in front of the end of the range, which the `assert` asks for. -/
theorem laterRounds_eq (hint : blockSize bits < 2 ^ 31) {size offset : ℕ}
    (hlt : size + offset < 2 ^ 63) {endBlockNum : ℤ}
    (hend : 0 < size → (((offset + size - 1) >>> bits : ℕ) : ℤ) ≤ endBlockNum)
    (fuel factSize cur : ℕ) (hfuel : size - factSize ≤ fuel) (hle : factSize ≤ size)
    (hplace : factSize < size → (cur + 1) * blockSize bits = offset + factSize) (s : σ) :
    laterRounds bits body size endBlockNum fuel cur factSize s =
      finish (((laterChunks bits size fuel factSize cur).map Chunk.call).foldlM body s) size := by
  induction fuel generalizing factSize cur s with
  | zero =>
    have hdone : factSize = size := by omega
    rw [hdone]
    exact if_neg (lt_irrefl _)
  | succ fuel ih =>
    have hpos := blockSize_pos bits
    unfold laterRounds laterChunks
    dsimp only
    by_cases hmore : factSize < size
    · have hat := hplace hmore
      have hmul : (cur + 1 + 1) * blockSize bits = (cur + 1) * blockSize bits + blockSize bits :=
        Nat.succ_mul ..
      have hself : cur + 1 ≤ (cur + 1) * blockSize bits := Nat.le_mul_of_pos_right _ hpos
      -- the next block starts within the range
      have hblock : cur + 1 ≤ (offset + size - 1) >>> bits := by
        rw [Nat.shiftRight_eq_div_pow, ← blockSize_eq, Nat.le_div_iff_mul_le hpos]
        omega
      have hfuel' : size - (factSize + min (blockSize bits) (size - factSize)) ≤ fuel := by omega
      have hle' : factSize + min (blockSize bits) (size - factSize) ≤ size := by omega
      have hplace' : factSize + min (blockSize bits) (size - factSize) < size →
          (cur + 1 + 1) * blockSize bits =
            offset + (factSize + min (blockSize bits) (size - factSize)) := by
        intro hmore'
        omega
      have hassert : (cur : ℤ) ≤ endBlockNum := by
        have := hend (by omega)
        omega
      have hcur : off64 ((cur : ℤ) + 1) = (cur + 1 : ℕ) := off64_eq (by omega) (by omega)
      have hchunk : int32 (min (blockSize bits) (off64 ((size : ℤ) - factSize))) =
          (min (blockSize bits) (size - factSize) : ℕ) := by
        rw [off64_eq (by omega) (by omega), int32_eq (by omega) (by omega)]
        omega
      have hfact : off64 ((factSize : ℤ) + (min (blockSize bits) (size - factSize) : ℕ)) =
          (factSize + min (blockSize bits) (size - factSize) : ℕ) :=
        off64_eq (by omega) (by omega)
      have hcall :
          (⟨(cur + 1 : ℕ), 0, (min (blockSize bits) (size - factSize) : ℕ), factSize⟩ : Call) =
            Chunk.call ⟨cur + 1, 0, min (blockSize bits) (size - factSize), factSize⟩ := rfl
      rw [if_pos (by exact_mod_cast hmore), if_pos hassert, if_pos hmore, hchunk, hcur, hfact,
        hcall, List.map_cons, finish_foldlM_cons]
      cases body s (Chunk.call ⟨cur + 1, 0, min (blockSize bits) (size - factSize), factSize⟩) with
      | error e => rfl
      | ok s' =>
        dsimp only
        exact ih _ _ hfuel' hle' hplace' s'
    · have hdone : factSize = size := by omega
      rw [if_neg (by exact_mod_cast hmore), if_neg hmore, hdone]
      rfl

/-- The start of the first block, and where in it the range starts. -/
theorem start_bounds (bits offset : ℕ) :
    offset >>> bits * blockSize bits ≤ offset ∧
      offset < offset >>> bits * blockSize bits + blockSize bits := by
  have hmod := Nat.mod_lt offset (blockSize_pos bits)
  have hdiv := Nat.div_add_mod' offset (blockSize bits)
  rw [Nat.shiftRight_eq_div_pow, ← blockSize_eq]
  omega

theorem startOffset_eq (hint : blockSize bits < 2 ^ 31) {offset : ℕ} (hlt : offset < 2 ^ 63) :
    int32 (off64 ((offset : ℤ) - off64 (((offset : ℤ) >>> bits) * 2 ^ bits))) =
      (offset - offset >>> bits * blockSize bits : ℕ) := by
  obtain ⟨hlow, hhigh⟩ := start_bounds bits offset
  have hshift : ((offset : ℤ) >>> bits) * 2 ^ bits = (offset >>> bits * blockSize bits : ℕ) := by
    rw [blockSize_eq]
    exact_mod_cast rfl
  rw [hshift, off64_eq (x := (offset >>> bits * blockSize bits : ℕ)) (by omega) (by omega),
    off64_eq (by omega) (by omega), int32_eq (by omega) (by omega)]
  omega

/-- **The rounds of a call** are those of its chunks, in order. -/
theorem chunkRounds_eq (hint : blockSize bits < 2 ^ 31) {size offset : ℕ}
    (hlt : size + offset < 2 ^ 63) {endBlockNum : ℤ}
    (hend : 0 < size → (((offset + size - 1) >>> bits : ℕ) : ℤ) ≤ endBlockNum) (s : σ) :
    chunkRounds bits body size offset endBlockNum s =
      finish (((chunks bits size offset).map Chunk.call).foldlM body s) size := by
  obtain ⟨hlow, hhigh⟩ := start_bounds bits offset
  have hstart : (offset >>> bits) <<< bits = offset >>> bits * blockSize bits := by
    rw [blockSize_eq, Nat.shiftLeft_eq]
  have hchunk : int32 (min (size : ℤ) (int32 (blockSize bits -
      (offset - offset >>> bits * blockSize bits : ℕ)))) =
        (min size (blockSize bits - (offset - offset >>> bits * blockSize bits)) : ℕ) := by
    rw [int32_eq (x := blockSize bits - _) (by omega) (by omega), int32_eq (by omega) (by omega)]
    omega
  have hmul : (offset >>> bits + 1) * blockSize bits =
      offset >>> bits * blockSize bits + blockSize bits := Nat.succ_mul ..
  have hlater := laterRounds_eq body hint hlt hend size
    (min size (blockSize bits - (offset - offset >>> bits * blockSize bits))) (offset >>> bits)
    (by omega) (by omega) (by intro hmore; omega)
  unfold chunkRounds chunks
  dsimp only
  rw [startOffset_eq hint (by omega), hchunk, hstart, List.map_cons, finish_foldlM_cons]
  show (match body s (Chunk.call ⟨offset >>> bits, offset - offset >>> bits * blockSize bits,
    min size (blockSize bits - (offset - offset >>> bits * blockSize bits)), 0⟩) with
      | .error e => _ | .ok s => _) = _
  cases body s (Chunk.call ⟨offset >>> bits, offset - offset >>> bits * blockSize bits,
    min size (blockSize bits - (offset - offset >>> bits * blockSize bits)), 0⟩) with
  | error e => rfl
  | ok s' => exact hlater s'

/-- **The loop of `writeBuf`.** -/
theorem writeBufLoop_eq (hint : blockSize bits < 2 ^ 31) {size offset : ℕ} (hpos : 0 < size)
    (hlt : size + offset < 2 ^ 63) (s : σ) :
    writeBufLoop bits body size offset s =
      finish (((chunks bits size offset).map Chunk.call).foldlM body s) size := by
  have hlast : off64 (off64 ((offset : ℤ) + size) - 1) = (offset + size - 1 : ℕ) := by
    rw [off64_eq (x := (offset : ℤ) + size) (by omega) (by omega), off64_eq (by omega) (by omega)]
    omega
  unfold writeBufLoop
  rw [hlast]
  exact chunkRounds_eq body hint hlt (fun _ => le_refl _) s

/-- **The loop of `readBuf`** for a range that starts in the file. -/
theorem readBufLoop_eq (hint : blockSize bits < 2 ^ 31) {stSize size offset : ℕ}
    (hst : stSize < 2 ^ 63) (hin : offset ≤ stSize) (hlt : size + offset < 2 ^ 63) (s : σ) :
    readBufLoop bits body stSize size offset s =
      finish (((chunks bits (min size (stSize - offset)) offset).map Chunk.call).foldlM body s)
        (min size (stSize - offset) : ℕ) := by
  have hclamp : (if off64 ((size : ℤ) + offset) > stSize then off64 ((stSize : ℤ) - offset)
      else (size : ℤ)) = (min size (stSize - offset) : ℕ) := by
    rw [off64_eq (x := (size : ℤ) + offset) (by omega) (by omega), off64_eq (by omega) (by omega)]
    split <;> omega
  unfold readBufLoop
  dsimp only
  rw [hclamp, off64_eq (by omega) (by omega)]
  apply chunkRounds_eq body hint (by omega)
  intro hpos
  show (((offset + min size (stSize - offset) - 1) >>> bits : ℕ) : ℤ) ≤
    (((offset + min size (stSize - offset) : ℕ) >>> bits : ℕ) : ℤ)
  rw [Nat.shiftRight_eq_div_pow, Nat.shiftRight_eq_div_pow]
  exact_mod_cast Nat.div_le_div_right (Nat.sub_le _ 1)

/-- **The loop of `readBuf` for a range behind the end of the file.**  The length is negative; what
its low 32 bits are as an `int` is what the first round gets and what the call returns. -/
theorem readBufLoop_behind (hint : blockSize bits < 2 ^ 31) {stSize size offset : ℕ}
    (hbehind : stSize < offset) (hlt : size + offset < 2 ^ 63) (s : σ) :
    readBufLoop bits body stSize size offset s =
      finish (body s ⟨(offset >>> bits : ℕ), (offset - offset >>> bits * blockSize bits : ℕ),
        int32 ((stSize : ℤ) - offset), 0⟩) (int32 ((stSize : ℤ) - offset)) := by
  obtain ⟨hlow, hhigh⟩ := start_bounds bits offset
  have hclamp : (if off64 ((size : ℤ) + offset) > stSize then off64 ((stSize : ℤ) - offset)
      else (size : ℤ)) = (stSize : ℤ) - offset := by
    rw [off64_eq (by omega) (by omega), if_pos (by omega)]
    exact signed_of_fits (by omega) (by omega)
  have hmin : min ((stSize : ℤ) - offset) (int32 (blockSize bits -
      (offset - offset >>> bits * blockSize bits : ℕ))) = (stSize : ℤ) - offset := by
    rw [int32_eq (by omega) (by omega)]
    omega
  have hnone : ((stSize : ℤ) - offset).toNat = 0 := by omega
  unfold readBufLoop chunkRounds
  dsimp only
  rw [hclamp, startOffset_eq hint (by omega), hmin, hnone]
  unfold finish
  show (match body s ⟨(offset >>> bits : ℕ), _, _, 0⟩ with | .error e => _ | .ok s => _) = _
  cases body s ⟨(offset >>> bits : ℕ), (offset - offset >>> bits * blockSize bits : ℕ),
    int32 ((stSize : ℤ) - offset), 0⟩ with
  | error e => rfl
  | ok s' => exact if_neg (not_lt.mpr (le_signed (by omega)))

end loops

/-! ### The chunks tile the request -/

/-- The chunks take the bytes of the caller's buffer in order, each once, to the bytes of the file
from `offset` on, in blocks that follow each other. -/
structure Tiling (bits offset size : ℕ) (cs : List Chunk) : Prop where
  fits : ∀ c ∈ cs, 1 ≤ c.len ∧ c.startOffset + c.len ≤ blockSize bits
  blocks : cs.map Chunk.block =
    List.range' (offset >>> bits) ((offset + size - 1) >>> bits - offset >>> bits + 1)
  source : cs.flatMap (fun c => List.range' c.pos c.len) = List.range size
  place : ∀ c ∈ cs, c.block * blockSize bits + c.startOffset = offset + c.pos

theorem Tiles.mem {offset p q : ℕ} {cs : List Chunk} (h : Tiles bits offset p cs q) : ∀ c ∈ cs,
    c.block * blockSize bits + c.startOffset = offset + c.pos ∧
      c.startOffset + c.len ≤ blockSize bits ∧ c.pos + c.len ≤ q := by
  induction h with
  | nil p =>
    intro c hc
    exact absurd hc List.not_mem_nil
  | cons pos place fits rest ih =>
    intro c hc
    rcases List.mem_cons.mp hc with rfl | hc
    · have hle := rest.le
      omega
    · exact ih c hc

theorem Tiles.source {offset p q : ℕ} {cs : List Chunk} (h : Tiles bits offset p cs q) :
    cs.flatMap (fun c => List.range' c.pos c.len) = List.range' p (q - p) := by
  induction h with
  | nil p =>
    rw [Nat.sub_self]
    rfl
  | @cons p q c cs pos place fits rest ih =>
    have hle := rest.le
    have hlen : q - p = c.len + (q - (p + c.len)) := by omega
    rw [List.flatMap_cons, ih, hlen, pos, ← List.range'_append_1]

/-- The block that holds a position. -/
theorem shiftRight_eq {p n : ℕ} (hlow : n * blockSize bits ≤ p)
    (hhigh : p < (n + 1) * blockSize bits) : p >>> bits = n := by
  rw [Nat.shiftRight_eq_div_pow, ← blockSize_eq]
  exact Nat.div_eq_of_lt_le hlow hhigh

theorem laterChunks_blocks {size offset fuel factSize cur : ℕ} (hfuel : size - factSize ≤ fuel)
    (hle : factSize ≤ size) (hcur : (offset + factSize - 1) >>> bits = cur)
    (hplace : factSize < size → (cur + 1) * blockSize bits = offset + factSize) :
    (laterChunks bits size fuel factSize cur).map Chunk.block =
      List.range' (cur + 1) ((offset + size - 1) >>> bits - cur) := by
  induction fuel generalizing factSize cur with
  | zero =>
    have hdone : factSize = size := by omega
    rw [← hcur, hdone, Nat.sub_self]
    rfl
  | succ fuel ih =>
    have hpos := blockSize_pos bits
    rw [laterChunks]
    dsimp only
    split
    · rename_i hlt
      have hat := hplace hlt
      have hmul : (cur + 1 + 1) * blockSize bits = (cur + 1) * blockSize bits + blockSize bits :=
        Nat.succ_mul ..
      have hblock : cur + 1 ≤ (offset + size - 1) >>> bits := by
        rw [Nat.shiftRight_eq_div_pow, ← blockSize_eq, Nat.le_div_iff_mul_le hpos]
        omega
      have hlen : (offset + size - 1) >>> bits - cur =
          (offset + size - 1) >>> bits - (cur + 1) + 1 := by omega
      have hnext : (offset + (factSize + min (blockSize bits) (size - factSize)) - 1) >>> bits =
          cur + 1 := shiftRight_eq (by omega) (by omega)
      rw [List.map_cons, ih (by omega) (by omega) hnext (by intro hmore; omega), hlen,
        List.range'_succ]
    · have hdone : factSize = size := by omega
      rw [← hcur, hdone, Nat.sub_self]
      rfl

/-- **The chunks of a call tile its range.** -/
theorem chunks_tiling {size : ℕ} (hpos : 0 < size) (offset : ℕ) :
    Tiling bits offset size (chunks bits size offset) := by
  have htiles := chunks_tiles bits size offset
  refine ⟨fun c hc => ⟨chunks_len_pos hpos offset c hc, (htiles.mem c hc).2.1⟩, ?_, ?_,
    fun c hc => (htiles.mem c hc).1⟩
  · obtain ⟨hlow, hhigh⟩ := start_bounds bits offset
    have hstart : (offset >>> bits) <<< bits = offset >>> bits * blockSize bits := by
      rw [blockSize_eq, Nat.shiftLeft_eq]
    have hmul : (offset >>> bits + 1) * blockSize bits =
        offset >>> bits * blockSize bits + blockSize bits := Nat.succ_mul ..
    have hlast : (offset + min size (blockSize bits - (offset - offset >>> bits * blockSize bits)) -
        1) >>> bits = offset >>> bits := shiftRight_eq (by omega) (by omega)
    unfold chunks
    dsimp only
    rw [hstart, List.map_cons, laterChunks_blocks (by omega) (by omega) hlast
      (by intro hmore; omega), List.range'_succ]
  · rw [htiles.source, Nat.sub_zero, List.range_eq_range']

/-- **Chunking tiles the request**: there are chunks that tile the range, and the loop of `writeBuf`
runs a round for each of them in order, whatever the rounds do, and returns the size; a read of a
range in the file runs a round for each of the same chunks.  No `assert` fails. -/
theorem loops_tile (bits : ℕ) (hint : blockSize bits < 2 ^ 31) (size offset : ℕ) (hpos : 1 ≤ size)
    (hlt : offset + size < 2 ^ 63) :
    ∃ cs, Tiling bits offset size cs ∧
      (∀ (σ E : Type) (body : σ → Call → Except E σ) (s : σ),
        writeBufLoop bits body size offset s =
          finish ((cs.map Chunk.call).foldlM body s) size) ∧
      ∀ stSize : ℕ, offset + size ≤ stSize → stSize < 2 ^ 63 →
        ∀ (σ E : Type) (body : σ → Call → Except E σ) (s : σ),
          readBufLoop bits body stSize size offset s =
            finish ((cs.map Chunk.call).foldlM body s) size := by
  refine ⟨chunks bits size offset, chunks_tiling hpos offset, ?_, ?_⟩
  · intro σ E body s
    exact writeBufLoop_eq body hint hpos (by omega) s
  · intro stSize hin hst σ E body s
    have hmin : min size (stSize - offset) = size := by omega
    have hread := readBufLoop_eq body hint hst (by omega : offset ≤ stSize)
      (by omega : size + offset < 2 ^ 63) s
    rw [hmin] at hread
    exact hread

/-- Six bytes from the last one of the first block on, in blocks of four. -/
theorem loops_tile_three :
    ∃ cs, Tiling 2 3 6 cs ∧
      (∀ (σ E : Type) (body : σ → Call → Except E σ) (s : σ),
        writeBufLoop 2 body (6 : ℕ) (3 : ℕ) s =
          finish ((cs.map Chunk.call).foldlM body s) (6 : ℕ)) ∧
      ∀ stSize : ℕ, 3 + 6 ≤ stSize → stSize < 2 ^ 63 →
        ∀ (σ E : Type) (body : σ → Call → Except E σ) (s : σ),
          readBufLoop 2 body stSize (6 : ℕ) (3 : ℕ) s =
            finish ((cs.map Chunk.call).foldlM body s) (6 : ℕ) :=
  loops_tile 2 (by decide) 6 3 (by decide) (by decide)

example : chunks 2 6 3 = [⟨0, 3, 1, 0⟩, ⟨1, 0, 4, 1⟩, ⟨2, 0, 1, 5⟩] := by decide

/-! ### The loops of the store -/

section store

variable {cfg : Config bits H}

/-- The chunk that a call is for. -/
def Call.chunk (c : Call) : Chunk :=
  ⟨c.blockNum.toNat, c.startOffset.toNat, c.chunkSize.toNat, c.pos.toNat⟩

theorem Chunk.chunk_call (c : Chunk) : c.call.chunk = c := rfl

/-- A round of `writeBuf` on the store and the handle. -/
def writeRound (cfg : Config bits H) (buf : List UInt8) (p : Store bits H × FileInfo H) (c : Call) :
    Except Fault (Store bits H × FileInfo H) :=
  writeBlockWrapper cfg p.1 p.2 buf c.chunk

/-- A round of `readBuf`: the bytes go behind those that were read before. -/
def readRound (cfg : Config bits H) (p : Store bits H × FileInfo H × List UInt8) (c : Call) :
    Except Fault (Store bits H × FileInfo H × List UInt8) :=
  match readChunk cfg p.1 p.2.1 c.chunk with
  | .error e => .error e
  | .ok (s, fi, bytes) => .ok (s, fi, p.2.2 ++ bytes)

theorem foldlM_writeRound (buf : List UInt8) (cs : List Chunk) (s : Store bits H)
    (fi : FileInfo H) :
    (cs.map Chunk.call).foldlM (writeRound cfg buf) (s, fi) = writeChunks cfg buf s fi cs := by
  induction cs generalizing s fi with
  | nil => rfl
  | cons c cs ih =>
    rw [List.map_cons, List.foldlM_cons, writeRound, Chunk.chunk_call]
    unfold writeChunks
    dsimp only
    cases writeBlockWrapper cfg s fi buf c with
    | error e => rfl
    | ok q => exact ih q.1 q.2

theorem foldlM_readRound (cs : List Chunk) (s : Store bits H) (fi : FileInfo H)
    (before : List UInt8) :
    (cs.map Chunk.call).foldlM (readRound cfg) (s, fi, before) =
      match readChunks cfg s fi cs with
      | .error e => .error e
      | .ok (s, fi, bytes) => .ok (s, fi, before ++ bytes) := by
  induction cs generalizing s fi before with
  | nil =>
    show Except.ok _ = Except.ok _
    rw [List.append_nil]
  | cons c cs ih =>
    rw [List.map_cons, List.foldlM_cons, readRound, Chunk.chunk_call]
    unfold readChunks
    dsimp only
    cases readChunk cfg s fi c with
    | error e => rfl
    | ok q =>
      refine (ih q.1 q.2.1 (before ++ q.2.2)).trans ?_
      dsimp only
      cases readChunks cfg q.1 q.2.1 cs with
      | error e => rfl
      | ok q' =>
        dsimp only
        rw [List.append_assoc]

/-- **`writeBuf` of the store is the loop** after the file has grown. -/
theorem writeBuf_eq_loop (hint : blockSize bits < 2 ^ 31) (s : Store bits H) (fi : FileInfo H)
    {buf : List UInt8} {offset : ℕ} (hpos : 0 < buf.length)
    (hlt : buf.length + offset < 2 ^ 63) :
    writeBufLoop bits (writeRound cfg buf) buf.length offset
        (growFile s fi (buf.length + offset)) =
      finish (writeBuf cfg s fi buf offset) buf.length := by
  rw [writeBufLoop_eq _ hint hpos hlt, writeBuf, ← foldlM_writeRound]

/-- Behind the end the length is 0 as an `int` when it is a multiple of 2^32. -/
theorem int32_behind {stSize offset : ℕ} (hbehind : stSize < offset) :
    int32 ((stSize : ℤ) - offset) = 0 ↔ 2 ^ 32 ∣ offset - stSize := by
  have hneg : (stSize : ℤ) - offset = -((offset - stSize : ℕ) : ℤ) := by omega
  rw [int32, signed_eq_zero, hneg, Int.dvd_neg, Int.natCast_dvd_natCast]

/-- **`readBuf` of the store is the loop** where it does not fault. -/
theorem readBuf_eq_loop (hint : blockSize bits < 2 ^ 31) (s : Store bits H) (fi : FileInfo H)
    {size offset : ℕ} (hst : fi.stSize < 2 ^ 63) (hstart : ReadStart fi.stSize offset)
    (hlt : size + offset < 2 ^ 63) :
    readBufLoop bits (readRound cfg) fi.stSize size offset (s, fi, []) =
      finish (readBuf cfg s fi size offset) (min size (fi.stSize - offset) : ℕ) := by
  have hclamp : (if size + offset > fi.stSize then fi.stSize - offset else size) =
      min size (fi.stSize - offset) := by
    split <;> omega
  have hloop : readBufLoop bits (readRound cfg) fi.stSize size offset (s, fi, []) =
      finish (((chunks bits (min size (fi.stSize - offset)) offset).map Chunk.call).foldlM
        (readRound cfg) (s, fi, [])) (min size (fi.stSize - offset) : ℕ) := by
    by_cases hin : offset ≤ fi.stSize
    · exact readBufLoop_eq _ hint hst hin hlt _
    · -- the only round copies no byte
      have hbehind : fi.stSize < offset := Nat.lt_of_not_le hin
      have hzero : min size (fi.stSize - offset) = 0 := by omega
      have hshift : (offset >>> bits) <<< bits = offset >>> bits * blockSize bits := by
        rw [blockSize_eq, Nat.shiftLeft_eq]
      have hone : chunks bits 0 offset =
          [⟨offset >>> bits, offset - offset >>> bits * blockSize bits, 0, 0⟩] := by
        rw [chunks, hshift, Nat.zero_min]
        rfl
      rw [readBufLoop_behind _ hint hbehind hlt,
        (int32_behind hbehind).mpr (hstart.resolve_left hin), hzero, hone, List.map_singleton,
        List.foldlM_cons]
      simp only [List.foldlM_nil, bind_pure]
      rfl
  rw [hloop, readBuf, if_pos hstart]
  dsimp only
  rw [hclamp, foldlM_readRound]
  cases readChunks cfg s fi (chunks bits (min size (fi.stSize - offset)) offset) <;> rfl

end store

/-! ### Reads around the end of the file -/

/-- A round that only notes what it is called with. -/
def note (calls : List Call) (c : Call) : Except Empty (List Call) := .ok (calls ++ [c])

theorem foldlM_note (cs calls : List Call) : cs.foldlM note calls = .ok (calls ++ cs) := by
  induction cs generalizing calls with
  | nil => exact congrArg Except.ok (List.append_nil calls).symm
  | cons c cs ih =>
    rw [List.foldlM_cons]
    show cs.foldlM note (calls ++ [c]) = _
    rw [ih, List.append_assoc]
    rfl

/-- The copies that `readBuf` makes, and what it returns. -/
def readCalls (bits : ℕ) (fi : FileInfo H) (size offset : ℤ) :
    Except (Unfinished Empty) (List Call × ℤ) :=
  readBufLoop bits note fi.stSize size offset []

/-- The number of bytes that `memcpy` and `memset` are called with: the `int` as a `size_t`. -/
def Call.length (c : Call) : ℕ := unsigned 64 c.chunkSize

/-- The copy stays in the caller's buffer and in the block. -/
structure Call.InBounds (bits size : ℕ) (c : Call) : Prop where
  nonneg : 0 ≤ c.chunkSize
  buffer : 0 ≤ c.pos ∧ c.pos + c.length ≤ size
  block : 0 ≤ c.startOffset ∧ c.startOffset + c.length ≤ blockSize bits

/-- `readBuf` returns the number of bytes of the range that are in the file, all its copies are in
bounds, and they write the first bytes of the buffer, that many and no others. -/
def ReadsInBounds (bits : ℕ) (fi : FileInfo H) (size offset : ℕ) : Prop :=
  ∃ calls ret, readCalls bits fi size offset = .ok (calls, ret) ∧
    ret = max 0 (min (size : ℤ) (fi.stSize - offset)) ∧
    (∀ c ∈ calls, c.InBounds bits size) ∧
    ∀ p : ℤ, (∃ c ∈ calls, c.pos ≤ p ∧ p < c.pos + c.length) ↔ 0 ≤ p ∧ p < ret

theorem Chunk.length_call (hint : blockSize bits < 2 ^ 31) {c : Chunk}
    (hfits : c.startOffset + c.len ≤ blockSize bits) : c.call.length = c.len :=
  unsigned_natCast (by omega)

omit [DecidableEq H] in
theorem readsInBounds_of_le (hint : blockSize bits < 2 ^ 31) {fi : FileInfo H} {size offset : ℕ}
    (hst : fi.stSize < 2 ^ 63) (hlt : size + offset < 2 ^ 63) (hin : offset ≤ fi.stSize) :
    ReadsInBounds bits fi size offset := by
  have hread := readBufLoop_eq note hint hst hin hlt []
  rw [foldlM_note] at hread
  have htiles := chunks_tiles bits (min size (fi.stSize - offset)) offset
  have hsource := htiles.source
  generalize chunks bits (min size (fi.stSize - offset)) offset = cs at hread htiles hsource
  refine ⟨cs.map Chunk.call, _, hread, by omega, ?_, ?_⟩
  · intro c hc
    obtain ⟨d, hd, rfl⟩ := List.mem_map.mp hc
    obtain ⟨-, hfits, hpos⟩ := htiles.mem d hd
    refine ⟨Int.natCast_nonneg _, ⟨Int.natCast_nonneg _, ?_⟩, Int.natCast_nonneg _, ?_⟩
    · rw [Chunk.length_call hint hfits]
      show (d.pos : ℤ) + d.len ≤ size
      omega
    · rw [Chunk.length_call hint hfits]
      show (d.startOffset : ℤ) + d.len ≤ blockSize bits
      omega
  · intro p
    constructor
    · rintro ⟨c, hc, hlow, hhigh⟩
      obtain ⟨d, hd, rfl⟩ := List.mem_map.mp hc
      obtain ⟨-, hfits, hpos⟩ := htiles.mem d hd
      rw [Chunk.length_call hint hfits] at hhigh
      change (d.pos : ℤ) ≤ p at hlow
      change p < (d.pos : ℤ) + d.len at hhigh
      omega
    · rintro ⟨hlow, hhigh⟩
      -- the position is that of a byte of one of the chunks
      have hmem : p.toNat ∈ cs.flatMap fun c => List.range' c.pos c.len := by
        rw [hsource, List.mem_range'_1]
        omega
      obtain ⟨d, hd, hat⟩ := List.mem_flatMap.mp hmem
      rw [List.mem_range'_1] at hat
      refine ⟨d.call, List.mem_map_of_mem hd, ?_, ?_⟩
      · show (d.pos : ℤ) ≤ p
        omega
      · rw [Chunk.length_call hint (htiles.mem d hd).2.1]
        show p < (d.pos : ℤ) + d.len
        omega

omit [DecidableEq H] in
/-- **Reads around the end of the file**: `readBuf` stays in bounds and returns the number of bytes
that are in the file if and only if the range starts in the file, or so far behind its end that
the negative length becomes 0 as an `int`. -/
theorem reads_in_bounds_iff (bits : ℕ) (hint : blockSize bits < 2 ^ 31) (fi : FileInfo H)
    (hst : fi.stSize < 2 ^ 63) (size offset : ℕ) (hlt : size + offset < 2 ^ 63) :
    ReadsInBounds bits fi size offset ↔
      offset ≤ fi.stSize ∨ 2 ^ 32 ∣ offset - fi.stSize := by
  by_cases hin : offset ≤ fi.stSize
  · exact ⟨fun _ => .inl hin, fun _ => readsInBounds_of_le hint hst hlt hin⟩
  · have hbehind : fi.stSize < offset := by omega
    have hread := readBufLoop_behind note hint hbehind hlt []
    have hdvd := int32_behind hbehind
    constructor
    · rintro ⟨calls, ret, hok, hret, -, -⟩
      right
      rw [readCalls, hread] at hok
      cases hok
      rw [← hdvd, hret]
      omega
    · rintro (hle | hmult)
      · exact absurd hle hin
      · rw [hdvd.mpr hmult] at hread
        obtain ⟨hlow, hhigh⟩ := start_bounds bits offset
        have hlen : unsigned 64 0 = 0 := rfl
        refine ⟨_, _, hread, by omega, fun c hc => ?_, fun p => ?_⟩
        · rw [List.mem_singleton.mp hc]
          refine ⟨le_refl _, ⟨le_refl _, ?_⟩, Int.natCast_nonneg _, ?_⟩
          · show (0 : ℤ) + unsigned 64 0 ≤ size
            omega
          · show ((offset - offset >>> bits * blockSize bits : ℕ) : ℤ) + unsigned 64 0 ≤
              blockSize bits
            omega
        · constructor
          · rintro ⟨c, hc, hfrom, hto⟩
            rw [List.mem_singleton.mp hc] at hfrom hto
            change (0 : ℤ) ≤ p at hfrom
            change p < (0 : ℤ) + unsigned 64 0 at hto
            omega
          · rintro ⟨hfrom, hto⟩
            omega

/-- A new file of the given size. -/
def fileOfSize (size : ℕ) : FileInfo (List UInt8) :=
  (⟨2, ['/', 'f'], 1, size, sIfreg⟩ : FileRow).info

theorem reads_in_bounds_iff_end :
    ReadsInBounds 16 (fileOfSize 3) 65536 3 ↔
      3 ≤ (fileOfSize 3).stSize ∨ 2 ^ 32 ∣ 3 - (fileOfSize 3).stSize :=
  reads_in_bounds_iff 16 (by decide) (fileOfSize 3) (by decide) 65536 3 (by decide)

/-- **A read behind the end of the file** clears nearly the whole address space: on a handle that
knows the file as empty, a read of the byte at 1 calls `memset` with a length of -1. -/
theorem read_behind_end :
    (¬∀ (bits : ℕ) (fi : FileInfo (List UInt8)) (size offset : ℕ), blockSize bits < 2 ^ 31 →
      fi.stSize < 2 ^ 63 → size + offset < 2 ^ 63 → ReadsInBounds bits fi size offset) ∧
    readCalls 16 (fileOfSize 0) 1 1 = .ok ([⟨0, 1, -1, 0⟩], -1) ∧
    (⟨0, 1, -1, 0⟩ : Call).length = 2 ^ 64 - 1 := by
  refine ⟨fun hall => ?_, by decide, by decide⟩
  obtain ⟨calls, ret, hok, hret, -⟩ :=
    hall 16 (fileOfSize 0) 1 1 (by decide) (by decide) (by decide)
  have hread : readCalls 16 (fileOfSize 0) (1 : ℕ) (1 : ℕ) = .ok ([⟨0, 1, -1, 0⟩], -1) := by decide
  rw [hread] at hok
  cases hok
  revert hret
  decide

end Wwdedup
