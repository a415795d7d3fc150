import Wwdedup.Lib.Mixing
import Wwdedup.Types
import Mathlib.Data.Finite.Prod

/-!
# MurmurHash3

`MurmurHash3_x64_128` as `_writeBlock` calls it: lanes of 16 bytes are absorbed into two words, then
the bytes behind the last whole lane, then the words are mixed once more.

* `murmurHash3_apart`: messages of one length that differ in one lane only have different digests.
* `murmurHash3_putLane_bijective`: the digest is a bijection of every single lane.
* `murmurHash3_compensate`: a change of one lane is hidden by exactly one content of any other lane.
* `digest_eq_iff`: blocks that differ in one aligned lane have different digests.
* `digest_injective`: blocks of at most 16 bytes are told apart.
* `digest_collides`: every larger block shares its digest with another one.
-/

namespace Wwdedup

open Mixing

/-- The two words that are written to `out`. -/
abbrev Digest := BitVec 64 × BitVec 64

/-- `HASH_SEED`. -/
def hashSeed : BitVec 32 := 0xad64fac3

namespace MurmurHash3

def c1 : BitVec 64 := 0x87c37b91114253d5

def c2 : BitVec 64 := 0x4cf5ad432745937f

def rotl64 (x : BitVec 64) (r : ℕ) : BitVec 64 := rotl x r

def getblock64 (data : ℕ → UInt8) (i : ℕ) : BitVec 64 := xorBytes (fun j => data (i * 8 + j)) 8 0

def fmix64 (k : BitVec 64) : BitVec 64 :=
  let k := k ^^^ k >>> 33
  let k := k * 0xff51afd7ed558ccd
  let k := k ^^^ k >>> 33
  let k := k * 0xc4ceb9fe1a85ec53
  k ^^^ k >>> 33

/-- `k1 *= c1; k1 = ROTL64(k1,31); k1 *= c2`. -/
def mixK1 (k1 : BitVec 64) : BitVec 64 := rotl64 (k1 * c1) 31 * c2

/-- `k2 *= c2; k2 = ROTL64(k2,33); k2 *= c1`. -/
def mixK2 (k2 : BitVec 64) : BitVec 64 := rotl64 (k2 * c2) 33 * c1

/-- The body of the loop. -/
def body (k h : Digest) : Digest :=
  let h1 := h.1 ^^^ mixK1 k.1
  let h1 := rotl64 h1 27 + h.2
  let h1 := h1 * 5 + 0x52dce729
  let h2 := h.2 ^^^ mixK2 k.2
  let h2 := rotl64 h2 31 + h1
  let h2 := h2 * 5 + 0x38495ab5
  (h1, h2)

/-- The switch over `len & 15`, whose cases fall through. -/
def tail (bytes : ℕ → UInt8) (r : ℕ) (h : Digest) : Digest :=
  let h2 := if 9 ≤ r then h.2 ^^^ mixK2 (xorBytes (fun j => bytes (8 + j)) (r - 8) 0) else h.2
  let h1 := if 1 ≤ r then h.1 ^^^ mixK1 (xorBytes bytes (min r 8) 0) else h.1
  (h1, h2)

def finalization (len : ℕ) (h : Digest) : Digest :=
  let h1 := h.1 ^^^ BitVec.ofNat 64 len
  let h2 := h.2 ^^^ BitVec.ofNat 64 len
  let h1 := h1 + h2
  let h2 := h2 + h1
  let h1 := fmix64 h1
  let h2 := fmix64 h2
  let h1 := h1 + h2
  let h2 := h2 + h1
  (h1, h2)

end MurmurHash3

open MurmurHash3

/-- `MurmurHash3_x64_128(key, len, seed, out)`. -/
def murmurHash3_x64_128 (data : ℕ → UInt8) (len : ℕ) (seed : BitVec 32) : Digest :=
  let nblocks := len / 16
  let h := (List.range nblocks).foldl
    (fun h i => body (getblock64 data (i * 2 + 0), getblock64 data (i * 2 + 1)) h)
    (seed.setWidth 64, seed.setWidth 64)
  let h := tail (fun j => data (nblocks * 16 + j)) (len &&& 15) h
  finalization len h

/-- The digest of a text of five letters. -/
example : murmurHash3_x64_128 ([104, 101, 108, 108, 111].getD · 0) 5 0 =
    (0xcbd8a7b341bd9b02, 0x5b1e906a48ae1d19) := by decide +kernel

namespace MurmurHash3

/-! ### The steps lose nothing -/

theorem mixK1_bijective : Function.Bijective mixK1 :=
  (mul_bijective c2 0xa81e14edd9de2c7f (by decide)).comp
    ((rotl_bijective (by decide)).comp (mul_bijective c1 0xa98409e882ce4d7d (by decide)))

theorem mixK2_bijective : Function.Bijective mixK2 :=
  (mul_bijective c1 0xa98409e882ce4d7d (by decide)).comp
    ((rotl_bijective (by decide)).comp (mul_bijective c2 0xa81e14edd9de2c7f (by decide)))

theorem fmix64_bijective : Function.Bijective fmix64 := by
  have hshift : Function.Bijective fun x : BitVec 64 => x ^^^ x >>> 33 :=
    xorshift_bijective (by decide)
  have hfirst := mul_bijective (0xff51afd7ed558ccd : BitVec 64) 0x4f74430c22a54005 (by decide)
  have hsecond := mul_bijective (0xc4ceb9fe1a85ec53 : BitVec 64) 0x9cb4b2f8129337db (by decide)
  exact hshift.comp (hsecond.comp (hshift.comp (hfirst.comp hshift)))

/-- What the loop does to a word after a key came in. -/
theorem turn_injective {r : ℕ} (hr : r ≤ 64) (y c : BitVec 64) :
    Function.Injective fun x => (rotl64 x r + y) * 5 + c := by
  intro a b heq
  have hmul : (rotl64 a r + y) * 5 = (rotl64 b r + y) * 5 := add_right_cancel heq
  have hadd := (mul_bijective (5 : BitVec 64) 0xcccccccccccccccd (by decide)).injective hmul
  exact (rotl_bijective hr).injective (add_right_cancel hadd)

/-- **The body of the loop** is a permutation of the state for each lane and tells the lanes
apart in each state. -/
theorem body_latin : Latin body where
  state k := by
    refine Finite.injective_iff_bijective.mp fun g h heq => ?_
    obtain ⟨hfst, hsnd⟩ := Prod.mk.inj heq
    -- the second word shows what the old second word was, and then the first word does
    rw [hfst] at hsnd
    have h2 : g.2 = h.2 := (BitVec.xor_left_inj _).mp (turn_injective (by decide) _ _ hsnd)
    rw [h2] at hfst
    have h1 : g.1 = h.1 := (BitVec.xor_left_inj _).mp (turn_injective (by decide) _ _ hfst)
    exact Prod.ext h1 h2
  key h := by
    refine Finite.injective_iff_bijective.mp fun k k' heq => ?_
    obtain ⟨hfst, hsnd⟩ := Prod.mk.inj heq
    rw [hfst] at hsnd
    have h1 : mixK1 k.1 = mixK1 k'.1 :=
      (BitVec.xor_right_inj _).mp (turn_injective (by decide) _ _ hfst)
    have h2 : mixK2 k.2 = mixK2 k'.2 :=
      (BitVec.xor_right_inj _).mp (turn_injective (by decide) _ _ hsnd)
    exact Prod.ext (mixK1_bijective.injective h1) (mixK2_bijective.injective h2)

/-- `h1 += h2; h2 += h1`. -/
theorem cross_injective : Function.Injective fun h : Digest => (h.1 + h.2, h.2 + (h.1 + h.2)) := by
  intro g h heq
  obtain ⟨hfst, hsnd⟩ := Prod.mk.inj heq
  rw [hfst] at hsnd
  have h2 : g.2 = h.2 := add_right_cancel hsnd
  rw [h2] at hfst
  exact Prod.ext (add_right_cancel hfst) h2

theorem finalization_bijective (len : ℕ) : Function.Bijective (finalization len) := by
  refine Finite.injective_iff_bijective.mp fun g h heq => ?_
  have hmixed := Prod.mk.inj (cross_injective heq)
  have hcross : ((g.1 ^^^ BitVec.ofNat 64 len) + (g.2 ^^^ BitVec.ofNat 64 len), _) =
      ((h.1 ^^^ BitVec.ofNat 64 len) + (h.2 ^^^ BitVec.ofNat 64 len), _) :=
    Prod.ext (fmix64_bijective.injective hmixed.1) (fmix64_bijective.injective hmixed.2)
  obtain ⟨h1, h2⟩ := Prod.mk.inj (cross_injective hcross)
  exact Prod.ext ((BitVec.xor_left_inj _).mp h1) ((BitVec.xor_left_inj _).mp h2)

theorem tail_bijective (bytes : ℕ → UInt8) (r : ℕ) : Function.Bijective (tail bytes r) := by
  refine Finite.injective_iff_bijective.mp fun g h heq => ?_
  obtain ⟨hfst, hsnd⟩ := Prod.mk.inj heq
  refine Prod.ext ?_ ?_
  · split at hfst
    · exact (BitVec.xor_left_inj _).mp hfst
    · exact hfst
  · split at hsnd
    · exact (BitVec.xor_left_inj _).mp hsnd
    · exact hsnd

/-- The bytes behind the last lane are told apart. -/
theorem tail_injective {b b' : ℕ → UInt8} {r : ℕ} {h : Digest} (hr : r < 16)
    (heq : tail b r h = tail b' r h) : ∀ j < r, b j = b' j := by
  obtain ⟨hfst, hsnd⟩ := Prod.mk.inj heq
  intro j hj
  rw [if_pos (by omega), if_pos (by omega), BitVec.xor_right_inj] at hfst
  have hlow := xorBytes_injective (by omega) (mixK1_bijective.injective hfst)
  by_cases hj8 : j < 8
  · exact hlow j (by omega)
  · rw [if_pos (by omega), if_pos (by omega), BitVec.xor_right_inj] at hsnd
    have hhigh := xorBytes_injective (by omega) (mixK2_bijective.injective hsnd) (j - 8) (by omega)
    have hsplit : 8 + (j - 8) = j := by omega
    rwa [hsplit] at hhigh

theorem tail_congr {b b' : ℕ → UInt8} {r : ℕ} (hr : r < 16) (h : ∀ j < r, b j = b' j) :
    tail b r = tail b' r := by
  have hlow : xorBytes b (min r 8) (0 : BitVec 64) = xorBytes b' (min r 8) 0 :=
    xorBytes_congr (fun j hj => h j (by omega)) _
  have hhigh : xorBytes (fun j => b (8 + j)) (r - 8) (0 : BitVec 64) =
      xorBytes (fun j => b' (8 + j)) (r - 8) 0 :=
    xorBytes_congr (fun j hj => h (8 + j) (by omega)) _
  funext x
  unfold tail
  rw [hlow, hhigh]

/-! ### The lanes of a message -/

/-- The two words that pass `i` of the loop reads. -/
def lane (data : ℕ → UInt8) (i : ℕ) : Digest :=
  (getblock64 data (i * 2), getblock64 data (i * 2 + 1))

def lanes (data : ℕ → UInt8) (n : ℕ) : List Digest := (List.range n).map (lane data)

/-- The message with other words in lane `i`. -/
def putLane (data : ℕ → UInt8) (i : ℕ) (k : Digest) : ℕ → UInt8 := fun p =>
  if p / 16 = i then byteAt (if p % 16 < 8 then k.1 else k.2) (p % 8) else data p

variable {data data' : ℕ → UInt8} {len i j : ℕ} {seed : BitVec 32}

/-- The state behind the loop. -/
def absorbed (data : ℕ → UInt8) (len : ℕ) (seed : BitVec 32) : Digest :=
  absorb body (seed.setWidth 64, seed.setWidth 64) (lanes data (len / 16))

theorem murmurHash3_eq (data : ℕ → UInt8) (len : ℕ) (seed : BitVec 32) :
    murmurHash3_x64_128 data len seed = finalization len
      (tail (fun j => data (len / 16 * 16 + j)) (len % 16) (absorbed data len seed)) := by
  have hfold : absorbed data len seed = (List.range (len / 16)).foldl
      (fun h i => body (getblock64 data (i * 2 + 0), getblock64 data (i * 2 + 1)) h)
      (seed.setWidth 64, seed.setWidth 64) := List.foldl_map
  have hmask : len &&& 15 = len % 16 := Nat.and_two_pow_sub_one_eq_mod len 4
  rw [murmurHash3_x64_128, hfold, hmask]

theorem lane_congr (h : ∀ p, p / 16 = i → data p = data' p) : lane data i = lane data' i :=
  Prod.ext (xorBytes_congr (fun j hj => h _ (by omega)) _)
    (xorBytes_congr (fun j hj => h _ (by omega)) _)

/-- A lane shows its bytes. -/
theorem lane_injective (heq : lane data i = lane data' i) (p : ℕ) (hp : p / 16 = i) :
    data p = data' p := by
  obtain ⟨hfst, hsnd⟩ := Prod.mk.inj heq
  by_cases hlow : p % 16 < 8
  · have hsplit : i * 2 * 8 + p % 16 = p := by omega
    have hbyte := xorBytes_injective (by decide) hfst (p % 16) hlow
    rwa [hsplit] at hbyte
  · have hsplit : (i * 2 + 1) * 8 + (p % 16 - 8) = p := by omega
    have hbyte := xorBytes_injective (by decide) hsnd (p % 16 - 8) (by omega)
    rwa [hsplit] at hbyte

theorem lane_putLane (data : ℕ → UInt8) (i : ℕ) (k : Digest) : lane (putLane data i k) i = k := by
  have hfirst : ∀ q < 8, putLane data i k (i * 2 * 8 + q) = byteAt k.1 q := by
    intro q hq
    have hin : (i * 2 * 8 + q) / 16 = i := by omega
    have hlow : (i * 2 * 8 + q) % 16 < 8 := by omega
    have hbyte : (i * 2 * 8 + q) % 8 = q := by omega
    rw [putLane, if_pos hin, if_pos hlow, hbyte]
  have hsecond : ∀ q < 8, putLane data i k ((i * 2 + 1) * 8 + q) = byteAt k.2 q := by
    intro q hq
    have hin : ((i * 2 + 1) * 8 + q) / 16 = i := by omega
    have hhigh : ¬((i * 2 + 1) * 8 + q) % 16 < 8 := by omega
    have hbyte : ((i * 2 + 1) * 8 + q) % 8 = q := by omega
    rw [putLane, if_pos hin, if_neg hhigh, hbyte]
  exact Prod.ext ((xorBytes_congr hfirst 0).trans (xorBytes_byteAt (n := 8) k.1))
    ((xorBytes_congr hsecond 0).trans (xorBytes_byteAt (n := 8) k.2))

theorem putLane_of_ne (data : ℕ → UInt8) (k : Digest) {p : ℕ} (hp : p / 16 ≠ i) :
    putLane data i k p = data p :=
  if_neg hp

theorem lanes_congr (h : ∀ p < len, p / 16 < len / 16 → data p = data' p) :
    lanes data (len / 16) = lanes data' (len / 16) := by
  refine List.map_congr_left fun i hi => lane_congr fun p hp => ?_
  have hi' := List.mem_range.mp hi
  exact h p (by omega) (by omega)

theorem lanes_putLane (k : Digest) (n : ℕ) :
    lanes (putLane data i k) n = (lanes data n).set i k := by
  apply List.ext_getElem? fun m => ?_
  rw [List.getElem?_set]
  by_cases hm : i = m
  · subst hm
    rw [if_pos rfl]
    by_cases hin : i < n
    · simp [lanes, hin, lane_putLane data]
    · simp [lanes, hin]
  · rw [if_neg hm]
    have hsame : lane (putLane data i k) m = lane data m :=
      lane_congr fun p hp => putLane_of_ne data k (by omega)
    by_cases hin : m < n
    · simp [lanes, hin, hsame]
    · simp [lanes, hin]

theorem lanes_length (n : ℕ) : (lanes data n).length = n := by simp [lanes]

/-- The bytes behind the last whole lane are not those of a lane. -/
theorem tail_putLane (hi : i < len / 16) (k h : Digest) :
    tail (fun j => putLane data i k (len / 16 * 16 + j)) (len % 16) h =
      tail (fun j => data (len / 16 * 16 + j)) (len % 16) h := by
  have hsame : ∀ j < len % 16,
      putLane data i k (len / 16 * 16 + j) = data (len / 16 * 16 + j) :=
    fun j hj => putLane_of_ne data k (by omega)
  rw [tail_congr (Nat.mod_lt len (by decide)) hsame]

theorem murmurHash3_putLane (hi : i < len / 16) (k : Digest) :
    murmurHash3_x64_128 (putLane data i k) len seed = finalization len
      (tail (fun j => data (len / 16 * 16 + j)) (len % 16)
        (absorb body (seed.setWidth 64, seed.setWidth 64) ((lanes data (len / 16)).set i k))) := by
  rw [murmurHash3_eq, tail_putLane hi, absorbed, lanes_putLane]

end MurmurHash3

open MurmurHash3

variable {data data' : ℕ → UInt8} {len i j : ℕ} {seed : BitVec 32}

/-- **The digest is a bijection of every single lane**, whatever the other bytes are. -/
theorem murmurHash3_putLane_bijective (data : ℕ → UInt8) (len : ℕ) (seed : BitVec 32)
    (hi : i < len / 16) :
    Function.Bijective fun k => murmurHash3_x64_128 (putLane data i k) len seed := by
  have hlanes : i < (lanes data (len / 16)).length := by rw [lanes_length]; exact hi
  have habsorb := absorb_set_bijective body_latin (seed.setWidth 64, seed.setWidth 64) hlanes
  have hrest := (finalization_bijective len).comp
    ((tail_bijective (fun j => data (len / 16 * 16 + j)) (len % 16)).comp habsorb)
  convert hrest using 2
  exact murmurHash3_putLane hi _

/-- Nothing but the bytes of the message counts. -/
theorem murmurHash3_congr (seed : BitVec 32) (h : ∀ p < len, data p = data' p) :
    murmurHash3_x64_128 data len seed = murmurHash3_x64_128 data' len seed := by
  have htail := tail_congr (Nat.mod_lt len (by decide : 0 < 16))
    fun j hj => h (len / 16 * 16 + j) (by omega)
  rw [murmurHash3_eq, murmurHash3_eq, absorbed, absorbed, lanes_congr fun p hp _ => h p hp, htail]

/-- A message has the words of its lanes. -/
theorem putLane_of_agree (hout : ∀ p < len, p / 16 ≠ i → data p = data' p) (p : ℕ) (hp : p < len) :
    putLane data i (lane data' i) p = data' p := by
  by_cases hin : p / 16 = i
  · exact lane_injective (lane_putLane data i _) p hin
  · rw [putLane_of_ne data _ hin, hout p hp hin]

/-- Behind the loop the bytes that are left decide. -/
theorem murmurHash3_tail (hout : ∀ p < len, p / 16 < len / 16 → data p = data' p)
    (heq : murmurHash3_x64_128 data len seed = murmurHash3_x64_128 data' len seed) (p : ℕ)
    (hp : p < len) (hlast : ¬p / 16 < len / 16) : data p = data' p := by
  rw [murmurHash3_eq, murmurHash3_eq, absorbed, absorbed, lanes_congr hout] at heq
  have htail := tail_injective (Nat.mod_lt len (by decide))
    ((finalization_bijective len).injective heq)
  have hbyte := htail (p - len / 16 * 16) (by omega)
  have hsplit : len / 16 * 16 + (p - len / 16 * 16) = p := by omega
  rwa [hsplit] at hbyte

/-- **Messages that differ in one lane only**, or only behind the last whole lane, have different
digests. -/
theorem murmurHash3_apart (hout : ∀ p < len, p / 16 ≠ i → data p = data' p)
    (heq : murmurHash3_x64_128 data len seed = murmurHash3_x64_128 data' len seed) :
    ∀ p < len, data p = data' p := by
  intro p hp
  by_cases hin : p / 16 = i
  · by_cases hi : i < len / 16
    · have hself := murmurHash3_congr seed (putLane_of_agree (i := i)
        fun q (_ : q < len) _ => Eq.refl (data q))
      have hother := murmurHash3_congr seed (putLane_of_agree hout)
      have hlane : lane data i = lane data' i :=
        (murmurHash3_putLane_bijective data len seed hi).injective
          (hself.trans (heq.trans hother.symm))
      exact lane_injective hlane p hin
    · exact murmurHash3_tail (fun q hq hlane => hout q hq (by omega)) heq p hp (by omega)
  · exact hout p hp hin

/-- **A change of one lane can be hidden** in any other one: exactly one content of that lane leads
to the old digest, and it is a new one. -/
theorem murmurHash3_compensate (data : ℕ → UInt8) (len : ℕ) (seed : BitVec 32) (hi : i < len / 16)
    (hj : j < len / 16) (hij : i ≠ j) {k : Digest} (hk : k ≠ lane data i) :
    ∃ k', k' ≠ lane data j ∧ ∀ k'',
      murmurHash3_x64_128 (putLane (putLane data i k) j k'') len seed =
        murmurHash3_x64_128 data len seed ↔ k'' = k' := by
  have hbij := murmurHash3_putLane_bijective (putLane data i k) len seed hj
  obtain ⟨k', hk', huniq⟩ := hbij.existsUnique (murmurHash3_x64_128 data len seed)
  refine ⟨k', ?_, fun k'' => ⟨huniq k'', fun heq => heq ▸ hk'⟩⟩
  rintro rfl
  -- were lane `j` the old one, the messages would differ in lane `i` only
  have hout : ∀ p < len, p / 16 ≠ i →
      putLane (putLane data i k) j (lane data j) p = data p := by
    intro p _ hp
    by_cases hpj : p / 16 = j
    · exact lane_injective (lane_putLane _ j _) p hpj
    · rw [putLane_of_ne _ _ hpj, putLane_of_ne _ _ hp]
  have hsame := murmurHash3_apart hout hk'
  have hlane : lane (putLane data i k) i = lane data i := lane_congr fun p hp => by
    have hpj : p / 16 ≠ j := by omega
    rw [← hsame p (by omega), putLane_of_ne _ _ hpj]
  exact hk ((lane_putLane data i k).symm.trans hlane)

/-! ### Blocks -/

variable {bits : ℕ}

/-- The memory that `data.data()` points to. -/
def dataBytes (x : Block bits) (p : ℕ) : UInt8 := if h : p < blockSize bits then x ⟨p, h⟩ else 0

theorem dataBytes_of_lt (x : Block bits) {p : ℕ} (hp : p < blockSize bits) :
    dataBytes x p = x ⟨p, hp⟩ := dif_pos hp

/-- The hash of a block in `_writeBlock`. -/
def digest (x : Block bits) : Digest :=
  murmurHash3_x64_128 (dataBytes x) (blockSize bits) hashSeed

/-- **Blocks that differ in one aligned lane of 16 bytes only** never share a digest. -/
theorem digest_eq_iff {x y : Block bits} (hout : ∀ p, p.val / 16 ≠ i → x p = y p) :
    digest x = digest y ↔ x = y := by
  refine ⟨fun heq => funext fun p => ?_, congrArg digest⟩
  rw [← dataBytes_of_lt x p.isLt, ← dataBytes_of_lt y p.isLt]
  refine murmurHash3_apart (i := i) (fun q hq hlane => ?_) heq p p.isLt
  rw [dataBytes_of_lt x hq, dataBytes_of_lt y hq]
  exact hout ⟨q, hq⟩ hlane

/-- A block of zeros and one with another last byte. -/
theorem digest_eq_iff_lastByte :
    digest (zeroBlock 5) = digest (Function.update (zeroBlock 5) ⟨31, by decide⟩ 1) ↔
      zeroBlock 5 = Function.update (zeroBlock 5) ⟨31, by decide⟩ 1 :=
  digest_eq_iff (i := 1) fun p hp => by
    rw [Function.update_of_ne]
    rintro rfl
    exact hp rfl

/-- **Blocks of at most 16 bytes** are told apart by their digests. -/
theorem digest_injective (hbits : bits ≤ 4) :
    Function.Injective (digest : Block bits → Digest) := by
  have hsize : blockSize bits ≤ 16 := by
    rw [blockSize_eq]
    exact Nat.pow_le_pow_right (by decide) hbits
  intro x y heq
  have hsame := murmurHash3_apart (i := 0) (fun p hp hout => absurd (by omega) hout) heq
  funext p
  rw [← dataBytes_of_lt x p.isLt, ← dataBytes_of_lt y p.isLt]
  exact hsame p p.isLt

/-- **Every block of 32 bytes or more** shares its digest with another one. -/
theorem digest_collides (hbits : 5 ≤ bits) (x : Block bits) :
    ∃ y : Block bits, y ≠ x ∧ digest y = digest x := by
  have hsize : 32 ≤ blockSize bits := by
    rw [blockSize_eq]
    exact Nat.pow_le_pow_right (n := 2) (by decide) hbits
  obtain ⟨k, hk⟩ : ∃ k, k ≠ lane (dataBytes x) 0 := by
    refine ⟨((lane (dataBytes x) 0).1 + 1, 0), fun heq => ?_⟩
    have hone := congrArg Prod.fst heq
    simp at hone
  obtain ⟨k', -, hhides⟩ := murmurHash3_compensate (dataBytes x) (blockSize bits) hashSeed
    (show 0 < blockSize bits / 16 by omega) (show 1 < blockSize bits / 16 by omega)
    (by decide) hk
  let y : Block bits := fun p => putLane (putLane (dataBytes x) 0 k) 1 k' p
  have hbytes : ∀ p < blockSize bits,
      dataBytes y p = putLane (putLane (dataBytes x) 0 k) 1 k' p :=
    fun p hp => dataBytes_of_lt y hp
  refine ⟨y, fun hxy => hk ?_, ?_⟩
  · have hlane : lane (putLane (dataBytes x) 0 k) 0 = lane (dataBytes x) 0 := by
      refine lane_congr fun p hp => ?_
      have hold := hbytes p (by omega)
      rw [hxy, putLane_of_ne _ k' (by omega)] at hold
      exact hold.symm
    exact (lane_putLane (dataBytes x) 0 k).symm.trans hlane
  · unfold digest
    rw [murmurHash3_congr hashSeed hbytes]
    exact (hhides k').mpr rfl

end Wwdedup
