import Wwdedup.Lib.KeyedTable
import Mathlib.Logic.Function.Basic
import Mathlib.Data.Fintype.Pi

/-!
# The data of the store

The types of `dedup_types.h`, the rows of the three SQLite tables, and the storage file.

* A `Block` is the content of one block: `block_size = 1 << block_size_bits` bytes.
* `StorageBlock` is an entry of the cache `_blocks`.  A `shared_ptr` to it is held by the
  cache only, so the `weak_ptr` of a `BlockInfo` is a number together with the stamp `uid` of
  the object it was taken from: it can be locked as long as the cache holds that object and
  has expired once the object was erased, even if the number was cached again since.
* `BlockInfo` and `FileInfo` are what one open handle remembers.
* MurmurHash3 enters as the function `murmur` of a `Config`; nothing is assumed of it here.
  `dbBlockSize` is `DataBase::block_size`, which the constructor reads through the FUSE
  context and not from the mount options.

The mutexes carry no data and are left out, as are the columns and the fields of `struct stat`
that no modelled function reads (owner and times).  Counters are unbounded integers.
-/

namespace Wwdedup

/-- `1 << block_size_bits`. -/
def blockSize (bits : ℕ) : ℕ := 1 <<< bits

theorem blockSize_eq (bits : ℕ) : blockSize bits = 2 ^ bits := by
  simp [blockSize, Nat.shiftLeft_eq]

theorem blockSize_pos (bits : ℕ) : 0 < blockSize bits := by
  rw [blockSize_eq]
  exact Nat.two_pow_pos bits

/-- The bytes of one block. -/
abbrev Block (bits : ℕ) := Fin (blockSize bits) → UInt8

def zeroBlock (bits : ℕ) : Block bits := fun _ => 0

/-- `memcpy(data + start, src, len)`. -/
def overlay {bits : ℕ} (data : Block bits) (start len : ℕ) (src : ℕ → UInt8) : Block bits :=
  fun i => if start ≤ i.val ∧ i.val < start + len then src (i.val - start) else data i

/-- `block_size` of the database layer and the hash of a block. -/
structure Config (bits : ℕ) (H : Type) where
  dbBlockSize : ℤ
  murmur : Block bits → H

/-- A block that starts inside the size does so for a database layer that knows the block size. -/
theorem not_past {bits : ℕ} {H : Type} {cfg : Config bits H}
    (hdb : cfg.dbBlockSize ≤ blockSize bits) {n size : ℕ} (hle : n * blockSize bits ≤ size) :
    ¬(n : ℤ) * cfg.dbBlockSize > size := by
  have hmul : (n : ℤ) * cfg.dbBlockSize ≤ n * blockSize bits :=
    Int.mul_le_mul_of_nonneg_left hdb (Int.natCast_nonneg n)
  omega

/-- A `shared_ptr<string>` that points to a hash: the null pointer, the empty string read from
a NULL column, or a digest. -/
inductive HashPtr (H : Type) where
  | null
  | empty
  | digest (h : H)
  deriving DecidableEq, Repr

/-- A `weak_ptr<storage_block>`. -/
structure WeakPtr where
  num : ℕ
  uid : ℕ
  deriving DecidableEq, Repr

/-- `struct storage_block`; `data = none` is the empty vector. -/
structure StorageBlock (bits : ℕ) (H : Type) where
  storageBlockNum : ℕ
  uid : ℕ
  useCount : ℤ
  hash : HashPtr H
  data : Option (Block bits)
  dirty : Bool
  loaded : Bool
  atime : ℕ
  deriving DecidableEq

/-- The constructor `storage_block(num)`. -/
def StorageBlock.new {bits : ℕ} {H : Type} (num uid now : ℕ) : StorageBlock bits H where
  storageBlockNum := num
  uid := uid
  useCount := 0
  hash := .null
  data := none
  dirty := false
  loaded := false
  atime := now

def StorageBlock.ptr {bits : ℕ} {H : Type} (b : StorageBlock bits H) : WeakPtr :=
  ⟨b.storageBlockNum, b.uid⟩

/-- `struct block_info`. -/
structure BlockInfo (H : Type) where
  fileBlockNum : ℕ
  storageBlockNum : ℕ
  hash : HashPtr H
  loaded : Bool
  empty : Bool
  storageBlock : Option WeakPtr
  deriving DecidableEq, Repr

/-- The constructor `block_info(fileBlockNum)`. -/
def BlockInfo.new {H : Type} (fileBlockNum : ℕ) : BlockInfo H where
  fileBlockNum := fileBlockNum
  storageBlockNum := 0
  hash := .null
  loaded := false
  empty := true
  storageBlock := none

/-- A path as SQLite stores it: the bytes of a `std::string`, each a `char`.  What one reads as a
character may be several of them. -/
abbrev Path := List Char

/-- `struct file_info`: the private copy that one handle works on. -/
structure FileInfo (H : Type) where
  name : Path
  depth : ℤ
  stIno : ℕ
  stSize : ℕ
  stMode : ℕ
  blocks : ℕ → Option (BlockInfo H)

/-- Put the entry back into the skip list of the handle. -/
def FileInfo.setBlock {H : Type} (fi : FileInfo H) (fb : BlockInfo H) : FileInfo H :=
  { fi with blocks := Function.update fi.blocks fb.fileBlockNum (some fb) }

/-- `blocks.extract(n)`. -/
def FileInfo.dropBlock {H : Type} (fi : FileInfo H) (n : ℕ) : FileInfo H :=
  { fi with blocks := Function.update fi.blocks n none }

@[simp] theorem FileInfo.setBlock_blocks {H : Type} (fi : FileInfo H) (fb : BlockInfo H) :
    (fi.setBlock fb).blocks = Function.update fi.blocks fb.fileBlockNum (some fb) := rfl

@[simp] theorem FileInfo.setBlock_stIno {H : Type} (fi : FileInfo H) (fb : BlockInfo H) :
    (fi.setBlock fb).stIno = fi.stIno := rfl

@[simp] theorem FileInfo.setBlock_stSize {H : Type} (fi : FileInfo H) (fb : BlockInfo H) :
    (fi.setBlock fb).stSize = fi.stSize := rfl

@[simp] theorem FileInfo.dropBlock_blocks {H : Type} (fi : FileInfo H) (n : ℕ) :
    (fi.dropBlock n).blocks = Function.update fi.blocks n none := rfl

@[simp] theorem FileInfo.dropBlock_stIno {H : Type} (fi : FileInfo H) (n : ℕ) :
    (fi.dropBlock n).stIno = fi.stIno := rfl

@[simp] theorem FileInfo.dropBlock_stSize {H : Type} (fi : FileInfo H) (n : ℕ) :
    (fi.dropBlock n).stSize = fi.stSize := rfl

/-! ### The storage file -/

/-- The storage file: its length in bytes, and the bytes of its slots.  There are only zeros behind
the end, so that a write that starts there leaves zeros in the gap. -/
structure Storage (bits : ℕ) where
  size : ℕ
  slot : ℕ → Block bits
  beyond : ∀ n i, size ≤ n * blockSize bits + i.val → slot n i = 0

/-- The file has all of the slot. -/
def Storage.Has {bits : ℕ} (st : Storage bits) (n : ℕ) : Prop := (n + 1) * blockSize bits ≤ st.size

instance {bits : ℕ} (st : Storage bits) (n : ℕ) : Decidable (st.Has n) :=
  inferInstanceAs (Decidable (_ ≤ _))

/-- `pread` of the whole slot `n`, `none` when the file ends before the end of the slot. -/
def Storage.read {bits : ℕ} (st : Storage bits) (n : ℕ) : Option (Block bits) :=
  if st.Has n then some (st.slot n) else none

theorem mod_lt_blockSize (bits p : ℕ) : p % blockSize bits < blockSize bits :=
  Nat.mod_lt p (blockSize_pos bits)

/-- The byte at `p` of the storage file, zero behind the end. -/
def Storage.byte {bits : ℕ} (st : Storage bits) (p : ℕ) : UInt8 :=
  st.slot (p / blockSize bits) ⟨p % blockSize bits, mod_lt_blockSize bits p⟩

theorem Storage.byte_slot {bits : ℕ} (st : Storage bits) (n : ℕ) (i : Fin (blockSize bits)) :
    st.byte (n * blockSize bits + i) = st.slot n i := by
  have hdiv : (n * blockSize bits + i) / blockSize bits = n := by
    rw [Nat.mul_comm, Nat.mul_add_div (blockSize_pos bits), Nat.div_eq_of_lt i.isLt, Nat.add_zero]
  have hmod : (n * blockSize bits + i) % blockSize bits = i := by
    rw [Nat.mul_comm, Nat.mul_add_mod, Nat.mod_eq_of_lt i.isLt]
  unfold Storage.byte
  simp only [hdiv, hmod]

theorem Storage.has_of_read {bits : ℕ} {st : Storage bits} {n : ℕ} {x : Block bits}
    (h : st.read n = some x) : st.Has n := by
  by_contra hhas
  rw [read, if_neg hhas] at h
  cases h

theorem Storage.slot_of_read {bits : ℕ} {st : Storage bits} {n : ℕ} {x : Block bits}
    (h : st.read n = some x) : st.slot n = x := by
  have hhas := has_of_read h
  rw [read, if_pos hhas] at h
  exact Option.some.inj h

/-- `pwrite(_storage, data, block_size, n << block_size_bits)`. -/
def Storage.pwrite {bits : ℕ} (st : Storage bits) (n : ℕ) (data : Block bits) : Storage bits where
  size := max st.size ((n + 1) * blockSize bits)
  slot := Function.update st.slot n data
  beyond m i h := by
    have hmul : (n + 1) * blockSize bits = n * blockSize bits + blockSize bits := Nat.succ_mul ..
    rw [Function.update_apply]
    split
    · rename_i hm
      rw [hm] at h
      omega
    · exact st.beyond m i (by omega)

theorem Storage.Has.pwrite {bits : ℕ} {st : Storage bits} {k : ℕ} (h : st.Has k) (n : ℕ)
    (data : Block bits) : (st.pwrite n data).Has k := le_trans h (Nat.le_max_left ..)

theorem Storage.read_pwrite_self {bits : ℕ} (st : Storage bits) (n : ℕ) (data : Block bits) :
    (st.pwrite n data).read n = some data := by
  have hhas : (st.pwrite n data).Has n := Nat.le_max_right ..
  rw [read, if_pos hhas]
  exact congrArg some (Function.update_self ..)

theorem Storage.read_pwrite_of_ne {bits : ℕ} (st : Storage bits) {n k : ℕ} (data x : Block bits)
    (h : st.read k = some x) (hne : k ≠ n) : (st.pwrite n data).read k = some x := by
  unfold read at h ⊢
  split at h
  · rename_i hk
    rw [if_pos (hk.pwrite n data), ← h]
    simp [pwrite, hne]
  · cases h

/-- The first bytes of the storage file: the signature and the block size, as the constructor
of `BlocksCache` writes them (what the rest of the buffer holds is left open by the source and
is zero here). -/
def signature (bits : ℕ) : Block bits := fun i =>
  ("WWDEDUP1".toUTF8.toList ++
    (List.range 4).map fun k => UInt8.ofNat (blockSize bits / 256 ^ k)).getD i.val 0

/-- A storage file that was just created. -/
def Storage.create (bits : ℕ) : Storage bits where
  size := blockSize bits
  slot := Function.update (fun _ => zeroBlock bits) 0 (signature bits)
  beyond n i h := by
    rw [Function.update_apply]
    split
    · rename_i hn
      rw [hn, Nat.zero_mul, Nat.zero_add] at h
      exact absurd i.isLt (not_lt.mpr h)
    · rfl

/-! ### Rows -/

/-- A row of `files`. -/
structure FileRow where
  id : ℕ
  path : Path
  depth : ℤ
  size : ℕ
  mode : ℕ
  deriving DecidableEq, Repr

/-- A row of `file_blocks`. -/
structure FileBlockRow (H : Type) where
  fileId : ℕ
  offset : ℕ
  hash : H
  deriving DecidableEq, Repr

/-- A row of `block_hashes`. -/
structure BlockHashRow (H : Type) where
  id : ℕ
  hash : H
  useCount : ℤ
  deriving DecidableEq, Repr

/-- What ends a call without a result: a null pointer is followed, a length is negative, the
storage file is too short or not accepted, or there is no such handle. -/
inductive Fault where
  | nullHash
  | negativeSize
  | shortRead
  | storageRefused
  | noHandle
  deriving DecidableEq, Repr

end Wwdedup
