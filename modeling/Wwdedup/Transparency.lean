import Wwdedup.Handles
import Wwdedup.ReadYourWrites

/-!
# The cache is transparent

A `Picture` is what can be read: the hashes of the file blocks, the contents of these hashes, and
the contents of the blocks that one handle knows.  It says nothing of numbers, of the cache, of
slots or of rows whose hash no file block has.  A pass of the writer leaves the picture as it is;
a round of a call through the handle changes it to one that depends on the picture and the call
only (`Picture.round`).  So two runs that begin with the same picture show the same, whatever
passes come in between.

The rows do depend on the passes: an evicted block comes back with the use count 0, and is then
not overwritten in place, so that the row of its old hash stays.  This can be seen where the
in-place branch is taken although another block shows the same storage block, and where a row that
was left is found for other data with its hash.  One more way to see a pass is a block of the
handle that is still marked `empty`: once its storage block is gone from the cache it reads as a
hole.
-/

namespace Wwdedup

open GuardedRun

variable {bits : ℕ} {H : Type} [DecidableEq H]

/-! ### Pictures -/

theorem FileRow.id_withSize (newSize : ℕ) (r : FileRow) : { r with size := newSize }.id = r.id :=
  rfl

/-- The table `files`, the hash of every file block, the content of every hash, which means
nothing for a hash that no file block has, and, for one handle, its file, its size and the
contents of the blocks that it knows. -/
structure Picture (bits : ℕ) (H : Type) where
  files : KeyedTable FileRow ℕ FileRow.id
  hash : ℕ → ℕ → Option H
  rows : H → Option (Block bits)
  ino : ℕ
  size : ℕ
  known : ℕ → Option (Block bits)

namespace Picture

/-- The content of a file block. -/
def blockOf (a : Picture bits H) (f o : ℕ) : Block bits :=
  ((a.hash f o).bind a.rows).getD (zeroBlock bits)

/-- What the handle shows for a block, known or not. -/
def view (cfg : Config bits H) (a : Picture bits H) (n : ℕ) : Block bits :=
  (a.known n).getD
    (if (n : ℤ) * cfg.dbBlockSize > a.size then zeroBlock bits else a.blockOf a.ino n)

/-- The handle knows the block. -/
def look (cfg : Config bits H) (a : Picture bits H) (n : ℕ) : Picture bits H :=
  { a with known := Function.update a.known n (some (a.view cfg n)) }

open Classical in
/-- The content that data with the hash get: what it is already, if a file block has the hash. -/
noncomputable def stored (a : Picture bits H) (hash : H) (data : Block bits) : Block bits :=
  if ∃ f o, a.hash f o = some hash then (a.rows hash).getD data else data

/-- The block has the hash of new data, and their hash has a content. -/
noncomputable def put (cfg : Config bits H) (a : Picture bits H) (n : ℕ) (data : Block bits) :
    Picture bits H :=
  { a with
    hash := fun f o => if (f, o) = (a.ino, n) then some (cfg.murmur data) else a.hash f o
    rows := Function.update a.rows (cfg.murmur data) (some (a.stored (cfg.murmur data) data))
    known := Function.update a.known n (some (a.stored (cfg.murmur data) data)) }

theorem put_look (cfg : Config bits H) (a : Picture bits H) (n : ℕ) (data : Block bits) :
    (a.look cfg n).put cfg n data = a.put cfg n data := by
  unfold look put
  dsimp only
  rw [Function.update_idem]
  rfl

def resize (a : Picture bits H) (newSize : ℕ) : Picture bits H :=
  { a with
    size := newSize
    files :=
      if a.size = newSize then a.files
      else a.files.modify (fun r => r.id = a.ino) (fun r => { r with size := newSize })
        (FileRow.id_withSize newSize) }

/-- What a round of a read or a write does to the picture, and what it shows. -/
noncomputable def round (cfg : Config bits H) (a : Picture bits H) :
    Round → Picture bits H × List UInt8
  | .resize newSize => (a.resize newSize, [])
  | .write buf c => (a.put cfg c.block (c.data buf (a.view cfg c.block)), [])
  | .read c => (a.look cfg c.block, slice (a.view cfg c.block) c.startOffset c.len)
  | .release _ => (a, [])

end Picture

/-- The rounds of a call through a handle with the given size. -/
def Access.rounds (bits size : ℕ) : Access → List Round
  | .write buf offset =>
    (if buf.length + offset > size then [.resize (buf.length + offset)] else []) ++
      (chunks bits buf.length offset).map (.write buf)
  | .read len offset =>
    (chunks bits (if len + offset > size then size - offset else len) offset).map .read

/-- What a call does to the picture, and what it shows. -/
noncomputable def Picture.call (cfg : Config bits H) (a : Picture bits H) (acc : Access) :
    Picture bits H × Out :=
  let r := specRun (Picture.round cfg) a (acc.rounds bits a.size)
  match acc with
  | .write buf _ => (r.1, .ret buf.length)
  | .read _ _ => (r.1, .bytes r.2.flatten)

/-! ### The picture of a store and a handle -/

/-- The content of the row with the hash. -/
def Store.hashBlock (s : Store bits H) (g : H) : Option (Block bits) :=
  (s.db.selectBlockHash g).bind fun row => s.content row.id

/-- The content of the number that a `block_info` holds. -/
def Store.infoBlock (s : Store bits H) (fb : BlockInfo H) : Block bits :=
  if fb.storageBlockNum = 0 then zeroBlock bits
  else (s.content fb.storageBlockNum).getD (zeroBlock bits)

/-- The store and the handle have the picture. -/
structure Depicts (cfg : Config bits H) (p : Store bits H × FileInfo H) (a : Picture bits H) :
    Prop where
  coherent : Coherent cfg p.1
  ok : p.2.Ok p.1.db
  files : p.1.db.files = a.files
  hash : ∀ f o, p.1.db.fileHash f o = a.hash f o
  rows : ∀ f o g, p.1.db.fileHash f o = some g → p.1.hashBlock g = a.rows g
  ino : p.2.stIno = a.ino
  size : p.2.stSize = a.size
  known : ∀ n, (p.2.blocks n).map p.1.infoBlock = a.known n

/-- The picture of a coherent store and a handle. -/
def picture (s : Store bits H) (fi : FileInfo H) : Picture bits H where
  files := s.db.files
  hash := s.db.fileHash
  rows := s.hashBlock
  ino := fi.stIno
  size := fi.stSize
  known n := (fi.blocks n).map s.infoBlock

/-! ### The guard -/

/-- The handle has a number for the block, but takes it for a hole now that its weak pointer has
expired. -/
def Faded (cfg : Config bits H) (s : Store bits H) (fi : FileInfo H) (n : ℕ) : Prop :=
  (fileBlock cfg s fi n).1.empty = true ∧ (fileBlock cfg s fi n).1.storageBlockNum ≠ 0 ∧
    s.lock (fileBlock cfg s fi n).1.storageBlock = none

/-- A read of at least one byte and a write of a part do not go to a faded block. -/
def Round.Shows (cfg : Config bits H) (p : Store bits H × FileInfo H) : Round → Prop
  | .write _ c => c.len < blockSize bits → ¬Faded cfg p.1 p.2 c.block
  | .read c => 0 < c.len → ¬Faded cfg p.1 p.2 c.block
  | _ => True

/-- When the round takes the in-place branch, the handle knows the storage block by no other
block. -/
def Round.Single (cfg : Config bits H) (p : Store bits H × FileInfo H) : Round → Prop
  | .write buf c => ∀ x, NewContent cfg p.1 p.2 buf c x →
      p.1.db.selectBlockHash (cfg.murmur x) = none →
      ∀ b, (getLockedFileBlock cfg p.1 p.2 c.block).store.lock
          (getLockedFileBlock cfg p.1 p.2 c.block).fblock.storageBlock = some b →
        b.useCount = 1 → ∀ m item, p.2.blocks m = some item →
          item.storageBlockNum = b.storageBlockNum → m = c.block
  | _ => True

/-- A row whose hash no file block has is found for the data of its storage block only. -/
def Round.Revives (cfg : Config bits H) (p : Store bits H × FileInfo H) : Round → Prop
  | .write buf c => ∀ x, NewContent cfg p.1 p.2 buf c x →
      (∀ f o, p.1.db.fileHash f o ≠ some (cfg.murmur x)) →
      ∀ row, p.1.db.selectBlockHash (cfg.murmur x) = some row → p.1.content row.id = some x
  | _ => True

/-- The round does not see what a pass changes. -/
def Round.Clear (cfg : Config bits H) (p : Store bits H × FileInfo H) (r : Round) : Prop :=
  r.Shows cfg p ∧ r.Unshared cfg p ∧ r.Single cfg p ∧ r.Revives cfg p

/-! ### Locating a block -/

section rounds

variable {cfg : Config bits H} {s s' : Store bits H} {fi : FileInfo H} {a : Picture bits H}

theorem depicts_picture (h : Coherent cfg s) (hfi : fi.Ok s.db) :
    Depicts cfg (s, fi) (picture s fi) :=
  ⟨h, hfi, rfl, fun _ _ => rfl, fun _ _ _ _ => rfl, rfl, rfl, fun _ => rfl⟩

omit [DecidableEq H] in
theorem infoBlock_congr (h : ∀ k, s'.content k = s.content k) : s'.infoBlock = s.infoBlock := by
  funext fb
  simp only [Store.infoBlock, h]

omit [DecidableEq H] in
/-- A number that a `block_info` holds has a content. -/
theorem content_infoBlock (hco : Coherent cfg s) {fb : BlockInfo H} (hok : fb.Ok s.db)
    (hne : fb.storageBlockNum ≠ 0) :
    s.content fb.storageBlockNum = some (s.infoBlock fb) := by
  obtain ⟨g, hg⟩ := Option.isSome_iff_exists.mp (hok.known hne)
  obtain ⟨x, hx, -⟩ := hco.row _ g (fun hf => hf) hg
  rw [Store.infoBlock, if_neg hne, hx]
  rfl

/-- A hash has the content of the block with its row. -/
theorem Store.hashBlock_of_rowHash (hu : s.db.HashUnique) {k : ℕ} {g : H}
    (hk : s.db.rowHash k = some g) : s.hashBlock g = s.content k := by
  cases hsel : s.db.selectBlockHash g with
  | none => exact absurd hk (Db.selectBlockHash_none hsel k)
  | some row =>
    rw [Store.hashBlock, hsel, Option.bind_some, hu _ _ g (Db.rowHash_of_select hsel) hk]

/-- A hash without a row has no content. -/
theorem Store.hashBlock_of_absent {g : H} (h : ∀ k, s.db.rowHash k ≠ some g) :
    s.hashBlock g = none := by
  cases hsel : s.db.selectBlockHash g with
  | none => rw [Store.hashBlock, hsel, Option.bind_none]
  | some row => exact absurd (Db.rowHash_of_select hsel) (h row.id)

/-- The contents of the hashes depend on the rows and their contents. -/
theorem Coherent.hashBlock_kept (h : Coherent cfg s) (hu' : s'.db.HashUnique)
    (hrow : ∀ k, s'.db.rowHash k = s.db.rowHash k)
    (hkept : ∀ k x, s.content k = some x → s'.content k = some x) (g : H) :
    s'.hashBlock g = s.hashBlock g := by
  by_cases hex : ∃ k, s.db.rowHash k = some g
  · obtain ⟨k, hk⟩ := hex
    obtain ⟨x, hx, -⟩ := h.row k g (fun hf => hf) hk
    rw [Store.hashBlock_of_rowHash h.unique hk,
      Store.hashBlock_of_rowHash hu' ((hrow k).trans hk), hx, hkept k x hx]
  · have habsent := not_exists.mp hex
    rw [Store.hashBlock_of_absent habsent,
      Store.hashBlock_of_absent fun k => (hrow k).symm ▸ habsent k]

/-- The content of a file block is that of its hash. -/
theorem Depicts.blockOf (h : Depicts cfg (s, fi) a) (f o : ℕ) : s.blockOf f o = a.blockOf f o := by
  have hhash : s.db.fileHash f o = a.hash f o := h.hash f o
  rw [Picture.blockOf, ← hhash]
  cases hf : s.db.fileHash f o with
  | none => exact Store.blockOf_of_fileHash_none hf
  | some g =>
    rw [Option.bind_some, ← h.rows f o g hf, Store.blockOf, hf]
    rfl

/-- **Parts that change no table and keep all contents** keep the picture. -/
theorem Depicts.kept (h : Depicts cfg (s, fi) a) (hco : Coherent cfg s') (hdb : s'.db = s.db)
    (hkept : ∀ k x, s.content k = some x → s'.content k = some x) : Depicts cfg (s', fi) a where
  coherent := hco
  ok := by
    show fi.Ok s'.db
    rw [hdb]
    exact h.ok
  files := (congrArg Db.files hdb).trans h.files
  hash f o := by
    rw [← h.hash]
    show s'.db.fileHash f o = s.db.fileHash f o
    rw [hdb]
  rows f o g hf := by
    have hrows := h.rows f o g (by rw [← hdb]; exact hf)
    rw [← hrows]
    exact h.coherent.hashBlock_kept hco.unique (fun k => by rw [hdb]) hkept g
  ino := h.ino
  size := h.size
  known n := by
    rw [← h.known]
    show (fi.blocks n).map s'.infoBlock = (fi.blocks n).map s.infoBlock
    cases hitem : fi.blocks n with
    | none => rfl
    | some item =>
      rw [Option.map_some, Option.map_some]
      unfold Store.infoBlock
      split
      · rfl
      · rename_i hne
        have hx := content_infoBlock h.coherent (h.ok n item hitem).2 hne
        rw [hx, hkept _ _ hx]

/-- **A pass leaves the picture as it is.** -/
theorem Depicts.writerPass (h : Depicts cfg (s, fi) a) (victims : List ℕ) :
    Depicts cfg (s.writerPass victims, fi) a :=
  h.kept (h.coherent.writerPass victims) rfl
    fun _ _ hx => h.coherent.stored.content_writerPass victims hx

/-- A block that is not faded shows the content of its number. -/
theorem shown_infoBlock (hco : Coherent cfg s) (hfi : fi.Ok s.db) {n : ℕ}
    (hnot : ¬Faded cfg s fi n) :
    (getLockedFileBlock cfg s fi n).store.shown
      (getLockedFileBlock cfg s fi n).fblock.storageBlock =
        some (s.infoBlock (fileBlock cfg s fi n).1) := by
  obtain ⟨-, hok⟩ := @fileBlock_num_ok _ _ _ cfg _ _ n hfi
  rw [(getLockedFileBlock_locates cfg s fi n).shown_eq hok]
  split
  · rename_i hzero
    rw [Store.infoBlock, if_pos]
    by_contra hne
    rcases hzero with ⟨hempty, hdead⟩ | hz
    · exact hnot ⟨hempty, hne, hdead⟩
    · exact hne hz
  · rename_i hnum
    exact content_infoBlock hco hok (not_or.mp hnum).2

/-- **The `block_info` of a block is what the picture shows of it.** -/
theorem Depicts.infoBlock (h : Depicts cfg (s, fi) a) (n : ℕ) :
    s.infoBlock (fileBlock cfg s fi n).1 = a.view cfg n := by
  have hknown := h.known n
  cases hfb : fi.blocks n with
  | some item =>
    rw [show (s, fi).2.blocks n = some item from hfb] at hknown
    unfold fileBlock
    rw [Picture.view, ← hknown, hfb]
    rfl
  | none =>
    rw [show (s, fi).2.blocks n = none from hfb] at hknown
    -- a block that was just read is a hole without a number or is filled
    have hnot : ¬Faded cfg s fi n := by
      unfold Faded fileBlock
      rw [hfb]
      dsimp only
      have hl := loadFileBlock_loads cfg s.db fi n
      generalize loadFileBlock cfg s.db fi (.new n) = r at hl ⊢
      rintro ⟨hempty, hne, -⟩
      cases hl with
      | skipped past => exact hne rfl
      | absent unmapped => exact hne rfl
      | dangling g mapped sel => cases hempty
      | found row mapped sel => cases hempty
    have hshown := shown_infoBlock h.coherent h.ok hnot
    rw [h.coherent.shown_fresh h.ok hfb] at hshown
    rw [← Option.some.inj hshown, Picture.view, ← hknown, Store.freshBlock,
      show fi.stSize = a.size from h.size, show fi.stIno = a.ino from h.ino,
      h.blockOf a.ino n]
    rfl

/-- Locating a block lets the handle know it. -/
theorem Depicts.locate (h : Depicts cfg (s, fi) a) (n : ℕ) :
    Depicts cfg ((getLockedFileBlock cfg s fi n).store,
      fi.setBlock (getLockedFileBlock cfg s fi n).fblock) (a.look cfg n) := by
  have hview := h.infoBlock n
  have hloc := getLockedFileBlock_locates cfg s fi n
  obtain ⟨hl, hnum, hok⟩ := h.coherent.locate h.ok n
  have hsame := h.kept hl hloc.db_eq fun k x hx => (hloc.content_eq k).trans hx
  refine ⟨hl, hsame.ok.setBlock (hloc.db_eq.symm ▸ hok), hsame.files, hsame.hash, hsame.rows,
    h.ino, h.size, fun m => ?_⟩
  dsimp only [Picture.look]
  rw [FileInfo.setBlock_blocks, hnum, Function.update_apply, Function.update_apply]
  split
  · rw [← hview, Option.map_some, infoBlock_congr hloc.content_eq, Store.infoBlock,
      hloc.fblock_eq.2.1]
    rfl
  · exact hsame.known m

/-! ### Writing a block -/

section write

variable {ino : ℕ} {data : Block bits} {hash : H} {fb : BlockInfo H}
  {r : Store bits H × BlockInfo H}

/-- The new hash has the content that it had, or else the new data. -/
theorem Wrote.hashBlock_self (h : Wrote s ino data hash fb r) (hco : Coherent cfg s)
    (hco' : Coherent cfg r.1) (hb : Replaces.Backed s.db fb (s.lock fb.storageBlock)) :
    r.1.content r.2.storageBlockNum = some ((s.hashBlock hash).getD data) ∧
      r.1.hashBlock hash = some ((s.hashBlock hash).getD data) := by
  have hrow := h.rowHash_eq hb r.2.storageBlockNum
  rw [if_pos rfl] at hrow
  rw [Store.hashBlock_of_rowHash hco'.unique hrow, and_self, h.content_eq]
  cases hsel : s.db.selectBlockHash hash with
  | none =>
    rw [if_pos ⟨rfl, rfl⟩, Store.hashBlock, hsel]
    rfl
  | some row =>
    obtain ⟨x, hx, -⟩ := hco.row _ _ (fun hf => hf) (Db.rowHash_of_select hsel)
    rw [if_neg (by simp), h.num_of_select hsel, Store.hashBlock, hsel, Option.bind_some, hx]
    rfl

/-- The hash of another file block has the content that it had. -/
theorem Wrote.hashBlock_other (h : Wrote s ino data hash fb r) (hco : Coherent cfg s)
    (hco' : Coherent cfg r.1) (hb : Replaces.Backed s.db fb (s.lock fb.storageBlock))
    (hin : InPlaceUnshared s ino hash fb) {f o : ℕ} {g : H} (hne : (f, o) ≠ (ino, fb.fileBlockNum))
    (hf : s.db.fileHash f o = some g) (hg : g ≠ hash) : r.1.hashBlock g = s.hashBlock g := by
  by_cases hex : ∃ k, s.db.rowHash k = some g
  · obtain ⟨k, hk⟩ := hex
    have hk' := h.rowHash_kept hb hin hne hf hk
    rw [Store.hashBlock_of_rowHash hco.unique hk, Store.hashBlock_of_rowHash hco'.unique hk',
      h.content_eq, if_neg]
    rintro ⟨-, hnum⟩
    exact ((h.rowHash_iff hb hg).mp hk').1 hnum
  · have habsent := not_exists.mp hex
    rw [Store.hashBlock_of_absent habsent,
      Store.hashBlock_of_absent fun k hk => habsent k ((h.rowHash_iff hb hg).mp hk).2]

/-- A storage block that the handle knows by another block keeps its content. -/
theorem Wrote.infoBlock_other (h : Wrote s ino data hash fb r) {item : BlockInfo H}
    (hb : Replaces.Backed s.db fb (s.lock fb.storageBlock)) (hitem : item.Ok s.db)
    (hsingle : s.db.selectBlockHash hash = none → ∀ b, s.lock fb.storageBlock = some b →
      b.useCount = 1 → item.storageBlockNum ≠ b.storageBlockNum) :
    r.1.infoBlock item = s.infoBlock item := by
  unfold Store.infoBlock
  split
  · rfl
  · rw [h.content_known hb hitem.ne_nextId hsingle]

/-- **A block write puts its data into the picture.** -/
theorem Depicts.wrote {n : ℕ} (h : Depicts cfg (s, fi) a)
    (hw : Wrote s fi.stIno data (cfg.murmur data) fb r) (hnum : fb.fileBlockNum = n)
    (hfb : fb.Ok s.db) (hco' : Coherent cfg r.1)
    (hfi' : (fi.setBlock r.2).Ok r.1.db) (hin : InPlaceUnshared s fi.stIno (cfg.murmur data) fb)
    (hsingle : s.db.selectBlockHash (cfg.murmur data) = none → ∀ b,
      s.lock fb.storageBlock = some b → b.useCount = 1 → ∀ m item, m ≠ n →
        fi.blocks m = some item → item.storageBlockNum ≠ b.storageBlockNum)
    (hrevives : (∀ f o, s.db.fileHash f o ≠ some (cfg.murmur data)) →
      ∀ row, s.db.selectBlockHash (cfg.murmur data) = some row → s.content row.id = some data) :
    Depicts cfg (r.1, fi.setBlock r.2) (a.put cfg n data) := by
  have hb := h.coherent.backed hfb
  have hino : fi.stIno = a.ino := h.ino
  have hhash := h.hash
  dsimp only at hhash
  -- the picture gives the new data the content that they have
  have hstored : (s.hashBlock (cfg.murmur data)).getD data = a.stored (cfg.murmur data) data := by
    unfold Picture.stored
    split
    · rename_i hused
      obtain ⟨f, o, hf⟩ := hused
      rw [h.rows f o _ ((hhash f o).trans hf)]
    · rename_i hunused
      cases hsel : s.db.selectBlockHash (cfg.murmur data) with
      | none =>
        rw [Store.hashBlock, hsel]
        rfl
      | some row =>
        rw [Store.hashBlock, hsel, Option.bind_some, hrevives (fun f o hf => ?_) row hsel]
        · rfl
        · exact hunused ⟨f, o, (hhash f o).symm.trans hf⟩
  obtain ⟨hcontent, hself⟩ := hw.hashBlock_self h.coherent hco' hb
  rw [hstored] at hcontent hself
  refine ⟨hco', hfi', hw.files_eq.trans h.files, fun f o => ?_, fun f o g hf => ?_, h.ino, h.size,
    fun m => ?_⟩
  · dsimp only [Picture.put]
    rw [hw.fileHash_eq, hnum, hino, hhash]
  · dsimp only [Picture.put] at hf ⊢
    rw [Function.update_apply]
    split
    · rename_i hg
      rw [hg, hself]
    · rename_i hg
      rw [hw.fileHash_eq] at hf
      split at hf
      · cases hf
        exact absurd rfl hg
      · rename_i hne
        exact (hw.hashBlock_other h.coherent hco' hb hin hne hf hg).trans (h.rows f o g hf)
  · dsimp only [Picture.put]
    rw [FileInfo.setBlock_blocks, hw.fblock_eq.1, hnum, Function.update_apply,
      Function.update_apply]
    split
    · have hzero : r.2.storageBlockNum ≠ 0 := by
        intro h0
        have hrow := hw.rowHash_eq hb r.2.storageBlockNum
        rw [if_pos rfl, h0, hco'.zero] at hrow
        cases hrow
      rw [Option.map_some, Store.infoBlock, if_neg hzero, hcontent]
      rfl
    · rename_i hm
      rw [← h.known]
      cases hitem : fi.blocks m with
      | none => rfl
      | some item =>
        rw [Option.map_some, hw.infoBlock_other hb (h.ok m item hitem).2 fun hsel b hl hone =>
          hsingle hsel b hl hone m item hm hitem]
        rfl

end write

/-! ### Rounds and passes -/

theorem Depicts.resize (h : Depicts cfg (s, fi) a) (newSize : ℕ)
    (hco' : Coherent cfg (s.setDb (s.db.ftruncate fi newSize).1))
    (hfi' : (s.db.ftruncate fi newSize).2.1.Ok (s.db.ftruncate fi newSize).1) :
    Depicts cfg (s.setDb (s.db.ftruncate fi newSize).1, (s.db.ftruncate fi newSize).2.1)
      (a.resize newSize) where
  coherent := hco'
  ok := hfi'
  files := by
    have hsize : fi.stSize = a.size := h.size
    have hino : fi.stIno = a.ino := h.ino
    have hfiles : s.db.files = a.files := h.files
    show (s.db.ftruncate fi newSize).1.files = _
    unfold Db.ftruncate Picture.resize
    rw [if_neg (by omega), hsize, hino, ← hfiles]
    by_cases heq : a.size = newSize
    · rw [if_pos (by omega), if_pos heq]
    · rw [if_neg (by omega), if_neg heq]
      rfl
  hash f o := (fileHash_ftruncate ..).trans (h.hash f o)
  rows f o g hf := by
    refine Eq.trans ?_ (h.rows f o g ((fileHash_ftruncate ..).symm.trans hf))
    exact h.coherent.hashBlock_kept hco'.unique (fun k => rowHash_ftruncate ..) (fun _ _ hx => hx) g
  ino := (stIno_ftruncate ..).trans h.ino
  size := stSize_ftruncate ..
  known n := by
    dsimp only [Picture.resize]
    rw [blocks_ftruncate]
    exact h.known n

/-- **A round that sees no difference** does to the picture what it should. -/
theorem roundStep_depicts {p : Store bits H × FileInfo H} {r : Round} (h : Depicts cfg p a)
    (hfits : r.Fits bits) (hok : r.Clear cfg p) :
    ∃ p', roundStep cfg p r = .ok (p', (a.round cfg r).2) ∧ Depicts cfg p' (a.round cfg r).1 := by
  obtain ⟨s, fi⟩ := p
  obtain ⟨hshows, hunshared, hsingle, hrevives⟩ := hok
  obtain ⟨s', fi', out, hstep⟩ := roundStep_isOk h.coherent h.ok hfits
  obtain ⟨hco', hfi', -⟩ := roundStep_coherent h.coherent h.ok hstep
  refine ⟨(s', fi'), ?_⟩
  cases roundStep_stepped hstep with
  | resize newSize => exact ⟨hstep, h.resize newSize hco' hfi'⟩
  | read c x touched shown =>
    refine ⟨?_, (h.locate c.block).kept hco' touched.same.db fun k x hx =>
      (touched.same.content k).trans hx⟩
    rw [hstep]
    show Except.ok ((s', _), slice x c.startOffset c.len) =
      Except.ok ((s', _), slice (a.view cfg c.block) c.startOffset c.len)
    by_cases hlen : 0 < c.len
    · rw [shown_infoBlock h.coherent h.ok (hshows hlen), h.infoBlock] at shown
      rw [Option.some.inj shown]
    · have hzero : c.len = 0 := by omega
      rw [hzero]
      rfl
  | @write buf c s₁ old touched shown r ran wrote =>
    have hloc := getLockedFileBlock_locates cfg s fi c.block
    obtain ⟨hl, hnum, hfb⟩ := h.coherent.locate h.ok c.block
    have hdb : s₁.db = s.db := touched.same.db.trans hloc.db_eq
    have hlocated := (h.locate c.block).kept (hl.touches touched) touched.same.db
      fun k x hx => (touched.same.content k).trans hx
    have hnew : NewContent cfg s fi buf c (c.data buf old) := ⟨old, shown, rfl⟩
    have hdata : c.data buf (a.view cfg c.block) = c.data buf old := by
      by_cases hpart : c.len < blockSize bits
      · have hold := shown hpart
        rw [shown_infoBlock h.coherent h.ok (hshows hpart), h.infoBlock] at hold
        rw [Option.some.inj hold]
      · exact overlay_whole _ _ _ _ _ hfits hpart
    refine ⟨hstep, ?_⟩
    have hput := hlocated.wrote wrote hnum (hdb ▸ hfb) hco' hfi'
      ((hunshared _ hnew).congr touched.same) (fun hsel b hb hone m item hm hitem hitemNum => ?_)
      (fun hunused row hrow => ?_)
    · dsimp only [Picture.round]
      rw [hdata]
      rw [← Picture.put_look]
      exact hput
    · obtain ⟨b', hb', hnum', hcount⟩ := touched.same.symm.lock hb
      rw [hdb] at hsel
      refine hm (hsingle _ hnew hsel b' hb' (hcount.trans hone) m item ?_
        (hitemNum.trans hnum'.symm))
      rwa [FileInfo.setBlock_blocks, hnum, Function.update_of_ne hm] at hitem
    · rw [hdb] at hrow hunused
      rw [touched.same.content, hloc.content_eq]
      exact hrevives _ hnew hunused row hrow
  | release n g hash => exact hfits.elim

end rounds

/-! ### Calls -/

/-- The rounds of a call are chunks inside blocks. -/
theorem Access.rounds_fits (acc : Access) (size : ℕ) : ∀ r ∈ acc.rounds bits size, r.Fits bits := by
  intro r hr
  cases acc with
  | write buf offset =>
    rcases List.mem_append.mp hr with hr | hr
    · split at hr
      · rw [List.mem_singleton.mp hr]
        trivial
      · cases hr
    · obtain ⟨c, hc, rfl⟩ := List.mem_map.mp hr
      exact (chunks_tiles bits buf.length offset).fits c hc
  | read len offset =>
    obtain ⟨c, hc, rfl⟩ := List.mem_map.mp hr
    exact (chunks_tiles bits _ offset).fits c hc

/-- The file system has the picture, for the handle. -/
def Fs.Depicts (cfg : Config bits H) (fh : ℕ) (fs : Fs bits H) (a : Picture bits H) : Prop :=
  ∃ fi, fs.handles fh = some fi ∧ Wwdedup.Depicts cfg (fs.store, fi) a

variable {cfg : Config bits H} {fh : ℕ} {fs : Fs bits H} {a : Picture bits H} {acc : Access}

/-- The rounds of a call that see no difference between runs with and without passes. -/
def Access.Clear (cfg : Config bits H) (fh : ℕ) (fs : Fs bits H) (acc : Access) : Prop :=
  fs.RoundsMeet cfg (fun p r => r.Clear cfg p) (acc.op fh)

theorem Fs.Depicts.run (h : Wwdedup.Depicts cfg (fs.store, fi) a) (acc : Access) {size : ℕ}
    (hsize : fi.stSize = size)
    (hclear : Meets (roundStep cfg) (fun p r => r.Clear cfg p) (fs.store, fi)
      (acc.rounds bits size)) :
    ∃ p', GuardedRun.run (roundStep cfg) (fs.store, fi) (acc.rounds bits a.size) =
        .ok (p', (specRun (Picture.round cfg) a (acc.rounds bits a.size)).2) ∧
      Wwdedup.Depicts cfg p' (specRun (Picture.round cfg) a (acc.rounds bits a.size)).1 := by
  obtain rfl : a.size = size := h.size.symm.trans hsize
  refine run_refines (fun p a r hp hr => ?_) h (hclear.and_mem (acc.rounds_fits a.size))
  exact roundStep_depicts hp hr.1 hr.2

/-- The call does not fault for where it starts. -/
def Access.Starts (fh : ℕ) (fs : Fs bits H) : Access → Prop
  | .write _ _ => True
  | .read _ offset => ∀ fi, fs.handles fh = some fi → ReadStart fi.stSize offset

/-- **A call does to the picture what the picture says.** -/
theorem Fs.step_depicts (h : fs.Depicts cfg fh a) (hstarts : acc.Starts fh fs)
    (hclear : acc.Clear cfg fh fs) :
    ∃ fs', fs.step cfg (acc.op fh) = .ok (fs', (a.call cfg acc).2) ∧
      fs'.Depicts cfg fh (a.call cfg acc).1 := by
  obtain ⟨fi, hfi, hp⟩ := h
  have hsize : fi.stSize = a.size := hp.size
  have hopened : ∀ (s : Store bits H) (fi' : FileInfo H),
      ((fs.setStore s).setHandle fh fi').handles fh = some fi' :=
    fun s fi' => Function.update_self ..
  cases acc with
  | write buf offset =>
    have hrounds : fs.rounds (.write fh buf offset) =
        some (fi, writeRounds bits fi buf offset) := by
      rw [rounds, hfi]
      rfl
    obtain ⟨⟨s', fi'⟩, hrun, hp'⟩ := Fs.Depicts.run hp (.write buf offset) rfl
      (hclear _ _ hrounds)
    refine ⟨(fs.setStore s').setHandle fh fi', ?_, fi', hopened s' fi', hp'⟩
    rw [← hsize] at hrun
    have hrun' : GuardedRun.run (roundStep cfg) (fs.store, fi)
        (writeRounds bits fi buf offset) = _ := hrun
    simp only [Access.op, step, write, hfi, writeBuf_run, hrun', Except.map, factSize_eq]
    rfl
  | read len offset =>
    have hstart : ReadStart fi.stSize offset := hstarts fi hfi
    have hrounds : fs.rounds (.read fh len offset) = some (fi, readRounds bits fi len offset) := by
      simp [rounds, hfi, hstart]
    obtain ⟨⟨s', fi'⟩, hrun, hp'⟩ := Fs.Depicts.run hp (.read len offset) rfl
      (hclear _ _ hrounds)
    refine ⟨(fs.setStore s').setHandle fh fi', ?_, fi', hopened s' fi', hp'⟩
    rw [← hsize] at hrun
    have hrun' : GuardedRun.run (roundStep cfg) (fs.store, fi)
        (readRounds bits fi len offset) = _ := hrun
    simp only [Access.op, step, read, hfi, readBuf_run cfg _ _ hstart, hrun', Except.map, hsize]
    rfl

/-- What a handle opened now reads depends on the picture. -/
theorem Fs.Depicts.freshRead {fs' : Fs bits H} (h : fs.Depicts cfg fh a)
    (h' : fs'.Depicts cfg fh a) (path : Path) :
    freshRead cfg fs.store path = freshRead cfg fs'.store path := by
  obtain ⟨fi, -, hp⟩ := h
  obtain ⟨fi', -, hp'⟩ := h'
  have hfiles : fs'.store.db.files = fs.store.db.files := hp'.files.trans hp.files.symm
  refine (freshRead_congr hp.coherent hp'.coherent ?_ fun o => ?_).symm
  · simp only [Db.getByPath, Db.getByPathIn, hfiles]
  · exact (hp'.blockOf _ o).trans (hp.blockOf _ o).symm

/-! ### Runs with and without passes -/

/-- A call through the handle. -/
def Fs.access (cfg : Config bits H) (fh : ℕ) (fs : Fs bits H) (acc : Access) :
    Except Fault (Fs bits H × Out) := fs.step cfg (acc.op fh)

/-- A pass of the writer that evicts the victims. -/
def Fs.pass (cfg : Config bits H) (fs : Fs bits H) (victims : List ℕ) : Except Fault (Fs bits H) :=
  (fs.step cfg (.writerPass victims)).map Prod.fst

/-- The guard of a run with passes. -/
def Access.ClearAmong (cfg : Config bits H) (fh : ℕ) (fs : Fs bits H) : Access ⊕ List ℕ → Prop
  | .inl acc => acc.Clear cfg fh fs
  | .inr _ => True

theorem Fs.Depicts.writerPass (h : fs.Depicts cfg fh a) (victims : List ℕ) :
    (fs.setStore (fs.store.writerPass victims)).Depicts cfg fh a := by
  obtain ⟨fi, hfi, hp⟩ := h
  exact ⟨fi, hfi, hp.writerPass victims⟩

/-- Two file systems with one picture fail alike, or show the same and have one picture again. -/
theorem Fs.access_alike {fs' : Fs bits H} (h : fs.Depicts cfg fh a) (h' : fs'.Depicts cfg fh a)
    (hclear : acc.Clear cfg fh fs) (hclear' : acc.Clear cfg fh fs') :
    (∃ e, fs.access cfg fh acc = .error e ∧ fs'.access cfg fh acc = .error e) ∨
      ∃ fs₁ fs₁' o, fs.access cfg fh acc = .ok (fs₁, o) ∧ fs'.access cfg fh acc = .ok (fs₁', o) ∧
        ∃ b, fs₁.Depicts cfg fh b ∧ fs₁'.Depicts cfg fh b := by
  by_cases hstarts : acc.Starts fh fs
  · have hstarts' : acc.Starts fh fs' := by
      obtain ⟨fi, hfi, hp⟩ := h
      obtain ⟨fi', hfi', hp'⟩ := h'
      cases acc with
      | write buf offset => trivial
      | read len offset =>
        intro fi₁ hfi₁
        rw [hfi'] at hfi₁
        cases hfi₁
        rw [show fi'.stSize = fi.stSize from hp'.size.trans hp.size.symm]
        exact hstarts fi hfi
    obtain ⟨fs₁, hstep, hfs₁⟩ := Fs.step_depicts h hstarts hclear
    obtain ⟨fs₁', hstep', hfs₁'⟩ := Fs.step_depicts h' hstarts' hclear'
    exact .inr ⟨fs₁, fs₁', _, hstep, hstep', _, hfs₁, hfs₁'⟩
  · refine .inl ⟨.negativeSize, ?_⟩
    obtain ⟨fi, hfi, hp⟩ := h
    obtain ⟨fi', hfi', hp'⟩ := h'
    cases acc with
    | write buf offset => exact absurd trivial hstarts
    | read len offset =>
      have hnot : ¬ReadStart fi.stSize offset := by
        intro hstart
        refine hstarts fun fi₁ hfi₁ => ?_
        rw [hfi] at hfi₁
        cases hfi₁
        exact hstart
      have hnot' : ¬ReadStart fi'.stSize offset := by
        rw [show fi'.stSize = fi.stSize from hp'.size.trans hp.size.symm]
        exact hnot
      constructor
      · simp only [Fs.access, Access.op, Fs.step, Fs.read, hfi, readBuf, if_neg hnot]
      · simp only [Fs.access, Access.op, Fs.step, Fs.read, hfi', readBuf, if_neg hnot']

/-- **The cache is transparent.**  From any state that requests lead to and for every open handle,
calls through the handle with passes of the writer between them and the same calls without passes
fail alike, or show the same and leave every file as it reads for a handle opened then: as long
as the calls in both runs are clear. -/
theorem passes_transparent (cfg : Config bits H) (fs : Fs bits H) (fh : ℕ) (fi : FileInfo H)
    (calls : List (Access ⊕ List ℕ)) (hreach : Reachable (Fs.step cfg) (Fs.init bits H) fs)
    (hopen : fs.handles fh = some fi)
    (hplain : Meets (Fs.access cfg fh) (Access.Clear cfg fh) fs (erased calls))
    (hpasses : Meets (withInserted (Fs.access cfg fh) (Fs.pass cfg)) (Access.ClearAmong cfg fh) fs
      calls) :
    (∃ e, run (Fs.access cfg fh) fs (erased calls) = .error e ∧
      run (withInserted (Fs.access cfg fh) (Fs.pass cfg)) fs calls = .error e) ∨
    ∃ fs₁ fs₂ outs, run (Fs.access cfg fh) fs (erased calls) = .ok (fs₁, outs.reduceOption) ∧
      run (withInserted (Fs.access cfg fh) (Fs.pass cfg)) fs calls = .ok (fs₂, outs) ∧
      ∀ path, freshRead cfg fs₁.store path = freshRead cfg fs₂.store path := by
  have hco := Fs.reachable_coherent hreach
  have hstart : fs.Depicts cfg fh (picture fs.store fi) :=
    ⟨fi, hopen, depicts_picture hco.1 (hco.2 fh fi hopen)⟩
  have hruns := run_inserted
    (R := fun fs₁ fs₂ => ∃ a, fs₁.Depicts cfg fh a ∧ fs₂.Depicts cfg fh a)
    (fun fs₁ fs₂ acc ⟨a, h₁, h₂⟩ hc₁ hc₂ => Fs.access_alike h₁ h₂ hc₁ hc₂)
    (fun fs₁ fs₂ victims ⟨a, h₁, h₂⟩ _ => ⟨_, rfl, a, h₁, h₂.writerPass victims⟩)
    ⟨_, hstart, hstart⟩ hplain hpasses
  refine hruns.imp_right ?_
  rintro ⟨fs₁, fs₂, outs, hrun₁, hrun₂, a, h₁, h₂⟩
  exact ⟨fs₁, fs₂, outs, hrun₁, hrun₂, h₁.freshRead h₂⟩

/-- A block that was evicted is read again, and another is written behind it. -/
theorem passes_transparent_reload :
    ∃ fs₁ fs₂, run (Fs.access (plainConfig 0) 1)
        (Fs.after (plainConfig 0) [.create ['/', 'f'] sIfreg, .write 0 [7] 0, .openFile ['/', 'f']])
        [.read 1 0, .write [8] 1, .read 1 0] =
          .ok (fs₁, [.bytes [7], .ret 1, .bytes [7]]) ∧
      run (withInserted (Fs.access (plainConfig 0) 1) (Fs.pass (plainConfig 0)))
        (Fs.after (plainConfig 0) [.create ['/', 'f'] sIfreg, .write 0 [7] 0, .openFile ['/', 'f']])
        [.inl (.read 1 0), .inr [1], .inl (.write [8] 1), .inl (.read 1 0), .inr [1, 2]] =
          .ok (fs₂, [some (.bytes [7]), none, some (.ret 1), some (.bytes [7]), none]) ∧
      freshRead (plainConfig 0) fs₁.store ['/', 'f'] =
        freshRead (plainConfig 0) fs₂.store ['/', 'f'] := by
  have hread : ∀ p : Store 0 (List UInt8) × FileInfo (List UInt8),
      (fileBlock (plainConfig 0) p.1 p.2 0).1.empty = false →
      (Round.read ⟨0, 0, 1, 0⟩).Clear (plainConfig 0) p := by
    intro p hfilled
    refine ⟨fun _ hfaded => ?_, trivial, trivial, trivial⟩
    have hempty := hfaded.1
    rw [hfilled] at hempty
    cases hempty
  have hwrite : ∀ p : Store 0 (List UInt8) × FileInfo (List UInt8),
      (getLockedFileBlock (plainConfig 0) p.1 p.2 1).store.lock
        (getLockedFileBlock (plainConfig 0) p.1 p.2 1).fblock.storageBlock = none →
      p.1.db.selectBlockHash [8] = none →
      (Round.write [8] ⟨1, 0, 1, 0⟩).Clear (plainConfig 0) p := by
    intro p hhole hsel
    refine ⟨fun hpart => absurd hpart (by decide), fun x _ b hb => ?_, fun x _ _ b hb => ?_, ?_⟩
    · rw [hhole] at hb
      cases hb
    · rw [hhole] at hb
      cases hb
    · rintro x ⟨old, -, rfl⟩ - row hrow
      rw [show (plainConfig 0).murmur (Chunk.data ⟨1, 0, 1, 0⟩ [8] old) = [8] from rfl,
        hsel] at hrow
      cases hrow
  have hresize : ∀ p n, (Round.resize n).Clear (plainConfig 0) p := fun _ _ =>
    ⟨trivial, trivial, trivial, trivial⟩
  obtain ⟨fs₁, h₁⟩ : ∃ fs₁, run (Fs.access (plainConfig 0) 1)
      (Fs.after (plainConfig 0) [.create ['/', 'f'] sIfreg, .write 0 [7] 0, .openFile ['/', 'f']])
      [.read 1 0, .write [8] 1, .read 1 0] =
        .ok (fs₁, [.bytes [7], .ret 1, .bytes [7]]) := ⟨_, rfl⟩
  obtain ⟨fs₂, h₂⟩ : ∃ fs₂,
      run (withInserted (Fs.access (plainConfig 0) 1) (Fs.pass (plainConfig 0)))
      (Fs.after (plainConfig 0) [.create ['/', 'f'] sIfreg, .write 0 [7] 0, .openFile ['/', 'f']])
      [.inl (.read 1 0), .inr [1], .inl (.write [8] 1), .inl (.read 1 0), .inr [1, 2]] =
        .ok (fs₂, [some (.bytes [7]), none, some (.ret 1), some (.bytes [7]), none]) := ⟨_, rfl⟩
  refine ⟨fs₁, fs₂, h₁, h₂, ?_⟩
  have hruns := passes_transparent (plainConfig 0)
    (Fs.after (plainConfig 0) [.create ['/', 'f'] sIfreg, .write 0 [7] 0, .openFile ['/', 'f']]) 1 _
    [.inl (.read 1 0), .inr [1], .inl (.write [8] 1), .inl (.read 1 0), .inr [1, 2]]
    (Fs.after_reachable _ _) rfl ?_ ?_
  · rcases hruns with ⟨e, hplain, -⟩ | ⟨fs₁', fs₂', outs, hplain, hpasses, hfresh⟩
    · cases h₁.symm.trans hplain
    · obtain ⟨rfl, -⟩ := Prod.mk.inj (Except.ok.inj (h₁.symm.trans hplain))
      obtain ⟨rfl, -⟩ := Prod.mk.inj (Except.ok.inj (h₂.symm.trans hpasses))
      exact hfresh ['/', 'f']
  · refine .cons ?_ rfl (.cons ?_ rfl (.cons ?_ rfl trivial))
    · intro fi rs h
      cases h
      exact .cons (hread _ rfl) rfl trivial
    · intro fi rs h
      cases h
      exact .cons (hresize _ _) rfl (.cons (hwrite _ rfl rfl) rfl trivial)
    · intro fi rs h
      cases h
      exact .cons (hread _ rfl) rfl trivial
  · refine .cons ?_ rfl (.cons trivial rfl (.cons ?_ rfl (.cons ?_ rfl
      (.cons trivial rfl trivial))))
    · intro fi rs h
      cases h
      exact .cons (hread _ rfl) rfl trivial
    · intro fi rs h
      cases h
      exact .cons (hresize _ _) rfl (.cons (hwrite _ rfl rfl) rfl trivial)
    · intro fi rs h
      cases h
      exact .cons (hread _ rfl) rfl trivial

/-- **A pass can be seen.**  The blocks that a handle has written into a new file are still
marked empty: one that was evicted reads as a zero.  And the count of a block that comes back is 0
and not that of its row: two blocks that are then given the same byte are overwritten in place
with the one that they took it from. -/
theorem passes_seen :
    (¬∀ (fs : Fs 0 (List UInt8)) (fh : ℕ) (fi : FileInfo (List UInt8))
        (calls : List (Access ⊕ List ℕ)),
      Reachable (Fs.step (plainConfig 0)) (Fs.init 0 (List UInt8)) fs → fs.handles fh = some fi →
      (∃ e, run (Fs.access (plainConfig 0) fh) fs (erased calls) = .error e ∧
        run (withInserted (Fs.access (plainConfig 0) fh) (Fs.pass (plainConfig 0))) fs calls =
          .error e) ∨
      ∃ fs₁ fs₂ outs,
        run (Fs.access (plainConfig 0) fh) fs (erased calls) = .ok (fs₁, outs.reduceOption) ∧
        run (withInserted (Fs.access (plainConfig 0) fh) (Fs.pass (plainConfig 0))) fs calls =
          .ok (fs₂, outs) ∧
        ∀ path, freshRead (plainConfig 0) fs₁.store path =
          freshRead (plainConfig 0) fs₂.store path) ∧
    (∃ fs₁, run (Fs.access (plainConfig 0) 1) (Fs.after (plainConfig 0)
          [.create ['/', 'f'] sIfreg, .write 0 [7, 9, 6] 0, .openFile ['/', 'f']])
        [.read 3 0, .write [7] 1, .read 1 0, .write [7] 2, .write [8] 0] =
          .ok (fs₁, [.bytes [7, 9, 6], .ret 1, .bytes [7], .ret 1, .ret 1]) ∧
      freshRead (plainConfig 0) fs₁.store ['/', 'f'] = .ok [8, 7, 7]) ∧
    ∃ fs₂, run (withInserted (Fs.access (plainConfig 0) 1) (Fs.pass (plainConfig 0)))
        (Fs.after (plainConfig 0)
          [.create ['/', 'f'] sIfreg, .write 0 [7, 9, 6] 0, .openFile ['/', 'f']])
        [.inl (.read 3 0), .inr [1, 2, 3], .inl (.write [7] 1), .inl (.read 1 0),
          .inl (.write [7] 2), .inl (.write [8] 0)] =
          .ok (fs₂, [some (.bytes [7, 9, 6]), none, some (.ret 1), some (.bytes [7]),
            some (.ret 1), some (.ret 1)]) ∧
      freshRead (plainConfig 0) fs₂.store ['/', 'f'] = .ok [8, 0, 0] := by
  refine ⟨fun hall => ?_, ⟨_, rfl, rfl⟩, _, rfl, rfl⟩
  have hplain : (run (Fs.access (plainConfig 0) 0)
      (Fs.after (plainConfig 0) [.create ['/', 'f'] sIfreg])
      (erased [.inl (.write [7, 8, 9] 0), .inr [2], .inl (.read 3 0)])).map Prod.snd =
        .ok [.ret 3, .bytes [7, 8, 9]] := rfl
  have hpasses : (run (withInserted (Fs.access (plainConfig 0) 0) (Fs.pass (plainConfig 0)))
      (Fs.after (plainConfig 0) [.create ['/', 'f'] sIfreg])
      [.inl (.write [7, 8, 9] 0), .inr [2], .inl (.read 3 0)]).map Prod.snd =
        .ok [some (.ret 3), none, some (.bytes [7, 0, 9])] := rfl
  rcases hall (Fs.after (plainConfig 0) [.create ['/', 'f'] sIfreg]) 0 _
    [.inl (.write [7, 8, 9] 0), .inr [2], .inl (.read 3 0)] (Fs.after_reachable _ _) rfl with
    ⟨e, h, -⟩ | ⟨fs₁, fs₂, outs, h₁, h₂, -⟩
  · rw [h] at hplain
    cases hplain
  · rw [h₁] at hplain
    rw [h₂] at hpasses
    obtain rfl : outs = [some (.ret 3), none, some (.bytes [7, 0, 9])] := Except.ok.inj hpasses
    have hsame : [some (Out.ret 3), none, some (Out.bytes [7, 0, 9])].reduceOption =
        [.ret 3, .bytes [7, 8, 9]] := Except.ok.inj hplain
    simp only [List.reduceOption_cons_of_some, List.reduceOption_cons_of_none] at hsame
    cases hsame

end Wwdedup
