import Wwdedup.ConcurrentWrites
import Wwdedup.Chunks
import Wwdedup.FreshRead
import Wwdedup.Lib.Linearize

/-!
# Block accesses of several threads, one after the other

A write of a part of a block reads the block before it commits, and the data of a new row are
stored after the commit: a thread that comes in between may find a row without its data, or the
old bytes.  A read finds its storage block first and copies it later, when the `block_info` is free
again: meanwhile the storage block may get other data.  Here reads of blocks run between the steps
of `Writers.step`, and a ghost remembers what every write under way was asked for.

* `Follows` says how a state stands for the contents of all blocks of all files: a row whose data
  are still with the write that committed it (`Storing`) has these data, and the file blocks with
  its hash are locked meanwhile (`waits`).
* `Follows.offers`: an access that locates its block finds its content.
* `blocks_linearize`: in runs of the steps that `Admits` allows, among them that no storage block
  that a read has found is overwritten in place, every write takes effect at its commit, as a whole
  and on the content that the writes committed before it have left, and every read returns the bytes
  of the content at the time when it found its block.
* `read_races_overwrite`: without the latter a read returns bytes of another file.
-/

namespace Wwdedup

open GuardedRun Linearize

variable {bits : ℕ} {H : Type} [DecidableEq H]

/-! ### Reads between the steps of writes -/

/-- A step of a write, or of the read `r`: its storage block is found, and the bytes are copied. -/
inductive BlockStep where
  | write (a : WriteStep)
  | find (r fh : ℕ) (c : Chunk)
  | copy (r : ℕ)

/-- What a step shows: a write of the chunk to the file `ino`, a read that begins, and one that
ends. -/
inductive BlockEvent where
  | wrote (ino : ℕ) (buf : List UInt8) (c : Chunk)
  | found (r ino : ℕ) (c : Chunk)
  | copied (r : ℕ) (bytes : List UInt8)
  deriving DecidableEq, Repr

/-- The contents of the blocks of all files, and the bytes that the reads under way return. -/
structure Contents (bits : ℕ) where
  block : ℕ × ℕ → Block bits
  reads : ℕ → Option (List UInt8)

/-- The events of accesses one after the other: a read returns what its block contains when it
begins. -/
inductive BlockSpec (B : Contents bits) : BlockEvent → Contents bits → Prop
  | wrote (ino : ℕ) (buf : List UInt8) (c : Chunk) :
      BlockSpec B (.wrote ino buf c)
        { B with block :=
            Function.update B.block (ino, c.block) (c.data buf (B.block (ino, c.block))) }
  | found (r ino : ℕ) (c : Chunk) :
      BlockSpec B (.found r ino c)
        { B with reads :=
            Function.update B.reads r (some (slice (B.block (ino, c.block)) c.startOffset c.len)) }
  | copied (r : ℕ) (bytes : List UInt8) (begun : B.reads r = some bytes) :
      BlockSpec B (.copied r bytes) { B with reads := Function.update B.reads r none }

/-- A read that has found its storage block. -/
structure BlockRead where
  chunk : Chunk
  sblock : Option WeakPtr

/-- The writers, what each write under way was asked to write, and the reads under way. -/
structure Tracked (bits : ℕ) (H : Type) where
  writers : Writers bits H
  asked : ℕ × ℕ → Option (List UInt8 × Chunk)
  readers : ℕ → Option BlockRead

namespace Tracked

/-- The handles and the tables of a file system, with nothing under way. -/
def of (fs : Fs bits H) : Tracked bits H :=
  ⟨⟨fs.store, fs.handles, .empty⟩, fun _ => none, fun _ => none⟩

/-- `_getStorageBlock`; the `block_info` is free again when it returns. -/
def getStorageBlock (cfg : Config bits H) (s : Store bits H) (fi : FileInfo H) (blockNum : ℕ) :
    Located bits H :=
  let l := getLockedFileBlock cfg s fi blockNum
  { l with store := ((l.store.lock l.fblock.storageBlock).map fun b =>
      l.store.put { b with atime := l.store.now }).getD l.store }

/-- The rest of the round of `readBuf`, under the lock of the storage block. -/
def copyChunk (s : Store bits H) (sblock : Option WeakPtr) (c : Chunk) :
    Except Fault (Store bits H × List UInt8) :=
  match s.lock sblock with
  | none => .ok (s, List.replicate c.len 0)
  | some block =>
    if block.storageBlockNum = 0 then .ok (s, List.replicate c.len 0)
    else
      match populateStorageBlock s.storage block with
      | .error e => .error e
      | .ok block =>
        .ok (s.put block, slice (block.data.getD (zeroBlock bits)) c.startOffset c.len)

/-- What the commit of the write shows. -/
def event (t : Tracked bits H) (fh n : ℕ) : Option BlockEvent :=
  match t.writers.handles fh, t.asked (fh, n) with
  | some fi, some (buf, c) => some (.wrote fi.stIno buf c)
  | _, _ => none

/-- One step. -/
def step (cfg : Config bits H) (t : Tracked bits H) :
    BlockStep → Except Blocked (Tracked bits H × Option BlockEvent)
  | .write (.locate fh buf c) =>
    (t.writers.step cfg (.locate fh buf c)).map fun q =>
      ({ t with
          writers := q.1, asked := Function.update t.asked (fh, c.block) (some (buf, c)) }, none)
  | .write (.commit fh n) =>
    (t.writers.step cfg (.commit fh n)).map fun q => ({ t with writers := q.1 }, t.event fh n)
  | .write (.update fh n) =>
    (t.writers.step cfg (.update fh n)).map fun q => ({ t with writers := q.1 }, none)
  | .find r fh c =>
    match t.writers.handles fh with
    | none => .error (.fault .noHandle)
    | some fi =>
      if (t.writers.writes.find (fh, c.block)).isSome then .error .locked
      else
        let l := getStorageBlock cfg t.writers.store fi c.block
        .ok ({ t with
          writers := ⟨l.store, Function.update t.writers.handles fh (some l.finfo),
            t.writers.writes⟩
          readers := Function.update t.readers r (some ⟨c, l.fblock.storageBlock⟩) },
          some (.found r fi.stIno c))
  | .copy r =>
    match t.readers r with
    | none => .error .notThere
    | some q =>
      match copyChunk t.writers.store q.sblock q.chunk with
      | .error e => .error (.fault e)
      | .ok (s, bytes) =>
        .ok ({ t with
          writers := { t.writers with store := s }
          readers := Function.update t.readers r none }, some (.copied r bytes))

end Tracked

/-- `readChunk` is the two steps with nothing in between. -/
theorem readChunk_eq (cfg : Config bits H) (s : Store bits H) (fi : FileInfo H) (c : Chunk) :
    readChunk cfg s fi c =
      (Tracked.copyChunk (Tracked.getStorageBlock cfg s fi c.block).store
        (Tracked.getStorageBlock cfg s fi c.block).fblock.storageBlock c).map
        fun q => (q.1, (Tracked.getStorageBlock cfg s fi c.block).finfo, q.2) := by
  unfold readChunk readLocated Tracked.copyChunk Tracked.getStorageBlock
  generalize getLockedFileBlock cfg s fi c.block = l
  dsimp only
  cases hl : l.store.lock l.fblock.storageBlock with
  | none =>
    rw [Option.map_none, Option.getD_none, hl]
    rfl
  | some b =>
    obtain ⟨hp, -⟩ := Store.lock_eq_some.mp hl
    have hseen : (l.store.put { b with atime := l.store.now }).lock l.fblock.storageBlock =
        some { b with atime := l.store.now } := by
      refine Store.lock_eq_some.mpr ⟨hp, ?_⟩
      rw [Store.find_put, if_pos rfl]
    rw [Option.map_some, Option.getD_some, hseen]
    dsimp only
    split
    · rfl
    · rw [Store.put_storage]
      cases hpop : populateStorageBlock l.store.storage { b with atime := l.store.now } with
      | error e => rfl
      | ok b' =>
        have hnum : b'.storageBlockNum = b.storageBlockNum := by
          rcases populateStorageBlock_ok hpop with ⟨-, rfl⟩ | ⟨-, -, x, -, rfl⟩ <;> rfl
        have hput : (l.store.put { b with atime := l.store.now }).put b' = l.store.put b' :=
          congrArg (fun blocks => { l.store with blocks })
            (KeyedTable.replace_replace (r := { b with atime := l.store.now }) _ hnum.symm)
        dsimp only [Except.map]
        rw [hput]
        rfl

namespace Writers

/-- What the steps rely on beside the order: a chunk lies in its block; an access that needs the
old bytes does not take a block of the tables for a hole; and the data that are committed are
among those that the hash tells apart. -/
def Sees (cfg : Config bits H) (D : Block bits → Prop) (w : Writers bits H) : WriteStep → Prop
  | .locate fh _ c => c.startOffset + c.len ≤ blockSize bits ∧ (c.len < blockSize bits →
      ∀ fi, w.handles fh = some fi → ¬Lost cfg w.store fi c.block)
  | .commit fh n => ∀ x, w.writes.find (fh, n) = some x → D x.data
  | .update _ _ => True

/-! ### Writes under way -/

/-- The write has committed the row `k`, and its data are not stored yet. -/
def Storing (w : Writers bits H) (k : ℕ) (y : Write bits H) : Prop :=
  w.writes.find y.key = some y ∧ y.present = some false ∧ y.fblock.storageBlockNum = k

omit [DecidableEq H] in
theorem Storing.present_ne {w : Writers bits H} {k : ℕ} {y : Write bits H} (h : w.Storing k y) :
    y.present ≠ none := by
  rw [h.2.1]
  exact Option.some_ne_none _

/-- The content of the row `k`, or what it is going to be. -/
def Holds (w : Writers bits H) (k : ℕ) (x : Block bits) : Prop :=
  (∃ y, w.Storing k y ∧ y.data = x) ∨ (∀ y, ¬w.Storing k y) ∧ w.store.content k = some x

/-- The storage block that a read has found has the content and keeps it: it is in the cache, and no
data are to be stored for its row. -/
def Offers (w : Writers bits H) (sblock : Option WeakPtr) (x : Block bits) : Prop :=
  sblock = none ∧ x = zeroBlock bits ∨ ∃ p, sblock = some p ∧ w.store.stamp p.num = some p.uid ∧
    (w.store.db.rowHash p.num).isSome ∧ (∀ y, ¬w.Storing p.num y) ∧
    w.store.content p.num = some x

/-- The file block that a write is about. -/
def fileBlockOf (w : Writers bits H) (x : Write bits H) : Option (ℕ × ℕ) :=
  (w.handles x.fh).map fun fi => (fi.stIno, x.fblock.fileBlockNum)

section underway

variable {owner : ℕ × ℕ → ℕ} {cfg : Config bits H} {w : Writers bits H} {fh n : ℕ}
  {fi : FileInfo H} {x y : Write bits H}

omit [DecidableEq H] in
/-- A step of one handle leaves every write with its file block. -/
theorem fileBlockOf_setBlock (opened : w.handles fh = some fi) (fb : BlockInfo H)
    (s : Store bits H) (writes : KeyedTable (Write bits H) (ℕ × ℕ) Write.key)
    (y : Write bits H) :
    fileBlockOf ⟨s, setBlock w.handles fh fi fb, writes⟩ y = w.fileBlockOf y := by
  show (setBlock w.handles fh fi fb y.fh).map _ = (w.handles y.fh).map _
  by_cases hy : y.fh = fh
  · rw [setBlock, hy, Function.update_self, opened]
    rfl
  · rw [setBlock, Function.update_of_ne hy]

/-- A write under way through the handle is one to its file. -/
theorem Safe.fileBlockOf_eq (h : w.Safe owner) (opened : w.handles fh = some fi)
    (under : w.writes.find (fh, n) = some x) : w.fileBlockOf x = some (fi.stIno, n) := by
  obtain ⟨hfh, hn, -⟩ := h.held_inStep opened under
  rw [fileBlockOf, hfh, opened, hn]
  rfl

/-- The write under way to a file block is that of its owner. -/
theorem Safe.key_of_fileBlockOf (h : w.Safe owner) {i p : ℕ × ℕ} (hx : w.writes.find i = some x)
    (hp : w.fileBlockOf x = some p) : i = (owner p, p.2) := by
  obtain ⟨fi, hfi, rfl⟩ := Option.map_eq_some_iff.mp hp
  obtain ⟨fj, hfj, hown, -⟩ := h.held i x hx
  rw [hfi] at hfj
  cases hfj
  have hkey : x.key = i := KeyedTable.key_of_find hx
  rw [← hkey, hown]
  rfl

/-- Locating a block, for a read. -/
theorem Safe.read (h : w.Safe owner) (opened : w.handles fh = some fi)
    (free : w.writes.find (fh, n) = none) {s : Store bits H}
    (touched : (getLockedFileBlock cfg w.store fi n).store.Touches s)
    (hown : owner (fi.stIno, n) = fh) (hcached : StillCached w.store fi n) :
    Safe owner ⟨s, setBlock w.handles fh fi (getLockedFileBlock cfg w.store fi n).fblock,
      w.writes⟩ := by
  have hloc := getLockedFileBlock_locates cfg w.store fi n
  have hdb : s.db = w.store.db := touched.same.db.trans hloc.db_eq
  have hstep := fun item hitem => h.inStep fh fi n item opened hown hitem
  obtain ⟨hnum, hfb⟩ := @fileBlock_num_ok _ _ _ cfg w.store fi n (h.ok fh fi opened)
  have hin : InStep w.store fi.stIno n (getLockedFileBlock cfg w.store fi n).fblock :=
    (InStep.fileBlock hstep h.owing.found).located hloc
  obtain ⟨h₁, h₂, h₃⟩ := h.knows opened hown (hloc.fblock_eq.1.trans hnum) s w.writes
    (by rw [hdb]; exact .refl _) (by rw [hdb]; exact .refl w.store.db fi.stIno n)
    (hdb ▸ hloc.ok hfb) (by unfold InStep; rw [hdb]; exact hin) (fun i y _ hy => hy)
    fun y hy => by rw [free] at hy; cases hy
  refine ⟨(h.owing.locate cfg hcached).of_same touched.same, fun i y hy hp g hrow => ?_, h₁, h₂,
    h₃⟩
  show (s.db.refs g : ℤ) ≤ 1 + w.owed y.fblock.storageBlockNum
  rw [hdb]
  exact h.stores i y hy hp g (hdb ▸ hrow)

/-- A touch of the store. -/
theorem Safe.touched (h : w.Safe owner) {s : Store bits H} (hsame : w.store.Same s) :
    Safe owner { w with store := s } where
  owing := h.owing.of_same hsame
  stores i y hy hp g hrow := by
    show (s.db.refs g : ℤ) ≤ _
    rw [hsame.db]
    exact h.stores i y hy hp g (hsame.db ▸ hrow)
  ok fh fi hfi := hsame.db ▸ h.ok fh fi hfi
  inStep fh fi n item hfi hown hitem := by
    have hin := h.inStep fh fi n item hfi hown hitem
    unfold InStep at hin ⊢
    rwa [hsame.db]
  held := h.held

/-- The row of a write that has committed has the hash of its data. -/
theorem Safe.rowHash_committed (h : w.Safe owner) {i : ℕ × ℕ} (hx : w.writes.find i = some x)
    (hp : x.present ≠ none) (hhash : x.fblock.hash = .digest (cfg.murmur x.data)) :
    w.store.db.rowHash x.fblock.storageBlockNum = some (cfg.murmur x.data) := by
  obtain ⟨fi, hfi, -⟩ := h.held i x hx
  have hkey : x.key = i := KeyedTable.key_of_find hx
  obtain ⟨-, -, -, -, -, hcommitted⟩ := h.held_inStep hfi (n := x.fblock.fileBlockNum)
    (by rw [← hx, ← hkey, Write.key])
  obtain ⟨g, hg, hrow⟩ := hcommitted hp
  rw [hhash] at hg
  cases hg
  exact hrow

end underway

/-! ### What the state stands for -/

/-- The tables and the rows have the contents. -/
structure Matches (cfg : Config bits H) (D : Block bits → Prop) (w : Writers bits H)
    (B : ℕ × ℕ → Block bits) : Prop where
  files : ∀ f o g, w.store.db.fileHash f o = some g → D (B (f, o)) ∧ cfg.murmur (B (f, o)) = g
  holes : ∀ f o, w.store.db.fileHash f o = none → B (f, o) = zeroBlock bits
  rows : ∀ k g, w.store.db.rowHash k = some g → ∃ x, D x ∧ cfg.murmur x = g ∧ w.Holds k x
  zero : w.store.db.rowHash 0 = none
  alone : ∀ k y z, w.Storing k y → w.Storing k z → y = z

section contents

variable {owner : ℕ × ℕ → ℕ} {cfg : Config bits H} {D : Block bits → Prop} {w w' : Writers bits H}
  {B : ℕ × ℕ → Block bits} {fh n : ℕ} {fi : FileInfo H} {x : Write bits H}

section

omit [DecidableEq H]

theorem Holds.of_same {k : ℕ} {x : Block bits} (h : w.Holds k x)
    (hcontent : w'.store.content k = w.store.content k)
    (hstoring : ∀ y, w'.Storing k y ↔ w.Storing k y) : w'.Holds k x := by
  rcases h with ⟨y, hy, rfl⟩ | ⟨hnone, hx⟩
  · exact .inl ⟨y, (hstoring y).mpr hy, rfl⟩
  · exact .inr ⟨fun y hy => hnone y ((hstoring y).mp hy), hcontent.trans hx⟩

/-- Steps that change neither the tables, nor a content, nor what is to be stored. -/
theorem Matches.of_same (h : w.Matches cfg D B) (hdb : w'.store.db = w.store.db)
    (hcontent : ∀ k, w'.store.content k = w.store.content k)
    (hstoring : ∀ k y, w'.Storing k y ↔ w.Storing k y) : w'.Matches cfg D B where
  files f o g hf := h.files f o g (hdb ▸ hf)
  holes f o hf := h.holes f o (hdb ▸ hf)
  rows k g hk := by
    obtain ⟨x, hD, hx, hholds⟩ := h.rows k g (hdb ▸ hk)
    exact ⟨x, hD, hx, hholds.of_same (hcontent k) (hstoring k)⟩
  zero := hdb ▸ h.zero
  alone k y z hy hz := h.alone k y z ((hstoring k y).mp hy) ((hstoring k z).mp hz)

/-- A write that has not committed stores nothing: what is put in its place changes only what is
stored for itself. -/
theorem storing_replace {s : Store bits H} {handles : ℕ → Option (FileInfo H)}
    (hnot : ∀ y, w.writes.find x.key = some y → y.present ≠ some false) (k : ℕ)
    (y : Write bits H) :
    Storing ⟨s, handles, w.writes.replace x⟩ k y ↔
      w.Storing k y ∨ y = x ∧ x.present = some false ∧ x.fblock.storageBlockNum = k := by
  show (w.writes.replace x).find y.key = some y ∧ _ ↔ _
  rw [KeyedTable.find_replace]
  by_cases hkey : y.key = x.key
  · rw [if_pos hkey]
    constructor
    · rintro ⟨hy, hp, hk⟩
      cases hy
      exact .inr ⟨rfl, hp, hk⟩
    · rintro (⟨hy, hp, -⟩ | ⟨rfl, hp, hk⟩)
      · exact absurd hp (hnot y (hkey ▸ hy))
      · exact ⟨rfl, hp, hk⟩
  · rw [if_neg hkey]
    constructor
    · exact .inl
    · rintro (hy | ⟨rfl, -⟩)
      · exact hy
      · exact absurd rfl hkey

theorem storing_deleteKey {s : Store bits H} {handles : ℕ → Option (FileInfo H)}
    (i : ℕ × ℕ) (k : ℕ) (y : Write bits H) :
    Storing ⟨s, handles, w.writes.deleteKey i⟩ k y ↔ w.Storing k y ∧ y.key ≠ i := by
  show (w.writes.deleteKey i).find y.key = some y ∧ _ ↔ _
  rw [KeyedTable.find_deleteKey]
  by_cases hkey : y.key = i
  · rw [if_pos hkey]
    constructor
    · rintro ⟨hy, -⟩
      cases hy
    · rintro ⟨-, hne⟩
      exact absurd hkey hne
  · rw [if_neg hkey]
    exact ⟨fun hy => ⟨hy, hkey⟩, fun hy => hy.1⟩

end

/-- **A commit** gives its file block the new data. -/
theorem Matches.commit (h : w.Matches cfg D B) (hsafe : w.Safe owner)
    (opened : w.handles fh = some fi) (under : w.writes.find (fh, n) = some x)
    (pending : x.present = none) {c : Committed bits H}
    (commits : Commits w.store fi.stIno (cfg.murmur x.data) x.fblock c) (hD : D x.data)
    (hfree : c.present = false → ∀ y, ¬w.Storing c.fblock.storageBlockNum y)
    {x' : Write bits H} (hx' : x' = { x with fblock := c.fblock, present := some c.present }) :
    Matches cfg D ⟨c.store, setBlock w.handles fh fi c.fblock, w.writes.replace x'⟩
      (Function.update B (fi.stIno, n) x.data) := by
  obtain ⟨hfh, hn, -, hfb, hin, -⟩ := hsafe.held_inStep opened under
  obtain ⟨sblock, hr⟩ := commits.replaces
  have hstep : InStep w.store fi.stIno x.fblock.fileBlockNum x.fblock := hn.symm ▸ hin
  have hb := hstep.backed hfb
  have hkey : x'.key = (fh, n) := by rw [hx', Write.key, hr.fblock_eq.1, hn, hfh]
  have hpresent : x'.present = some c.present := by rw [hx']
  have hnum : x'.fblock = c.fblock := by rw [hx']
  have hstoring := @storing_replace _ _ w x' c.store (setBlock w.handles fh fi c.fblock)
    fun y hy => by
      rw [hkey, under] at hy
      cases hy
      rw [pending]
      exact (Option.some_ne_none _).symm
  rw [hpresent, hnum] at hstoring
  have hfile := hr.fileHash_eq
  rw [hn] at hfile
  refine ⟨fun f o g hf => ?_, fun f o hf => ?_, fun k g hk => ?_, ?_, fun k y z hy hz => ?_⟩
  · have hf' := (hfile f o).symm.trans hf
    rw [Function.update_apply]
    split at hf'
    · rename_i heq
      cases hf'
      rw [if_pos heq]
      exact ⟨hD, rfl⟩
    · rename_i hne
      rw [if_neg hne]
      exact h.files f o g hf'
  · have hf' := (hfile f o).symm.trans hf
    split at hf'
    · cases hf'
    · rename_i hne
      rw [Function.update_of_ne hne]
      exact h.holes f o hf'
  · by_cases hself : c.present = false ∧ k = c.fblock.storageBlockNum
    · -- the row of the new data
      obtain ⟨hp, rfl⟩ := hself
      have hrow := hr.rowHash_self hb
      refine ⟨x.data, hD, Option.some.inj (hrow.symm.trans hk), .inl ⟨x', ?_, by rw [hx']⟩⟩
      exact (hstoring _ x').mpr (.inr ⟨rfl, congrArg some hp, rfl⟩)
    · have hold : w.store.db.rowHash k = some g := by
        cases hp : c.present with
        | true => rwa [← hr.rowHash_hit hp]
        | false => rwa [← hr.rowHash_of_ne hb fun hkn => hself ⟨hp, hkn⟩]
      obtain ⟨y, hDy, hy, hholds⟩ := h.rows k g hold
      refine ⟨y, hDy, hy, hholds.of_same (commits.content_eq k) fun z => ?_⟩
      rw [hstoring]
      refine or_iff_left ?_
      rintro ⟨-, hp, hkn⟩
      exact hself ⟨Option.some.inj hp, hkn.symm⟩
  · show c.store.db.rowHash 0 = none
    cases hp : c.present with
    | true => exact (hr.rowHash_hit hp 0).trans h.zero
    | false =>
      refine (hr.rowHash_of_ne hb fun hz => ?_).trans h.zero
      cases commits with
      | hit row sel => cases hp
      | inPlace b locked one sel =>
        obtain ⟨hbn, g, -, hrow⟩ := hstep.held hfb locked
        rw [hbn, ← show 0 = x.fblock.storageBlockNum from hz, h.zero] at hrow
        cases hrow
      | fresh shared sel => exact absurd hz.symm (KeyedTable.nextId_pos _)
  · rcases (hstoring k y).mp hy with hyold | ⟨hyx, hp, hk⟩ <;>
      rcases (hstoring k z).mp hz with hzold | ⟨hzx, hp', hk'⟩
    · exact h.alone k y z hyold hzold
    · exact absurd hyold (hk' ▸ hfree (Option.some.inj hp') y)
    · exact absurd hzold (hk ▸ hfree (Option.some.inj hp) z)
    · exact hyx.trans hzx.symm

section

omit [DecidableEq H]

/-- **The data of a new row are stored.** -/
theorem Matches.stored (h : w.Matches cfg D B) (under : w.writes.find (fh, n) = some x)
    (absent : x.present = some false) {handles : ℕ → Option (FileInfo H)} (hash : H) :
    Matches cfg D ⟨w.store.place x.fblock.storageBlockNum x.data hash, handles,
      w.writes.deleteKey (fh, n)⟩ B := by
  have hkey : x.key = (fh, n) := KeyedTable.key_of_find under
  have hx : w.Storing x.fblock.storageBlockNum x := ⟨hkey ▸ under, absent, rfl⟩
  have hstoring := @storing_deleteKey _ _ w
    (w.store.place x.fblock.storageBlockNum x.data hash) handles (fh, n)
  refine ⟨h.files, h.holes, fun k g hk => ?_, h.zero, fun k y z hy hz => ?_⟩
  · obtain ⟨y, hD, hy, hholds⟩ := h.rows k g hk
    refine ⟨y, hD, hy, ?_⟩
    by_cases hkn : k = x.fblock.storageBlockNum
    · subst hkn
      refine .inr ⟨fun z hz => ?_, ?_⟩
      · obtain ⟨hz, hne⟩ := (hstoring _ z).mp hz
        rw [h.alone _ z x hz hx, hkey] at hne
        exact hne rfl
      · rw [content_place, if_pos rfl]
        rcases hholds with ⟨z, hz, rfl⟩ | ⟨hnone, -⟩
        · rw [h.alone _ z x hz hx]
        · exact absurd hx (hnone x)
    · refine hholds.of_same ?_ fun z => ?_
      · rw [content_place, if_neg hkn]
      · rw [hstoring]
        refine and_iff_left_of_imp fun hz hzkey => hkn ?_
        rw [← hz.2.2]
        have hzx := hz.1
        rw [hzkey, under] at hzx
        cases hzx
        rfl
  · exact h.alone k y z ((hstoring k y).mp hy).1 ((hstoring k z).mp hz).1

/-- What a read has found stays as it is. -/
theorem Offers.next {sblock : Option WeakPtr} {x : Block bits} (h : w.Offers sblock x)
    (hstep : ∀ p, sblock = some p → w.store.stamp p.num = some p.uid →
      (w.store.db.rowHash p.num).isSome → (∀ y, ¬w.Storing p.num y) →
      w'.store.stamp p.num = some p.uid ∧ (w'.store.db.rowHash p.num).isSome ∧
        (∀ y, ¬w'.Storing p.num y) ∧ w'.store.content p.num = w.store.content p.num) :
    w'.Offers sblock x := by
  rcases h with hnone | ⟨p, hp, hstamp, hrow, hstored, hx⟩
  · exact .inl hnone
  · obtain ⟨hstamp', hrow', hstored', hcontent⟩ := hstep p hp hstamp hrow hstored
    exact .inr ⟨p, hp, hstamp', hrow', hstored', hcontent.trans hx⟩

theorem Offers.of_same {sblock : Option WeakPtr} {x : Block bits} (h : w.Offers sblock x)
    (hdb : w'.store.db = w.store.db) (hcontent : ∀ k, w'.store.content k = w.store.content k)
    (hstamp : ∀ k u, w.store.stamp k = some u → w'.store.stamp k = some u)
    (hstoring : ∀ k y, w'.Storing k y → w.Storing k y) : w'.Offers sblock x :=
  h.next fun p _ hu hrow hnone =>
    ⟨hstamp _ _ hu, hdb ▸ hrow, fun y hy => hnone y (hstoring _ y hy), hcontent p.num⟩

/-- It is what a copy shows. -/
theorem Offers.shown {sblock : Option WeakPtr} {x : Block bits} (h : w.Offers sblock x)
    (hzero : w.store.db.rowHash 0 = none) : w.store.shown sblock = some x := by
  unfold Store.shown
  rcases h with ⟨rfl, rfl⟩ | ⟨p, rfl, hstamp, hrow, -, hx⟩
  · rfl
  · obtain ⟨b, hb⟩ := Option.isSome_iff_exists.mp (Store.lock_isSome.mpr hstamp)
    obtain ⟨hp, -⟩ := Store.lock_eq_some.mp hb
    have hnum : p.num = b.storageBlockNum := congrArg WeakPtr.num (Option.some.inj hp)
    have hne : b.storageBlockNum ≠ 0 := by
      intro h0
      rw [hnum, h0, hzero] at hrow
      cases hrow
    rw [hb]
    dsimp only
    rw [if_neg hne, ← hnum]
    exact hx

end

end contents

end Writers

omit [DecidableEq H] in
/-- Locating a block takes nothing out of the cache. -/
theorem Locates.stamp_kept {s : Store bits H} {fi : FileInfo H} {item : BlockInfo H} {u : ℤ}
    {l : Located bits H} (h : Locates s fi item u l) {k v : ℕ} (hk : s.stamp k = some v) :
    l.store.stamp k = some v := by
  cases h with
  | kept => exact hk
  | reloaded filled dead =>
    obtain ⟨-, -, -, -, hstamp, -⟩ := ensureLoaded_views s item u
    rw [hstamp, if_neg, hk]
    rintro ⟨-, hnone⟩
    rw [hk] at hnone
    cases hnone

namespace Tracked

/-- A commit does not overwrite in place a storage block that a read has found. -/
def Undisturbed (cfg : Config bits H) (t : Tracked bits H) : WriteStep → Prop
  | .commit fh n => ∀ r q x b, t.readers r = some q →
      t.writers.writes.find (fh, n) = some x →
      t.writers.store.lock x.fblock.storageBlock = some b → b.useCount = 1 →
      t.writers.store.db.selectBlockHash (cfg.murmur x.data) = none → q.sblock ≠ some b.ptr
  | _ => True

/-- A step that the run may take. -/
def Admits (cfg : Config bits H) (owner : ℕ × ℕ → ℕ) (D : Block bits → Prop)
    (t : Tracked bits H) : BlockStep → Prop
  | .write a => t.writers.Assigned owner a ∧ t.writers.Orderly cfg a ∧ t.writers.Sees cfg D a ∧
      t.Undisturbed cfg a
  | .find _ fh c => ∀ fi, t.writers.handles fh = some fi → owner (fi.stIno, c.block) = fh ∧
      StillCached t.writers.store fi c.block ∧ ¬Lost cfg t.writers.store fi c.block
  | .copy _ => True

/-- **What a state stands for.**  The tables and the rows have the contents; a committed write
has its hash; the file blocks with the hash of data that are not stored yet are those of writes
that have committed; a write that has not has put what it was asked for into the old content; and
a read has found the bytes that it returns. -/
structure Follows (cfg : Config bits H) (owner : ℕ × ℕ → ℕ) (D : Block bits → Prop)
    (t : Tracked bits H) (B : Contents bits) : Prop where
  safe : t.writers.Safe owner
  contents : t.writers.Matches cfg D B.block
  hashed : ∀ i y, t.writers.writes.find i = some y → y.present ≠ none →
    y.fblock.hash = .digest (cfg.murmur y.data)
  waits : ∀ k y p, t.writers.Storing k y →
    t.writers.store.db.fileHash p.1 p.2 = some (cfg.murmur y.data) →
    ∃ i z, t.writers.writes.find i = some z ∧ z.present ≠ none ∧ t.writers.fileBlockOf z = some p
  asked : ∀ i y p, t.writers.writes.find i = some y → y.present = none →
    t.writers.fileBlockOf y = some p →
    ∃ buf c, t.asked i = some (buf, c) ∧ c.block = p.2 ∧ y.data = c.data buf (B.block p)
  reading : ∀ r q, t.readers r = some q → ∃ x,
    B.reads r = some (slice x q.chunk.startOffset q.chunk.len) ∧ t.writers.Offers q.sblock x

end Tracked

namespace Tracked.Follows

section steps

variable {owner : ℕ × ℕ → ℕ} {cfg : Config bits H} {D : Block bits → Prop} {t t' : Tracked bits H}
  {B : Contents bits} {fh n : ℕ} {fi : FileInfo H} {x : Write bits H} {o : Option BlockEvent}

/-- The data of a file block that no write has locked are stored. -/
theorem content_of_free (h : t.Follows cfg owner D B)
    (hinj : ∀ x y, D x → D y → cfg.murmur x = cfg.murmur y → x = y) {p : ℕ × ℕ}
    (free : t.writers.writes.find (owner p, p.2) = none) {k : ℕ} {g : H}
    (hfile : t.writers.store.db.fileHash p.1 p.2 = some g)
    (hrow : t.writers.store.db.rowHash k = some g) :
    (∀ y, ¬t.writers.Storing k y) ∧ t.writers.store.content k = some (B.block p) := by
  obtain ⟨x, hD, hx, hholds⟩ := h.contents.rows k g hrow
  obtain ⟨hDB, hB⟩ := h.contents.files p.1 p.2 g hfile
  rcases hholds with ⟨y, hy, rfl⟩ | ⟨hnone, hcontent⟩
  · obtain ⟨i, z, hz, -, hzp⟩ := h.waits k y p hy (hx ▸ hfile)
    rw [h.safe.key_of_fileBlockOf hz hzp, free] at hz
    cases hz
  · exact ⟨hnone, by rw [hcontent, hinj x (B.block p) hD hDB (hx.trans hB.symm)]⟩

/-- **An access that locates its block finds its content.** -/
theorem offers (h : t.Follows cfg owner D B)
    (hinj : ∀ x y, D x → D y → cfg.murmur x = cfg.murmur y → x = y)
    (opened : t.writers.handles fh = some fi) (hown : owner (fi.stIno, n) = fh)
    (free : t.writers.writes.find (fh, n) = none) (hnot : ¬Lost cfg t.writers.store fi n) :
    Writers.Offers ⟨(getLockedFileBlock cfg t.writers.store fi n).store, t.writers.handles,
      t.writers.writes⟩ (getLockedFileBlock cfg t.writers.store fi n).fblock.storageBlock
      (B.block (fi.stIno, n)) := by
  have hloc := getLockedFileBlock_locates cfg t.writers.store fi n
  have hok := hloc.ok (@fileBlock_num_ok _ _ _ cfg _ _ n (h.safe.ok fh fi opened)).2
  have hin : InStep t.writers.store fi.stIno n
      (getLockedFileBlock cfg t.writers.store fi n).fblock :=
    (InStep.fileBlock (fun item hitem => h.safe.inStep fh fi n item opened hown hitem)
      h.safe.owing.found).located hloc
  rcases hin with ⟨-, -, hptr⟩ | ⟨g, -, hfile, hrow⟩
  · refine .inl ⟨hptr, h.contents.holes _ _ ?_⟩
    rw [← Option.not_isSome_iff_eq_none]
    exact fun hsome => hnot (lost_iff.mpr ⟨hsome, by rw [hptr, Store.lock_none]⟩)
  · have hlive : ((getLockedFileBlock cfg t.writers.store fi n).store.lock
        (getLockedFileBlock cfg t.writers.store fi n).fblock.storageBlock).isSome := by
      by_contra hdead
      exact hnot (lost_iff.mpr ⟨by rw [hfile]; rfl, Option.not_isSome_iff_eq_none.mp hdead⟩)
    obtain ⟨b, hb⟩ := Option.isSome_iff_exists.mp hlive
    obtain ⟨hp, -⟩ := Store.lock_eq_some.mp hb
    have hnum : b.ptr.num = _ := hok.ptr _ hp
    obtain ⟨hnone, hcontent⟩ :=
      h.content_of_free (p := (fi.stIno, n)) hinj (hown.symm ▸ free) hfile hrow
    refine .inr ⟨b.ptr, hp, Store.lock_isSome.mp (hp ▸ hlive), ?_, ?_, ?_⟩
    · show ((getLockedFileBlock cfg t.writers.store fi n).store.db.rowHash b.ptr.num).isSome
      rw [hloc.db_eq, hnum, hrow]
      rfl
    · exact hnum ▸ hnone
    · show (getLockedFileBlock cfg t.writers.store fi n).store.content b.ptr.num = _
      rw [hloc.content_eq, hnum, hcontent]

/-- What a step that locates a block does. -/
theorem step_locate {buf : List UInt8} {c : Chunk}
    (hstep : t.step cfg (.write (.locate fh buf c)) = .ok (t', o)) :
    o = none ∧ t.writers.step cfg (.locate fh buf c) = .ok (t'.writers, ()) ∧
      ∃ fi s old, t.writers.handles fh = some fi ∧
        t.writers.writes.find (fh, c.block) = none ∧
        (getLockedFileBlock cfg t.writers.store fi c.block).store.Touches s ∧
        (c.len < blockSize bits →
          (getLockedFileBlock cfg t.writers.store fi c.block).store.shown
            (getLockedFileBlock cfg t.writers.store fi c.block).fblock.storageBlock = some old) ∧
        t' = ⟨⟨s, Writers.setBlock t.writers.handles fh fi
            (getLockedFileBlock cfg t.writers.store fi c.block).fblock,
          t.writers.writes.replace ⟨fh, (getLockedFileBlock cfg t.writers.store fi c.block).fblock,
            c.data buf old, none⟩⟩, Function.update t.asked (fh, c.block) (some (buf, c)),
          t.readers⟩ := by
  obtain ⟨⟨w, u⟩, hw, heq⟩ := ok_of_map hstep
  cases heq
  refine ⟨rfl, hw, ?_⟩
  simp only [Writers.step] at hw
  split at hw
  · cases hw
  · rename_i fi hfi
    split at hw
    · cases hw
    · rename_i hfree
      split at hw
      · cases hw
      · rename_i s old hold
        cases hw
        obtain ⟨htouched, hshown⟩ := oldData_ok hold
        exact ⟨fi, s, old, hfi, Option.not_isSome_iff_eq_none.mp hfree, htouched, hshown, rfl⟩

/-- **A block is located**: nothing is seen of it. -/
theorem locate (h : t.Follows cfg owner D B)
    (hinj : ∀ x y, D x → D y → cfg.murmur x = cfg.murmur y → x = y) {buf : List UInt8} {c : Chunk}
    (hok : t.Admits cfg owner D (.write (.locate fh buf c)))
    (hstep : t.step cfg (.write (.locate fh buf c)) = .ok (t', o)) :
    o = none ∧ t'.Follows cfg owner D B := by
  obtain ⟨hassigned, horderly, ⟨hfits, hsees⟩, -⟩ := hok
  obtain ⟨ho, hw, fi, s, old, opened, free, htouched, hshown, rfl⟩ := step_locate hstep
  have hown := hassigned fi opened
  have hsafe' := h.safe.step hassigned horderly hw
  have hloc := getLockedFileBlock_locates cfg t.writers.store fi c.block
  have hdb : s.db = t.writers.store.db := htouched.same.db.trans hloc.db_eq
  have hcontent : ∀ k, s.content k = t.writers.store.content k := fun k =>
    (htouched.same.content k).trans (hloc.content_eq k)
  have hn : (getLockedFileBlock cfg t.writers.store fi c.block).fblock.fileBlockNum = c.block :=
    hloc.fblock_eq.1.trans (fileBlock_num_ok c.block (h.safe.ok fh fi opened)).1
  have hold : c.data buf old = c.data buf (B.block (fi.stIno, c.block)) := by
    by_cases hlen : c.len < blockSize bits
    · have hB := (h.offers hinj opened hown free (hsees hlen fi opened)).shown
        (by rw [hloc.db_eq]; exact h.contents.zero)
      rw [Option.some.inj ((hshown hlen).symm.trans hB)]
    · exact overlay_whole _ _ _ _ _ hfits hlen
  generalize hx : (⟨fh, (getLockedFileBlock cfg t.writers.store fi c.block).fblock,
    c.data buf old, none⟩ : Write bits H) = x at hsafe' ⊢
  have hkey : x.key = (fh, c.block) := by rw [← hx, Write.key, hn]
  have hpresent : x.present = none := by rw [← hx]
  have hfind := KeyedTable.find_replace t.writers.writes x
  rw [hkey] at hfind
  have hfile := Writers.fileBlockOf_setBlock opened
    (getLockedFileBlock cfg t.writers.store fi c.block).fblock s (t.writers.writes.replace x)
  have hnone : ∀ y, t.writers.writes.find x.key = some y → y.present ≠ some false := by
    intro y hy
    rw [hkey, free] at hy
    cases hy
  have hstoring : ∀ k y, Writers.Storing ⟨s, Writers.setBlock t.writers.handles fh fi
      (getLockedFileBlock cfg t.writers.store fi c.block).fblock, t.writers.writes.replace x⟩ k y ↔
      t.writers.Storing k y := by
    intro k y
    rw [Writers.storing_replace hnone, hpresent]
    exact or_iff_left (by rintro ⟨-, hp, -⟩; cases hp)
  refine ⟨ho, hsafe', h.contents.of_same hdb hcontent hstoring, fun i y hy hp => ?_,
    fun k y p hy hp => ?_, fun i y p hy hp hyp => ?_, fun r q hr => ?_⟩
  · rw [hfind] at hy
    split at hy
    · cases hy
      exact absurd hpresent hp
    · exact h.hashed i y hy hp
  · obtain ⟨i, z, hz, hzp, hzf⟩ := h.waits k y p ((hstoring k y).mp hy) (hdb ▸ hp)
    refine ⟨i, z, ?_, hzp, (hfile z).trans hzf⟩
    rw [hfind, if_neg, hz]
    rintro rfl
    rw [free] at hz
    cases hz
  · rw [hfile] at hyp
    show ∃ buf' c', Function.update t.asked (fh, c.block) (some (buf, c)) i = some (buf', c') ∧ _
    rw [hfind] at hy
    split at hy
    · rename_i hi
      cases hy
      have hp' : p = (fi.stIno, c.block) := by
        have hopened : Writers.setBlock t.writers.handles fh fi
            (getLockedFileBlock cfg t.writers.store fi c.block).fblock fh = some (fi.setBlock
              (getLockedFileBlock cfg t.writers.store fi c.block).fblock) :=
          Function.update_self ..
        have hunder : (t.writers.writes.replace x).find (fh, c.block) = some x := by
          rw [hfind, if_pos rfl]
        have hself := hsafe'.fileBlockOf_eq hopened hunder
        rw [hfile, hyp] at hself
        exact Option.some.inj hself
      refine ⟨buf, c, by rw [hi, Function.update_self], by rw [hp'], ?_⟩
      rw [hp', ← hold, ← hx]
    · rename_i hi
      rw [Function.update_of_ne hi]
      exact h.asked i y p hy hp hyp
  · obtain ⟨y, hy, hoffers⟩ := h.reading r q hr
    exact ⟨y, hy, hoffers.of_same hdb hcontent
      (fun k u hu => (htouched.same.stamp k).trans (hloc.stamp_kept hu))
      fun k z => (hstoring k z).mp⟩

theorem step_commit (hstep : t.step cfg (.write (.commit fh n)) = .ok (t', o)) :
    o = t.event fh n ∧ t.writers.step cfg (.commit fh n) = .ok (t'.writers, ()) ∧
      t' = { t with writers := t'.writers } ∧ ∃ fi x c, t.writers.handles fh = some fi ∧
        t.writers.writes.find (fh, n) = some x ∧ x.present = none ∧
        Commits t.writers.store fi.stIno (cfg.murmur x.data) x.fblock c ∧
        t'.writers = ⟨c.store, Writers.setBlock t.writers.handles fh fi c.fblock,
          t.writers.writes.replace { x with fblock := c.fblock, present := some c.present }⟩ := by
  obtain ⟨⟨w, u⟩, hw, heq⟩ := ok_of_map hstep
  cases heq
  refine ⟨rfl, hw, rfl, ?_⟩
  cases Writers.step_moves hw with
  | commit opened under pending commits => exact ⟨_, _, _, opened, under, pending, commits, rfl⟩

/-- No data are to be stored for the row that a commit takes. -/
theorem not_storing (h : t.Follows cfg owner D B) (opened : t.writers.handles fh = some fi)
    (under : t.writers.writes.find (fh, n) = some x) (pending : x.present = none)
    {c : Committed bits H}
    (commits : Commits t.writers.store fi.stIno (cfg.murmur x.data) x.fblock c)
    (hp : c.present = false) (y : Write bits H) :
    ¬t.writers.Storing c.fblock.storageBlockNum y := by
  rintro hy
  have hrow := h.safe.rowHash_committed hy.1 hy.present_ne
    (h.hashed _ y hy.1 hy.present_ne)
  rw [hy.2.2] at hrow
  obtain ⟨-, hn, -, hfb, hin, -⟩ := h.safe.held_inStep opened under
  cases commits with
  | hit row sel => cases hp
  | inPlace b locked one sel =>
    -- the write itself would have to be the one that has the old hash locked
    have hstep : InStep t.writers.store fi.stIno x.fblock.fileBlockNum x.fblock := hn.symm ▸ hin
    obtain ⟨hbn, g, hfile, hg⟩ := hstep.held hfb locked
    rw [hbn] at hg
    obtain ⟨i, z, hz, hzp, hzf⟩ := h.waits _ y (fi.stIno, n) hy (by
      rw [← Option.some.inj (hg.symm.trans hrow), ← hn]
      exact hfile)
    have hxf := h.safe.fileBlockOf_eq opened under
    rw [h.safe.key_of_fileBlockOf hz hzf, ← h.safe.key_of_fileBlockOf under hxf, under] at hz
    cases hz
    exact hzp pending
  | fresh shared sel =>
    rw [show Db.rowHash _ _ = none from Db.rowHash_nextId _] at hrow
    cases hrow

/-- The row that a commit takes is not that of a storage block that a read has found. -/
theorem not_reading (h : t.Follows cfg owner D B) (opened : t.writers.handles fh = some fi)
    (under : t.writers.writes.find (fh, n) = some x) {c : Committed bits H}
    (commits : Commits t.writers.store fi.stIno (cfg.murmur x.data) x.fblock c)
    (hp : c.present = false) (hok : t.Undisturbed cfg (.commit fh n)) {r : ℕ} {q : BlockRead}
    (hr : t.readers r = some q) {p : WeakPtr} (hq : q.sblock = some p)
    (hstamp : t.writers.store.stamp p.num = some p.uid)
    (hrow : (t.writers.store.db.rowHash p.num).isSome) : p.num ≠ c.fblock.storageBlockNum := by
  intro hnum
  obtain ⟨-, hn, -, hfb, hin, -⟩ := h.safe.held_inStep opened under
  cases commits with
  | hit row sel => cases hp
  | inPlace b locked one sel =>
    have hstep : InStep t.writers.store fi.stIno x.fblock.fileBlockNum x.fblock := hn.symm ▸ hin
    have hbn : p.num = b.storageBlockNum := hnum.trans (hstep.held hfb locked).1.symm
    refine hok r q x b hr under locked one sel (hq.trans (congrArg some ?_))
    rw [hbn, Store.stamp, Store.find_of_lock locked] at hstamp
    have huid : b.uid = p.uid := Option.some.inj hstamp
    rw [StorageBlock.ptr, ← hbn, huid]
  | fresh shared sel =>
    rw [show p.num = t.writers.store.db.blockHashes.nextId from hnum, Db.rowHash_nextId] at hrow
    cases hrow

/-- **A commit**: the write takes effect. -/
theorem commit (h : t.Follows cfg owner D B)
    (hok : t.Admits cfg owner D (.write (.commit fh n)))
    (hstep : t.step cfg (.write (.commit fh n)) = .ok (t', o)) :
    ∃ e B', o = some e ∧ BlockSpec B e B' ∧ t'.Follows cfg owner D B' := by
  obtain ⟨hassigned, horderly, hsees, hundisturbed⟩ := hok
  obtain ⟨ho, hw, ht', fi, x, c, opened, under, pending, commits, hwriters⟩ := step_commit hstep
  have hsafe' := h.safe.step hassigned horderly hw
  have hxf := h.safe.fileBlockOf_eq opened under
  obtain ⟨buf, ch, hbuf, hblock, hdata⟩ := h.asked _ x _ under pending hxf
  have hevent : o = some (.wrote fi.stIno buf ch) := by
    rw [ho, Tracked.event, opened, hbuf]
  have hspec := BlockSpec.wrote (B := B) fi.stIno buf ch
  rw [show ch.block = n from hblock, ← hdata] at hspec
  refine ⟨_, _, hevent, hspec, ?_⟩
  obtain ⟨hfh, hn, -, hfb, hin, -⟩ := h.safe.held_inStep opened under
  obtain ⟨sblock, hr⟩ := commits.replaces
  have hb := InStep.backed (show InStep t.writers.store fi.stIno x.fblock.fileBlockNum x.fblock
    from hn.symm ▸ hin) hfb
  generalize hx' : ({ x with fblock := c.fblock, present := some c.present } : Write bits H) = x'
    at hwriters
  have hkey : x'.key = (fh, n) := by rw [← hx', Write.key, hr.fblock_eq.1, hn, hfh]
  have hpresent : x'.present = some c.present := by rw [← hx']
  have hcontents := h.contents.commit h.safe opened under pending commits (hsees x under)
    (h.not_storing opened under pending commits) hx'.symm
  have hfind := KeyedTable.find_replace t.writers.writes x'
  rw [hkey] at hfind
  have hfile := Writers.fileBlockOf_setBlock opened c.fblock c.store
    (t.writers.writes.replace x')
  have hself : Writers.fileBlockOf ⟨c.store, Writers.setBlock t.writers.handles fh fi c.fblock,
      t.writers.writes.replace x'⟩ x' = some (fi.stIno, n) := by
    rw [hfile, ← hxf, ← hx', Writers.fileBlockOf, Writers.fileBlockOf]
    show _ = _
    rw [show c.fblock.fileBlockNum = x.fblock.fileBlockNum from hr.fblock_eq.1]
  have hnew : ∀ y, t.writers.writes.find x'.key = some y → y.present ≠ some false := by
    intro y hy
    rw [hkey, under] at hy
    cases hy
    rw [pending]
    exact (Option.some_ne_none _).symm
  have hstoring := @Writers.storing_replace _ _ t.writers x' c.store
    (Writers.setBlock t.writers.handles fh fi c.fblock) hnew
  have hothers : ∀ i y, t.writers.writes.find i = some y → y.present ≠ none →
      (t.writers.writes.replace x').find i = some y := by
    intro i y hy hp
    rw [hfind, if_neg, hy]
    rintro rfl
    rw [under] at hy
    cases hy
    exact hp pending
  rw [ht']
  refine ⟨hsafe', hwriters ▸ hcontents, ?_, ?_, ?_, ?_⟩ <;> rw [hwriters]
  · intro i y hy hp
    rw [show KeyedTable.find _ i = _ from hfind i] at hy
    split at hy
    · cases hy
      rw [← hx']
      exact hr.fblock_eq.2.1
    · exact h.hashed i y hy hp
  · intro k y p hy hp
    by_cases hpx : p = (fi.stIno, n)
    · refine ⟨_, x', (hfind _).trans (if_pos rfl), ?_, hpx ▸ hself⟩
      rw [hpresent]
      exact Option.some_ne_none _
    · have hp' := (hr.fileHash_eq p.1 p.2).symm.trans hp
      rw [hn, if_neg hpx] at hp'
      rcases (hstoring k y).mp hy with hy | ⟨rfl, habsent, -⟩
      · obtain ⟨i, z, hz, hzp, hzf⟩ := h.waits k y p hy hp'
        exact ⟨i, z, hothers i z hz hzp, hzp, (hfile z).trans hzf⟩
      · obtain ⟨k', hk'⟩ := h.safe.owing.found _ _ _ hp'
        rw [← hx'] at hk'
        exact absurd hk' (hr.new_of_absent (Option.some.inj (hpresent.symm.trans habsent)) k')
  · intro i y p hy hp hyp
    rw [hfile] at hyp
    rw [show KeyedTable.find _ i = _ from hfind i] at hy
    split at hy
    · cases hy
      rw [hpresent] at hp
      cases hp
    · rename_i hi
      obtain ⟨buf', c', ha, hblock', hd⟩ := h.asked i y p hy hp hyp
      refine ⟨buf', c', ha, hblock', ?_⟩
      show _ = c'.data buf' (Function.update B.block (fi.stIno, n) x.data p)
      rw [Function.update_of_ne, hd]
      rintro rfl
      exact hi ((h.safe.key_of_fileBlockOf hy hyp).trans
        (h.safe.key_of_fileBlockOf under hxf).symm)
  · intro r q hq
    obtain ⟨y, hy, hoffers⟩ := h.reading r q hq
    refine ⟨y, hy, hoffers.next fun p hp hstamp hrow hnone => ?_⟩
    refine ⟨(commits.stamp_eq p.num).trans hstamp, hr.rowHash_isSome hb hrow, fun z hz => ?_,
      commits.content_eq p.num⟩
    rcases (hstoring _ z).mp hz with hz | ⟨-, habsent, hzp⟩
    · exact hnone z hz
    · rw [← hx'] at hzp
      exact h.not_reading opened under commits (Option.some.inj (hpresent.symm.trans habsent))
        hundisturbed hq hp hstamp hrow hzp.symm

/-- A write that has committed is done: the other writes go on as before. -/
theorem done (h : t.Follows cfg owner D B) (opened : t.writers.handles fh = some fi)
    (under : t.writers.writes.find (fh, n) = some x) (hp : x.present ≠ none)
    (hlast : ∀ k y, t.writers.Storing k y → y.key ≠ (fh, n) → k ≠ x.fblock.storageBlockNum)
    {s : Store bits H} {fb : BlockInfo H} (hdb : s.db = t.writers.store.db)
    {w : Writers bits H} (hw : w = ⟨s, Writers.setBlock t.writers.handles fh fi fb,
      t.writers.writes.deleteKey (fh, n)⟩) (hsafe : w.Safe owner)
    (hcontents : w.Matches cfg D B.block)
    (hoffers : ∀ sblock y, t.writers.Offers sblock y → w.Offers sblock y) :
    Follows cfg owner D { t with writers := w } B := by
  subst hw
  have hfind := KeyedTable.find_deleteKey t.writers.writes (fh, n)
  have hold : ∀ i y, (t.writers.writes.deleteKey (fh, n)).find i = some y →
      t.writers.writes.find i = some y := by
    intro i y hy
    rw [hfind] at hy
    split at hy
    · cases hy
    · exact hy
  have hfile := Writers.fileBlockOf_setBlock opened fb s (t.writers.writes.deleteKey (fh, n))
  refine ⟨hsafe, hcontents, fun i y hy => h.hashed i y (hold i y hy), fun k y p hy hyp => ?_,
    fun i y p hy hpy hyp => h.asked i y p (hold i y hy) hpy (hfile y ▸ hyp), fun r q hr => ?_⟩
  · obtain ⟨hy, hne⟩ := (Writers.storing_deleteKey (fh, n) k y).mp hy
    obtain ⟨i, z, hz, hzp, hzf⟩ := h.waits k y p hy (hdb ▸ hyp)
    refine ⟨i, z, ?_, hzp, (hfile z).trans hzf⟩
    show (t.writers.writes.deleteKey (fh, n)).find i = some z
    rw [hfind, if_neg, hz]
    rintro rfl
    -- the write that is done had the block of these data
    rw [under] at hz
    cases hz
    obtain ⟨-, -, -, -, hin, -⟩ := h.safe.held_inStep opened under
    have hxf := h.safe.fileBlockOf_eq opened under
    rw [hzf] at hxf
    cases hxf
    rcases hin with ⟨hnull, -⟩ | ⟨g, -, hg, hrow⟩
    · rw [h.hashed _ x under hp] at hnull
      cases hnull
    · have hyrow := h.safe.rowHash_committed hy.1 hy.present_ne
        (h.hashed _ y hy.1 hy.present_ne)
      have hgy : g = cfg.murmur y.data := Option.some.inj (hg.symm.trans (hdb ▸ hyp))
      refine hlast k y hy hne ?_
      rw [← hy.2.2]
      exact h.safe.owing.unique _ _ _ hyrow (hgy ▸ hrow)
  · obtain ⟨y, hy, hoffered⟩ := h.reading r q hr
    exact ⟨y, hy, hoffers _ _ hoffered⟩

/-- **The cached block is updated**: nothing is seen of it. -/
theorem update (h : t.Follows cfg owner D B)
    (hok : t.Admits cfg owner D (.write (.update fh n)))
    (hstep : t.step cfg (.write (.update fh n)) = .ok (t', o)) :
    o = none ∧ t'.Follows cfg owner D B := by
  obtain ⟨hassigned, horderly, -⟩ := hok
  obtain ⟨⟨w, u⟩, hw, heq⟩ := ok_of_map hstep
  cases heq
  have hsafe' := h.safe.step hassigned horderly hw
  refine ⟨rfl, ?_⟩
  cases Writers.step_moves hw with
  | @found _ _ fi x opened under present =>
    have hstoring : ∀ k y, Writers.Storing
        ⟨t.writers.store.adjust x.fblock.storageBlockNum 1,
          Writers.setBlock t.writers.handles fh fi x.fblock, t.writers.writes.deleteKey (fh, n)⟩
          k y ↔ t.writers.Storing k y := by
      intro k y
      rw [Writers.storing_deleteKey]
      refine and_iff_left_of_imp fun hy hkey => ?_
      have hyx := hy.1
      rw [hkey, under] at hyx
      cases hyx
      have hpy := hy.2.1
      rw [present] at hpy
      cases hpy
    have hp : x.present ≠ none := by
      rw [present]
      exact Option.some_ne_none _
    refine h.done opened under hp (fun k y hy hne hk => ?_)
      (Store.adjust_db _ _) rfl hsafe'
      (h.contents.of_same (Store.adjust_db _ _) (Store.content_adjust _ _) hstoring)
      fun sblock y hy => hy.of_same (Store.adjust_db _ _) (Store.content_adjust _ _)
        (fun k v hv => (Store.stamp_adjust _ _ k).trans hv) fun k z => (hstoring k z).mp
    exact horderly x under present _ y hy.1 hy.2.1 (hy.2.2.trans hk)
  | @stored _ _ fi x p opened under absent num =>
    have hkey : x.key = (fh, n) := KeyedTable.key_of_find under
    have hx : t.writers.Storing x.fblock.storageBlockNum x := ⟨hkey ▸ under, absent, rfl⟩
    have hp : x.present ≠ none := by
      rw [absent]
      exact Option.some_ne_none _
    refine h.done opened under hp (fun k y hy hne hk => ?_)
      (place_db _ _ _ _) rfl hsafe' (h.contents.stored under absent _)
      fun sblock y hy => hy.next fun p' _ hstamp hrow hnone => ?_
    · subst hk
      rw [h.contents.alone _ y x hy hx] at hne
      exact hne hkey
    · have hne : p'.num ≠ x.fblock.storageBlockNum := fun hk => hnone x (hk ▸ hx)
      refine ⟨?_, hrow, fun z hz => hnone z ((Writers.storing_deleteKey (fh, n) _ z).mp hz).1, ?_⟩
      · exact (stamp_place ..).trans ((if_neg hne).trans hstamp)
      · exact (content_place ..).trans (if_neg hne)

theorem getStorageBlock_touches (cfg : Config bits H) (s : Store bits H) (fi : FileInfo H) (n : ℕ) :
    (getLockedFileBlock cfg s fi n).store.Touches (getStorageBlock cfg s fi n).store := by
  show Store.Touches _ (Option.getD _ _)
  cases hl : (getLockedFileBlock cfg s fi n).store.lock
      (getLockedFileBlock cfg s fi n).fblock.storageBlock with
  | none => exact .none
  | some b => exact .seen b _ (Store.find_of_lock hl)

/-- **A read begins.** -/
theorem find (h : t.Follows cfg owner D B)
    (hinj : ∀ x y, D x → D y → cfg.murmur x = cfg.murmur y → x = y) {r : ℕ} {c : Chunk}
    (hok : t.Admits cfg owner D (.find r fh c)) (hstep : t.step cfg (.find r fh c) = .ok (t', o)) :
    ∃ e B', o = some e ∧ BlockSpec B e B' ∧ t'.Follows cfg owner D B' := by
  simp only [Tracked.step] at hstep
  split at hstep
  · cases hstep
  · rename_i fi opened
    split at hstep
    · cases hstep
    · rename_i hfree
      have free := Option.not_isSome_iff_eq_none.mp hfree
      cases hstep
      obtain ⟨hown, hcached, hnot⟩ := hok fi opened
      have htouched := getStorageBlock_touches cfg t.writers.store fi c.block
      refine ⟨_, _, rfl, .found r fi.stIno c, ?_⟩
      have hloc := getLockedFileBlock_locates cfg t.writers.store fi c.block
      have hoffers := h.offers hinj opened hown free hnot
      generalize hs : (getStorageBlock cfg t.writers.store fi c.block).store = s at htouched ⊢
      rw [show (getStorageBlock cfg t.writers.store fi c.block).finfo = _ from hloc.finfo_eq,
        show (getStorageBlock cfg t.writers.store fi c.block).fblock =
          (getLockedFileBlock cfg t.writers.store fi c.block).fblock from rfl]
      have hdb : s.db = t.writers.store.db := htouched.same.db.trans hloc.db_eq
      have hcontent : ∀ k, s.content k = t.writers.store.content k := fun k =>
        (htouched.same.content k).trans (hloc.content_eq k)
      have hfile := Writers.fileBlockOf_setBlock opened
        (getLockedFileBlock cfg t.writers.store fi c.block).fblock s t.writers.writes
      refine ⟨h.safe.read opened free htouched hown hcached,
        h.contents.of_same hdb hcontent fun k y => .rfl, h.hashed, fun k y p hy hp => ?_,
        fun i y p hy hp hyp => h.asked i y p hy hp (hfile y ▸ hyp), fun r' q hr => ?_⟩
      · obtain ⟨i, z, hz, hzp, hzf⟩ := h.waits k y p hy (hdb ▸ hp)
        exact ⟨i, z, hz, hzp, (hfile z).trans hzf⟩
      · dsimp only at hr
        by_cases hr' : r' = r
        · rw [hr', Function.update_self] at hr
          cases hr
          refine ⟨B.block (fi.stIno, c.block), ?_, hoffers.of_same htouched.same.db
            htouched.same.content (fun k v hv => (htouched.same.stamp k).trans hv)
            fun k y hy => hy⟩
          rw [hr']
          exact Function.update_self ..
        · rw [Function.update_of_ne hr'] at hr
          obtain ⟨y, hy, hold⟩ := h.reading r' q hr
          refine ⟨y, (Function.update_of_ne hr' ..).trans hy, hold.of_same hdb hcontent
            (fun k v hv => (htouched.same.stamp k).trans (hloc.stamp_kept hv)) fun k y hy => hy⟩

omit [DecidableEq H] in
theorem copyChunk_ok {s s' : Store bits H} {sblock : Option WeakPtr} {c : Chunk}
    {bytes : List UInt8} (h : copyChunk s sblock c = .ok (s', bytes)) :
    s.Touches s' ∧ ∃ x, s.shown sblock = some x ∧ bytes = slice x c.startOffset c.len := by
  unfold copyChunk at h
  unfold Store.shown
  cases hl : s.lock sblock with
  | none =>
    rw [hl] at h
    cases h
    exact ⟨.none, _, rfl, (slice_zeroBlock ..).symm⟩
  | some b =>
    rw [hl] at h
    dsimp only at h ⊢
    split at h
    · rename_i hzero
      cases h
      exact ⟨.none, _, if_pos hzero, (slice_zeroBlock ..).symm⟩
    · rename_i hnum
      cases hp : populateStorageBlock s.storage b with
      | error e => simp [hp] at h
      | ok b' =>
        rw [hp] at h
        cases h
        have hseen : populateStorageBlock s.storage { b with atime := b.atime } = .ok b' := hp
        obtain ⟨htouch, x, hx, hcontent⟩ := populate_touches hl hnum hseen
        refine ⟨htouch, x, by rw [if_neg hnum, hcontent], ?_⟩
        rw [hx]
        rfl

/-- **A read ends.** -/
theorem copy (h : t.Follows cfg owner D B) {r : ℕ} (hstep : t.step cfg (.copy r) = .ok (t', o)) :
    ∃ e B', o = some e ∧ BlockSpec B e B' ∧ t'.Follows cfg owner D B' := by
  simp only [Tracked.step] at hstep
  split at hstep
  · cases hstep
  · rename_i q hq
    split at hstep
    · cases hstep
    · rename_i s bytes hcopy
      cases hstep
      obtain ⟨htouched, y, hy, hbytes⟩ := copyChunk_ok hcopy
      obtain ⟨x, hreads, hoffers⟩ := h.reading r q hq
      rw [hoffers.shown h.contents.zero] at hy
      cases hy
      refine ⟨_, _, rfl, .copied r bytes (hbytes ▸ hreads), ?_⟩
      have hsame := htouched.same
      refine ⟨h.safe.touched hsame, h.contents.of_same hsame.db hsame.content fun k y => .rfl,
        h.hashed, fun k y p hy hp => h.waits k y p hy (hsame.db ▸ hp), h.asked, fun r' q' hr => ?_⟩
      dsimp only at hr
      by_cases hr' : r' = r
      · rw [hr', Function.update_self] at hr
        cases hr
      · rw [Function.update_of_ne hr'] at hr
        obtain ⟨z, hz, hold⟩ := h.reading r' q' hr
        exact ⟨z, (Function.update_of_ne hr' ..).trans hz, hold.of_same hsame.db hsame.content
          (fun k v hv => (hsame.stamp k).trans hv) fun k y hy => hy⟩

/-- **One step.** -/
theorem step (h : t.Follows cfg owner D B)
    (hinj : ∀ x y, D x → D y → cfg.murmur x = cfg.murmur y → x = y) {a : BlockStep}
    (hok : t.Admits cfg owner D a) (hstep : t.step cfg a = .ok (t', o)) :
    ∃ B', InTurn BlockSpec B o.toList B' ∧ t'.Follows cfg owner D B' := by
  have hshows : (∃ e B', o = some e ∧ BlockSpec B e B' ∧ t'.Follows cfg owner D B') →
      ∃ B', InTurn BlockSpec B o.toList B' ∧ t'.Follows cfg owner D B' := by
    rintro ⟨e, B', rfl, hspec, h'⟩
    exact ⟨B', .cons hspec (.refl B'), h'⟩
  have hsilent : o = none ∧ t'.Follows cfg owner D B →
      ∃ B', InTurn BlockSpec B o.toList B' ∧ t'.Follows cfg owner D B' := by
    rintro ⟨rfl, h'⟩
    exact ⟨B, .refl B, h'⟩
  cases a with
  | write a =>
    cases a with
    | locate fh buf c => exact hsilent (h.locate hinj hok hstep)
    | commit fh n => exact hshows (h.commit hok hstep)
    | update fh n => exact hsilent (h.update hok hstep)
  | find r fh c => exact hshows (h.find hinj hok hstep)
  | copy r => exact hshows (h.copy hstep)

/-- With nothing to be stored, the tables and the rows give the contents. -/
theorem blockOf_eq (h : t.Follows cfg owner D B)
    (hinj : ∀ x y, D x → D y → cfg.murmur x = cfg.murmur y → x = y)
    (hstored : ∀ i y, t.writers.writes.find i = some y → y.present ≠ some false) (f o : ℕ) :
    t.writers.store.blockOf f o = B.block (f, o) := by
  cases hf : t.writers.store.db.fileHash f o with
  | none => rw [Store.blockOf_of_fileHash_none hf, h.contents.holes f o hf]
  | some g =>
    obtain ⟨k, hk⟩ := h.safe.owing.found f o g hf
    obtain ⟨x, hD, hx, hholds⟩ := h.contents.rows k g hk
    obtain ⟨hDB, hB⟩ := h.contents.files f o g hf
    rcases hholds with ⟨y, hy, -⟩ | ⟨-, hcontent⟩
    · exact absurd hy.2.1 (hstored _ y hy.1)
    · rw [Store.blockOf_eq h.safe.owing.unique hf hk hcontent]
      exact hinj x _ hD hDB (hx.trans hB.symm)

end steps

/-- A file system with exact counts and nothing under way stands for what its tables give. -/
theorem of {cfg : Config bits H} {owner : ℕ × ℕ → ℕ} {D : Block bits → Prop} {fs : Fs bits H}
    (hco : Coherent cfg fs.store) (hexact : (Tracked.of fs).writers.Exact owner)
    (hdata : ∀ k x, (fs.store.db.rowHash k).isSome → fs.store.content k = some x → D x) :
    (Tracked.of fs).Follows cfg owner D
      ⟨fun p => fs.store.blockOf p.1 p.2, fun _ => none⟩ where
  safe := hexact.safe
  contents := by
    have hnone : ∀ k y, ¬(Tracked.of fs).writers.Storing k y := fun k y hy => by cases hy.1
    refine ⟨fun f o g hf => ?_, fun f o hf => Store.blockOf_of_fileHash_none hf,
      fun k g hk => ?_, hco.zero, fun k y z hy => absurd hy (hnone k y)⟩
    · obtain ⟨k, hk⟩ := hexact.found f o g hf
      obtain ⟨x, hx, hhash⟩ := hco.row k g id hk
      show D (fs.store.blockOf f o) ∧ cfg.murmur (fs.store.blockOf f o) = g
      rw [Store.blockOf_eq hco.unique hf hk hx]
      exact ⟨hdata k x (Option.isSome_of_eq_some hk) hx, hhash⟩
    · obtain ⟨x, hx, hhash⟩ := hco.row k g id hk
      exact ⟨x, hdata k x (Option.isSome_of_eq_some hk) hx, hhash, .inr ⟨hnone k, hx⟩⟩
  hashed i y hy := by cases hy
  waits k y p hy := by cases hy.1
  asked i y p hy := by cases hy
  reading r q hr := by cases hr

end Tracked.Follows

/-- **Block accesses take effect one after the other.**  From every state that requests lead to, in
which the use counts are exact and the handles in step with the tables (`Exact`), in a run whose
steps the state `Admits` (one handle for each file block; the writes are `Orderly`; no access takes
a block of the tables for a hole; no commit overwrites what a read has found) and among contents
that the hash tells apart, every write takes effect as a whole at its commit and every read when it
finds its block; and when no data are left to be stored, the tables and the rows give the contents
that the writes leave. -/
theorem blocks_linearize (cfg : Config bits H) (owner : ℕ × ℕ → ℕ) (D : Block bits → Prop)
    (fs : Fs bits H) (t : Tracked bits H) (steps : List BlockStep)
    (outs : List (Option BlockEvent)) (hfs : Reachable (Fs.step cfg) (Fs.init bits H) fs)
    (hexact : (Tracked.of fs).writers.Exact owner)
    (hdata : ∀ k x, (fs.store.db.rowHash k).isSome → fs.store.content k = some x → D x)
    (hinj : ∀ x y, D x → D y → cfg.murmur x = cfg.murmur y → x = y)
    (hok : Meets (Tracked.step cfg) (fun t a => t.Admits cfg owner D a) (.of fs) steps)
    (hrun : run (Tracked.step cfg) (.of fs) steps = .ok (t, outs)) :
    ∃ B : Contents bits,
      InTurn BlockSpec ⟨fun p => fs.store.blockOf p.1 p.2, fun _ => none⟩ outs.reduceOption B ∧
      ((∀ i y, t.writers.writes.find i = some y → y.present ≠ some false) →
        ∀ f o, t.writers.store.blockOf f o = B.block (f, o)) := by
  obtain ⟨B, hturns, hfollows⟩ := run_history
    (I := fun outs t => ∃ B, InTurn BlockSpec ⟨fun p => fs.store.blockOf p.1 p.2, fun _ => none⟩
      outs.reduceOption B ∧ t.Follows cfg owner D B)
    (fun outs t a t' o ⟨B, hturns, hfollows⟩ hok hstep => by
      obtain ⟨B', hnext, hfollows'⟩ := hfollows.step hinj hok hstep
      refine ⟨B', ?_, hfollows'⟩
      rw [List.reduceOption_append, List.reduceOption_singleton]
      exact hturns.append hnext)
    [] ⟨_, .refl _, .of (Fs.reachable_coherent hfs).1 hexact hdata⟩ hok hrun
  exact ⟨B, hturns, hfollows.blockOf_eq hinj⟩

/-- Two files of one byte that were never written. -/
def twoFiles : Fs 0 (List UInt8) :=
  Fs.after (plainConfig 0)
    [.create ['/', 'f'] sIfreg, .ftruncate 0 1, .create ['/', 'g'] sIfreg, .ftruncate 1 1]

/-- The second file gets the data of the first before these are stored, and other data while a read
of the first has found the storage block that both had. -/
theorem blocks_linearize_twoFiles :
    ∃ t B, run (Tracked.step (plainConfig 0)) (.of twoFiles)
        [.write (.locate 0 [7] ⟨0, 0, 1, 0⟩), .write (.locate 1 [7] ⟨0, 0, 1, 0⟩),
          .write (.commit 0 0), .write (.commit 1 0), .write (.update 0 0), .write (.update 1 0),
          .find 0 0 ⟨0, 0, 1, 0⟩, .write (.locate 1 [8] ⟨0, 0, 1, 0⟩), .write (.commit 1 0),
          .copy 0] =
        .ok (t, [none, none, some (.wrote 2 [7] ⟨0, 0, 1, 0⟩), some (.wrote 3 [7] ⟨0, 0, 1, 0⟩),
          none, none, some (.found 0 2 ⟨0, 0, 1, 0⟩), none, some (.wrote 3 [8] ⟨0, 0, 1, 0⟩),
          some (.copied 0 [7])]) ∧
      InTurn BlockSpec ⟨fun p => twoFiles.store.blockOf p.1 p.2, fun _ => none⟩
        [.wrote 2 [7] ⟨0, 0, 1, 0⟩, .wrote 3 [7] ⟨0, 0, 1, 0⟩, .found 0 2 ⟨0, 0, 1, 0⟩,
          .wrote 3 [8] ⟨0, 0, 1, 0⟩, .copied 0 [7]] B := by
  have hlin := blocks_linearize (plainConfig 0) (fun p => p.1 - 2) (fun _ => True) twoFiles _
    [.write (.locate 0 [7] ⟨0, 0, 1, 0⟩), .write (.locate 1 [7] ⟨0, 0, 1, 0⟩),
      .write (.commit 0 0), .write (.commit 1 0), .write (.update 0 0), .write (.update 1 0),
      .find 0 0 ⟨0, 0, 1, 0⟩, .write (.locate 1 [8] ⟨0, 0, 1, 0⟩), .write (.commit 1 0), .copy 0]
    [none, none, some (.wrote 2 [7] ⟨0, 0, 1, 0⟩), some (.wrote 3 [7] ⟨0, 0, 1, 0⟩),
      none, none, some (.found 0 2 ⟨0, 0, 1, 0⟩), none, some (.wrote 3 [8] ⟨0, 0, 1, 0⟩),
      some (.copied 0 [7])]
    (Fs.after_reachable _ _) twoHoles_exact (fun _ _ _ _ => trivial)
    (fun x y _ _ h => List.ofFn_injective h) ?_ rfl
  · obtain ⟨B, hturns, -⟩ := hlin
    exact ⟨_, B, rfl, hturns⟩
  · refine .cons ⟨?_, ?_, ⟨by decide, fun h => absurd h (by decide)⟩, trivial⟩ rfl
      (.cons ⟨?_, ?_, ⟨by decide, fun h => absurd h (by decide)⟩, trivial⟩ rfl
        (.cons ⟨trivial, ?_, fun _ _ => trivial, ?_⟩ rfl
          (.cons ⟨trivial, ?_, fun _ _ => trivial, ?_⟩ rfl (.cons ⟨trivial, ?_, trivial, trivial⟩
            rfl (.cons ⟨trivial, ?_, trivial, trivial⟩ rfl (.cons ?_ rfl (.cons ⟨?_, ?_,
              ⟨by decide, fun h => absurd h (by decide)⟩, trivial⟩ rfl (.cons ⟨trivial, ?_,
                fun _ _ => trivial, ?_⟩ rfl (.cons trivial rfl trivial)))))))))
    · intro fi hfi
      cases hfi
      rfl
    · intro fi hfi item hitem
      cases hfi
      cases hitem
    · intro fi hfi
      cases hfi
      rfl
    · intro fi hfi item hitem
      cases hfi
      cases hitem
    · intro x b hx hb
      cases hx
      cases hb
    · intro r q x b hq
      cases hq
    · intro x b hx hb
      cases hx
      cases hb
    · intro r q x b hq
      cases hq
    · intro x hx hp
      cases hx
      cases hp
    · intro x hx _ i y hy hp
      cases hx
      rw [List.mem_singleton.mp (KeyedTable.mem_of_find hy)] at hp
      cases hp
    · intro fi hfi
      cases hfi
      refine ⟨rfl, ?_, ?_⟩
      · intro item hitem
        cases hitem
        intro _ hdead
        cases hdead
      · rintro ⟨-, -, hdead⟩
        cases hdead
    · intro fi hfi
      cases hfi
      rfl
    · intro fi hfi item hitem hfilled
      cases hfi
      cases hitem
      cases hfilled
    · intro x b hx hb hone
      cases hx
      cases hb
    · intro r q x b hq hx hb hone
      cases hx
      cases hb

/-- Two files with the same byte, opened. -/
def sharedFiles : Fs 0 (List UInt8) :=
  Fs.after (plainConfig 0)
    [.create ['/', 'f'] sIfreg, .write 0 [7] 0, .create ['/', 'g'] sIfreg, .write 1 [7] 0,
      .release 0, .release 1, .openFile ['/', 'f'], .openFile ['/', 'g']]

/-- **A read returns bytes of another file** when, between its two steps, its file block gets
another row, and then the last file block of the old row is overwritten in place. -/
theorem read_races_overwrite :
    (∃ t, run (Tracked.step (plainConfig 0)) (.of sharedFiles)
        [.find 0 2 ⟨0, 0, 1, 0⟩, .write (.locate 2 [8] ⟨0, 0, 1, 0⟩), .write (.commit 2 0),
          .write (.update 2 0), .write (.locate 3 [9] ⟨0, 0, 1, 0⟩), .write (.commit 3 0),
          .write (.update 3 0), .copy 0] =
        .ok (t, [some (.found 0 2 ⟨0, 0, 1, 0⟩), none, some (.wrote 2 [8] ⟨0, 0, 1, 0⟩), none, none,
          some (.wrote 3 [9] ⟨0, 0, 1, 0⟩), none, some (.copied 0 [9])])) ∧
      ∀ B, ¬InTurn BlockSpec ⟨fun p => sharedFiles.store.blockOf p.1 p.2, fun _ => none⟩
        [.found 0 2 ⟨0, 0, 1, 0⟩, .wrote 2 [8] ⟨0, 0, 1, 0⟩, .wrote 3 [9] ⟨0, 0, 1, 0⟩,
          .copied 0 [9]] B := by
  refine ⟨⟨_, rfl⟩, fun B h => ?_⟩
  cases h with
  | cons found h =>
    cases found
    cases h with
    | cons first h =>
      cases first
      cases h with
      | cons second h =>
        cases second
        cases h with
        | cons copied h =>
          cases copied with
          | copied r bytes begun =>
            have hbytes : slice (sharedFiles.store.blockOf 2 0) 0 1 = [9] := Option.some.inj begun
            exact absurd hbytes (by decide)

end Wwdedup
