import Wwdedup.Chunks
import Wwdedup.Counts
import Wwdedup.FilesTable
import Mathlib.Data.UInt

/-!
# Reading back what was written

A newly created file that one handle works on is a `FlatFile` of bytes, as long as no block
leaves the cache and no access goes to a lost block: one that was found by its hash when it was
last written, and that the handle takes for a hole since, because nothing clears the flag
`empty` that its `block_info` was made with.  `Mirrors` says how the store and the handle
represent the bytes; each write of a block keeps it, whichever of the three outcomes the
transaction has.
-/

namespace Wwdedup

open GuardedRun

variable {bits : ℕ} {H : Type} [DecidableEq H]

/-- The handle represents the bytes `f`: a block without a row and without a storage block is
zero, and a block whose storage block can be locked has that block's content, which is that of
no other block. -/
structure Mirrors (s : Store bits H) (fi : FileInfo H) (f : ℕ → UInt8) : Prop where
  empty : ∀ n item, fi.blocks n = some item → item.empty = true
  unseen : ∀ n, fi.blocks n = none → s.db.fileHash fi.stIno n = none
  hole : ∀ n, s.db.fileHash fi.stIno n = none →
    (∀ item, fi.blocks n = some item → s.lock item.storageBlock = none) →
      blockView bits f n = zeroBlock bits
  live : ∀ n item, fi.blocks n = some item → (s.lock item.storageBlock).isSome →
    item.storageBlockNum ≠ 0 ∧ s.content item.storageBlockNum = some (blockView bits f n)
  apart : ∀ n m item item', fi.blocks n = some item → fi.blocks m = some item' →
    (s.lock item.storageBlock).isSome → (s.lock item'.storageBlock).isSome →
      item.storageBlockNum = item'.storageBlockNum → n = m

namespace Mirrors

variable {cfg : Config bits H} {s s' : Store bits H} {fi : FileInfo H} {f : ℕ → UInt8}

section

omit [DecidableEq H]

/-- What the handle represents depends on its `block_info`s, on the rows of its file, and on the
views of the store. -/
theorem congr {fi' : FileInfo H} (h : Mirrors s fi f) (hblocks : fi'.blocks = fi.blocks)
    (hfile : ∀ n, s'.db.fileHash fi'.stIno n = s.db.fileHash fi.stIno n)
    (hlock : ∀ w, (s'.lock w).isSome = (s.lock w).isSome)
    (hcontent : ∀ k, s'.content k = s.content k) : Mirrors s' fi' f where
  empty := by
    rw [hblocks]
    exact h.empty
  unseen n hn := by
    rw [hblocks] at hn
    exact (hfile n).trans (h.unseen n hn)
  hole n hnone hdead := by
    rw [hblocks] at hdead
    apply h.hole n ((hfile n).symm.trans hnone)
    intro item hitem
    rw [← Option.not_isSome_iff_eq_none, ← hlock, Option.not_isSome_iff_eq_none]
    exact hdead item hitem
  live n item hitem hl := by
    rw [hblocks] at hitem
    rw [hlock] at hl
    rw [hcontent]
    exact h.live n item hitem hl
  apart n m item item' hitem hitem' hl hl' := by
    rw [hblocks] at hitem hitem'
    rw [hlock] at hl hl'
    exact h.apart n m item item' hitem hitem' hl hl'

theorem same (h : Mirrors s fi f) (hs : s.Same s') : Mirrors s' fi f :=
  h.congr rfl (fun n => by rw [hs.db]) hs.lock_isSome hs.content

/-- A block that the handle did not know yet gets a `block_info` of a hole. -/
theorem setHole (h : Mirrors s fi f) {fb : BlockInfo H} (hn : fi.blocks fb.fileBlockNum = none)
    (hempty : fb.empty = true) (hptr : fb.storageBlock = none) : Mirrors s (fi.setBlock fb) f := by
  have hitems : ∀ m item, (fi.setBlock fb).blocks m = some item →
      item = fb ∧ m = fb.fileBlockNum ∨ fi.blocks m = some item := by
    intro m item hitem
    rw [FileInfo.setBlock_blocks, Function.update_apply] at hitem
    split at hitem
    · rename_i hm
      exact .inl ⟨(Option.some.inj hitem).symm, hm⟩
    · exact .inr hitem
  have hdead : ¬(s.lock fb.storageBlock).isSome := by
    rw [hptr]
    nofun
  refine ⟨fun m item hitem => ?_, fun m hm => ?_, fun m hfile hlock => ?_,
    fun m item hitem hlock => ?_, fun m m' item item' hitem hitem' hlock hlock' => ?_⟩
  · rcases hitems m item hitem with ⟨rfl, -⟩ | hold
    · exact hempty
    · exact h.empty m item hold
  · rw [FileInfo.setBlock_blocks, Function.update_apply] at hm
    split at hm
    · cases hm
    · exact h.unseen m hm
  · apply h.hole m hfile
    intro item hitem
    apply hlock
    rw [FileInfo.setBlock_blocks, Function.update_of_ne, hitem]
    intro hm
    rw [hm, hn] at hitem
    cases hitem
  · rcases hitems m item hitem with ⟨rfl, -⟩ | hold
    · exact absurd hlock hdead
    · exact h.live m item hold hlock
  · rcases hitems m item hitem with ⟨rfl, -⟩ | hold
    · exact absurd hlock hdead
    · rcases hitems m' item' hitem' with ⟨rfl, -⟩ | hold'
      · exact absurd hlock' hdead
      · exact h.apart m m' item item' hold hold' hlock hlock'

end

/-- The handle never loads a block again, so that locating one changes nothing in the store. -/
theorem locate (h : Mirrors s fi f) (hfi : fi.Ok s.db) (n : ℕ) :
    let l := getLockedFileBlock cfg s fi n
    l.store = s ∧ l.fblock = (fileBlock cfg s fi n).1 ∧ Mirrors s (fi.setBlock l.fblock) f := by
  have hitem : (fileBlock cfg s fi n).1.empty = true ∧
      Mirrors s (fi.setBlock (fileBlock cfg s fi n).1) f := by
    unfold fileBlock
    cases hfb : fi.blocks n with
    | some item =>
      have hself : fi.setBlock item = fi := by
        rw [FileInfo.setBlock, (hfi n item hfb).1, ← hfb, Function.update_eq_self]
      refine ⟨h.empty n item hfb, ?_⟩
      dsimp only
      rw [hself]
      exact h
    | none =>
      have hunseen := h.unseen n hfb
      dsimp only
      have hl := loadFileBlock_loads cfg s.db fi n
      generalize loadFileBlock cfg s.db fi (.new n) = q at hl ⊢
      cases hl with
      | skipped past => exact ⟨rfl, h.setHole hfb rfl rfl⟩
      | absent unmapped => exact ⟨rfl, h.setHole hfb rfl rfl⟩
      | dangling g mapped sel =>
        rw [hunseen] at mapped
        cases mapped
      | found row mapped sel =>
        rw [hunseen] at mapped
        cases mapped
  have hloc := getLockedFileBlock_locates cfg s fi n
  generalize getLockedFileBlock cfg s fi n = l at hloc ⊢
  cases hloc with
  | kept hk => exact ⟨rfl, rfl, hitem.2⟩
  | reloaded filled dead =>
    rw [hitem.1] at filled
    cases filled

/-- A block that is not lost shows its bytes. -/
theorem shown (h : Mirrors s fi f) (hfi : fi.Ok s.db) {n : ℕ} (hnot : ¬Lost cfg s fi n) :
    s.shown (fileBlock cfg s fi n).1.storageBlock = some (blockView bits f n) := by
  obtain ⟨-, hfblock, hset⟩ := @locate _ _ _ cfg _ _ _ h hfi n
  obtain ⟨hnum, hok⟩ := @fileBlock_num_ok _ _ _ cfg _ _ n hfi
  rw [hfblock] at hset
  have hitem : (fi.setBlock (fileBlock cfg s fi n).1).blocks n =
      some (fileBlock cfg s fi n).1 := by
    rw [FileInfo.setBlock_blocks, hnum, Function.update_self]
  unfold Store.shown
  cases hl : s.lock (fileBlock cfg s fi n).1.storageBlock with
  | none =>
    have hfile : s.db.fileHash fi.stIno n = none := by
      rw [← Option.not_isSome_iff_eq_none]
      exact fun hsome => hnot ⟨hsome, hset.empty n _ hitem, hl⟩
    have hzero := hset.hole n hfile fun item hi => by
      rw [hitem] at hi
      cases hi
      exact hl
    rw [hzero]
  | some b =>
    have hbn : b.storageBlockNum = (fileBlock cfg s fi n).1.storageBlockNum :=
      hok.ptr _ (Store.lock_eq_some.mp hl).1
    obtain ⟨hne, hcontent⟩ := hset.live n _ hitem (by rw [hl]; rfl)
    dsimp only
    rw [hbn, if_neg hne]
    exact hcontent

/-- A block whose data a write puts into the cache has a number of its own. -/
theorem wrote_apart (h : Mirrors s fi f) (hfi : fi.Ok s.db) {n : ℕ} {fb : BlockInfo H}
    (hfb : fi.blocks n = some fb) {data : Block bits} {hash : H} {r : Store bits H × BlockInfo H}
    (hw : Wrote s fi.stIno data hash fb r) (hl : (r.1.lock r.2.storageBlock).isSome) :
    s.db.selectBlockHash hash = none ∧ r.2.storageBlockNum ≠ 0 ∧
      ∀ m item, m ≠ n → fi.blocks m = some item → (s.lock item.storageBlock).isSome →
        item.storageBlockNum ≠ r.2.storageBlockNum := by
  cases hw with
  | hit row sel => cases hl
  | inPlace b locked one sel =>
    have hlive : (s.lock fb.storageBlock).isSome := by
      rw [locked]
      rfl
    refine ⟨sel, (h.live n fb hfb hlive).1, fun m item hm hitem hl heq => ?_⟩
    exact hm (h.apart m n item fb hitem hfb hl hlive heq)
  | fresh shared sel =>
    exact ⟨sel, KeyedTable.nextId_pos _, fun m item _ hitem _ => (hfi m item hitem).2.ne_nextId⟩

/-- A write keeps the content of the other blocks of its handle. -/
theorem wrote_content (h : Mirrors s fi f) (hco : Coherent cfg s) (hfi : fi.Ok s.db) {n : ℕ}
    {fb : BlockInfo H} (hfb : fi.blocks n = some fb) {data : Block bits} {hash : H}
    {r : Store bits H × BlockInfo H} (hw : Wrote s fi.stIno data hash fb r) {m : ℕ}
    {item : BlockInfo H} (hm : m ≠ n) (hitem : fi.blocks m = some item)
    (hl : (s.lock item.storageBlock).isSome) :
    r.1.content item.storageBlockNum = s.content item.storageBlockNum := by
  have hb := hco.backed (hfi n fb hfb).2
  refine hw.content_known hb (hfi m item hitem).2.ne_nextId fun _ b locked _ heq => ?_
  exact hm (h.apart m n item fb hitem hfb hl (by rw [locked]; rfl) (heq.trans (hb b locked).1))

/-- **A block write changes the bytes of its block and no others.** -/
theorem wrote (h : Mirrors s fi f) (hco : Coherent cfg s) (hfi : fi.Ok s.db) {n : ℕ}
    {fb : BlockInfo H} (hfb : fi.blocks n = some fb) {data : Block bits} {hash : H}
    {r : Store bits H × BlockInfo H} (hw : Wrote s fi.stIno data hash fb r) {f' : ℕ → UInt8}
    (hdata : data = blockView bits f' n)
    (hothers : ∀ m, m ≠ n → blockView bits f' m = blockView bits f m) :
    Mirrors r.1 (fi.setBlock r.2) f' := by
  obtain ⟨hnum, hok⟩ := hfi n fb hfb
  have hb := hco.backed hok
  obtain ⟨hrnum, -, hrempty⟩ := hw.fblock_eq
  have hlock : ∀ m item, fi.blocks m = some item →
      ((r.1.lock item.storageBlock).isSome ↔ (s.lock item.storageBlock).isSome) :=
    fun m item hitem => hw.lock_isSome_iff hb (hfi m item hitem).2
  have hitems : ∀ m item, (fi.setBlock r.2).blocks m = some item →
      m = n ∧ item = r.2 ∨ m ≠ n ∧ fi.blocks m = some item := by
    intro m item hitem
    rw [FileInfo.setBlock_blocks, hrnum, hnum, Function.update_apply] at hitem
    split at hitem
    · rename_i hm
      exact .inl ⟨hm, (Option.some.inj hitem).symm⟩
    · rename_i hm
      exact .inr ⟨hm, hitem⟩
  have hfile : ∀ m, m ≠ n → r.1.db.fileHash fi.stIno m = s.db.fileHash fi.stIno m := by
    intro m hm
    rw [hw.fileHash_eq, if_neg]
    intro heq
    rw [hnum] at heq
    exact hm (Prod.mk.inj heq).2
  have hself : r.1.db.fileHash fi.stIno n = some hash := by
    rw [hw.fileHash_eq, if_pos (by rw [hnum])]
  refine ⟨fun m item hitem => ?_, fun m hm => ?_, fun m hnone hdead => ?_,
    fun m item hitem hl => ?_, fun m m' item item' hitem hitem' hl hl' heq => ?_⟩
  · rcases hitems m item hitem with ⟨-, rfl⟩ | ⟨-, hold⟩
    · rw [hrempty]
      exact h.empty n fb hfb
    · exact h.empty m item hold
  · rw [FileInfo.setBlock_blocks, hrnum, hnum, Function.update_apply] at hm
    split at hm
    · cases hm
    · rename_i hne
      exact (hfile m hne).trans (h.unseen m hm)
  · have hne : m ≠ n := by
      rintro rfl
      rw [FileInfo.setBlock_stIno, hself] at hnone
      cases hnone
    rw [FileInfo.setBlock_stIno, hfile m hne] at hnone
    rw [hothers m hne]
    apply h.hole m hnone
    intro item hitem
    rw [← Option.not_isSome_iff_eq_none, ← hlock m item hitem, Option.not_isSome_iff_eq_none]
    apply hdead
    rw [FileInfo.setBlock_blocks, hrnum, hnum, Function.update_of_ne hne, hitem]
  · rcases hitems m item hitem with ⟨rfl, rfl⟩ | ⟨hne, hold⟩
    · obtain ⟨hsel, hpos, -⟩ := h.wrote_apart hfi hfb hw hl
      refine ⟨hpos, ?_⟩
      rw [hw.content_eq, if_pos ⟨by rw [hsel]; rfl, rfl⟩, hdata]
    · have hl₀ := (hlock m item hold).mp hl
      rw [h.wrote_content hco hfi hfb hw hne hold hl₀, hothers m hne]
      exact h.live m item hold hl₀
  · rcases hitems m item hitem with ⟨rfl, rfl⟩ | ⟨hne, hold⟩
    · rcases hitems m' item' hitem' with ⟨rfl, -⟩ | ⟨hne', hold'⟩
      · rfl
      · have hl₀ := (hlock m' item' hold').mp hl'
        obtain ⟨-, -, hother⟩ := h.wrote_apart hfi hfb hw hl
        exact absurd heq.symm (hother m' item' hne' hold' hl₀)
    · have hl₀ := (hlock m item hold).mp hl
      rcases hitems m' item' hitem' with ⟨rfl, rfl⟩ | ⟨hne', hold'⟩
      · obtain ⟨-, -, hother⟩ := h.wrote_apart hfi hfb hw hl'
        exact absurd heq (hother m item hne hold hl₀)
      · exact h.apart m m' item item' hold hold' hl₀ ((hlock m' item' hold').mp hl') heq

end Mirrors

/-! ### Rounds on an array -/

/-- What a round does to the bytes and the size of a file that is one array. -/
def serveRound (bits : ℕ) (a : (ℕ → UInt8) × ℕ) : Round → ((ℕ → UInt8) × ℕ) × List UInt8
  | .resize newSize => ((a.1, newSize), [])
  | .write buf c =>
    ((patch a.1 (c.block * blockSize bits + c.startOffset) c.len
      fun i => buf.getD (c.pos + i) 0, a.2), [])
  | .read c => (a, window a.1 (c.block * blockSize bits + c.startOffset) c.len)
  | .release _ => (a, [])

/-- The rounds of reads and writes: chunks inside a block. -/
def Round.Fits (bits : ℕ) : Round → Prop
  | .resize _ => True
  | .write _ c => c.startOffset + c.len ≤ blockSize bits
  | .read c => c.startOffset + c.len ≤ blockSize bits
  | .release _ => False

/-- A read of at least one byte and a write of a part do not go to a lost block. -/
def Round.Sees (cfg : Config bits H) (p : Store bits H × FileInfo H) : Round → Prop
  | .write _ c => c.len < blockSize bits → ¬Lost cfg p.1 p.2 c.block
  | .read c => 0 < c.len → ¬Lost cfg p.1 p.2 c.block
  | _ => True

/-- The store and the handle represent an array of the size that the handle has. -/
structure Serves (cfg : Config bits H) (p : Store bits H × FileInfo H) (a : (ℕ → UInt8) × ℕ) :
    Prop where
  coherent : Coherent cfg p.1
  ok : p.2.Ok p.1.db
  mirrors : Mirrors p.1 p.2 a.1
  size : p.2.stSize = a.2

section rounds

variable {cfg : Config bits H}

omit [DecidableEq H] in
theorem stSize_ftruncate (db : Db H) (fi : FileInfo H) (n : ℕ) :
    (db.ftruncate fi n).2.1.stSize = n := by
  unfold Db.ftruncate
  split
  · omega
  · split
    · rename_i heq
      exact Int.ofNat.inj heq
    · rfl

/-- In a coherent store reads and writes of blocks succeed. -/
theorem roundStep_isOk {s : Store bits H} {fi : FileInfo H} (h : Coherent cfg s)
    (hfi : fi.Ok s.db) {r : Round} (hr : r.Fits bits) :
    ∃ s' fi' out, roundStep cfg (s, fi) r = .ok ((s', fi'), out) := by
  cases r with
  | resize newSize => exact ⟨_, _, _, rfl⟩
  | write buf c =>
    obtain ⟨hl, -⟩ := h.locate hfi c.block
    obtain ⟨q, hq⟩ := @writeBlockWrapper_isOk _ _ _ cfg s fi buf c (hl.shown_isSome _)
    simp only [roundStep, hq, Except.map]
    exact ⟨_, _, _, rfl⟩
  | read c =>
    obtain ⟨hl, -⟩ := h.locate hfi c.block
    obtain ⟨q, hq⟩ := readChunk_isOk (hl.shown_isSome _)
    simp only [roundStep, hq, Except.map]
    exact ⟨_, _, _, rfl⟩
  | release n => exact hr.elim

/-- **A round does to the represented array what it should.** -/
theorem roundStep_serves {p : Store bits H × FileInfo H} {a : (ℕ → UInt8) × ℕ} {r : Round}
    (h : Serves cfg p a) (hfits : r.Fits bits) (hsees : r.Sees cfg p) :
    ∃ p', roundStep cfg p r = .ok (p', (serveRound bits a r).2) ∧
      Serves cfg p' (serveRound bits a r).1 := by
  obtain ⟨s, fi⟩ := p
  obtain ⟨hco, hok, hmir, hsize⟩ := h
  obtain ⟨s', fi', out, hstep⟩ := roundStep_isOk hco hok hfits
  obtain ⟨hco', hok', -⟩ := roundStep_coherent hco hok hstep
  refine ⟨(s', fi'), ?_⟩
  cases roundStep_stepped hstep with
  | resize newSize =>
    refine ⟨hstep, hco', hok', ?_, stSize_ftruncate ..⟩
    apply hmir.congr (blocks_ftruncate ..)
    · intro n
      rw [Store.setDb_db, fileHash_ftruncate, stIno_ftruncate]
    · exact fun w => rfl
    · exact fun k => rfl
  | read c x touched shown =>
    obtain ⟨hstore, hfblock, hmir'⟩ := hmir.locate hok c.block
    refine ⟨?_, hco', hok', hmir'.same (hstore ▸ touched).same, hsize⟩
    rw [hstep]
    show Except.ok ((s', _), slice x c.startOffset c.len) =
      Except.ok ((s', _), window a.1 (c.block * blockSize bits + c.startOffset) c.len)
    by_cases hlen : 0 < c.len
    · rw [hstore, hfblock, hmir.shown hok (hsees hlen)] at shown
      rw [← Option.some.inj shown, slice_blockView a.1 hfits]
    · have hzero : c.len = 0 := by omega
      rw [hzero]
      rfl
  | @write buf c s₁ old touched shown r ran wrote =>
    obtain ⟨hstore, hfblock, hmir'⟩ := hmir.locate hok c.block
    obtain ⟨hl, hnum, hfb⟩ := hco.locate hok c.block
    have hsame : s.Same s₁ := (hstore ▸ touched).same
    have hdata : c.data buf old = blockView bits
        (patch a.1 (c.block * blockSize bits + c.startOffset) c.len fun i => buf.getD (c.pos + i) 0)
        c.block := by
      rw [← overlay_blockView]
      by_cases hpart : c.len < blockSize bits
      · have hold := shown hpart
        rw [hstore, hfblock, hmir.shown hok (hsees hpart)] at hold
        rw [Option.some.inj hold]
        rfl
      · exact overlay_whole _ _ _ _ _ hfits hpart
    refine ⟨hstep, hco', hok', ?_, hsize⟩
    apply (hmir'.same hsame).wrote (n := c.block) (hl.touches touched)
      (hsame.db ▸ hok.setBlock hfb) _ wrote hdata
    · intro m hm
      exact blockView_patch_of_ne a.1 _ hfits hm
    · rw [FileInfo.setBlock_blocks, hnum, Function.update_self]
  | release n g hash => exact hfits.elim

/-- The chunks of a write change the bytes of its range. -/
theorem specRun_write {offset p q : ℕ} {cs : List Chunk} (h : Tiles bits offset p cs q)
    (f : ℕ → UInt8) (size : ℕ) (buf : List UInt8) :
    (specRun (serveRound bits) (patch f offset p fun i => buf.getD i 0, size)
      (cs.map (.write buf))).1 = (patch f offset q fun i => buf.getD i 0, size) := by
  induction h with
  | nil p => rfl
  | @cons p q c cs pos place fits rest ih =>
    rw [← ih]
    have hnext : patch (patch f offset p fun i => buf.getD i 0)
        (c.block * blockSize bits + c.startOffset) c.len (fun i => buf.getD (c.pos + i) 0) =
        patch f offset (p + c.len) fun i => buf.getD i 0 := by
      rw [place, pos]
      exact patch_patch f offset p c.len fun i => buf.getD i 0
    rw [← hnext]
    rfl

/-- The chunks of a read show the bytes of its range. -/
theorem specRun_read {offset p q : ℕ} {cs : List Chunk} (h : Tiles bits offset p cs q)
    (a : (ℕ → UInt8) × ℕ) :
    (specRun (serveRound bits) a (cs.map .read)).1 = a ∧
      window a.1 offset p ++ (specRun (serveRound bits) a (cs.map .read)).2.flatten =
        window a.1 offset q := by
  induction h with
  | nil p => exact ⟨rfl, List.append_nil _⟩
  | @cons p q c cs pos place fits rest ih =>
    refine ⟨ih.1, ?_⟩
    rw [← ih.2, ← window_append a.1 offset p c.len, ← place, List.append_assoc]
    rfl

/-- The rounds of reads and writes are chunks inside blocks. -/
theorem Tiles.fits {offset p q : ℕ} {cs : List Chunk} (h : Tiles bits offset p cs q) :
    ∀ c ∈ cs, c.startOffset + c.len ≤ blockSize bits := by
  induction h with
  | nil p => simp
  | cons pos place fits rest ih =>
    intro c hc
    rcases List.mem_cons.mp hc with rfl | hc
    · exact fits
    · exact ih c hc

/-- A run of such rounds shows what the array shows. -/
theorem run_serves {p : Store bits H × FileInfo H} {a : (ℕ → UInt8) × ℕ} {rs : List Round}
    (h : Serves cfg p a) (hfits : ∀ r ∈ rs, r.Fits bits)
    (hsees : Meets (roundStep cfg) (fun p r => r.Sees cfg p) p rs) :
    ∃ p', run (roundStep cfg) p rs = .ok (p', (specRun (serveRound bits) a rs).2) ∧
      Serves cfg p' (specRun (serveRound bits) a rs).1 := by
  refine run_refines (fun p a r hp hr => ?_) h (hsees.and_mem hfits)
  exact roundStep_serves hp hr.1 hr.2

end rounds

/-! ### Requests through one handle -/

/-- A call through the handle. -/
inductive Access where
  | write (buf : List UInt8) (offset : ℕ)
  | read (size offset : ℕ)

def Access.op (fh : ℕ) : Access → Op
  | .write buf offset => .write fh buf offset
  | .read size offset => .read fh size offset

/-- Reads start inside the file, by the size that the handle has. -/
def Access.Valid (fh : ℕ) (fs : Fs bits H) : Access → Prop
  | .write _ _ => True
  | .read _ offset => ∀ fi, fs.handles fh = some fi → offset ≤ fi.stSize

/-- The same call on a zero-filled array of bytes. -/
def serve (a : FlatFile UInt8) : Access → FlatFile UInt8 × Out
  | .write buf offset => (a.write buf offset, .ret buf.length)
  | .read size offset => (a, .bytes (a.read size offset))

/-- The handle represents the file. -/
def Fs.Represents (cfg : Config bits H) (fh : ℕ) (fs : Fs bits H) (a : FlatFile UInt8) : Prop :=
  ∃ fi, fs.handles fh = some fi ∧ Serves cfg (fs.store, fi) (a.entry, a.size)

variable {cfg : Config bits H}

/-- **A call through the handle shows what the same call on the array shows.** -/
theorem Fs.step_serves {fh : ℕ} {fs : Fs bits H} {a : FlatFile UInt8} {acc : Access}
    (h : fs.Represents cfg fh a) (hvalid : acc.Valid fh fs)
    (hsees : fs.RoundsMeet cfg (fun p r => r.Sees cfg p) (acc.op fh)) :
    ∃ fs', fs.step cfg (acc.op fh) = .ok (fs', (serve a acc).2) ∧
      fs'.Represents cfg fh (serve a acc).1 := by
  obtain ⟨fi, hfi, hserves⟩ := h
  have hsize : fi.stSize = a.size := hserves.size
  have hopened : ∀ (s : Store bits H) (fi' : FileInfo H),
      ((fs.setStore s).setHandle fh fi').handles fh = some fi' :=
    fun s fi' => Function.update_self ..
  cases acc with
  | write buf offset =>
    have htiles := chunks_tiles bits buf.length offset
    have hfits : ∀ r ∈ writeRounds bits fi buf offset, r.Fits bits := by
      intro r hr
      rcases mem_writeRounds hr with ⟨n, rfl⟩ | ⟨c, hc, rfl⟩
      · trivial
      · exact htiles.fits c hc
    have hrounds : fs.rounds (.write fh buf offset) =
        some (fi, writeRounds bits fi buf offset) := by
      rw [rounds, hfi]
      rfl
    obtain ⟨⟨s', fi'⟩, hrun, hserves'⟩ := run_serves hserves hfits (hsees _ _ hrounds)
    have hend : (specRun (serveRound bits) (a.entry, a.size) (writeRounds bits fi buf offset)).1 =
        ((a.write buf offset).entry, (a.write buf offset).size) := by
      have hspec := fun size => specRun_write htiles a.entry size buf
      simp only [patch_empty] at hspec
      have hmax : (a.write buf offset).size = max a.size (offset + buf.length) := rfl
      unfold writeRounds
      split
      · have hgrow : buf.length + offset = max a.size (offset + buf.length) := by omega
        rw [hmax, ← hgrow]
        exact hspec (buf.length + offset)
      · have hstay : a.size = max a.size (offset + buf.length) := by omega
        rw [hmax, ← hstay]
        exact hspec a.size
    rw [hend] at hserves'
    refine ⟨(fs.setStore s').setHandle fh fi', ?_, fi', hopened s' fi', hserves'⟩
    simp only [Access.op, step, write, hfi, writeBuf_run, hrun, Except.map, factSize_eq]
    rfl
  | read size offset =>
    have hle : offset ≤ fi.stSize := hvalid fi hfi
    have hlen : (if size + offset > fi.stSize then fi.stSize - offset else size) =
        min size (a.size - offset) := by
      split <;> omega
    have htiles := chunks_tiles bits (min size (a.size - offset)) offset
    have hfits : ∀ r ∈ readRounds bits fi size offset, r.Fits bits := by
      intro r hr
      rw [readRounds, hlen] at hr
      obtain ⟨c, hc, rfl⟩ := List.mem_map.mp hr
      exact htiles.fits c hc
    have hrounds : fs.rounds (.read fh size offset) =
        some (fi, readRounds bits fi size offset) := by
      simp [rounds, hfi, readStart_of_le hle]
    obtain ⟨⟨s', fi'⟩, hrun, hserves'⟩ := run_serves hserves hfits (hsees _ _ hrounds)
    obtain ⟨hsame, hbytes⟩ := specRun_read htiles (a.entry, a.size)
    rw [window_empty, List.nil_append] at hbytes
    rw [readRounds, hlen] at hrun hserves'
    rw [hsame] at hserves'
    refine ⟨(fs.setStore s').setHandle fh fi', ?_, fi', hopened s' fi', hserves'⟩
    simp only [Access.op, step, read, hfi, readBuf_run cfg _ _ (readStart_of_le hle), readRounds,
      hlen, hrun, Except.map, hbytes]
    rfl

/-- **Read your writes.**  Through the handle that created the file, every sequence of writes and
reads shows what it shows on a zero-filled array of bytes, when the new file has no old rows in
`file_blocks` and no read or partial write goes to a lost block. -/
theorem read_your_writes (cfg : Config bits H) (fs fs₀ : Fs bits H) (path : Path) (mode fh : ℕ)
    (accs : List Access) (hreach : Reachable (Fs.step cfg) (Fs.init bits H) fs)
    (hcreate : fs.step cfg (.create path mode) = .ok (fs₀, .opened fh))
    (hnew : ∀ o, fs₀.store.db.fileHash (fs₀.store.db.getByPath path).stIno o = none)
    (hok : Meets (fun fs acc => fs.step cfg (Access.op fh acc)) (fun fs acc => acc.Valid fh fs ∧
      fs.RoundsMeet cfg (fun p r => r.Sees cfg p) (acc.op fh)) fs₀ accs) :
    ∃ fs', run (fun fs acc => fs.step cfg (Access.op fh acc)) fs₀ accs =
      .ok (fs', (specRun serve .empty accs).2) := by
  have hco := Fs.step_coherent (Fs.reachable_coherent hreach) hcreate
  have hfiles := Fs.reachable_filesOk hreach
  have hstart : fs₀.Represents cfg fh .empty := by
    simp only [Fs.step, Fs.create, Except.ok.injEq] at hcreate
    rcases Db.create_cases hfiles path mode with ⟨-, hneg⟩ | ⟨hzero, -, -, depth, -, hget⟩
    · rw [if_pos hneg] at hcreate
      cases hcreate
    · rw [if_neg (by omega)] at hcreate
      cases hcreate
      refine ⟨_, Function.update_self .., hco.1, .getByPath _ path, ?_, by rw [hget]; rfl⟩
      refine ⟨fun n item hitem => ?_, fun n _ => hnew n, fun n _ _ => rfl,
        fun n item hitem => ?_, fun n m item item' hitem => ?_⟩
      all_goals
        rw [Db.getByPath_blocks] at hitem
        cases hitem
  obtain ⟨fs', hrun, -⟩ := run_refines (R := fun fs a => fs.Represents cfg fh a)
    (fun fs a acc h hacc => Fs.step_serves h hacc.1 hacc.2) hstart hok
  exact ⟨fs', hrun⟩

/-- Two bytes, each written into a block of its own, are read back. -/
theorem read_your_writes_two_blocks :
    ∃ fs', run (fun fs acc => fs.step (plainConfig 0) (Access.op 0 acc))
        (Fs.after (plainConfig 0) [.create ['/', 'f'] sIfreg])
        [.write [7] 0, .write [8] 1, .read 2 0] =
      .ok (fs', [.ret 1, .ret 1, .bytes [7, 8]]) := by
  refine read_your_writes (plainConfig 0) (Fs.init 0 _) _ ['/', 'f'] sIfreg 0 _ (.refl _) rfl
    (fun _ => rfl) (.cons ⟨trivial, ?_⟩ rfl (.cons ⟨trivial, ?_⟩ rfl (.cons ⟨?_, ?_⟩ rfl trivial)))
  · intro fi rs h
    cases h
    exact .cons trivial rfl (.cons nofun rfl trivial)
  · intro fi rs h
    cases h
    exact .cons trivial rfl (.cons nofun rfl trivial)
  · intro fi h
    exact Nat.zero_le _
  · intro fi rs h
    cases h
    exact .cons (fun _ h => (nomatch h.2.2)) rfl (.cons (fun _ h => (nomatch h.2.2)) rfl trivial)

/-- **A block that was found by its hash reads as zeros.**  The same byte is written into two
blocks of a new file; the read of both shows a zero for the second. -/
theorem found_block_reads_zero :
    ¬∃ fs', run (fun fs acc => fs.step (plainConfig 0) (Access.op 0 acc))
        (Fs.after (plainConfig 0) [.create ['/', 'f'] sIfreg])
        [.write [7] 0, .write [7] 1, .read 2 0] =
      .ok (fs', (specRun serve .empty [.write [7] 0, .write [7] 1, .read 2 0]).2) := by
  have hspec : (specRun serve .empty [.write [7] 0, .write [7] 1, .read 2 0]).2 =
      [.ret 1, .ret 1, .bytes [7, 7]] := rfl
  have hrun : (run (fun fs acc => fs.step (plainConfig 0) (Access.op 0 acc))
        (Fs.after (plainConfig 0) [.create ['/', 'f'] sIfreg])
        [.write [7] 0, .write [7] 1, .read 2 0]).map Prod.snd =
      .ok [.ret 1, .ret 1, .bytes [7, 0]] := rfl
  rintro ⟨fs', h⟩
  rw [h, hspec] at hrun
  cases hrun

end Wwdedup
