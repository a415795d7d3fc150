import Wwdedup.RoundSteps
import Wwdedup.WriterPass

/-!
# The store holds what the tables say

`Coherent`: every row `(n, h)` of `block_hashes` has a content whose hash is `h`.  What carries
it through runs is `StorageBlock.Sound`, that a clean block of the cache has the data of its
slot and that every cached number has a row, and `FileInfo.Ok`, that the `block_info`s of a
handle point to rows and to the block with their own number.  Between the commit of a block
write and the update of the cache the row of the new block has no content yet; `CoherentBut`
leaves such rows out.
-/

namespace Wwdedup

open GuardedRun

variable {bits : ℕ} {H : Type} [DecidableEq H]

/-- What holds of every object in the cache.  The number 0 stands for no block: it is cached
when a `file_blocks` row has a hash without a row, and is never filled. -/
structure StorageBlock.Sound (db : Db H) (st : Storage bits) (b : StorageBlock bits H) :
    Prop where
  blank : b.storageBlockNum = 0 → b.data = none ∧ b.useCount ≤ 0
  known : b.storageBlockNum ≠ 0 → (db.rowHash b.storageBlockNum).isSome
  clean : b.dirty = false → ∀ x, b.data = some x → st.read b.storageBlockNum = some x
  full : b.dirty = true → b.data.isSome

/-- Every row but the pending ones has a content with its hash. -/
structure CoherentBut (cfg : Config bits H) (pending : ℕ → Prop) (s : Store bits H) : Prop where
  row : ∀ k h, ¬pending k → s.db.rowHash k = some h → ∃ x, s.content k = some x ∧ cfg.murmur x = h
  zero : s.db.rowHash 0 = none
  unique : s.db.HashUnique
  sound : ∀ k b, s.blocks.find k = some b → b.Sound s.db s.storage

/-- **Coherence of the store.** -/
abbrev Coherent (cfg : Config bits H) (s : Store bits H) : Prop :=
  CoherentBut cfg (fun _ => False) s

/-- The `block_info` points to the block with its number, and a number is that of a row. -/
structure BlockInfo.Ok (db : Db H) (fb : BlockInfo H) : Prop where
  ptr : ∀ p, fb.storageBlock = some p → p.num = fb.storageBlockNum
  known : fb.storageBlockNum ≠ 0 → (db.rowHash fb.storageBlockNum).isSome

/-- Every `block_info` of the handle is at its own number and is as it should be. -/
def FileInfo.Ok (db : Db H) (fi : FileInfo H) : Prop :=
  ∀ n fb, fi.blocks n = some fb → fb.fileBlockNum = n ∧ fb.Ok db

/-- No row of `block_hashes` is lost. -/
def Db.Grows (db db' : Db H) : Prop := ∀ k, (db.rowHash k).isSome → (db'.rowHash k).isSome

section

omit [DecidableEq H]

theorem Db.Grows.refl (db : Db H) : db.Grows db := fun _ h => h

theorem BlockInfo.Ok.mono {db db' : Db H} {fb : BlockInfo H} (h : fb.Ok db) (hg : db.Grows db') :
    fb.Ok db' := ⟨h.ptr, fun hne => hg _ (h.known hne)⟩

theorem BlockInfo.Ok.of_zero {db : Db H} {fb : BlockInfo H} (hp : fb.storageBlock = none)
    (hz : fb.storageBlockNum = 0) : fb.Ok db :=
  ⟨fun _ h => absurd (hp.symm.trans h) nofun, fun hne => absurd hz hne⟩

/-- The number of a `block_info` is not that of a row to come. -/
theorem BlockInfo.Ok.ne_nextId {db : Db H} {fb : BlockInfo H} (h : fb.Ok db) :
    fb.storageBlockNum ≠ db.blockHashes.nextId := by
  intro heq
  have hrow := h.known (heq ▸ KeyedTable.nextId_pos _)
  rw [heq, Db.rowHash_nextId] at hrow
  cases hrow

theorem FileInfo.Ok.mono {db db' : Db H} {fi : FileInfo H} (h : fi.Ok db) (hg : db.Grows db') :
    fi.Ok db' := fun n fb hfb => ⟨(h n fb hfb).1, (h n fb hfb).2.mono hg⟩

theorem FileInfo.Ok.setBlock {db : Db H} {fi : FileInfo H} (h : fi.Ok db) {fb : BlockInfo H}
    (hfb : fb.Ok db) : (fi.setBlock fb).Ok db := by
  intro n fb' hn
  rw [FileInfo.setBlock_blocks, Function.update_apply] at hn
  split at hn
  · rename_i hkey
    cases hn
    exact ⟨hkey.symm, hfb⟩
  · exact h n fb' hn

theorem FileInfo.Ok.dropBlock {db : Db H} {fi : FileInfo H} (h : fi.Ok db) (k : ℕ) :
    (fi.dropBlock k).Ok db := by
  intro n fb hn
  rw [FileInfo.dropBlock_blocks, Function.update_apply] at hn
  split at hn
  · cases hn
  · exact h n fb hn

theorem FileInfo.Ok.getByPath (db : Db H) (path : Path) : (db.getByPath path).Ok db := by
  intro n fb h
  rw [Db.getByPath_blocks] at h
  cases h

theorem StorageBlock.Sound.mono {db db' : Db H} {st : Storage bits} {b : StorageBlock bits H}
    (h : b.Sound db st) (hg : db.Grows db') : b.Sound db' st :=
  ⟨h.blank, fun hne => hg _ (h.known hne), h.clean, h.full⟩

end

namespace CoherentBut

variable {cfg : Config bits H} {pending : ℕ → Prop} {s : Store bits H}

section

omit [DecidableEq H]

theorem sound_of_lock (h : CoherentBut cfg pending s) {w : Option WeakPtr}
    {b : StorageBlock bits H} (hl : s.lock w = some b) : b.Sound s.db s.storage :=
  h.sound _ b (Store.find_of_lock hl)

/-- A cached number other than 0 has a row. -/
theorem known (h : CoherentBut cfg pending s) {k : ℕ} (hk : k ≠ 0)
    (hrow : s.db.rowHash k = none) : s.blocks.find k = none := by
  cases hfind : s.blocks.find k with
  | none => rfl
  | some b =>
    have hnum : b.storageBlockNum = k := KeyedTable.key_of_find hfind
    have := (h.sound k b hfind).known (hnum ▸ hk)
    rw [hnum, hrow] at this
    cases this

/-- A block whose `block_info` is as it should be is backed by a row. -/
theorem backed (h : CoherentBut cfg pending s) {fb : BlockInfo H} (hfb : fb.Ok s.db) :
    Replaces.Backed s.db fb (s.lock fb.storageBlock) := by
  intro b hl
  have hnum : b.storageBlockNum = fb.storageBlockNum :=
    hfb.ptr b.ptr (Store.lock_eq_some.mp hl).1
  refine ⟨hnum, fun hone => (h.sound_of_lock hl).known fun hzero => ?_⟩
  have := ((h.sound_of_lock hl).blank hzero).2
  omega

/-- Statements that leave the hashes of `block_hashes` alone. -/
theorem setDb (h : CoherentBut cfg pending s) {db : Db H}
    (hrow : ∀ k, db.rowHash k = s.db.rowHash k) :
    CoherentBut cfg pending (s.setDb db) where
  row k g hk hg := h.row k g hk (hrow k ▸ hg)
  zero := (hrow 0).trans h.zero
  unique k k' g hk hk' := h.unique k k' g (hrow k ▸ hk) (hrow k' ▸ hk')
  sound k b hb := (h.sound k b hb).mono fun k hk => (hrow k).symm ▸ hk

/-- An object is put into the cache. -/
theorem put (h : CoherentBut cfg pending s) {b : StorageBlock bits H}
    (hb : b.Sound s.db s.storage)
    (hdata : ∀ x, s.content b.storageBlockNum = some x →
      b.data.or (s.storage.read b.storageBlockNum) = some x) :
    CoherentBut cfg pending (s.put b) where
  row k g hk hg := by
    obtain ⟨x, hx, hmx⟩ := h.row k g hk hg
    refine ⟨x, ?_, hmx⟩
    rw [Store.content_put]
    split
    · rename_i hkb
      exact hkb ▸ hdata x (hkb ▸ hx)
    · exact hx
  zero := h.zero
  unique := h.unique
  sound k b' hb' := by
    rw [Store.find_put] at hb'
    split at hb'
    · cases hb'
      exact hb
    · exact h.sound k b' hb'

/-- An object of the cache is changed in ways that coherence does not depend on. -/
theorem put_of_find (h : CoherentBut cfg pending s) {b b' : StorageBlock bits H}
    (hfind : s.blocks.find b.storageBlockNum = some b)
    (hnum : b'.storageBlockNum = b.storageBlockNum) (hdata : b'.data = b.data)
    (hdirty : b'.dirty = b.dirty) (hcount : b.storageBlockNum = 0 → b'.useCount ≤ 0) :
    CoherentBut cfg pending (s.put b') := by
  have hb := h.sound _ b hfind
  refine h.put ⟨fun hz => ?_, fun hne => ?_, fun hd x hx => ?_, fun hd => ?_⟩ fun x hx => ?_
  · rw [hnum] at hz
    exact ⟨hdata.trans (hb.blank hz).1, hcount hz⟩
  · rw [hnum] at hne ⊢
    exact hb.known hne
  · rw [hnum]
    exact hb.clean (hdirty ▸ hd) x (hdata ▸ hx)
  · rw [hdata]
    exact hb.full (hdirty ▸ hd)
  · rw [hnum] at hx ⊢
    rw [hdata, ← hx, Store.content, hfind]
    rfl

theorem adjust (h : CoherentBut cfg pending s) (n : ℕ) {d : ℤ} (hd : n = 0 → d ≤ 0) :
    CoherentBut cfg pending (s.adjust n d) := by
  unfold Store.adjust
  cases hfind : s.blocks.find n with
  | none => exact h
  | some b =>
    obtain rfl : b.storageBlockNum = n := KeyedTable.key_of_find hfind
    refine h.put_of_find hfind rfl rfl rfl fun hz => ?_
    have h₁ := ((h.sound _ b hfind).blank hz).2
    have h₂ := hd hz
    show b.useCount + d ≤ 0
    omega

theorem releaseLocked (h : CoherentBut cfg pending s) (w : Option WeakPtr) :
    CoherentBut cfg pending (s.releaseLocked w) := by
  cases hl : s.lock w with
  | none => rwa [Store.releaseLocked_none hl]
  | some b =>
    rw [Store.releaseLocked_some hl]
    exact h.adjust _ fun _ => by omega

end

/-! ### The parts of a round -/

omit [DecidableEq H] in
theorem touches (h : CoherentBut cfg pending s) {s' : Store bits H} (ht : s.Touches s') :
    CoherentBut cfg pending s' := by
  cases ht with
  | none => exact h
  | seen b now hfind =>
    exact h.put_of_find hfind rfl rfl rfl fun hz => ((h.sound _ b hfind).blank hz).2
  | filled b now x hfind num data slot =>
    have hb := h.sound _ b hfind
    refine h.put ⟨fun hz => absurd hz num, fun _ => hb.known num, fun _ y hy => ?_, fun _ => rfl⟩
      fun y hy => ?_
    · cases hy
      exact slot
    · rw [← hy, Store.content, hfind, Option.bind_some, data, Option.none_or]
      exact slot.symm

omit [DecidableEq H] in
theorem ensureLoaded (h : CoherentBut cfg pending s) {fb : BlockInfo H} (hfb : fb.Ok s.db)
    {u : ℤ} (hu : fb.storageBlockNum = 0 → u ≤ 0) :
    CoherentBut cfg pending (ensureLoaded s fb u).1 := by
  unfold Wwdedup.ensureLoaded
  cases hfind : s.blocks.find fb.storageBlockNum with
  | some item => exact ⟨h.row, h.zero, h.unique, h.sound⟩
  | none =>
    have h' : CoherentBut cfg pending { s with nextUid := s.nextUid + 1 } :=
      ⟨h.row, h.zero, h.unique, h.sound⟩
    refine h'.put ⟨fun hz => ⟨rfl, hu hz⟩, hfb.known, fun _ x hx => ?_, fun hd => ?_⟩ fun x hx => ?_
    · cases hx
    · cases hd
    · rw [← hx]
      show _ = Store.content s fb.storageBlockNum
      rw [Store.content, hfind]
      rfl

end CoherentBut

/-- What the handle keeps or reads for a block is as it should be. -/
theorem fileBlock_num_ok {cfg : Config bits H} {s : Store bits H} {fi : FileInfo H} (n : ℕ)
    (hfi : fi.Ok s.db) :
    (fileBlock cfg s fi n).1.fileBlockNum = n ∧ (fileBlock cfg s fi n).1.Ok s.db := by
  unfold fileBlock
  cases hfb : fi.blocks n with
  | some item => exact hfi n item hfb
  | none =>
    dsimp only
    have hl := loadFileBlock_loads cfg s.db fi n
    generalize loadFileBlock cfg s.db fi (.new n) = r at hl ⊢
    cases hl with
    | skipped past => exact ⟨rfl, .of_zero rfl rfl⟩
    | absent unmapped => exact ⟨rfl, .of_zero rfl rfl⟩
    | dangling g mapped sel => exact ⟨rfl, .of_zero rfl rfl⟩
    | found row mapped sel =>
      exact ⟨rfl, nofun, fun _ => by rw [Db.rowHash_of_select sel]; rfl⟩

/-- A block without a number is read with the count 0. -/
theorem fileBlock_zero {cfg : Config bits H} {s : Store bits H} {fi : FileInfo H} (n : ℕ)
    (hz : s.db.rowHash 0 = none) (hnum : (fileBlock cfg s fi n).1.storageBlockNum = 0) :
    (fileBlock cfg s fi n).2 = 0 := by
  unfold fileBlock at hnum ⊢
  cases hfb : fi.blocks n with
  | some item => rfl
  | none =>
    rw [hfb] at hnum
    dsimp only at hnum ⊢
    have hl := loadFileBlock_loads cfg s.db fi n
    generalize loadFileBlock cfg s.db fi (.new n) = r at hl hnum ⊢
    cases hl with
    | skipped past => rfl
    | absent unmapped => rfl
    | dangling g mapped sel => rfl
    | found row mapped sel =>
      have hrow := Db.rowHash_of_select sel
      rw [show row.id = 0 from hnum, hz] at hrow
      cases hrow

omit [DecidableEq H] in
/-- A located `block_info` points to the block with its number. -/
theorem Locates.ok {s : Store bits H} {fi : FileInfo H} {item : BlockInfo H} {u : ℤ}
    {l : Located bits H} (h : Locates s fi item u l) {db : Db H} (hok : item.Ok db) :
    l.fblock.Ok db := by
  cases h with
  | kept => exact hok
  | reloaded filled dead =>
    refine ⟨fun p hp => ?_, hok.known⟩
    cases hp
    exact (ensureLoaded_views s _ _).2.2.2.2.2.2.1

section locate

variable {cfg : Config bits H} {s : Store bits H} {fi : FileInfo H}

omit [DecidableEq H] in
/-- Locating a block from a `block_info` that is as it should be. -/
theorem Coherent.locate_item (h : Coherent cfg s) (fi : FileInfo H) {item : BlockInfo H}
    (hok : item.Ok s.db) {u : ℤ} (hcount : item.storageBlockNum = 0 → u = 0) :
    Coherent cfg (locateBlock s fi item u).store ∧
      (locateBlock s fi item u).fblock.fileBlockNum = item.fileBlockNum ∧
      (locateBlock s fi item u).fblock.Ok s.db := by
  have hl := locateBlock_locates s fi item u
  refine ⟨?_, hl.fblock_eq.1, hl.ok hok⟩
  generalize locateBlock s fi item u = l at hl ⊢
  cases hl with
  | kept => exact h
  | reloaded filled dead => exact h.ensureLoaded hok fun hz => by rw [hcount hz]

/-- Locating a block keeps coherence and gives a `block_info` of that block. -/
theorem Coherent.locate (h : Coherent cfg s) (hfi : fi.Ok s.db) (n : ℕ) :
    Coherent cfg (getLockedFileBlock cfg s fi n).store ∧
      (getLockedFileBlock cfg s fi n).fblock.fileBlockNum = n ∧
      (getLockedFileBlock cfg s fi n).fblock.Ok s.db := by
  obtain ⟨hnum, hok⟩ := @fileBlock_num_ok _ _ _ cfg _ _ n hfi
  obtain ⟨hco, hkey, hok'⟩ := h.locate_item fi hok (@fileBlock_zero _ _ _ cfg _ fi n h.zero)
  exact ⟨hco, hkey.trans hnum, hok'⟩

omit [DecidableEq H] in
/-- What a located block shows: zeros for a hole and for the number 0, else the content of the
number. -/
theorem Locates.shown_eq {item : BlockInfo H} {u : ℤ} {l : Located bits H}
    (h : Locates s fi item u l) (hok : item.Ok s.db) :
    l.store.shown l.fblock.storageBlock =
      if (item.empty = true ∧ s.lock item.storageBlock = none) ∨ item.storageBlockNum = 0 then
        some (zeroBlock bits)
      else s.content item.storageBlockNum := by
  unfold Store.shown
  cases h with
  | kept h =>
    cases hl : s.lock item.storageBlock with
    | none =>
      have hempty : item.empty = true := h.resolve_right (by simp [hl])
      exact (if_pos (.inl ⟨hempty, rfl⟩)).symm
    | some b =>
      have hnum : b.storageBlockNum = item.storageBlockNum :=
        hok.ptr _ (Store.lock_eq_some.mp hl).1
      simp [hnum]
  | reloaded filled dead =>
    obtain ⟨-, -, hcontent, -, -, -, hnum, hfind⟩ := ensureLoaded_views s item u
    have hl : (Wwdedup.ensureLoaded s item u).1.lock (some (Wwdedup.ensureLoaded s item u).2.ptr) =
        some (Wwdedup.ensureLoaded s item u).2 := Store.lock_eq_some.mpr ⟨rfl, hnum ▸ hfind⟩
    dsimp only
    rw [hl]
    dsimp only
    rw [hcontent, hnum]
    simp [filled]

omit [DecidableEq H] in
/-- A located block can be shown: there is a full block to read. -/
theorem Coherent.shown_isSome (h : Coherent cfg s) (w : Option WeakPtr) :
    (s.shown w).isSome := by
  unfold Store.shown
  cases hl : s.lock w with
  | none => rfl
  | some b =>
    dsimp only
    split
    · rfl
    · rename_i hne
      obtain ⟨g, hg⟩ := Option.isSome_iff_exists.mp ((h.sound_of_lock hl).known hne)
      obtain ⟨x, hx, -⟩ := h.row _ g (fun hf => hf) hg
      rw [hx]
      rfl

end locate

/-! ### The commit and the update of the cache -/

section write

variable {cfg : Config bits H} {s : Store bits H} {ino : ℕ} {hash : H} {fb : BlockInfo H}
  {c : Committed bits H}

theorem Commits.grows (hc : Commits s ino hash fb c) (h : Coherent cfg s) (hfb : fb.Ok s.db) :
    s.db.Grows c.store.db := by
  obtain ⟨sblock, hr⟩ := hc.replaces
  exact fun k hk => hr.rowHash_isSome (h.backed hfb) hk

/-- **After the commit only the row of a new block waits for its content.** -/
theorem Commits.coherentBut (hc : Commits s ino hash fb c) (h : Coherent cfg s)
    (hfb : fb.Ok s.db) :
    CoherentBut cfg (fun k => c.present = false ∧ k = c.fblock.storageBlockNum) c.store := by
  obtain ⟨sblock, hr⟩ := hc.replaces
  have hb := h.backed hfb
  have hblocks : Coherent cfg (c.store.setDb s.db) := by
    cases hc with
    | hit row sel =>
      exact (h.releaseLocked fb.storageBlock).setDb fun k => by rw [Store.releaseLocked_db]
    | inPlace b locked one sel =>
      exact h.put_of_find (Store.find_of_lock locked) rfl rfl rfl fun hz =>
        ((h.sound_of_lock locked).blank hz).2
    | fresh shared sel =>
      exact (h.releaseLocked fb.storageBlock).setDb fun k => by rw [Store.releaseLocked_db]
  have hne := hr.num_ne_zero hb h.zero
  refine ⟨fun k g hk hg => ?_, ?_, hr.hashUnique h.unique, fun k b hkb => ?_⟩
  · by_cases hkn : k = c.fblock.storageBlockNum
    · cases hp : c.present with
      | false => exact absurd ⟨hp, hkn⟩ hk
      | true =>
        rw [hr.rowHash_hit hp] at hg
        exact hblocks.row k g (fun hf => hf) hg
    · rw [hr.rowHash_of_ne hb hkn] at hg
      exact hblocks.row k g (fun hf => hf) hg
  · rw [hr.rowHash_of_ne hb (Ne.symm hne)]
    exact h.zero
  · exact (hblocks.sound k b hkb).mono fun k hk => hr.rowHash_isSome hb hk

omit [DecidableEq H] in
/-- **The update of the cache makes the store coherent again.** -/
theorem updateCache_coherent {data : Block bits} {present : Bool}
    (h : CoherentBut cfg (fun k => present = false ∧ k = fb.storageBlockNum) s)
    (hrow : s.db.rowHash fb.storageBlockNum = some (cfg.murmur data)) :
    Coherent cfg (updateCache s fb present data (cfg.murmur data)).1 := by
  have hne : fb.storageBlockNum ≠ 0 := by
    intro h0
    rw [h0, h.zero] at hrow
    cases hrow
  cases present with
  | true =>
    rw [updateCache_hit]
    have h' : Coherent cfg s := ⟨fun k g _ hg => h.row k g (by simp) hg, h.zero, h.unique, h.sound⟩
    exact h'.adjust _ fun h0 => absurd h0 hne
  | false =>
    rw [updateCache_new]
    refine ⟨fun k g _ hg => ?_, h.zero, h.unique, fun k b hb => ?_⟩
    · rw [content_place]
      by_cases hk : k = fb.storageBlockNum
      · rw [if_pos hk]
        refine ⟨data, rfl, ?_⟩
        rw [place_db, hk, hrow] at hg
        exact Option.some.inj hg
      · rw [if_neg hk]
        exact h.row k g (fun hp => hk hp.2) hg
    · rw [find_place] at hb
      split at hb
      · cases hb
        refine ⟨fun hz => ?_, fun _ => ?_, fun hd => ?_, fun _ => rfl⟩
        · rw [written_storageBlockNum] at hz
          exact absurd hz hne
        · rw [written_storageBlockNum, place_db, hrow]
          rfl
        · cases hd
      · exact h.sound k b hb

omit [DecidableEq H] in
theorem updateCache_db (data : Block bits) (present : Bool) :
    (updateCache s fb present data hash).1.db = s.db := by
  cases present with
  | true => exact Store.adjust_db ..
  | false =>
    rw [updateCache_new]
    rfl

/-- A block write keeps coherence, and the `block_info` that it leaves is as it should be. -/
theorem writeBlock_coherent (h : Coherent cfg s) (hfb : fb.Ok s.db) (data : Block bits) :
    let w := writeBlock cfg s ino data fb
    Coherent cfg w.1 ∧ s.db.Grows w.1.db ∧ w.2.fileBlockNum = fb.fileBlockNum ∧ w.2.Ok w.1.db := by
  have hc := commitBlock_commits s ino (cfg.murmur data) fb
  have hbut := hc.coherentBut h hfb
  have hgrow := hc.grows h hfb
  obtain ⟨sblock, hr⟩ := hc.replaces
  have hrow := hr.rowHash_self (h.backed hfb)
  unfold writeBlock
  dsimp only
  refine ⟨updateCache_coherent hbut hrow, ?_, ?_, ?_⟩
  · rwa [updateCache_db]
  · rw [← hr.fblock_eq.1]
    cases (commitBlock s ino (cfg.murmur data) fb).present with
    | true => rfl
    | false => rw [updateCache_new]
  · cases hp : (commitBlock s ino (cfg.murmur data) fb).present with
    | true =>
      rw [updateCache_hit]
      refine ⟨fun p hp' => ?_, fun _ => ?_⟩
      · rw [hc.storageBlock_of_present hp] at hp'
        cases hp'
      · rw [Store.adjust_db, hrow]
        rfl
    | false =>
      rw [updateCache_new]
      refine ⟨fun p hp' => ?_, fun _ => ?_⟩
      · cases hp'
        rfl
      · rw [place_db, hrow]
        rfl

end write

/-! ### Rounds -/

section rounds

variable {cfg : Config bits H} {s s' : Store bits H} {fi fi' : FileInfo H}

/-- **One round keeps coherence**, of the store and of the handles. -/
theorem roundStep_coherent {r : Round} {o : List UInt8} (h : Coherent cfg s) (hfi : fi.Ok s.db)
    (hr : roundStep cfg (s, fi) r = .ok ((s', fi'), o)) :
    Coherent cfg s' ∧ fi'.Ok s'.db ∧ s.db.Grows s'.db := by
  cases roundStep_stepped hr with
  | resize newSize =>
    have hgrow : s.db.Grows (s.db.ftruncate fi newSize).1 := fun k hk => by
      rwa [rowHash_ftruncate]
    refine ⟨h.setDb fun k => rowHash_ftruncate .., ?_, hgrow⟩
    intro n fb hfb
    rw [blocks_ftruncate] at hfb
    obtain ⟨hnum, hok⟩ := hfi n fb hfb
    exact ⟨hnum, hok.mono hgrow⟩
  | read c x touched shown =>
    obtain ⟨hl, -, hok⟩ := h.locate hfi c.block
    have hdb : s'.db = s.db :=
      touched.same.db.trans (getLockedFileBlock_locates cfg s fi c.block).db_eq
    rw [hdb]
    exact ⟨hl.touches touched, hfi.setBlock hok, .refl _⟩
  | @write buf c s₁ old touched shown r ran wrote =>
    obtain ⟨hl, -, hok⟩ := h.locate hfi c.block
    have hdb : s₁.db = s.db :=
      touched.same.db.trans (getLockedFileBlock_locates cfg s fi c.block).db_eq
    have hafter := fun ino => @writeBlock_coherent _ _ _ cfg _ ino _ (hl.touches touched)
      (hdb.symm ▸ hok) (c.data buf old)
    obtain ⟨hco, hgrow, -, hok'⟩ := hafter fi.stIno
    rw [ran] at hco hgrow hok'
    rw [hdb] at hgrow
    exact ⟨hco, ((hfi.setBlock hok).mono hgrow).setBlock hok', hgrow⟩
  | release n g hash =>
    have hgrow : s.db.Grows (s.db.released fi.stIno n g) := fun k hk => by
      rwa [rowHash_released]
    have hset : Coherent cfg (s.setDb (s.db.released fi.stIno n g)) :=
      h.setDb fun k => rowHash_released ..
    rw [released_db]
    refine ⟨?_, (hfi.dropBlock n).mono hgrow, hgrow⟩
    unfold Store.released
    split
    · rename_i hne
      exact hset.adjust _ fun hz => absurd hz hne
    · exact hset

/-- In a coherent store a round fails only where a block without a hash is given up. -/
theorem roundStep_error {r : Round} {e : Fault} (h : Coherent cfg s) (hfi : fi.Ok s.db)
    (hr : roundStep cfg (s, fi) r = .error e) : e = .nullHash := by
  cases r with
  | resize newSize => cases hr
  | write buf c =>
    obtain ⟨hl, -⟩ := h.locate hfi c.block
    obtain ⟨q, hq⟩ := @writeBlockWrapper_isOk _ _ _ cfg s fi buf c (hl.shown_isSome _)
    simp [roundStep, hq, Except.map] at hr
  | read c =>
    obtain ⟨hl, -⟩ := h.locate hfi c.block
    obtain ⟨q, hq⟩ := readChunk_isOk (hl.shown_isSome _)
    simp [roundStep, hq, Except.map] at hr
  | release n =>
    cases hrel : releaseBlock cfg s fi n with
    | ok q => simp [roundStep, hrel, Except.map] at hr
    | error e' =>
      simp only [roundStep, hrel, Except.map, Except.error.injEq] at hr
      exact hr ▸ releaseBlock_error hrel

end rounds

/-! ### Passes of the writer -/

section passes

variable {cfg : Config bits H} {s : Store bits H}

section

omit [DecidableEq H]

theorem Coherent.stored (h : Coherent cfg s) : s.Stored := by
  intro k b x hb hd hx
  have hnum : b.storageBlockNum = k := KeyedTable.key_of_find hb
  exact hnum ▸ (h.sound k b hb).clean hd x hx

theorem Coherent.flush (h : Coherent cfg s) (p : StorageBlock bits H → Bool) :
    Coherent cfg (s.flush p) where
  row k g hk hg := by
    obtain ⟨x, hx, hmx⟩ := h.row k g hk hg
    exact ⟨x, Store.content_flush hx, hmx⟩
  zero := h.zero
  unique := h.unique
  sound k b hb := by
    obtain ⟨b₀, hb₀, hdata, hcount, hnum, hcase⟩ := Store.of_find_flush hb
    have hs := h.sound k b₀ hb₀
    have hk : b₀.storageBlockNum = k := KeyedTable.key_of_find hb₀
    refine ⟨fun hz => ?_, fun hne => ?_, fun hd x hx => ?_, fun hd => ?_⟩
    · rw [hdata, hcount]
      exact hs.blank (hnum ▸ hz)
    · rw [hnum] at hne ⊢
      exact hs.known hne
    · rw [hnum, hk]
      exact h.stored.flush p k b x hb hd hx
    · rw [hdata]
      rcases hcase with ⟨rfl, -⟩ | ⟨hclean, -⟩
      · exact hs.full hd
      · rw [hclean] at hd
        cases hd

/-- Blocks that are clean can be taken out of the cache. -/
theorem Coherent.evict (h : Coherent cfg s) {victims : List ℕ}
    (hclean : ∀ k b, s.blocks.find k = some b → k ∈ victims → b.dirty = false) :
    Coherent cfg (s.evict victims) where
  row k g hk hg := by
    obtain ⟨x, hx, hmx⟩ := h.row k g hk hg
    refine ⟨x, Store.content_evict (fun k b y hb hv hy => ?_) k hx, hmx⟩
    have hnum : b.storageBlockNum = k := KeyedTable.key_of_find hb
    exact hnum ▸ (h.sound k b hb).clean (hclean k b hb hv) y hy
  zero := h.zero
  unique := h.unique
  sound k b hb := by
    rw [Store.find_evict] at hb
    split at hb
    · cases hb
    · exact h.sound k b hb

/-- **A complete pass keeps coherence.** -/
theorem Coherent.writerPass (h : Coherent cfg s) (victims : List ℕ) :
    Coherent cfg (s.writerPass victims) := by
  rw [Store.writerPass_eq]
  exact ((h.flush _).flush _).evict fun k b hb _ => Store.find_flush_flush hb

/-- After a complete flush the storage file has every content. -/
theorem Coherent.content_remount (h : Coherent cfg s) (files : KeyedTable FileRow ℕ FileRow.id)
    {k : ℕ} {x : Block bits} (hx : s.content k = some x) :
    Store.content { (s.flush fun _ => true).setFiles files with blocks := .empty } k = some x := by
  have hflushed := Store.content_flush (p := fun _ => true) hx
  rw [Store.content, Option.or_eq_some_iff] at hflushed
  rcases hflushed with hcached | ⟨-, hread⟩
  · obtain ⟨b, hb, hdata⟩ := Option.bind_eq_some_iff.mp hcached
    have hnum : b.storageBlockNum = k := KeyedTable.key_of_find hb
    exact hnum ▸ ((h.flush fun _ => true).sound k b hb).clean (Store.find_flush_all hb) x hdata
  · exact hread

/-- After a complete flush the cache can go as a whole. -/
theorem Coherent.remount (h : Coherent cfg s) (files : KeyedTable FileRow ℕ FileRow.id) :
    Coherent cfg { (s.flush fun _ => true).setFiles files with blocks := .empty } where
  row k g hk hg := by
    obtain ⟨x, hx, hmx⟩ := h.row k g hk hg
    exact ⟨x, h.content_remount files hx, hmx⟩
  zero := h.zero
  unique := h.unique
  sound k b hb := by cases hb

end

end passes

/-! ### Runs of the file system -/

/-- The store is coherent and the handles are as they should be. -/
abbrev Fs.Coherent (cfg : Config bits H) (fs : Fs bits H) : Prop :=
  fs.Holds (Wwdedup.Coherent cfg) fun s fi => fi.Ok s.db

theorem coherent_keeps (cfg : Config bits H) :
    Fs.Keeps cfg (fun _ _ => True) (Coherent cfg) fun s fi => fi.Ok s.db where
  round s fi r s' fi' o hs hfi _ hr := by
    obtain ⟨hs', hfi', hgrow⟩ := roundStep_coherent hs hfi hr
    exact ⟨hs', hfi', fun fj hfj => hfj.mono hgrow⟩
  files s files hs :=
    have hgrow : s.db.Grows (s.setFiles files).db := fun _ h => h
    ⟨⟨hs.row, hs.zero, hs.unique, fun k b hb => (hs.sound k b hb).mono hgrow⟩,
      fun _ h => h.mono hgrow⟩
  fresh s path _ := .getByPath s.db path
  pass s victims hs := ⟨hs.writerPass victims, fun _ h => h⟩
  remount s files hs := hs.remount files
  clock s now hs := ⟨⟨hs.row, hs.zero, hs.unique, hs.sound⟩, fun _ h => h⟩

theorem Fs.init_coherent (cfg : Config bits H) : (Fs.init bits H).Coherent cfg :=
  ⟨⟨fun _ _ _ hg => (nomatch hg), rfl, fun _ _ _ hk => (nomatch hk),
    fun _ _ hb => (nomatch hb)⟩, fun _ _ h => (nomatch h)⟩

theorem Fs.step_coherent {cfg : Config bits H} {fs fs' : Fs bits H} {op : Op} {out : Out}
    (h : fs.Coherent cfg) (hstep : fs.step cfg op = .ok (fs', out)) : fs'.Coherent cfg :=
  (coherent_keeps cfg).step h (fun _ _ _ => meets_of_forall (fun _ _ => trivial) _ _) hstep

theorem Fs.reachable_coherent {cfg : Config bits H} {fs : Fs bits H}
    (h : Reachable (Fs.step cfg) (Fs.init bits H) fs) : fs.Coherent cfg :=
  reachable_invariant (fun _ _ _ _ h hstep => Fs.step_coherent h hstep) (Fs.init_coherent cfg) h

omit [DecidableEq H] in
/-- The `FileInfo` that a request works on is as it should be. -/
theorem Fs.Coherent.acts_ok {cfg : Config bits H} {fs : Fs bits H} (h : fs.Coherent cfg) {op : Op}
    {fi : FileInfo H} {rs : List Round} (hr : fs.rounds op = some (fi, rs)) :
    fi.Ok fs.store.db := by
  rcases Fs.rounds_fi hr with ⟨fh, hfh⟩ | ⟨path, rfl⟩
  · exact h.2 fh fi hfh
  · exact .getByPath _ path

/-- In a coherent file system no request finds the storage file too short. -/
theorem Fs.Coherent.not_shortRead {cfg : Config bits H} {fs : Fs bits H} (h : fs.Coherent cfg)
    (op : Op) : fs.step cfg op ≠ .error .shortRead := by
  intro hstep
  rcases Fs.step_error hstep with he | he | he | ⟨fi, rs, hrounds, hrun⟩
  · cases he
  · cases he
  · cases he
  · have hok := h.acts_ok hrounds
    obtain ⟨⟨s, fi'⟩, r, ⟨hs, hfi'⟩, -, hr⟩ := run_error
      (I := fun p => Wwdedup.Coherent cfg p.1 ∧ p.2.Ok p.1.db) (G := fun _ _ => True)
      (fun p r p' o hp _ hr => by
        obtain ⟨hs', hfi', -⟩ := roundStep_coherent hp.1 hp.2 hr
        exact ⟨hs', hfi'⟩)
      ⟨h.1, hok⟩ (meets_of_forall (fun _ _ => trivial) _ _) hrun
    cases roundStep_error hs hfi' hr

/-- **Content/hash coherence.**  In every reachable state each row `(n, H)` of `block_hashes`
has its slot fully present or is cached with data, its content has the hash `H`, and no request
reads a block that is not there in full. -/
theorem reachable_content_hash (cfg : Config bits H) (fs : Fs bits H)
    (h : Reachable (Fs.step cfg) (Fs.init bits H) fs) :
    (∀ n row, fs.store.db.blockHashes.find n = some row →
      (fs.store.storage.Has n ∨ ∃ b, fs.store.blocks.find n = some b ∧ b.data.isSome) ∧
      ∃ x, fs.store.content n = some x ∧ cfg.murmur x = row.hash) ∧
    ∀ op, fs.step cfg op ≠ .error .shortRead := by
  have hco := Fs.reachable_coherent h
  refine ⟨fun n row hrow => ?_, hco.not_shortRead⟩
  obtain ⟨x, hx, hmx⟩ := hco.1.row n row.hash (fun hf => hf) (by rw [Db.rowHash, hrow]; rfl)
  refine ⟨?_, x, hx, hmx⟩
  rw [Store.content, Option.or_eq_some_iff] at hx
  rcases hx with hx | ⟨-, hread⟩
  · obtain ⟨b, hb, hdata⟩ := Option.bind_eq_some_iff.mp hx
    exact .inr ⟨b, hb, by rw [hdata]; rfl⟩
  · rw [Storage.read] at hread
    split at hread
    · rename_i hlt
      exact .inl hlt
    · cases hread

/-- The block of a file that was just written is cached, with its content. -/
theorem reachable_content_hash_write :
    ∃ x, (Fs.after (plainConfig 0) [.create ['/', 'f'] sIfreg, .write 0 [7] 0]).store.content 1 =
      some x ∧ List.ofFn x = [7] :=
  ((reachable_content_hash (plainConfig 0) _ (Fs.after_reachable _ _)).1 1 ⟨1, [7], 1⟩ rfl).2

end Wwdedup
