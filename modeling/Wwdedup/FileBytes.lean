import Wwdedup.CutBytes
import Wwdedup.FileSystem
import Wwdedup.ReadYourWrites

/-!
# The bytes of a file through its only handle

The bytes that the tables give for a file are an array, and the rounds of a handle that knows the
file do to it what they should (`roundStep_holding`), whether a block is found by its hash,
overwritten in place or new, and whether the handle has cached it, evicted it or never seen it.
The only exception is a lost block.  So a write through such a handle patches the array and a read
shows a part of it (`run_write_array`, `run_read_array`), and the other files stay
(`run_others`).
-/

namespace Wwdedup

open GuardedRun

variable {bits : ℕ} {H : Type} [DecidableEq H]

/-! ### One round -/

section rounds

variable {cfg : Config bits H} {s s' : Store bits H} {fi fi' : FileInfo H} {n : ℕ}

/-- **A block that is not lost shows what the tables give.** -/
theorem Attached.shown (h : Attached s fi) (hco : Coherent cfg s) (hfi : fi.Ok s.db)
    (hin : cfg.Skips fi n → s.db.fileHash fi.stIno n = none) (hnot : ¬Lost cfg s fi n) :
    (getLockedFileBlock cfg s fi n).store.shown
      (getLockedFileBlock cfg s fi n).fblock.storageBlock = some (s.blockOf fi.stIno n) := by
  cases hfb : fi.blocks n with
  | none =>
    rw [hco.shown_fresh hfi hfb]
    unfold Store.freshBlock
    split
    · rename_i past
      rw [Store.blockOf_of_fileHash_none (hin past)]
    · rfl
  | some item =>
    obtain ⟨-, hok⟩ := hfi n item hfb
    have hitem : (fileBlock cfg s fi n).1 = item := by
      unfold fileBlock
      rw [hfb]
    have hl := getLockedFileBlock_locates cfg s fi n
    rw [hl.shown_eq (hitem ▸ hok), hitem]
    rcases h.synced n item hfb with ⟨hnull, hempty, hptr⟩ | ⟨g, -, hfile, hrow⟩
    · -- a hole has no row
      rw [if_pos (.inl ⟨hempty, by rw [hptr, Store.lock_none]⟩),
        Store.blockOf_of_fileHash_none (h.holes n item hfb hnull)]
    · have hnum : item.storageBlockNum ≠ 0 := by
        intro hzero
        rw [hzero, hco.zero] at hrow
        cases hrow
      rw [if_neg]
      · obtain ⟨x, hx, -⟩ := hco.row _ g (fun hf => hf) hrow
        rw [hx, Store.blockOf_eq hco.unique hfile hrow hx]
      · rintro (⟨hempty, hdead⟩ | hzero)
        · refine hnot ⟨by rw [hfile]; rfl, ?_, ?_⟩
          · rw [hitem]
            exact hempty
          · rw [hitem]
            exact hdead
        · exact hnum hzero

/-- What the rounds of a request of the only handle keep: the handle knows the file, whose bytes
are the array. -/
structure Holding (cfg : Config bits H) (ino : ℕ) (p : Store bits H × FileInfo H)
    (a : (ℕ → UInt8) × ℕ) : Prop where
  attends : Attends cfg ino p
  bytes : p.1.byteOf ino = a.1
  size : p.2.stSize = a.2

/-- What a round needs for that. -/
def Round.Plain (cfg : Config bits H) (p : Store bits H × FileInfo H) (r : Round) : Prop :=
  r.Unshared cfg p ∧ r.Genuine cfg p ∧ r.Sees cfg p ∧ r.Finds cfg p

/-- A round that changes no block leaves the bytes. -/
theorem byteOf_of_changed_none (h : Attends cfg fi.stIno (s, fi)) {r : Round} {out : List UInt8}
    (hunshared : r.Unshared cfg (s, fi)) (hr : roundStep cfg (s, fi) r = .ok ((s', fi'), out))
    (hnone : r.changed = none) : s'.byteOf fi.stIno = s.byteOf fi.stIno := by
  apply eq_of_blockView bits
  intro m
  have hmap : s.Mapped fi.stIno m := fun g hg => h.found _ _ g hg
  rw [Store.blockView_byteOf, Store.blockView_byteOf]
  refine (roundStep_blockOf h.coherent h.ok hunshared hr (fun _ heq => ?_) hmap).1
  rw [hnone] at heq
  cases heq

/-- **A round of the only handle does to the array what it should.** -/
theorem roundStep_holding {ino : ℕ} {p : Store bits H × FileInfo H} {a : (ℕ → UInt8) × ℕ}
    {r : Round} (h : Holding cfg ino p a) (hfits : r.Fits bits) (hplain : r.Plain cfg p) :
    ∃ p', roundStep cfg p r = .ok (p', (serveRound bits a r).2) ∧
      Holding cfg ino p' (serveRound bits a r).1 := by
  obtain ⟨s, fi⟩ := p
  obtain ⟨f, size⟩ := a
  obtain ⟨hatt, hbytes, hsize⟩ := h
  obtain ⟨hunshared, hgen, hsees, hin⟩ := hplain
  have hino : fi.stIno = ino := hatt.stIno
  subst hino
  have hbytes' : s.byteOf fi.stIno = f := hbytes
  subst hbytes'
  obtain ⟨s', fi', out, hstep⟩ := roundStep_isOk hatt.coherent hatt.ok hfits
  have hatt' := roundStep_attends hatt hunshared hin hstep
  refine ⟨(s', fi'), ?_⟩
  cases r with
  | resize newSize =>
    have hkept := byteOf_of_changed_none hatt hunshared hstep rfl
    cases hstep
    exact ⟨rfl, hatt', hkept, stSize_ftruncate ..⟩
  | read c =>
    have hkept := byteOf_of_changed_none hatt hunshared hstep rfl
    have hsize' : fi'.stSize = fi.stSize := roundStep_stSize hstep (fun n heq => by cases heq)
    refine ⟨?_, hatt', hkept, hsize'.trans hsize⟩
    rw [hstep]
    have hout : out =
        window (s.byteOf fi.stIno) (c.block * blockSize bits + c.startOffset) c.len := by
      cases roundStep_stepped hstep with
      | read _ x touched shown =>
        by_cases hlen : 0 < c.len
        · rw [hatt.attached.shown hatt.coherent hatt.ok hin (hsees hlen)] at shown
          rw [← Option.some.inj shown, ← Store.blockView_byteOf, slice_blockView _ hfits]
        · have hzero : c.len = 0 := by omega
          rw [hzero]
          rfl
    rw [hout]
    rfl
  | write buf c =>
    have hsize' : fi'.stSize = fi.stSize := roundStep_stSize hstep (fun n heq => by cases heq)
    have hout : out = [] := by
      cases roundStep_stepped hstep
      rfl
    refine ⟨by rw [hstep, hout]; rfl, hatt', ?_, hsize'.trans hsize⟩
    apply eq_of_blockView bits
    intro m
    show blockView bits (s'.byteOf fi.stIno) m = blockView bits (patch (s.byteOf fi.stIno)
      (c.block * blockSize bits + c.startOffset) c.len fun i => buf.getD (c.pos + i) 0) m
    rw [Store.blockView_byteOf]
    by_cases hm : m = c.block
    · subst hm
      obtain ⟨⟨old, hold, hnew⟩, -⟩ := roundStep_write_newContent hatt.coherent hatt.ok hgen hstep
      rw [hnew, ← overlay_blockView]
      by_cases hpart : c.len < blockSize bits
      · have hshown := hold hpart
        rw [hatt.attached.shown hatt.coherent hatt.ok hin (hsees hpart)] at hshown
        rw [Store.blockView_byteOf, Option.some.inj hshown]
        rfl
      · exact overlay_whole _ _ _ _ _ hfits hpart
    · have hmap : s.Mapped fi.stIno m := fun g hg => hatt.found _ _ g hg
      rw [blockView_patch_of_ne _ _ hfits hm, Store.blockView_byteOf]
      refine (roundStep_blockOf hatt.coherent hatt.ok hunshared hstep (fun _ heq => ?_) hmap).1
      exact hm (Option.some.inj heq).symm
  | release n => exact hfits.elim

/-! ### Reads and writes -/

/-- The rounds of reads and writes of the only handle show what the array shows. -/
theorem run_holding {ino : ℕ} {p : Store bits H × FileInfo H} {a : (ℕ → UInt8) × ℕ}
    {rs : List Round} (h : Holding cfg ino p a) (hfits : ∀ r ∈ rs, r.Fits bits)
    (hplain : Meets (roundStep cfg) (fun p r => r.Plain cfg p) p rs) :
    ∃ p', run (roundStep cfg) p rs = .ok (p', (specRun (serveRound bits) a rs).2) ∧
      Holding cfg ino p' (specRun (serveRound bits) a rs).1 := by
  refine run_refines (fun p a r hp hr => ?_) h (hplain.and_mem hfits)
  exact roundStep_holding hp hr.1 hr.2

/-- **A write through the only handle patches the array.** -/
theorem run_write_array (h : Attends cfg fi.stIno (s, fi)) (buf : List UInt8) (offset : ℕ)
    (hplain : Meets (roundStep cfg) (fun p r => r.Plain cfg p) (s, fi)
      (writeRounds bits fi buf offset)) :
    ∃ s' fi' os, run (roundStep cfg) (s, fi) (writeRounds bits fi buf offset) =
        .ok ((s', fi'), os) ∧
      Holding cfg fi.stIno (s', fi') (patch (s.byteOf fi.stIno) offset buf.length
        (fun i => buf.getD i 0), max fi.stSize (offset + buf.length)) := by
  have htiles := chunks_tiles bits buf.length offset
  have hfits : ∀ r ∈ writeRounds bits fi buf offset, r.Fits bits := by
    intro r hr
    rcases mem_writeRounds hr with ⟨n, rfl⟩ | ⟨c, hc, rfl⟩
    · trivial
    · exact htiles.fits c hc
  have hstart : Holding cfg fi.stIno (s, fi) (s.byteOf fi.stIno, fi.stSize) := ⟨h, rfl, rfl⟩
  obtain ⟨⟨s', fi'⟩, hrun, hend⟩ := run_holding hstart hfits hplain
  refine ⟨s', fi', _, hrun, ?_⟩
  have hspec := fun size => specRun_write htiles (s.byteOf fi.stIno) size buf
  simp only [patch_empty] at hspec
  have harray : (specRun (serveRound bits) (s.byteOf fi.stIno, fi.stSize)
      (writeRounds bits fi buf offset)).1 = (patch (s.byteOf fi.stIno) offset buf.length
        (fun i => buf.getD i 0), max fi.stSize (offset + buf.length)) := by
    unfold writeRounds
    split
    · have hgrow : buf.length + offset = max fi.stSize (offset + buf.length) := by omega
      rw [← hgrow]
      exact hspec (buf.length + offset)
    · have hstay : max fi.stSize (offset + buf.length) = fi.stSize := by omega
      rw [hstay]
      exact hspec fi.stSize
  rw [harray] at hend
  exact hend

/-- **A read through the only handle shows the array**, up to the end of the file, and leaves it. -/
theorem run_read_array (h : Attends cfg fi.stIno (s, fi)) {size offset : ℕ}
    (hplain : Meets (roundStep cfg) (fun p r => r.Plain cfg p) (s, fi)
      (readRounds bits fi size offset)) :
    ∃ s' fi' os, run (roundStep cfg) (s, fi) (readRounds bits fi size offset) =
        .ok ((s', fi'), os) ∧
      os.flatten = window (s.byteOf fi.stIno) offset (min size (fi.stSize - offset)) ∧
      Holding cfg fi.stIno (s', fi') (s.byteOf fi.stIno, fi.stSize) := by
  have hlen : (if size + offset > fi.stSize then fi.stSize - offset else size) =
      min size (fi.stSize - offset) := by
    split <;> omega
  have htiles := chunks_tiles bits (min size (fi.stSize - offset)) offset
  have hfits : ∀ r ∈ readRounds bits fi size offset, r.Fits bits := by
    intro r hr
    rw [readRounds, hlen] at hr
    obtain ⟨c, hc, rfl⟩ := List.mem_map.mp hr
    exact htiles.fits c hc
  have hstart : Holding cfg fi.stIno (s, fi) (s.byteOf fi.stIno, fi.stSize) := ⟨h, rfl, rfl⟩
  obtain ⟨⟨s', fi'⟩, hrun, hend⟩ := run_holding hstart hfits hplain
  obtain ⟨hsame, hbytes⟩ := specRun_read htiles (s.byteOf fi.stIno, fi.stSize)
  rw [window_empty, List.nil_append] at hbytes
  refine ⟨s', fi', _, hrun, ?_, ?_⟩
  · rw [readRounds, hlen]
    exact hbytes
  · rw [readRounds, hlen, hsame] at hend
    exact hend

/-! ### The other files -/

/-- A round changes no row of another file. -/
theorem roundStep_find_others {r : Round} {out : List UInt8}
    (hr : roundStep cfg (s, fi) r = .ok ((s', fi'), out)) {id : ℕ} (hne : id ≠ fi.stIno) :
    s'.db.files.find id = s.db.files.find id := by
  rcases roundStep_files hr with heq | ⟨size, heq⟩
  · rw [heq]
  · rw [heq, Db.find_updateFileSize]
    cases hrow : s.db.files.find id with
    | none => rfl
    | some row =>
      have hid : row.id = id := KeyedTable.key_of_find hrow
      rw [Option.map_some, if_neg (by rw [hid]; exact hne)]

theorem run_find_others {rs : List Round} {os : List (List UInt8)}
    (hrun : run (roundStep cfg) (s, fi) rs = .ok ((s', fi'), os)) {id : ℕ} (hne : id ≠ fi.stIno) :
    s'.db.files.find id = s.db.files.find id := by
  induction rs generalizing s fi os with
  | nil =>
    cases hrun
    rfl
  | cons r rs ih =>
    obtain ⟨⟨s₁, fi₁⟩, out, os', hfirst, hrest, -⟩ := run_cons_ok.mp hrun
    have hino := (roundStep_getByPath hfirst).1
    rw [ih hrest (hino ▸ hne), roundStep_find_others hfirst hne]

/-- **Rounds leave the bytes of the other files.** -/
theorem run_others {rs : List Round} {os : List (List UInt8)} (hco : Coherent cfg s)
    (hfi : fi.Ok s.db) (hunshared : Meets (roundStep cfg) (fun p r => r.Unshared cfg p) (s, fi) rs)
    (hrun : run (roundStep cfg) (s, fi) rs = .ok ((s', fi'), os)) (hfound : s.db.Found) {id : ℕ}
    (hne : id ≠ fi.stIno) : s'.byteOf id = s.byteOf id := by
  funext p
  have hmap : s.Mapped id (p / blockSize bits) := fun g hg => hfound _ _ g hg
  unfold Store.byteOf
  rw [(run_blockOf hco hfi hunshared hrun (fun _ _ heq => absurd heq hne) hmap).1]

end rounds

end Wwdedup
