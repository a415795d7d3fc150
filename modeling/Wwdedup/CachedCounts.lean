import Wwdedup.UseCounts

/-!
# Cached use counts

The use count of a cached block is that of its row (`Agrees`) as long as two things do not
happen.  A write that gives a block the hash that it has already sets the count of the row to
the cached count less one and then raises the cached count again.  And a block that was evicted
comes back with the count 0 when it is reached through an old `block_info`, since the count is
read from the tables only together with a new one.  `Round.Steady` leaves these two out; then
the assertion of `_getLockedFileBlock` holds in every round, and `replaceStorageBlock` tests the
count of the row.
-/

namespace Wwdedup

open GuardedRun

variable {bits : ℕ} {H : Type} [DecidableEq H]

/-- Every cached count is that of the row. -/
def Agrees (s : Store bits H) : Prop :=
  ∀ k c u, s.cnt k = some c → s.db.useOf k = some u → c = u

/-- A block that is not cached is reached through a new `block_info` only, and a write changes
the hash of its block. -/
def Round.Steady (cfg : Config bits H) (p : Store bits H × FileInfo H) : Round → Prop
  | .read c => StillCached p.1 p.2 c.block
  | .write buf c => StillCached p.1 p.2 c.block ∧ Changes cfg p.1 p.2 buf c
  | _ => True

/-- `assert(!use_count || item->use_count == use_count)` for the block `n`. -/
def Asserted (cfg : Config bits H) (s : Store bits H) (fi : FileInfo H) (n : ℕ) : Prop :=
  let item := fileBlock cfg s fi n
  item.2 = 0 ∨ (ensureLoaded s item.1 item.2).2.useCount = item.2

/-- The count of the block that is locked for the block `n` is that of its row. -/
def TrueCount (cfg : Config bits H) (s : Store bits H) (fi : FileInfo H) (n : ℕ) : Prop :=
  let l := getLockedFileBlock cfg s fi n
  ∀ b, l.store.lock l.fblock.storageBlock = some b →
    l.store.db.useOf b.storageBlockNum = some b.useCount

/-- In the round the assertion holds, and a write tests the count of the row. -/
def Round.CountsTrue (cfg : Config bits H) (p : Store bits H × FileInfo H) : Round → Prop
  | .read c => Asserted cfg p.1 p.2 c.block
  | .write _ c => Asserted cfg p.1 p.2 c.block ∧ TrueCount cfg p.1 p.2 c.block
  | _ => True

section rounds

variable {cfg : Config bits H} {s s' : Store bits H} {fi fi' : FileInfo H} {n : ℕ}

omit [DecidableEq H] in
/-- A `block_info` in step with the tables is current unless its block left the cache. -/
theorem Synced.current_of_stillCached (h : Synced s fi) (hfi : fi.Ok s.db)
    (hcached : StillCached s fi n) : Current s fi n := by
  intro item hitem
  rcases h n item hitem with ⟨-, hempty, hptr⟩ | ⟨g, -, hfile, hrow⟩
  · exact .inl ⟨hempty, by rw [hptr, Store.lock_none]⟩
  · cases hl : s.lock item.storageBlock with
    | none =>
      cases hempty : item.empty with
      | true => exact .inl ⟨rfl, rfl⟩
      | false => exact .inr ⟨g, hfile, hrow, hcached item hitem hempty hl⟩
    | some b =>
      have hnum : b.storageBlockNum = item.storageBlockNum :=
        (hfi n item hitem).2.ptr _ (Store.lock_eq_some.mp hl).1
      refine .inr ⟨g, hfile, hrow, ?_⟩
      rw [← hnum, Store.cnt_of_lock hl]
      rfl

/-- A steady round of a handle in step with the tables is up to date. -/
theorem Synced.upToDate_of_steady (h : Synced s fi) (hfi : fi.Ok s.db) {r : Round}
    (hr : r.Steady cfg (s, fi)) : r.UpToDate cfg (s, fi) := by
  cases r with
  | resize newSize => trivial
  | read c => exact hr
  | write buf c => exact ⟨h.current_of_stillCached hfi hr.1, hr.2⟩
  | release n => exact h.accurate n

/-! ### One round -/

omit [DecidableEq H] in
theorem Agrees.of_views (h : Agrees s) (huse : ∀ k, s'.db.useOf k = s.db.useOf k)
    (hcnt : ∀ k c, s'.cnt k = some c → s.cnt k = some c) : Agrees s' := by
  intro k c u hc hu
  exact h k c u (hcnt k c hc) (huse k ▸ hu)

/-- A block is loaded with the count of its row. -/
theorem Agrees.locate (h : Agrees s)
    (hfound : ∀ f o g, s.db.fileHash f o = some g → ∃ k, s.db.rowHash k = some g)
    (hcached : StillCached s fi n) : Agrees (getLockedFileBlock cfg s fi n).store := by
  intro k c u hc hu
  rw [(getLockedFileBlock_locates cfg s fi n).db_eq] at hu
  rcases cnt_locate hfound hcached hc with hold | ⟨-, huse⟩
  · exact h k c u hold hu
  · rw [hu] at huse
    exact (Option.some.inj huse).symm

/-- **A block write moves both counts alike**: that of the row which was found, of a new row, of
the row of the locked block, and of every other. -/
theorem Wrote.agrees {ino : ℕ} {data : Block bits} {hash : H} {fb : BlockInfo H}
    {r : Store bits H × BlockInfo H} (hw : Wrote s ino data hash fb r) (h : Agrees s)
    (hu : s.db.HashUnique) (hb : Replaces.Backed s.db fb (s.lock fb.storageBlock))
    (hheld : HeldBlock s ino hash fb) : Agrees r.1 := by
  intro k c u hc huse
  have habsent : s.db.selectBlockHash hash = none → s.db.rowHash k ≠ some hash :=
    fun hsel => Db.selectBlockHash_none hsel k
  cases hw.cnt_step hb hheld hc with
  | found hk row old =>
    cases hw.useOf_step hu hb hheld huse with
    | found hk' row' old' => rw [h k _ _ old old']
    | new hk' absent => exact absurd row (habsent absent)
    | left hk' held old' => exact absurd hk hk'
    | other hk' free old' => exact absurd hk hk'
  | new hk absent =>
    cases hw.useOf_step hu hb hheld huse with
    | found hk' row' old' => exact absurd row' (habsent absent)
    | new hk' absent' => rfl
    | left hk' held old' => exact absurd hk hk'
    | other hk' free old' => exact absurd hk hk'
  | left hk held old =>
    cases hw.useOf_step hu hb hheld huse with
    | found hk' row' old' => exact absurd hk' hk
    | new hk' absent => exact absurd hk' hk
    | left hk' held' old' =>
      rw [old] at old'
      rw [Option.some.inj old']
    | other hk' free old' => exact absurd held free
  | other hk free old =>
    cases hw.useOf_step hu hb hheld huse with
    | found hk' row' old' => exact absurd hk' hk
    | new hk' absent => exact absurd hk' hk
    | left hk' held old' => exact absurd held free
    | other hk' free' old' => exact h k _ _ old old'

theorem useOf_released_some (db : Db H) (ino n : ℕ) (g : H) (k : ℕ) :
    (db.released ino n (some g)).useOf k =
      if db.rowHash k = some g then (db.useOf k).map (· - 1) else db.useOf k :=
  Db.useOf_decreaseUseCount ..

/-- **A round that is up to date keeps the counts alike.** -/
theorem roundStep_agrees (h : Agrees s) (hs : Counted (· ≤ ·) s) (hco : Coherent cfg s)
    (hfi : fi.Ok s.db) {r : Round} {o : List UInt8} (hok : r.UpToDate cfg (s, fi))
    (hr : roundStep cfg (s, fi) r = .ok ((s', fi'), o)) : Agrees s' := by
  cases roundStep_stepped hr with
  | resize newSize =>
    obtain ⟨files, hfiles⟩ := ftruncate_files s.db fi newSize
    refine h.of_views (fun k => ?_) fun k c hc => hc
    rw [Store.setDb_db, hfiles]
    rfl
  | read c x touched shown =>
    have hl : Agrees (getLockedFileBlock cfg s fi c.block).store := h.locate hs.found hok
    exact hl.of_views (fun k => by rw [touched.same.db]) fun k c hc => touched.same.cnt k ▸ hc
  | @write buf c s₁ old touched shown r ran wrote =>
    obtain ⟨hcur, hch⟩ := hok
    obtain ⟨hl, hnum, hfb⟩ := hco.locate hfi c.block
    have hdb : s₁.db = s.db :=
      touched.same.db.trans (getLockedFileBlock_locates cfg s fi c.block).db_eq
    have hco₁ := hl.touches touched
    have hag₁ : Agrees s₁ := (h.locate hs.found hcur.stillCached).of_views
      (fun k => by rw [touched.same.db]) fun k c hc => touched.same.cnt k ▸ hc
    exact wrote.agrees hag₁ hco₁.unique (hco₁.backed (hdb ▸ hfb))
      (heldBlock_of_current hs hco hfi hcur hch touched.same ⟨old, shown, rfl⟩)
  | release n g hash =>
    obtain ⟨g', rfl, hfile, hrow⟩ := hok.held hs hash
    have hne : (heldBlock cfg s.db fi n).storageBlockNum ≠ 0 := by
      intro h0
      rw [h0, hco.zero] at hrow
      cases hrow
    intro k c u hc hu
    rw [cnt_released] at hc
    rw [released_db, useOf_released_some] at hu
    by_cases hk : k = (heldBlock cfg s.db fi n).storageBlockNum
    · rw [if_pos ⟨hne, hk⟩] at hc
      rw [if_pos (hk ▸ hrow)] at hu
      obtain ⟨c', hc', rfl⟩ := Option.map_eq_some_iff.mp hc
      obtain ⟨u', hu', rfl⟩ := Option.map_eq_some_iff.mp hu
      rw [h k c' u' hc' hu']
    · rw [if_neg fun hh => hk hh.2] at hc
      rw [if_neg fun hk' => hk (hco.unique _ _ g' hk' hrow)] at hu
      exact h k c u hc hu

/-- Where the counts agree, the assertion holds. -/
theorem Agrees.asserted (h : Agrees s)
    (hfound : ∀ f o g, s.db.fileHash f o = some g → ∃ k, s.db.rowHash k = some g) (n : ℕ) :
    Asserted cfg s fi n := by
  unfold Asserted
  dsimp only
  cases hfb : fi.blocks n with
  | some item =>
    left
    unfold fileBlock
    rw [hfb]
  | none =>
    cases hfilled : (fileBlock cfg s fi n).1.empty with
    | true =>
      left
      unfold fileBlock at hfilled ⊢
      rw [hfb] at hfilled ⊢
      dsimp only at hfilled ⊢
      have hl := loadFileBlock_loads cfg s.db fi n
      generalize loadFileBlock cfg s.db fi (.new n) = q at hl hfilled ⊢
      cases hl with
      | skipped past => rfl
      | absent unmapped => rfl
      | dangling g mapped sel => rfl
      | found row mapped sel => cases hfilled
    | false =>
      right
      have huse := fileBlock_useCount hfound hfb hfilled
      unfold ensureLoaded
      cases hfind : s.blocks.find (fileBlock cfg s fi n).1.storageBlockNum with
      | none => rfl
      | some item =>
        refine h _ _ _ ?_ huse
        rw [Store.cnt, hfind]
        rfl

/-- Where the counts agree, a current handle locks a block with the count of its row. -/
theorem Agrees.trueCount (h : Agrees s) (hs : Counted (· ≤ ·) s) (hco : Coherent cfg s)
    (hfi : fi.Ok s.db) (hcur : Current s fi n) : TrueCount cfg s fi n := by
  intro b hb
  have hdb := (getLockedFileBlock_locates cfg s fi n).db_eq
  obtain ⟨g, -, hrow⟩ := hcur.held hco hfi hb fun g hg => hs.found _ _ g hg
  have hsome : (s.db.useOf b.storageBlockNum).isSome := by
    rw [Db.useOf_isSome, hrow]
    rfl
  obtain ⟨u, hu⟩ := Option.isSome_iff_exists.mp hsome
  rw [← hdb] at hu
  rw [hu, h.locate hs.found hcur.stillCached _ _ u (Store.cnt_of_lock hb) hu]

end rounds

/-! ### Runs -/

/-- The store is coherent, its counts are large enough, and those of cache and tables agree. -/
structure Agreed (cfg : Config bits H) (s : Store bits H) : Prop where
  coherent : Coherent cfg s
  counted : Counted (· ≤ ·) s
  agrees : Agrees s

section runs

variable {cfg : Config bits H}

/-- Views of the tables that are as they were, with nothing new in the cache. -/
theorem Agreed.of_views {s s' : Store bits H} (h : Agreed cfg s) (hco : Coherent cfg s')
    (hrow : ∀ k, s'.db.rowHash k = s.db.rowHash k) (huse : ∀ k, s'.db.useOf k = s.db.useOf k)
    (hfile : ∀ f o, s'.db.fileHash f o = s.db.fileHash f o)
    (hrefs : ∀ g, s'.db.refs g = s.db.refs g)
    (hcnt : ∀ k c, s'.cnt k = some c → s.cnt k = some c) : Agreed cfg s' :=
  ⟨hco, h.counted.congr hrow huse hfile hrefs hcnt, h.agrees.of_views huse hcnt⟩

theorem agreed_keeps (cfg : Config bits H) :
    Fs.KeepsSole cfg (Round.Steady cfg) (Agreed cfg) fun s fi => fi.Ok s.db ∧ Synced s fi where
  round s fi r s' fi' o hs hfi hok hr := by
    have hup := hfi.2.upToDate_of_steady hfi.1 hok
    obtain ⟨hco', hfi', hgrow⟩ := roundStep_coherent hs.coherent hfi.1 hr
    obtain ⟨hsync, hothers⟩ := roundStep_synced hs.counted.found hs.coherent hfi.1 hfi.2
      (hup.unshared tally_le hs.counted hs.coherent hfi.1) hr
    refine ⟨⟨hco', ?_, roundStep_agrees hs.agrees hs.counted hs.coherent hfi.1 hup hr⟩,
      ⟨hfi', hsync⟩, fun fj hj hno => ⟨hj.1.mono hgrow, hothers fj hj.2 hno⟩⟩
    apply roundStep_counted tally_le hs.counted hs.coherent hfi.1 hup _ hr
    intro _ _ _ _ a b hab
    show a - 1 ≤ b
    omega
  files s files hs := by
    obtain ⟨hco, hok⟩ := (coherent_keeps cfg).files s files hs.coherent
    exact ⟨hs.of_views hco (fun _ => rfl) (fun _ => rfl) (fun _ _ => rfl) (fun _ => rfl)
      fun _ _ h => h, fun fj hfj => ⟨hok fj hfj.1, hfj.2⟩⟩
  fresh s path _ := ⟨.getByPath _ path, .getByPath s path⟩
  clock s now hs := by
    obtain ⟨hco, -⟩ := (coherent_keeps cfg).clock s now hs.coherent
    exact ⟨hs.of_views hco (fun _ => rfl) (fun _ => rfl) (fun _ _ => rfl) (fun _ => rfl)
      fun _ _ h => h, fun _ hfj => hfj⟩

/-- **A steady step keeps the counts alike**, and so does a pass of the writer. -/
theorem Fs.step_agreed {fs fs' : Fs bits H} {op : Op} {out : Out}
    (h : fs.Holds (Agreed cfg) fun s fi => fi.Ok s.db ∧ Synced s fi) (hsole : fs.Sole op)
    (hok : fs.RoundsMeet cfg (Round.Steady cfg) op) (hstep : fs.step cfg op = .ok (fs', out)) :
    fs'.Holds (Agreed cfg) fun s fi => fi.Ok s.db ∧ Synced s fi := by
  refine (agreed_keeps cfg).step h hsole hok (fun victims _ => ⟨?_, fun _ hfj => hfj⟩)
    (fun files _ => ?_) hstep
  · apply h.1.of_views (h.1.coherent.writerPass victims) (fun _ => rfl) (fun _ => rfl)
      (fun _ _ => rfl) (fun _ => rfl)
    intro k c hc
    rw [Store.writerPass_eq, Store.cnt_evict, Store.cnt_flush, Store.cnt_flush] at hc
    split at hc
    · cases hc
    · exact hc
  · exact h.1.of_views (h.1.coherent.remount files) (fun _ => rfl) (fun _ => rfl)
      (fun _ _ => rfl) (fun _ => rfl) fun _ _ hc => (nomatch hc)

/-- In the rounds of a steady request the counts are the true ones. -/
theorem Fs.countsTrue {fs : Fs bits H} {op : Op}
    (h : fs.Holds (Agreed cfg) fun s fi => fi.Ok s.db ∧ Synced s fi)
    (hok : fs.RoundsMeet cfg (Round.Steady cfg) op) :
    fs.RoundsMeet cfg (Round.CountsTrue cfg) op := by
  intro fi rs hr
  have hfi : fi.Ok fs.store.db ∧ Synced fs.store fi := by
    rcases rounds_fi hr with ⟨fh, hfh⟩ | ⟨path, rfl⟩
    · exact h.2 fh fi hfh
    · exact ⟨.getByPath _ path, .getByPath _ path⟩
  apply Meets.of_invariant
    (I := fun p => Agreed cfg p.1 ∧ p.2.Ok p.1.db ∧ Synced p.1 p.2) ?_ ?_ ⟨h.1, hfi⟩ (hok fi rs hr)
  · rintro ⟨s, fi⟩ r ⟨s', fi'⟩ o ⟨hs, hfi⟩ hsteady hstep
    obtain ⟨hs', hfi', -⟩ := (agreed_keeps cfg).round s fi r s' fi' o hs hfi hsteady hstep
    exact ⟨hs', hfi'⟩
  · rintro ⟨s, fi⟩ r ⟨hs, hok, hsync⟩ hsteady
    cases r with
    | resize newSize => trivial
    | release n => trivial
    | read c => exact hs.agrees.asserted hs.counted.found c.block
    | write buf c =>
      exact ⟨hs.agrees.asserted hs.counted.found c.block, hs.agrees.trueCount hs.counted
        hs.coherent hok (hsync.current_of_stillCached hok hsteady.1)⟩

end runs

/-- **Cached use counts agree with the tables** in every state of a run with one `FileInfo` for
each file that is worked on, in which no write gives a block the hash that it has already and no
evicted block is reached through an old `block_info`.  In the rounds of every such request the
assertion holds, and `replaceStorageBlock` tests the count of the row. -/
theorem run_cached_count_eq (cfg : Config bits H) (ops : List Op) (fs : Fs bits H)
    (outs : List Out)
    (hok : Meets (Fs.step cfg) (fun fs op => fs.Sole op ∧
      fs.RoundsMeet cfg (Round.Steady cfg) op) (Fs.init bits H) ops)
    (hrun : run (Fs.step cfg) (Fs.init bits H) ops = .ok (fs, outs)) :
    (∀ n b row, fs.store.blocks.find n = some b → fs.store.db.blockHashes.find n = some row →
      b.useCount = row.useCount) ∧
    ∀ op, fs.RoundsMeet cfg (Round.Steady cfg) op →
      fs.RoundsMeet cfg (Round.CountsTrue cfg) op := by
  have hinit : (Fs.init bits H).Holds (Agreed cfg) fun s fi => fi.Ok s.db ∧ Synced s fi :=
    ⟨⟨(Fs.init_coherent cfg).1, (counted_init cfg).2, nofun⟩, nofun⟩
  have hfs := run_invariant
    (fun fs op fs' out h hok hstep => Fs.step_agreed h hok.1 hok.2 hstep) hinit hok hrun
  refine ⟨fun n b row hb hrow => ?_, fun op hop => Fs.countsTrue hfs hop⟩
  have hcnt : fs.store.cnt n = some b.useCount := by
    rw [Store.cnt, hb]
    rfl
  have huse : fs.store.db.useOf n = some row.useCount := by
    rw [Db.useOf, hrow]
    rfl
  exact hfs.1.agrees n _ _ hcnt huse

/-- A block that was evicted and is read through a new handle has the count of its row. -/
theorem run_cached_count_eq_reloaded :
    (Fs.after (plainConfig 0) [.create ['/', 'f'] sIfreg, .write 0 [7] 0, .writerPass [1],
        .openFile ['/', 'f'], .read 1 1 0]).store.db.blockHashes.find 1 = some ⟨1, [7], 1⟩ ∧
    ∃ b, (Fs.after (plainConfig 0) [.create ['/', 'f'] sIfreg, .write 0 [7] 0, .writerPass [1],
        .openFile ['/', 'f'], .read 1 1 0]).store.blocks.find 1 = some b ∧ b.useCount = 1 := by
  refine ⟨rfl, _, rfl, (run_cached_count_eq (plainConfig 0) [.create ['/', 'f'] sIfreg,
    .write 0 [7] 0, .writerPass [1], .openFile ['/', 'f'], .read 1 1 0] _
    [.opened 0, .ret 1, .ret 0, .opened 1, .bytes [7]] ?_ rfl).1 1 _ ⟨1, [7], 1⟩ rfl rfl⟩
  refine .cons (Fs.sole_of_rounds_none rfl) rfl (.cons ⟨?_, ?_⟩ rfl
    (.cons (Fs.sole_of_rounds_none rfl) rfl (.cons (Fs.sole_of_rounds_none rfl) rfl
      (.cons ⟨?_, ?_⟩ rfl trivial))))
  · apply Fs.sole_of_alone
    intro fi rs h fh fj hfj hne
    match fh with
    | 0 => exact absurd rfl hne
    | fh + 1 => cases hfj
  · intro fi rs h
    cases h
    exact .cons trivial rfl (.cons ⟨fun _ hitem => (nomatch hitem), fun _ _ _ => nofun⟩ rfl
      trivial)
  · intro fi rs h fh fj hfj hne hino r hr n item hchanged
    cases h
    rw [List.mem_singleton.mp hr] at hchanged
    cases hchanged
  · intro fi rs h
    cases h
    exact .cons (fun _ hitem => (nomatch hitem)) rfl trivial

/-- **The counts come apart** when a block is written with its own bytes, and when an evicted
block is read again through the handle that has read it before: then the row has the count 1 and
the cached block the count 0, and the assertion fails for the next handle. -/
theorem cached_count_differs :
    (¬∀ n b row, (Fs.after (plainConfig 0) [.create ['/', 'f'] sIfreg, .write 0 [7] 0,
        .write 0 [7] 0]).store.blocks.find n = some b →
      (Fs.after (plainConfig 0) [.create ['/', 'f'] sIfreg, .write 0 [7] 0,
        .write 0 [7] 0]).store.db.blockHashes.find n = some row → b.useCount = row.useCount) ∧
    (¬∀ n b row, (Fs.after (plainConfig 0) [.create ['/', 'f'] sIfreg, .write 0 [7] 0, .release 0,
        .openFile ['/', 'f'], .read 1 1 0, .writerPass [1], .read 1 1 0]).store.blocks.find n =
        some b →
      (Fs.after (plainConfig 0) [.create ['/', 'f'] sIfreg, .write 0 [7] 0, .release 0,
        .openFile ['/', 'f'], .read 1 1 0, .writerPass [1],
        .read 1 1 0]).store.db.blockHashes.find n = some row → b.useCount = row.useCount) ∧
    ¬Asserted (plainConfig 0) (Fs.after (plainConfig 0) [.create ['/', 'f'] sIfreg,
        .write 0 [7] 0, .release 0, .openFile ['/', 'f'], .read 1 1 0, .writerPass [1],
        .read 1 1 0, .release 1]).store
      ((Fs.after (plainConfig 0) [.create ['/', 'f'] sIfreg, .write 0 [7] 0, .release 0,
        .openFile ['/', 'f'], .read 1 1 0, .writerPass [1],
        .read 1 1 0, .release 1]).store.db.getByPath ['/', 'f']) 0 := by
  refine ⟨fun hall => ?_, fun hall => ?_, ?_⟩
  · have h := hall 1 _ ⟨1, [7], 0⟩ rfl rfl
    revert h
    decide
  · have h := hall 1 _ ⟨1, [7], 1⟩ rfl rfl
    revert h
    decide
  · unfold Asserted
    decide

end Wwdedup
