import Wwdedup.Handles

/-!
# Reading through a new handle

A handle that only reads follows the tables: a `block_info` that it keeps says of its block what
a lookup would say again, whichever blocks were loaded, evicted and loaded again meanwhile
(`FileInfo.Follows`).  What the store has to provide is weaker than coherence: the contents need
not have the hashes of their rows.  `Readable` is that, and every step of a read and every pass
of the writer keeps it.
-/

namespace Wwdedup

open GuardedRun

variable {bits : ℕ} {H : Type} [DecidableEq H]

/-- What reading relies on.  SQLite numbers rows from 1, every hash of `file_blocks` is one of
`block_hashes`, the data of a clean block are those of its slot, and a row whose block has no
data in the cache has its slot fully present. -/
structure Store.Readable (s : Store bits H) : Prop where
  numbered : s.db.rowHash 0 = none
  mapped : ∀ f o g, s.db.fileHash f o = some g → (s.db.selectBlockHash g).isSome
  clean : ∀ k b x, s.blocks.find k = some b → b.dirty = false → b.data = some x →
    s.storage.read k = some x
  slots : ∀ k, (s.db.rowHash k).isSome → (s.content k).isSome

/-- The `block_info` says what the tables say: a hole where there is no row, and else the number
of the row with the hash. -/
structure BlockInfo.Follows (db : Db H) (ino : ℕ) (fb : BlockInfo H) : Prop where
  ok : fb.Ok db
  hole : fb.empty = true → fb.storageBlock = none ∧ db.fileHash ino fb.fileBlockNum = none
  row : fb.empty = false → ∃ row, (db.fileHash ino fb.fileBlockNum).bind db.selectBlockHash =
    some row ∧ fb.storageBlockNum = row.id

/-- Every `block_info` of the handle follows the tables. -/
def FileInfo.Follows (db : Db H) (fi : FileInfo H) : Prop :=
  ∀ n fb, fi.blocks n = some fb → fb.fileBlockNum = n ∧ fb.Follows db fi.stIno

theorem FileInfo.Follows.getByPath (db : Db H) (path : Path) : (db.getByPath path).Follows db := by
  intro n fb h
  rw [Db.getByPath_blocks] at h
  cases h

theorem FileInfo.Follows.setBlock {db : Db H} {fi : FileInfo H} (h : fi.Follows db)
    {fb : BlockInfo H} (hfb : fb.Follows db fi.stIno) : (fi.setBlock fb).Follows db := by
  intro n fb' hn
  rw [FileInfo.setBlock_blocks, Function.update_apply] at hn
  split at hn
  · rename_i hkey
    cases hn
    exact ⟨hkey.symm, hfb⟩
  · exact h n fb' hn

/-- A coherent store can be read when every hash of `file_blocks` has a row. -/
theorem Coherent.readable {cfg : Config bits H} {s : Store bits H} (h : Coherent cfg s)
    (hmapped : ∀ f o g, s.db.fileHash f o = some g → (s.db.selectBlockHash g).isSome) :
    s.Readable where
  numbered := h.zero
  mapped := hmapped
  clean := h.stored
  slots k hk := by
    obtain ⟨g, hg⟩ := Option.isSome_iff_exists.mp hk
    obtain ⟨x, hx, -⟩ := h.row k g (fun hf => hf) hg
    rw [hx]
    rfl

/-! ### One block -/

section blocks

variable {cfg : Config bits H} {s s' : Store bits H} {fi : FileInfo H} {n : ℕ}

/-- What the handle keeps or reads for a block that starts inside the file follows the tables. -/
theorem fileBlock_follows
    (hmapped : ∀ f o g, s.db.fileHash f o = some g → (s.db.selectBlockHash g).isSome)
    (hfi : ∀ item, fi.blocks n = some item →
      item.fileBlockNum = n ∧ item.Follows s.db fi.stIno)
    (hdb : cfg.dbBlockSize ≤ blockSize bits) (hin : n * blockSize bits ≤ fi.stSize) :
    (fileBlock cfg s fi n).1.fileBlockNum = n ∧
      (fileBlock cfg s fi n).1.Follows s.db fi.stIno := by
  unfold fileBlock
  cases hfb : fi.blocks n with
  | some item => exact hfi item hfb
  | none =>
    dsimp only
    have hl := loadFileBlock_loads cfg s.db fi n
    generalize loadFileBlock cfg s.db fi (.new n) = r at hl ⊢
    cases hl with
    | skipped past => exact absurd past (not_past hdb hin)
    | absent unmapped => exact ⟨rfl, .of_zero rfl rfl, fun _ => ⟨rfl, unmapped⟩, nofun⟩
    | dangling g mapped sel =>
      have hsome := hmapped _ _ g mapped
      rw [sel] at hsome
      cases hsome
    | found row mapped sel =>
      refine ⟨rfl, ⟨nofun, fun _ => ?_⟩, nofun, fun _ => ⟨row, ?_, rfl⟩⟩
      · show (s.db.rowHash row.id).isSome
        rw [Db.rowHash_of_select sel]
        rfl
      · show (s.db.fileHash fi.stIno n).bind s.db.selectBlockHash = some row
        rw [mapped]
        exact sel

/-- A cache that got an object without data, or data of a slot, can still be read. -/
theorem Store.Readable.put (h : s.Readable) {b : StorageBlock bits H}
    (hcontent : ∀ k, (s.put b).content k = s.content k)
    (hb : b.dirty = false → ∀ x, b.data = some x →
      s.storage.read b.storageBlockNum = some x) : (s.put b).Readable where
  numbered := h.numbered
  mapped := h.mapped
  clean k b' x hfind hd hx := by
    rw [Store.find_put] at hfind
    split at hfind
    · rename_i hk
      cases hfind
      rw [hk]
      exact hb hd x hx
    · exact h.clean k b' x hfind hd hx
  slots k hk := by
    rw [hcontent]
    exact h.slots k hk

theorem Store.Readable.ensureLoaded (h : s.Readable) (fb : BlockInfo H) (u : ℤ) :
    (ensureLoaded s fb u).1.Readable := by
  have h' : { s with nextUid := s.nextUid + 1 }.Readable :=
    ⟨h.numbered, h.mapped, h.clean, h.slots⟩
  obtain ⟨-, -, hcontent, -⟩ := ensureLoaded_views s fb u
  unfold Wwdedup.ensureLoaded at hcontent ⊢
  cases hfind : s.blocks.find fb.storageBlockNum with
  | some item => exact h'
  | none =>
    rw [hfind] at hcontent
    apply h'.put hcontent
    intro _ x hx
    cases hx

theorem Store.Readable.touches (h : s.Readable) (ht : s.Touches s') : s'.Readable := by
  have hcontent := ht.same.content
  cases ht with
  | none => exact h
  | seen b now hfind =>
    apply h.put hcontent
    intro hd x hx
    exact h.clean _ b x hfind hd hx
  | filled b now x hfind num data slot =>
    apply h.put hcontent
    intro _ y hy
    cases hy
    exact slot

/-- A located block that follows the tables shows what they give. -/
theorem Locates.shown_follows {item : BlockInfo H} {u : ℤ} {l : Located bits H}
    (hl : Locates s fi item u l) {ino : ℕ} (hitem : item.Follows s.db ino)
    (hz : s.db.rowHash 0 = none) (hslots : ∀ k, (s.db.rowHash k).isSome → (s.content k).isSome) :
    l.store.shown l.fblock.storageBlock = some (s.blockOf ino item.fileBlockNum) := by
  rw [hl.shown_eq hitem.ok]
  cases hempty : item.empty with
  | true =>
    obtain ⟨hptr, hfile⟩ := hitem.hole hempty
    rw [Store.blockOf_of_fileHash_none hfile, hptr]
    exact if_pos (.inl ⟨rfl, rfl⟩)
  | false =>
    obtain ⟨row, hrow, hid⟩ := hitem.row hempty
    obtain ⟨g, hg, hsel⟩ := Option.bind_eq_some_iff.mp hrow
    have hrow' := Db.rowHash_of_select hsel
    obtain ⟨x, hx⟩ := Option.isSome_iff_exists.mp (hslots row.id (by rw [hrow']; rfl))
    rw [Store.blockOf_of_select hg hsel hx, hid, if_neg]
    · exact hx
    · rintro (⟨hf, -⟩ | hzero)
      · cases hf
      · rw [hzero, hz] at hrow'
        cases hrow'

/-- **A located block shows what the tables give.** -/
theorem Store.Readable.locate (h : s.Readable) (hfi : fi.Follows s.db)
    (hdb : cfg.dbBlockSize ≤ blockSize bits) (hin : n * blockSize bits ≤ fi.stSize) :
    let l := getLockedFileBlock cfg s fi n
    l.store.Readable ∧ l.fblock.Follows s.db fi.stIno ∧
      l.store.shown l.fblock.storageBlock = some (s.blockOf fi.stIno n) := by
  obtain ⟨hnum, hfollows⟩ := fileBlock_follows h.mapped (hfi n) hdb hin
  have hl := getLockedFileBlock_locates cfg s fi n
  have hshown := hl.shown_follows hfollows h.numbered h.slots
  rw [hnum] at hshown
  generalize getLockedFileBlock cfg s fi n = l at hl hshown ⊢
  generalize fileBlock cfg s fi n = item at hl hfollows
  cases hl with
  | kept => exact ⟨h, hfollows, hshown⟩
  | reloaded filled dead =>
    refine ⟨h.ensureLoaded _ _, ⟨⟨?_, hfollows.ok.known⟩, ?_, hfollows.row⟩, hshown⟩
    · intro p hp
      cases hp
      exact (ensureLoaded_views s _ _).2.2.2.2.2.2.1
    · intro hempty
      change item.1.empty = true at hempty
      rw [filled] at hempty
      cases hempty

end blocks

/-! ### One call -/

/-- What a call of `readBuf` leaves: the tables, the storage file and every content. -/
structure Reads (s : Store bits H) (fi : FileInfo H) (s' : Store bits H) (fi' : FileInfo H) :
    Prop where
  readable : s'.Readable
  follows : fi'.Follows s'.db
  db : s'.db = s.db
  storage : s'.storage = s.storage
  content : ∀ k, s'.content k = s.content k
  stIno : fi'.stIno = fi.stIno
  stSize : fi'.stSize = fi.stSize

section calls

variable {cfg : Config bits H} {s s' s'' : Store bits H} {fi fi' fi'' : FileInfo H}

theorem Reads.trans (h : Reads s fi s' fi') (h' : Reads s' fi' s'' fi'') :
    Reads s fi s'' fi'' where
  readable := h'.readable
  follows := h'.follows
  db := h'.db.trans h.db
  storage := h'.storage.trans h.storage
  content k := (h'.content k).trans (h.content k)
  stIno := h'.stIno.trans h.stIno
  stSize := h'.stSize.trans h.stSize

theorem Reads.byteOf (h : Reads s fi s' fi') : s'.byteOf = s.byteOf := by
  funext f p
  simp only [Store.byteOf, Store.blockOf, h.db, h.content]

/-- One round reads its part of the block. -/
theorem readChunk_reads (h : s.Readable) (hfi : fi.Follows s.db)
    (hdb : cfg.dbBlockSize ≤ blockSize bits) {c : Chunk}
    (hfits : c.startOffset + c.len ≤ blockSize bits)
    (hin : c.block * blockSize bits ≤ fi.stSize) :
    ∃ s' fi', readChunk cfg s fi c = .ok (s', fi', window (s.byteOf fi.stIno)
      (c.block * blockSize bits + c.startOffset) c.len) ∧ Reads s fi s' fi' := by
  obtain ⟨hreadable, hfollows, hshown⟩ := h.locate hfi hdb hin
  obtain ⟨⟨s', fi', bytes⟩, hread⟩ := readChunk_isOk (by rw [hshown]; rfl)
  obtain ⟨ht, rfl, x, hx, rfl⟩ := readChunk_ok hread
  have hl := getLockedFileBlock_locates cfg s fi c.block
  have hdb' : s'.db = s.db := ht.same.db.trans hl.db_eq
  rw [hshown] at hx
  cases hx
  rw [← s.blockView_byteOf, slice_blockView _ hfits] at hread
  refine ⟨s', _, hread, hreadable.touches ht, ?_, hdb', ht.same.storage.trans hl.storage_eq,
    fun k => (ht.same.content k).trans (hl.content_eq k), ?_, ?_⟩
  · rw [hl.finfo_eq, hdb']
    exact hfi.setBlock hfollows
  · rw [hl.finfo_eq]
    rfl
  · rw [hl.finfo_eq]
    rfl

/-- The rounds of a call read the range that their chunks cover. -/
theorem readChunks_reads (hdb : cfg.dbBlockSize ≤ blockSize bits) {offset p q : ℕ}
    {cs : List Chunk} (htiles : Tiles bits offset p cs q) (h : s.Readable)
    (hfi : fi.Follows s.db) (hin : offset + q ≤ fi.stSize) :
    ∃ s' fi', readChunks cfg s fi cs =
      .ok (s', fi', window (s.byteOf fi.stIno) (offset + p) (q - p)) ∧ Reads s fi s' fi' := by
  induction htiles generalizing s fi with
  | nil p =>
    rw [Nat.sub_self]
    exact ⟨s, fi, rfl, h, hfi, rfl, rfl, fun _ => rfl, rfl, rfl⟩
  | @cons p q c cs pos place fits rest ih =>
    have hle := rest.le
    obtain ⟨s₁, fi₁, hread, hr₁⟩ := @readChunk_reads bits H _ cfg s fi h hfi hdb c fits (by omega)
    obtain ⟨s', fi', hrest, hr⟩ := ih hr₁.readable hr₁.follows (hr₁.stSize ▸ hin)
    refine ⟨s', fi', ?_, hr₁.trans hr⟩
    have hlen : c.len + (q - (p + c.len)) = q - p := by omega
    rw [readChunks, hread]
    dsimp only
    rw [hrest]
    dsimp only
    rw [hr₁.byteOf, hr₁.stIno, place, ← Nat.add_assoc, window_append, hlen]

/-- **A call of `readBuf`** returns the bytes that the tables give, up to the end of the file. -/
theorem readBuf_reads (hdb : cfg.dbBlockSize ≤ blockSize bits) (h : s.Readable)
    (hfi : fi.Follows s.db) {size offset : ℕ} (hle : offset ≤ fi.stSize) :
    ∃ s' fi', readBuf cfg s fi size offset =
      .ok (s', fi', window (s.byteOf fi.stIno) offset (min size (fi.stSize - offset))) ∧
        Reads s fi s' fi' := by
  have hsize : (if size + offset > fi.stSize then fi.stSize - offset else size) =
      min size (fi.stSize - offset) := by
    split <;> omega
  rw [readBuf, if_pos (readStart_of_le hle)]
  dsimp only
  rw [hsize]
  have hread := readChunks_reads hdb (chunks_tiles bits (min size (fi.stSize - offset)) offset)
    h hfi (by omega)
  rw [Nat.add_zero, Nat.sub_zero] at hread
  exact hread

end calls

/-! ### Passes of the writer -/

section passes

variable {s : Store bits H}

theorem Store.Readable.flush (h : s.Readable) (p : StorageBlock bits H → Bool) :
    (s.flush p).Readable where
  numbered := h.numbered
  mapped := h.mapped
  clean := Store.Stored.flush h.clean p
  slots k hk := by
    obtain ⟨x, hx⟩ := Option.isSome_iff_exists.mp (h.slots k hk)
    rw [Store.content_flush hx]
    rfl

/-- **A pass keeps every content**, and the store can still be read. -/
theorem Store.Readable.writerPass (h : s.Readable) (victims : List ℕ) :
    (s.writerPass victims).Readable ∧
      ∀ k x, s.content k = some x → (s.writerPass victims).content k = some x := by
  have hkeeps := fun k x => Store.Stored.content_writerPass h.clean victims (k := k) (x := x)
  refine ⟨⟨h.numbered, h.mapped, ?_, fun k hk => ?_⟩, hkeeps⟩
  · intro k b x hb hd hx
    rw [Store.writerPass_eq, Store.find_evict] at hb
    split at hb
    · cases hb
    · exact ((h.flush _).flush _).clean k b x hb hd hx
  · obtain ⟨x, hx⟩ := Option.isSome_iff_exists.mp (h.slots k hk)
    rw [hkeeps k x hx]
    rfl

end passes

/-! ### Runs -/

/-- A call through the handle, or a pass of the writer between two calls. -/
inductive Reading where
  | read (size offset : ℕ)
  | writerPass (victims : List ℕ)

def Reading.op (fh : ℕ) : Reading → Op
  | .read size offset => .read fh size offset
  | .writerPass victims => .writerPass victims

/-- What the call shows, by the tables and the size of the file. -/
def Reading.out (s : Store bits H) (fi : FileInfo H) : Reading → Out
  | .read size offset =>
    .bytes (window (s.byteOf fi.stIno) offset (min size (fi.stSize - offset)))
  | .writerPass _ => .ret 0

/-- The handle still reads the file `fi` as the store `s` gave it. -/
structure Fs.StillReads (s : Store bits H) (fi : FileInfo H) (fh : ℕ) (fs : Fs bits H) :
    Prop where
  readable : fs.store.Readable
  db : fs.store.db = s.db
  content : ∀ k x, s.content k = some x → fs.store.content k = some x
  handle : ∃ fi', fs.handles fh = some fi' ∧ fi'.Follows fs.store.db ∧
    fi'.stIno = fi.stIno ∧ fi'.stSize = fi.stSize

namespace Fs.StillReads

variable {cfg : Config bits H} {s : Store bits H} {fi : FileInfo H} {fh : ℕ} {fs : Fs bits H}

theorem byteOf (h : fs.StillReads s fi fh) (hs : s.Readable) : fs.store.byteOf = s.byteOf :=
  Store.byteOf_kept hs.slots (fun _ _ => by rw [h.db]) (fun _ => by rw [h.db]) h.content

/-- A call shows the bytes of the first store and leaves tables, storage file and contents. -/
theorem read (h : fs.StillReads s fi fh) (hs : s.Readable)
    (hdb : cfg.dbBlockSize ≤ blockSize bits) {size offset : ℕ} (hle : offset ≤ fi.stSize) :
    ∃ fs', fs.step cfg (.read fh size offset) =
        .ok (fs', (Reading.read size offset).out s fi) ∧
      fs'.StillReads s fi fh ∧ fs'.store.db = fs.store.db ∧
      fs'.store.storage = fs.store.storage ∧
      ∀ k, fs'.store.content k = fs.store.content k := by
  obtain ⟨fi₁, hfi₁, hfollows, hino, hsize⟩ := h.handle
  obtain ⟨s', fi', hread, hr⟩ := @readBuf_reads bits H _ cfg fs.store fi₁ hdb h.readable hfollows
    size offset (by omega)
  refine ⟨(fs.setStore s').setHandle fh fi', ?_, ?_, hr.db, hr.storage, hr.content⟩
  · simp only [Fs.step, Fs.read, hfi₁, hread, Reading.out, h.byteOf hs, hino, hsize]
  · refine ⟨hr.readable, hr.db.trans h.db, fun k x hx => ?_, fi', Function.update_self ..,
      hr.follows, hr.stIno.trans hino, hr.stSize.trans hsize⟩
    show s'.content k = some x
    rw [hr.content]
    exact h.content k x hx

theorem step (h : fs.StillReads s fi fh) (hs : s.Readable)
    (hdb : cfg.dbBlockSize ≤ blockSize bits) {r : Reading}
    (hin : ∀ size offset, r = .read size offset → offset ≤ fi.stSize) :
    ∃ fs', fs.step cfg (r.op fh) = .ok (fs', r.out s fi) ∧ fs'.StillReads s fi fh := by
  cases r with
  | read size offset =>
    obtain ⟨fs', hstep, h', -⟩ := h.read hs hdb (hin size offset rfl)
    exact ⟨fs', hstep, h'⟩
  | writerPass victims =>
    obtain ⟨hreadable, hkeeps⟩ := h.readable.writerPass victims
    refine ⟨fs.setStore (fs.store.writerPass victims), rfl, hreadable, h.db, ?_, h.handle⟩
    intro k x hx
    exact hkeeps k x (h.content k x hx)

/-- Every run of calls and passes shows the bytes of the first store. -/
theorem run (h : fs.StillReads s fi fh) (hs : s.Readable)
    (hdb : cfg.dbBlockSize ≤ blockSize bits) {rs : List Reading}
    (hin : ∀ size offset, .read size offset ∈ rs → offset ≤ fi.stSize) :
    ∃ fs', GuardedRun.run (fun fs r => fs.step cfg (Reading.op fh r)) fs rs =
      .ok (fs', rs.map (Reading.out s fi)) ∧ fs'.StillReads s fi fh := by
  induction rs generalizing fs with
  | nil => exact ⟨fs, rfl, h⟩
  | cons r rs ih =>
    obtain ⟨fs₁, hstep, h₁⟩ := h.step hs hdb (r := r) fun size offset hr =>
      hin size offset (hr ▸ List.mem_cons_self ..)
    obtain ⟨fs', hrun, h'⟩ := ih h₁ fun size offset hr =>
      hin size offset (List.mem_cons_of_mem _ hr)
    refine ⟨fs', ?_, h'⟩
    rw [GuardedRun.run, hstep]
    dsimp only
    rw [hrun]
    rfl

end Fs.StillReads

/-- **Reads through a new handle are correct.**  Every call returns
`min size (st_size - offset)` bytes, those of the blocks that the rows of the file refer to, and
zeros where there is no row, however often the writer has flushed and evicted meanwhile; the
calls leave the tables, the storage file and the contents. -/
theorem new_handle_reads (cfg : Config bits H) (fs fs₁ : Fs bits H) (path : Path) (fh : ℕ)
    (rs : List Reading) (hdb : cfg.dbBlockSize = blockSize bits) (hs : fs.store.Readable)
    (hopen : fs.step cfg (.openFile path) = .ok (fs₁, .opened fh))
    (hin : ∀ size offset, .read size offset ∈ rs →
      offset ≤ (fs.store.db.getByPath path).stSize) :
    ∃ fs', run (fun fs r => fs.step cfg (Reading.op fh r)) fs₁ rs =
        .ok (fs', rs.map (Reading.out fs.store (fs.store.db.getByPath path))) ∧
      fs'.store.db = fs.store.db ∧
      (∀ k x, fs.store.content k = some x → fs'.store.content k = some x) ∧
      ∀ size offset, offset ≤ (fs.store.db.getByPath path).stSize →
        ∃ fs'', fs'.step cfg (.read fh size offset) = .ok (fs'',
            (Reading.read size offset).out fs.store (fs.store.db.getByPath path)) ∧
          fs''.store.db = fs'.store.db ∧ fs''.store.storage = fs'.store.storage ∧
          ∀ k, fs''.store.content k = fs'.store.content k := by
  have hstart : fs₁.StillReads fs.store (fs.store.db.getByPath path) fh := by
    simp only [Fs.step, Fs.openFile, Except.ok.injEq] at hopen
    split at hopen
    · cases hopen
    · split at hopen
      · cases hopen
      · cases hopen
        exact ⟨hs, rfl, fun _ _ hx => hx, _, Function.update_self .., .getByPath _ path, rfl, rfl⟩
  obtain ⟨fs', hrun, h'⟩ := hstart.run hs hdb.le hin
  refine ⟨fs', hrun, h'.db, h'.content, fun size offset hle => ?_⟩
  obtain ⟨fs'', hread, -, hdb', hstorage, hcontent⟩ :=
    @Fs.StillReads.read _ _ _ cfg _ _ _ fs' h' hs hdb.le size offset hle
  exact ⟨fs'', hread, hdb', hstorage, hcontent⟩

/-- A block of the file is read, evicted and read again. -/
theorem new_handle_reads_evicted :
    ∃ fs', run (fun fs r => fs.step (plainConfig 0) (Reading.op 1 r))
        (Fs.after (plainConfig 0)
          [.create ['/', 'f'] sIfreg, .write 0 [7] 0, .openFile ['/', 'f']])
        [.read 1 0, .writerPass [1], .read 5 0] =
      .ok (fs', [.bytes [7], .ret 0, .bytes [7]]) := by
  have hco := (Fs.reachable_coherent (Fs.after_reachable (plainConfig 0)
    [.create ['/', 'f'] sIfreg, .write 0 [7] 0])).1
  have hreadable := hco.readable fun f o g hg => by
    obtain ⟨r, hr, rfl⟩ := Option.map_eq_some_iff.mp hg
    have hmem := KeyedTable.mem_of_find hr
    rw [List.mem_singleton.mp (show r ∈ [⟨2, 0, [7]⟩] from hmem)]
    rfl
  have hin : ∀ size offset, .read size offset ∈
      [Reading.read 1 0, .writerPass [1], .read 5 0] → offset ≤ 1 := by
    intro size offset hmem
    simp only [List.mem_cons, Reading.read.injEq, reduceCtorEq, List.not_mem_nil,
      or_false, false_or] at hmem
    omega
  obtain ⟨fs', hrun, -⟩ := new_handle_reads (plainConfig 0)
    (Fs.after (plainConfig 0) [.create ['/', 'f'] sIfreg, .write 0 [7] 0]) _ ['/', 'f'] 1
    [.read 1 0, .writerPass [1], .read 5 0] rfl hreadable rfl hin
  exact ⟨fs', hrun⟩

end Wwdedup
