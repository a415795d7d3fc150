import Wwdedup.Isolation
import Wwdedup.OwnedBlocks

/-!
# Several handles on one file

Every handle works on a `FileInfo` of its own, and nothing carries a change over to the others:
an open handle keeps the `st_size` and the blocks that it knew.  What a write or a truncation
leaves is seen by handles that are opened afterwards, and by the open ones in the blocks that
they have not looked at yet, up to the size that they know.
-/

namespace Wwdedup

open GuardedRun

variable {bits : ℕ} {H : Type} [DecidableEq H]

/-! ### The bytes of a file -/

/-- The byte that the tables give for a position of a file. -/
def Store.byteOf (s : Store bits H) (fileId p : ℕ) : UInt8 :=
  s.blockOf fileId (p / blockSize bits) ⟨p % blockSize bits, Nat.mod_lt p (blockSize_pos bits)⟩

theorem Store.blockView_byteOf (s : Store bits H) (fileId n : ℕ) :
    blockView bits (s.byteOf fileId) n = s.blockOf fileId n := by
  funext i
  have hi := i.isLt
  have hpos := blockSize_pos bits
  have hdiv : (n * blockSize bits + i) / blockSize bits = n := by
    rw [Nat.mul_comm, Nat.mul_add_div hpos, Nat.div_eq_of_lt hi, Nat.add_zero]
  have hmod : (n * blockSize bits + i) % blockSize bits = i := by
    rw [Nat.mul_comm, Nat.mul_add_mod, Nat.mod_eq_of_lt hi]
  show s.blockOf fileId ((n * blockSize bits + i) / blockSize bits) ⟨_, _⟩ = s.blockOf fileId n i
  rw [hdiv]
  exact congrArg _ (Fin.ext hmod)

/-- A byte of a block of the file. -/
theorem Store.byteOf_block (s : Store bits H) (fileId n : ℕ) (i : Fin (blockSize bits)) :
    s.byteOf fileId (n * blockSize bits + i) = s.blockOf fileId n i := by
  rw [← s.blockView_byteOf]
  rfl

/-- The bytes depend on the rows, and on the contents of those that have one. -/
theorem Store.byteOf_kept {s s' : Store bits H}
    (hslots : ∀ k, (s.db.rowHash k).isSome → (s.content k).isSome)
    (hfile : ∀ f o, s'.db.fileHash f o = s.db.fileHash f o)
    (hsel : ∀ g, s'.db.selectBlockHash g = s.db.selectBlockHash g)
    (hcontent : ∀ k x, s.content k = some x → s'.content k = some x) : s'.byteOf = s.byteOf := by
  have hblock : ∀ f o, s'.blockOf f o = s.blockOf f o := by
    intro f o
    unfold Store.blockOf
    rw [hfile, funext hsel]
    cases hrow : (s.db.fileHash f o).bind s.db.selectBlockHash with
    | none => rfl
    | some row =>
      obtain ⟨g, -, hg⟩ := Option.bind_eq_some_iff.mp hrow
      have hsome := hslots row.id (by rw [Db.rowHash_of_select hg]; rfl)
      obtain ⟨x, hx⟩ := Option.isSome_iff_exists.mp hsome
      rw [Option.bind_some, Option.bind_some, hx, hcontent row.id x hx]
  funext f p
  unfold Store.byteOf
  rw [hblock]

section reads

variable {cfg : Config bits H} {s : Store bits H} {fi : FileInfo H}

/-- A database layer that does not take blocks for longer than they are finds every block that
starts inside the size. -/
theorem Store.freshBlock_inside (hdb : cfg.dbBlockSize ≤ blockSize bits) {n : ℕ}
    (hin : n * blockSize bits ≤ fi.stSize) : s.freshBlock cfg fi n = s.blockOf fi.stIno n := by
  unfold freshBlock
  exact if_neg (not_past hdb hin)

/-- The chunks of a range inside the size, read as the tables give them, are the range. -/
theorem freshBytes_window (hdb : cfg.dbBlockSize ≤ blockSize bits) {offset p q : ℕ}
    {cs : List Chunk} (h : Tiles bits offset p cs q) (hin : offset + q ≤ fi.stSize) :
    s.freshBytes cfg fi cs = window (s.byteOf fi.stIno) (offset + p) (q - p) := by
  induction h with
  | nil p =>
    rw [Nat.sub_self]
    rfl
  | @cons p q c cs pos place fits rest ih =>
    have hle := rest.le
    have hblock := @Store.freshBlock_inside bits H _ cfg s fi hdb c.block (by omega)
    have hrest := ih hin
    unfold Store.freshBytes at hrest ⊢
    rw [List.map_cons, List.flatten_cons, hrest, hblock, ← s.blockView_byteOf,
      slice_blockView _ fits, place, ← Nat.add_assoc, window_append]
    congr 1
    omega

/-- **A read of blocks that the handle does not know** shows what the tables give. -/
theorem readBuf_unknown (h : Coherent cfg s) (hfi : fi.Ok s.db)
    (hdb : cfg.dbBlockSize ≤ blockSize bits) {size offset : ℕ} (hle : offset ≤ fi.stSize)
    (hnew : ∀ c ∈ chunks bits (min size (fi.stSize - offset)) offset, fi.blocks c.block = none) :
    ∃ s' fi', readBuf cfg s fi size offset =
      .ok (s', fi', window (s.byteOf fi.stIno) offset (min size (fi.stSize - offset))) := by
  have hsize : (if size + offset > fi.stSize then fi.stSize - offset else size) =
      min size (fi.stSize - offset) := by
    split <;> omega
  rw [readBuf, if_pos (readStart_of_le hle)]
  dsimp only
  rw [hsize]
  obtain ⟨s', fi', hread⟩ := readChunks_fresh s fi h hfi rfl (fun _ => rfl) rfl rfl
    (chunks_pairwise _ _) hnew
  rw [freshBytes_window hdb (chunks_tiles ..) (by omega), Nat.add_zero, Nat.sub_zero] at hread
  exact ⟨s', fi', hread⟩

/-- A handle opened now reads the bytes that the tables give, up to the size. -/
theorem freshRead_window (h : Coherent cfg s) (hdb : cfg.dbBlockSize ≤ blockSize bits)
    (path : Path) : freshRead cfg s path =
      .ok (window (s.byteOf (s.db.getByPath path).stIno) 0 (s.db.getByPath path).stSize) := by
  rw [freshRead_eq h, freshBytes_window hdb (chunks_tiles ..) (by omega)]
  rfl

end reads

/-! ### What a write leaves -/

/-- The hash of the new content finds a block with that content only. -/
def Round.Genuine (cfg : Config bits H) (p : Store bits H × FileInfo H) : Round → Prop
  | .write buf c => ∀ x, NewContent cfg p.1 p.2 buf c x →
      ∀ row, p.1.db.selectBlockHash (cfg.murmur x) = some row → p.1.content row.id = some x
  | _ => True

/-- The block that a file block is written to has the new content, also when it was found. -/
theorem Wrote.content_self {s : Store bits H} {ino : ℕ} {data : Block bits} {hash : H}
    {fb : BlockInfo H} {r : Store bits H × BlockInfo H} (h : Wrote s ino data hash fb r)
    (hsame : ∀ row, s.db.selectBlockHash hash = some row → s.content row.id = some data) :
    r.1.content r.2.storageBlockNum = some data := by
  rw [h.content_eq]
  cases hsel : s.db.selectBlockHash hash with
  | none => exact if_pos ⟨rfl, rfl⟩
  | some row =>
    rw [if_neg (by simp), h.num_of_select hsel]
    exact hsame row hsel

/-- The block that was written has the new content. -/
theorem Wrote.blockOf_self {s : Store bits H} {ino : ℕ}
    {data : Block bits} {hash : H} {fb : BlockInfo H} {r : Store bits H × BlockInfo H}
    (h : Wrote s ino data hash fb r) (hu' : r.1.db.HashUnique)
    (hb : Replaces.Backed s.db fb (s.lock fb.storageBlock))
    (hsame : ∀ row, s.db.selectBlockHash hash = some row → s.content row.id = some data) :
    r.1.blockOf ino fb.fileBlockNum = data ∧ r.1.Mapped ino fb.fileBlockNum := by
  have hfile := h.fileHash_eq ino fb.fileBlockNum
  rw [if_pos rfl] at hfile
  have hrow := h.rowHash_eq hb r.2.storageBlockNum
  rw [if_pos rfl] at hrow
  refine ⟨Store.blockOf_eq hu' hfile hrow (h.content_self hsame), fun g hg => ?_⟩
  rw [hfile] at hg
  cases hg
  exact ⟨_, hrow⟩

section rounds

variable {cfg : Config bits H} {s s' : Store bits H} {fi fi' : FileInfo H}

/-- **A round of a write leaves its new content** in the block. -/
theorem roundStep_write_newContent (hco : Coherent cfg s) (hfi : fi.Ok s.db) {buf : List UInt8}
    {c : Chunk} {out : List UInt8} (hgen : Round.Genuine cfg (s, fi) (.write buf c))
    (hr : roundStep cfg (s, fi) (.write buf c) = .ok ((s', fi'), out)) :
    NewContent cfg s fi buf c (s'.blockOf fi.stIno c.block) ∧ s'.Mapped fi.stIno c.block := by
  have hco' := (roundStep_coherent hco hfi hr).1
  cases roundStep_stepped hr with
  | write _ _ old touched shown ran wrote =>
    have hloc := getLockedFileBlock_locates cfg s fi c.block
    obtain ⟨hl, hnum, hfb⟩ := hco.locate hfi c.block
    have hdb := touched.same.db.trans hloc.db_eq
    have hco₁ := hl.touches touched
    have hself := wrote.blockOf_self hco'.unique (hco₁.backed (hdb ▸ hfb)) (by
      intro row hrow
      rw [hdb] at hrow
      rw [touched.same.content, hloc.content_eq]
      exact hgen _ ⟨old, shown, rfl⟩ row hrow)
    rw [hnum] at hself
    exact ⟨⟨old, shown, hself.1⟩, hself.2⟩

/-- In the block are the bytes of the buffer over some old ones. -/
theorem roundStep_write_blockOf (hco : Coherent cfg s) (hfi : fi.Ok s.db) {buf : List UInt8}
    {c : Chunk} {out : List UInt8} (hgen : Round.Genuine cfg (s, fi) (.write buf c))
    (hr : roundStep cfg (s, fi) (.write buf c) = .ok ((s', fi'), out)) :
    (∃ old, s'.blockOf fi.stIno c.block = c.data buf old) ∧ s'.Mapped fi.stIno c.block := by
  obtain ⟨⟨old, -, hold⟩, hmap⟩ := roundStep_write_newContent hco hfi hgen hr
  exact ⟨⟨old, hold⟩, hmap⟩

/-- The rounds of a write leave their bytes in all blocks, and the table `files` as it is. -/
theorem run_writes_blockOf {cs : List Chunk} {buf : List UInt8} {os : List (List UInt8)}
    (hco : Coherent cfg s) (hfi : fi.Ok s.db) (hord : cs.Pairwise fun c d => c.block < d.block)
    (hok : Meets (roundStep cfg) (fun p r => r.Unshared cfg p ∧ r.Genuine cfg p) (s, fi)
      (cs.map (.write buf)))
    (hrun : run (roundStep cfg) (s, fi) (cs.map (.write buf)) = .ok ((s', fi'), os)) :
    s'.db.files = s.db.files ∧
      ∀ c ∈ cs, ∃ old, s'.blockOf fi.stIno c.block = c.data buf old := by
  induction cs generalizing s fi os with
  | nil =>
    cases hrun
    exact ⟨rfl, fun c hc => absurd hc List.not_mem_nil⟩
  | cons c cs ih =>
    obtain ⟨hlt, hord⟩ := List.pairwise_cons.mp hord
    obtain ⟨⟨s₁, fi₁⟩, out, os', hfirst, hrest, -⟩ := run_cons_ok.mp hrun
    obtain ⟨hco₁, hfi₁, -⟩ := roundStep_coherent hco hfi hfirst
    obtain ⟨hfiles, hino, -⟩ := roundStep_write_fileHash hco hfi hfirst
    have hok₁ := hok.2 _ _ hfirst
    obtain ⟨hfiles', hblocks⟩ := ih hco₁ hfi₁ hord hok₁ hrest
    refine ⟨hfiles'.trans hfiles, fun d hd => ?_⟩
    rcases List.mem_cons.mp hd with rfl | hd
    · -- the later rounds write later blocks
      obtain ⟨⟨old, hold⟩, hmap⟩ := roundStep_write_blockOf hco hfi hok.1.2 hfirst
      refine ⟨old, ?_⟩
      rw [← hold]
      refine (run_blockOf hco₁ hfi₁ (hok₁.mono fun _ _ h => h.1) hrest ?_ hmap).1
      intro r hr _ hchanged
      obtain ⟨e, he, rfl⟩ := List.mem_map.mp hr
      have heq : e.block = d.block := Option.some.inj hchanged
      have hgt := hlt e he
      omega
    · rw [← hino]
      exact hblocks d hd

/-- Every position of a range is in one of its chunks. -/
theorem Tiles.exists_chunk {offset p q i : ℕ} {cs : List Chunk} (h : Tiles bits offset p cs q)
    (hlow : p ≤ i) (hhigh : i < q) : ∃ c ∈ cs, c.pos ≤ i ∧ i < c.pos + c.len ∧
      c.block * blockSize bits + c.startOffset = offset + c.pos ∧
      c.startOffset + c.len ≤ blockSize bits := by
  induction h with
  | nil p => omega
  | @cons p q c cs pos place fits rest ih =>
    by_cases hc : i < p + c.len
    · exact ⟨c, List.mem_cons_self .., by omega, by omega, by rw [pos]; exact place, fits⟩
    · obtain ⟨d, hd, hin⟩ := ih (by omega) hhigh
      exact ⟨d, List.mem_cons_of_mem _ hd, hin⟩

/-- **What a write through a handle that knows the size leaves**: the new size, and its bytes. -/
theorem run_write_bytes {buf : List UInt8} {offset : ℕ} {os : List (List UInt8)} {row : FileRow}
    (hco : Coherent cfg s) (hfi : fi.Ok s.db) (hrow : s.db.files.find fi.stIno = some row)
    (hsize : fi.stSize = row.size)
    (hok : Meets (roundStep cfg) (fun p r => r.Unshared cfg p ∧ r.Genuine cfg p) (s, fi)
      (writeRounds bits fi buf offset))
    (hrun : run (roundStep cfg) (s, fi) (writeRounds bits fi buf offset) = .ok ((s', fi'), os)) :
    s'.db.files.find fi.stIno = some { row with size := max row.size (offset + buf.length) } ∧
      ∀ i, i < buf.length → s'.byteOf fi.stIno (offset + i) = buf.getD i 0 := by
  have hbytes : (∀ c ∈ chunks bits buf.length offset,
      ∃ old, s'.blockOf fi.stIno c.block = c.data buf old) →
      ∀ i, i < buf.length → s'.byteOf fi.stIno (offset + i) = buf.getD i 0 := by
    intro hblocks i hi
    obtain ⟨c, hc, hlow, hhigh, hplace, hfits⟩ :=
      (chunks_tiles bits buf.length offset).exists_chunk (Nat.zero_le i) hi
    obtain ⟨old, hold⟩ := hblocks c hc
    -- the position inside the block
    have hin : c.startOffset + (i - c.pos) < blockSize bits := by omega
    have hat : offset + i = c.block * blockSize bits + (⟨_, hin⟩ : Fin (blockSize bits)) := by
      show offset + i = c.block * blockSize bits + (c.startOffset + (i - c.pos))
      omega
    rw [hat, s'.byteOf_block, hold]
    unfold Chunk.data overlay
    rw [if_pos (by dsimp only; omega)]
    have hpos : c.pos + (c.startOffset + (i - c.pos) - c.startOffset) = i := by omega
    dsimp only
    rw [hpos]
  unfold writeRounds at hrun hok
  split at hrun
  · rename_i hgrow
    rw [if_pos hgrow] at hok
    obtain ⟨⟨s₁, fi₁⟩, out, os', hfirst, hrest, -⟩ := run_cons_ok.mp hrun
    obtain ⟨hco₁, hfi₁, -⟩ := roundStep_coherent hco hfi hfirst
    have hino := roundStep_stIno hfirst
    have hmeets := hok.2 _ _ hfirst
    obtain ⟨hfiles, hblocks⟩ := run_writes_blockOf hco₁ hfi₁ (chunks_pairwise _ _) hmeets hrest
    rw [hino] at hblocks
    refine ⟨?_, hbytes hblocks⟩
    cases hfirst
    have hne : fi.stSize ≠ buf.length + offset := by omega
    have hmax : max row.size (offset + buf.length) = buf.length + offset := by omega
    rw [hfiles, hmax]
    show (s.db.ftruncate fi ↑(buf.length + offset)).1.files.find fi.stIno = _
    rw [ftruncate_of_ne s.db hne]
    exact find_updateFileSize_self hrow _
  · rename_i hstay
    rw [if_neg hstay] at hok
    obtain ⟨hfiles, hblocks⟩ := run_writes_blockOf hco hfi (chunks_pairwise _ _) hok hrun
    refine ⟨?_, hbytes hblocks⟩
    have hmax : max row.size (offset + buf.length) = row.size := by omega
    rw [hfiles, hmax, hrow]

/-- A round that is no write keeps the content of every block but the one it gives up. -/
theorem roundStep_blockOf_of_ne_write (hco : Coherent cfg s) (hfi : fi.Ok s.db) {r : Round}
    {out : List UInt8} (hw : ∀ buf c, r ≠ .write buf c)
    (hr : roundStep cfg (s, fi) r = .ok ((s', fi'), out)) {o : ℕ} (hne : r.changed ≠ some o) :
    s'.blockOf fi.stIno o = s.blockOf fi.stIno o := by
  have hco' := (roundStep_coherent hco hfi hr).1
  cases roundStep_stepped hr with
  | resize newSize =>
    exact hco.blockOf_congr hco' (fun k => rowHash_ftruncate ..) (fun k => rfl)
      (fileHash_ftruncate ..)
  | read c x touched shown =>
    have hloc := getLockedFileBlock_locates cfg s fi c.block
    have hdb := touched.same.db.trans hloc.db_eq
    exact hco.blockOf_congr hco' (fun k => by rw [hdb])
      (fun k => (touched.same.content k).trans (hloc.content_eq k)) (by rw [hdb])
  | write buf c old touched shown ran wrote => exact absurd rfl (hw buf c)
  | release n g hash =>
    apply hco.blockOf_congr hco' (fun k => by rw [released_db, rowHash_released])
      (fun k => content_released ..)
    rw [released_db, fileHash_released, if_neg]
    intro heq
    exact hne (congrArg some (Prod.mk.inj heq).2.symm)

/-- **A truncation leaves the blocks that start in front of the new end.** -/
theorem run_truncate_blockOf {n m : ℕ} {os : List (List UInt8)} (hco : Coherent cfg s)
    (hfi : fi.Ok s.db) (hm : m * blockSize bits < n)
    (hrun : run (roundStep cfg) (s, fi) (truncateRounds bits fi n) = .ok ((s', fi'), os)) :
    s'.blockOf fi.stIno m = s.blockOf fi.stIno m := by
  -- no round writes, and none gives the block up
  have hrounds : ∀ r ∈ truncateRounds bits fi n,
      (∀ buf c, r ≠ .write buf c) ∧ r.changed ≠ some m := by
    intro r hr
    rcases mem_truncateRounds hr with rfl | ⟨o, ho, rfl⟩
    · exact ⟨nofun, nofun⟩
    · refine ⟨nofun, fun heq => ?_⟩
      cases heq
      omega
  have hkept := run_invariant
    (G := fun _ r => (∀ buf c, r ≠ Round.write buf c) ∧ r.changed ≠ some m)
    (I := fun q => Coherent cfg q.1 ∧ q.2.Ok q.1.db ∧ q.2.stIno = fi.stIno ∧
      q.1.blockOf fi.stIno m = s.blockOf fi.stIno m)
    (s := (s, fi)) ?_ ⟨hco, hfi, rfl, rfl⟩ ?_ hrun
  · exact hkept.2.2.2
  · rintro ⟨s₁, fi₁⟩ r ⟨s₂, fi₂⟩ o ⟨hco₁, hfi₁, hino, hblock₁⟩ hr hstep
    obtain ⟨hco₂, hfi₂, -⟩ := roundStep_coherent hco₁ hfi₁ hstep
    have hsame := roundStep_blockOf_of_ne_write hco₁ hfi₁ hr.1 hstep hr.2
    change fi₁.stIno = fi.stIno at hino
    rw [hino] at hsame
    exact ⟨hco₂, hfi₂, (roundStep_stIno hstep).trans hino, hsame.trans hblock₁⟩
  · have hall := (@meets_of_forall _ _ _ _ (roundStep cfg) (fun _ _ => True)
      (fun _ _ => trivial) (s, fi) (truncateRounds bits fi n)).and_mem hrounds
    exact hall.mono fun _ _ h => h.1

/-- So it leaves the bytes in front of the new end. -/
theorem run_truncate_bytes {n : ℕ} {os : List (List UInt8)} (hco : Coherent cfg s)
    (hfi : fi.Ok s.db)
    (hrun : run (roundStep cfg) (s, fi) (truncateRounds bits fi n) = .ok ((s', fi'), os)) :
    ∀ p, p < n → s'.byteOf fi.stIno p = s.byteOf fi.stIno p := by
  intro p hp
  have hblock : p / blockSize bits * blockSize bits < n :=
    Nat.lt_of_le_of_lt (Nat.div_mul_le_self p _) hp
  unfold Store.byteOf
  rw [run_truncate_blockOf hco hfi hblock hrun]

end rounds

/-! ### Steps -/

/-- The size of the file after a write or a truncation. -/
def Op.resized : Op → ℕ → ℕ
  | .write _ buf offset, size => max size (offset + buf.length)
  | .truncate _ newSize, _ => newSize.toNat
  | .ftruncate _ newSize, _ => newSize.toNat
  | _, size => size

/-- The bytes of the file after a write are those of the buffer in its range; after a truncation
those in front of the new end are the old ones. -/
def Op.Shows : Op → (ℕ → UInt8) → (ℕ → UInt8) → Prop
  | .write _ buf offset, _, f' => ∀ i, i < buf.length → f' (offset + i) = buf.getD i 0
  | .truncate _ newSize, f, f' => ∀ p, p < newSize.toNat → f' p = f p
  | .ftruncate _ newSize, f, f' => ∀ p, p < newSize.toNat → f' p = f p
  | _, _, _ => True

/-- The other open handles are not touched by a write or a truncation. -/
theorem Op.Modifies.handles_eq {cfg : Config bits H} {fs fs' : Fs bits H} {op : Op} {out : Out}
    (hop : op.Modifies) (h : fs.step cfg op = .ok (fs', out)) {fh : ℕ}
    (hne : op.handle ≠ some fh) : fs'.handles fh = fs.handles fh := by
  cases op with
  | write fh' buf offset =>
    obtain ⟨fi, fi', s', os, -, -, -, rfl, -⟩ := Fs.step_write_ok h
    exact Function.update_of_ne (fun heq => hne (congrArg some heq.symm)) _ _
  | truncate path newSize =>
    obtain ⟨rfl, -⟩ | ⟨n, fi', s', os, -, -, -, rfl⟩ := Fs.step_truncate_ok h
    · rfl
    · rfl
  | ftruncate fh' newSize =>
    obtain ⟨rfl, -⟩ | ⟨n, fi, fi', s', os, -, -, -, -, rfl⟩ := Fs.step_ftruncate_ok h
    · rfl
    · exact Function.update_of_ne (fun heq => hne (congrArg some heq.symm)) _ _
  | _ => exact hop.elim

/-- What a write or a truncation through a `FileInfo` that knows the size leaves in the
store. -/
theorem Op.Modifies.leaves {cfg : Config bits H} {fs fs' : Fs bits H} {op : Op} {out : Out}
    (hop : op.Modifies) (hco : fs.Coherent cfg) (h : fs.step cfg op = .ok (fs', out))
    {fi : FileInfo H} {rs : List Round} {row : FileRow} (hr : fs.rounds op = some (fi, rs))
    (hrow : fs.store.db.files.find fi.stIno = some row) (hsize : fi.stSize = row.size)
    (hok : fs.RoundsMeet cfg (fun p r => r.Unshared cfg p ∧ r.Genuine cfg p) op) :
    fs'.store.db.files.find fi.stIno = some { row with size := op.resized row.size } ∧
      op.Shows (fs.store.byteOf fi.stIno) (fs'.store.byteOf fi.stIno) := by
  have hfi := hco.acts_ok hr
  cases op with
  | write fh buf offset =>
    obtain ⟨fi₁, fi', s', os, -, hr₁, hrun, rfl, -⟩ := Fs.step_write_ok h
    rw [hr] at hr₁
    cases hr₁
    exact run_write_bytes hco.1 hfi hrow hsize (hok _ _ hr) hrun
  | truncate path newSize =>
    obtain ⟨-, hnone⟩ | ⟨n, fi', s', os, rfl, hr₁, hrun, rfl⟩ := Fs.step_truncate_ok h
    · rw [hnone] at hr
      cases hr
    · rw [hr] at hr₁
      cases hr₁
      exact ⟨run_truncate_size hrow hsize hrun, run_truncate_bytes hco.1 hfi hrun⟩
  | ftruncate fh newSize =>
    obtain ⟨-, hnone⟩ | ⟨n, fi₁, fi', s', os, rfl, -, hr₁, hrun, rfl⟩ := Fs.step_ftruncate_ok h
    · rw [hnone] at hr
      cases hr
    · rw [hr] at hr₁
      cases hr₁
      exact ⟨run_truncate_size hrow hsize hrun, run_truncate_bytes hco.1 hfi hrun⟩
  | _ => exact hop.elim

/-- **What the other handles see of a write or a truncation** through a `FileInfo` that knows the
size of the file.  The open ones are not touched.  The file has the new size, and a handle that
is opened now reads the new bytes; an open one reads them in blocks that it has not looked at
yet, up to the size that it knows. -/
theorem handles_after_change (cfg : Config bits H) (hdb : cfg.dbBlockSize ≤ blockSize bits)
    (fs fs' : Fs bits H) (op : Op) (out : Out)
    (hreach : Reachable (Fs.step cfg) (Fs.init bits H) fs) (hop : op.Modifies)
    (hstep : fs.step cfg op = .ok (fs', out)) :
    (∀ fh, op.handle ≠ some fh → fs'.handles fh = fs.handles fh) ∧
    ∀ fi rs row, fs.rounds op = some (fi, rs) → fs.store.db.files.find fi.stIno = some row →
      fi.stSize = row.size →
      fs.RoundsMeet cfg (fun p r => r.Unshared cfg p ∧ r.Genuine cfg p) op →
      fs'.store.db.files.find fi.stIno = some { row with size := op.resized row.size } ∧
      ∃ f f' : ℕ → UInt8, op.Shows f f' ∧
        freshRead cfg fs.store row.path = .ok (window f 0 row.size) ∧
        freshRead cfg fs'.store row.path = .ok (window f' 0 (op.resized row.size)) ∧
        ∀ fh fj, fs'.handles fh = some fj → fj.stIno = fi.stIno →
          ∀ size offset, offset ≤ fj.stSize →
            (∀ c ∈ chunks bits (min size (fj.stSize - offset)) offset, fj.blocks c.block = none) →
            ∃ s fj', readBuf cfg fs'.store fj size offset =
              .ok (s, fj', window f' offset (min size (fj.stSize - offset))) := by
  have hco := Fs.reachable_coherent hreach
  have hco' := Fs.step_coherent hco hstep
  refine ⟨fun fh hne => hop.handles_eq hstep hne, fun fi rs row hr hrow hsize hok => ?_⟩
  obtain ⟨hrow', hshows⟩ := hop.leaves hco hstep hr hrow hsize hok
  have hid := KeyedTable.key_of_find hrow
  -- the row is the one of its path, before and after
  have hpath := (Fs.reachable_filesOk hreach).getByPath_of_mem (KeyedTable.mem_of_find hrow)
  have hpath' := (Fs.reachable_filesOk (hreach.next hstep)).getByPath_of_mem
    (KeyedTable.mem_of_find hrow')
  change fs'.store.db.getByPath row.path = _ at hpath'
  have hread := freshRead_window hco.1 hdb row.path
  have hread' := freshRead_window hco'.1 hdb row.path
  rw [hpath] at hread
  rw [hpath'] at hread'
  change freshRead cfg fs.store row.path = .ok (window (fs.store.byteOf row.id) 0 row.size)
    at hread
  change freshRead cfg fs'.store row.path =
    .ok (window (fs'.store.byteOf row.id) 0 (op.resized row.size)) at hread'
  change row.id = fi.stIno at hid
  rw [hid] at hread hread'
  refine ⟨hrow', _, _, hshows, hread, hread', fun fh fj hfj hino size offset hle hnew => ?_⟩
  have hown := readBuf_unknown hco'.1 (hco'.2 fh fj hfj) hdb hle hnew
  rw [hino] at hown
  exact hown

/-- A write through one of two handles that both know the size. -/
theorem handles_after_change_two :
    (∀ fh, (Op.write 0 [7] 0).handle ≠ some fh →
      (Fs.after (plainConfig 0) [.create ['/', 'f'] sIfreg, .openFile ['/', 'f'],
        .write 0 [7] 0]).handles fh =
      (Fs.after (plainConfig 0) [.create ['/', 'f'] sIfreg, .openFile ['/', 'f']]).handles fh) ∧
    ∃ f f' : ℕ → UInt8, (Op.write 0 [7] 0).Shows f f' ∧
      freshRead (plainConfig 0) (Fs.after (plainConfig 0)
        [.create ['/', 'f'] sIfreg, .openFile ['/', 'f']]).store ['/', 'f'] =
        .ok (window f 0 0) ∧
      freshRead (plainConfig 0) (Fs.after (plainConfig 0)
        [.create ['/', 'f'] sIfreg, .openFile ['/', 'f'], .write 0 [7] 0]).store ['/', 'f'] =
        .ok (window f' 0 1) := by
  obtain ⟨hsame, hsees⟩ := handles_after_change (plainConfig 0) (by decide)
    (Fs.after (plainConfig 0) [.create ['/', 'f'] sIfreg, .openFile ['/', 'f']])
    (Fs.after (plainConfig 0) [.create ['/', 'f'] sIfreg, .openFile ['/', 'f'], .write 0 [7] 0])
    (.write 0 [7] 0) (.ret 1) (Fs.after_reachable _ _) trivial rfl
  refine ⟨hsame, ?_⟩
  have hmeets : (Fs.after (plainConfig 0) [.create ['/', 'f'] sIfreg,
      .openFile ['/', 'f']]).RoundsMeet (plainConfig 0)
        (fun p r => r.Unshared (plainConfig 0) p ∧ r.Genuine (plainConfig 0) p)
        (.write 0 [7] 0) := by
    intro fi rs h
    cases h
    refine .cons ⟨trivial, trivial⟩ rfl (.cons ⟨fun x _ b hb => ?_, fun x _ row hrow => ?_⟩ rfl
      trivial)
    · cases hb
    · cases hrow
  obtain ⟨-, f, f', hshows, hbefore, hafter, -⟩ := hsees
    { name := ['/', 'f'], depth := 1, stIno := 2, stSize := 0, stMode := sIfreg,
      blocks := fun _ => none } _ ⟨2, ['/', 'f'], 1, 0, sIfreg⟩ rfl rfl rfl hmeets
  exact ⟨f, f', hshows, hbefore, hafter⟩

/-- **An open handle goes on with what it knew.**  It reads nothing of a file that another
handle has written, it reads the old byte of a block that it has read before, and its write
makes a file of three bytes one byte long. -/
theorem open_handle_is_stale :
    ((run (Fs.step (plainConfig 0)) (Fs.init 0 (List UInt8))
      [.create ['/', 'f'] sIfreg, .openFile ['/', 'f'], .write 0 [7] 0, .read 1 1 0]).map
        Prod.snd ≠ .ok [.opened 0, .opened 1, .ret 1, .bytes [7]]) ∧
    ((run (Fs.step (plainConfig 0)) (Fs.init 0 (List UInt8))
      [.create ['/', 'f'] sIfreg, .write 0 [7] 0, .create ['/', 'g'] sIfreg, .write 1 [7] 0,
        .openFile ['/', 'f'], .read 2 1 0, .write 0 [8] 0, .read 2 1 0]).map Prod.snd ≠
      .ok [.opened 0, .ret 1, .opened 1, .ret 1, .opened 2, .bytes [7], .ret 1, .bytes [8]]) ∧
    ¬∀ row row', (Fs.after (plainConfig 0) [.create ['/', 'f'] sIfreg, .openFile ['/', 'f'],
        .write 0 [7, 8, 9] 0]).store.db.files.find 2 = some row →
      (Fs.after (plainConfig 0) [.create ['/', 'f'] sIfreg, .openFile ['/', 'f'],
        .write 0 [7, 8, 9] 0, .write 1 [5] 0]).store.db.files.find 2 = some row' →
      row.size ≤ row'.size := by
  refine ⟨?_, ?_, fun hall => ?_⟩
  · have hrun : (run (Fs.step (plainConfig 0)) (Fs.init 0 (List UInt8))
        [.create ['/', 'f'] sIfreg, .openFile ['/', 'f'], .write 0 [7] 0, .read 1 1 0]).map
          Prod.snd = .ok [.opened 0, .opened 1, .ret 1, .bytes []] := rfl
    rw [hrun]
    decide
  · have hrun : (run (Fs.step (plainConfig 0)) (Fs.init 0 (List UInt8))
        [.create ['/', 'f'] sIfreg, .write 0 [7] 0, .create ['/', 'g'] sIfreg, .write 1 [7] 0,
          .openFile ['/', 'f'], .read 2 1 0, .write 0 [8] 0, .read 2 1 0]).map Prod.snd =
        .ok [.opened 0, .ret 1, .opened 1, .ret 1, .opened 2, .bytes [7], .ret 1, .bytes [7]] := rfl
    rw [hrun]
    decide
  · have h := hall ⟨2, ['/', 'f'], 1, 3, sIfreg⟩ ⟨2, ['/', 'f'], 1, 1, sIfreg⟩ rfl rfl
    revert h
    decide

end Wwdedup
