import Wwdedup.Chunks
import Wwdedup.Coherence
import Wwdedup.FilesTable

/-!
# No orphaned blocks

Every row of `file_blocks` belongs to a file that exists, and lies inside its size
(`OwnedBlocks`); then a new file has no blocks whatever number it gets.  Two things break this:
`rename` onto an existing file removes the row of that file only, where `Unlink` truncates it
first, and a handle whose `st_size` is out of date can set `files.size` below blocks that are
there, or write behind it.
-/

namespace Wwdedup

open GuardedRun

variable {bits : ℕ} {H : Type} [DecidableEq H]

/-- A block starts inside the size exactly when its number is below the first block past the
end. -/
theorem lt_endBlock_iff {n size : ℕ} : n < endBlock bits size ↔ n * blockSize bits < size := by
  unfold endBlock
  split
  · rw [Nat.shiftRight_eq_div_pow, ← blockSize_eq, Nat.lt_succ_iff,
      Nat.le_div_iff_mul_le (blockSize_pos bits)]
    omega
  · omega

/-- Every block belongs to a file, no directory, and starts inside its size. -/
def OwnedBlocks (bits : ℕ) (db : Db H) : Prop :=
  ∀ f o g, db.fileHash f o = some g →
    ∃ row, db.files.find f = some row ∧ sIsdir row.mode = false ∧ o * blockSize bits < row.size

/-- The number is that of a file, no directory. -/
def Db.IsFile (db : Db H) (id : ℕ) : Prop :=
  ∃ row, db.files.find id = some row ∧ sIsdir row.mode = false

section tables

variable {db db' : Db H}

section

omit [DecidableEq H]

theorem OwnedBlocks.isFile (h : OwnedBlocks bits db) {f o : ℕ} {g : H}
    (hf : db.fileHash f o = some g) : db.IsFile f := by
  obtain ⟨row, hrow, hmode, -⟩ := h f o g hf
  exact ⟨row, hrow, hmode⟩

theorem Db.IsFile.kept {id : ℕ} (h : db.IsFile id) (hkept : db.FileKept db' id) :
    db'.IsFile id := by
  obtain ⟨row, hrow, hdir⟩ := h
  obtain ⟨row', hrow', -, hmode⟩ := hkept row hrow
  exact ⟨row', hrow', by rw [hmode, hdir]⟩

/-- Blocks stay owned when none is new and their files stay. -/
theorem OwnedBlocks.kept (h : OwnedBlocks bits db)
    (hfile : ∀ f o g, db'.fileHash f o = some g → db.fileHash f o = some g)
    (hkept : ∀ f o g, db.fileHash f o = some g → db.FileKept db' f) : OwnedBlocks bits db' := by
  intro f o g hf
  have hold := hfile f o g hf
  obtain ⟨row, hrow, hdir, hsize⟩ := h f o g hold
  obtain ⟨row', hrow', hsize', hmode'⟩ := hkept f o g hold row hrow
  exact ⟨row', hrow', by rw [hmode', hdir], by rw [hsize']; exact hsize⟩

theorem find_updateFileSize_self {db : Db H} {id : ℕ} {row : FileRow}
    (h : db.files.find id = some row) (size : ℕ) :
    (db.updateFileSize size id).files.find id = some { row with size := size } := by
  rw [Db.find_updateFileSize, h, Option.map_some, if_pos (KeyedTable.key_of_find h)]

/-- A size may be set that all blocks of the file are inside of. -/
theorem OwnedBlocks.updateFileSize (h : OwnedBlocks bits db) {size id : ℕ}
    (hinside : ∀ o g, db.fileHash id o = some g → o * blockSize bits < size) :
    OwnedBlocks bits (db.updateFileSize size id) := by
  intro f o g hf
  rw [Db.fileHash_updateFileSize] at hf
  obtain ⟨row, hrow, hdir, hsize⟩ := h f o g hf
  by_cases hid : f = id
  · rw [hid] at hf hrow ⊢
    exact ⟨_, find_updateFileSize_self hrow size, hdir, hinside o g hf⟩
  · refine ⟨row, ?_, hdir, hsize⟩
    rw [Db.find_updateFileSize, hrow, Option.map_some, if_neg]
    rw [KeyedTable.key_of_find hrow]
    exact hid

end

end tables

/-! ### Rounds -/

section rounds

variable {cfg : Config bits H} {s s' : Store bits H} {fi fi' : FileInfo H}

/-- A round keeps the path and the mode of every row. -/
theorem roundStep_names {r : Round} {out : List UInt8}
    (hr : roundStep cfg (s, fi) r = .ok ((s', fi'), out)) (id : ℕ) :
    (s'.db.files.find id).map (fun row => (row.path, row.mode)) =
      (s.db.files.find id).map fun row => (row.path, row.mode) := by
  rcases roundStep_files hr with heq | ⟨size, heq⟩
  · rw [heq]
  · rw [heq, Db.find_updateFileSize, Option.map_map]
    congr 1
    funext row
    show ((if row.id = fi.stIno then { row with size := size } else row).path,
      (if row.id = fi.stIno then { row with size := size } else row).mode) = (row.path, row.mode)
    split <;> rfl

theorem run_names {rs : List Round} {os : List (List UInt8)}
    (hrun : run (roundStep cfg) (s, fi) rs = .ok ((s', fi'), os)) (id : ℕ) :
    (s'.db.files.find id).map (fun row => (row.path, row.mode)) =
      (s.db.files.find id).map fun row => (row.path, row.mode) := by
  refine run_invariant (G := fun _ _ => True) (I := fun p =>
    (p.1.db.files.find id).map (fun row => (row.path, row.mode)) =
      (s.db.files.find id).map fun row => (row.path, row.mode)) ?_ rfl
    (meets_of_forall (fun _ _ => trivial) _ _) hrun
  rintro ⟨s₁, fi₁⟩ r ⟨s₂, fi₂⟩ o h - hr
  exact (roundStep_names hr id).trans h

theorem Db.IsFile.of_run {rs : List Round} {os : List (List UInt8)} {id : ℕ} (h : s.db.IsFile id)
    (hrun : run (roundStep cfg) (s, fi) rs = .ok ((s', fi'), os)) : s'.db.IsFile id := by
  obtain ⟨row, hrow, hdir⟩ := h
  have hname := run_names hrun id
  rw [hrow, Option.map_some, Option.map_eq_some_iff] at hname
  obtain ⟨row', hrow', heq⟩ := hname
  exact ⟨row', hrow', by rw [(Prod.mk.inj heq).2, hdir]⟩

/-- A round of a write adds no block but the one that it writes, and leaves the table `files`. -/
theorem roundStep_write_fileHash (hco : Coherent cfg s) (hfi : fi.Ok s.db) {buf : List UInt8}
    {c : Chunk} {out : List UInt8}
    (hr : roundStep cfg (s, fi) (.write buf c) = .ok ((s', fi'), out)) :
    s'.db.files = s.db.files ∧ fi'.stIno = fi.stIno ∧ ∀ f o g, s'.db.fileHash f o = some g →
      f = fi.stIno ∧ o = c.block ∨ s.db.fileHash f o = some g := by
  cases roundStep_stepped hr with
  | write _ _ old touched shown ran wrote =>
    have hdb := touched.same.db.trans (getLockedFileBlock_locates cfg s fi c.block).db_eq
    refine ⟨by rw [wrote.files_eq, hdb], rfl, fun f o g hf => ?_⟩
    rw [wrote.fileHash_eq, (hco.locate hfi c.block).2.1, hdb] at hf
    split at hf
    · rename_i heq
      exact .inl (Prod.mk.inj heq)
    · exact .inr hf

/-- Writes of blocks that start inside the size keep all blocks owned. -/
theorem run_writes_owned {cs : List Chunk} {buf : List UInt8} {os : List (List UInt8)}
    {row : FileRow} (hco : Coherent cfg s) (hfi : fi.Ok s.db) (h : OwnedBlocks bits s.db)
    (hrow : s.db.files.find fi.stIno = some row) (hdir : sIsdir row.mode = false)
    (hin : ∀ c ∈ cs, c.block * blockSize bits < row.size)
    (hrun : run (roundStep cfg) (s, fi) (cs.map (.write buf)) = .ok ((s', fi'), os)) :
    OwnedBlocks bits s'.db := by
  induction cs generalizing s fi os with
  | nil =>
    cases hrun
    exact h
  | cons c cs ih =>
    obtain ⟨⟨s₁, fi₁⟩, out, os', hfirst, hrest, -⟩ := run_cons_ok.mp hrun
    obtain ⟨hco₁, hfi₁, -⟩ := roundStep_coherent hco hfi hfirst
    obtain ⟨hfiles, hino, hhash⟩ := roundStep_write_fileHash hco hfi hfirst
    refine ih hco₁ hfi₁ ?_ (by rw [hfiles, hino, hrow])
      (fun c' hc' => hin c' (List.mem_cons_of_mem _ hc')) hrest
    intro f o g hf
    rw [hfiles]
    rcases hhash f o g hf with ⟨rfl, rfl⟩ | hold
    · exact ⟨row, hrow, hdir, hin c (List.mem_cons_self ..)⟩
    · exact h f o g hold

/-- Releasing blocks takes their rows and no others, and leaves the table `files`. -/
theorem run_releases {ns : List ℕ} {os : List (List UInt8)}
    (hrun : run (roundStep cfg) (s, fi) (ns.map .release) = .ok ((s', fi'), os)) :
    s'.db.files = s.db.files ∧ fi'.stIno = fi.stIno ∧ fi'.stSize = fi.stSize ∧
      ∀ f o g, s'.db.fileHash f o = some g →
        s.db.fileHash f o = some g ∧ (f = fi.stIno → o ∉ ns) := by
  induction ns generalizing s fi os with
  | nil =>
    cases hrun
    exact ⟨rfl, rfl, rfl, fun f o g hf => ⟨hf, fun _ => List.not_mem_nil⟩⟩
  | cons n ns ih =>
    obtain ⟨⟨s₁, fi₁⟩, out, os', hfirst, hrest, -⟩ := run_cons_ok.mp hrun
    cases roundStep_stepped hfirst with
    | release _ g₀ hash =>
      obtain ⟨hfiles, hino, hsize, hhash⟩ := ih hrest
      rw [released_db] at hfiles hhash
      refine ⟨by rw [hfiles, files_released], hino, hsize, fun f o g hf => ?_⟩
      obtain ⟨hf₁, hnot⟩ := hhash f o g hf
      rw [fileHash_released] at hf₁
      split at hf₁
      · cases hf₁
      · rename_i hne
        refine ⟨hf₁, fun heq hmem => ?_⟩
        rcases List.mem_cons.mp hmem with rfl | hmem
        · exact hne (by rw [heq])
        · exact hnot heq hmem

omit [DecidableEq H] in
theorem ftruncate_of_ne (db : Db H) {n : ℕ} (h : fi.stSize ≠ n) :
    (db.ftruncate fi n).1 = db.updateFileSize n fi.stIno := by
  unfold Db.ftruncate
  rw [if_neg (by omega), if_neg (by omega), Int.toNat_natCast]

omit [DecidableEq H] in
/-- A change of the size keeps all blocks owned when it leaves none behind the new end. -/
theorem OwnedBlocks.ftruncate {db : Db H} (h : OwnedBlocks bits db) {n : ℕ}
    (hin : fi.stSize ≠ n → ∀ o g, db.fileHash fi.stIno o = some g → o * blockSize bits < n) :
    OwnedBlocks bits (db.ftruncate fi n).1 := by
  by_cases hn : fi.stSize = n
  · unfold Db.ftruncate
    rw [if_neg (by omega), if_pos (by omega)]
    exact h
  · rw [ftruncate_of_ne db hn]
    exact h.updateFileSize (hin hn)

/-- The size that `files` has after a write up to the byte `e` through the handle covers what
was there before and what was written: `e` when the handle takes that for more than the size,
the old one otherwise.  So it is whenever the handle knows the size. -/
def FileInfo.Covers (fi : FileInfo H) (size e : ℕ) : Prop :=
  if fi.stSize < e then size ≤ e else e ≤ size

/-- A truncation to `n` through the handle gives up all blocks behind `n` or leaves the size.
So it is whenever the handle knows the size. -/
def FileInfo.Clears (fi : FileInfo H) (size n : ℕ) : Prop :=
  fi.stSize ≠ n → size ≤ max n fi.stSize

omit [DecidableEq H] in
theorem FileInfo.covers_of_eq {size : ℕ} (h : fi.stSize = size) (e : ℕ) : fi.Covers size e := by
  unfold Covers
  split <;> omega

omit [DecidableEq H] in
theorem FileInfo.clears_of_eq {size : ℕ} (h : fi.stSize = size) (n : ℕ) : fi.Clears size n := by
  intro _
  omega

/-- **A write keeps all blocks owned** when the size afterwards covers them. -/
theorem run_write_owned {buf : List UInt8} {offset : ℕ} {os : List (List UInt8)} {row : FileRow}
    (hco : Coherent cfg s) (hfi : fi.Ok s.db) (h : OwnedBlocks bits s.db)
    (hrow : s.db.files.find fi.stIno = some row) (hdir : sIsdir row.mode = false)
    (hcovers : fi.Covers row.size (buf.length + offset)) (hbuf : buf ≠ [])
    (hrun : run (roundStep cfg) (s, fi) (writeRounds bits fi buf offset) = .ok ((s', fi'), os)) :
    OwnedBlocks bits s'.db := by
  have hlen : 0 < buf.length := List.length_pos_iff.mpr hbuf
  have hbelow := (chunks_tiles bits buf.length offset).block_lt (chunks_len_pos hlen offset)
  unfold FileInfo.Covers at hcovers
  unfold writeRounds at hrun
  split at hrun
  · rename_i hgrow
    rw [if_pos hgrow] at hcovers
    obtain ⟨⟨s₁, fi₁⟩, out, os', hfirst, hrest, -⟩ := run_cons_ok.mp hrun
    obtain ⟨hco₁, hfi₁, -⟩ := roundStep_coherent hco hfi hfirst
    have hne : fi.stSize ≠ buf.length + offset := by omega
    have howned : OwnedBlocks bits (s.db.ftruncate fi ↑(buf.length + offset)).1 := by
      apply h.ftruncate
      intro _ o g hf
      obtain ⟨row', hrow', -, hin⟩ := h _ o g hf
      rw [hrow] at hrow'
      cases hrow'
      omega
    have hrow₁ : (s.db.ftruncate fi ↑(buf.length + offset)).1.files.find fi.stIno =
        some { row with size := buf.length + offset } := by
      rw [ftruncate_of_ne s.db hne]
      exact find_updateFileSize_self hrow _
    cases hfirst
    rw [← stIno_ftruncate s.db fi ↑(buf.length + offset)] at hrow₁
    exact run_writes_owned hco₁ hfi₁ howned hrow₁ hdir hbelow hrest
  · rename_i hstay
    rw [if_neg hstay] at hcovers
    refine run_writes_owned hco hfi h hrow hdir ?_ hrun
    intro c hc
    have := hbelow c hc
    omega

/-- The blocks that a truncation from one size to a smaller one gives up are those behind the
new end. -/
theorem mem_released {n size o : ℕ} :
    o ∈ List.range' (endBlock bits n)
      ((if size ≠ 0 then ((size - 1) >>> bits) + 1 else 1) - endBlock bits n) ↔
      n ≤ o * blockSize bits ∧ (o * blockSize bits < size ∨ size = 0 ∧ o = 0) := by
  have hn : n ≤ o * blockSize bits ↔ endBlock bits n ≤ o := by
    rw [← Nat.not_lt, ← lt_endBlock_iff, Nat.not_lt]
  rw [List.mem_range'_1, ← lt_endBlock_iff, hn]
  have hsize : endBlock bits size = if size ≠ 0 then ((size - 1) >>> bits) + 1 else 0 := rfl
  split
  · rename_i hne
    rw [if_pos hne] at hsize
    omega
  · rename_i hzero
    rw [if_neg hzero] at hsize
    omega

omit [DecidableEq H] in
/-- A truncation gives up blocks that start behind the new end, and changes the size. -/
theorem mem_truncateRounds {n : ℕ} {r : Round} (h : r ∈ truncateRounds bits fi n) :
    r = .resize n ∨ ∃ m, n ≤ m * blockSize bits ∧ r = .release m := by
  unfold truncateRounds at h
  split at h
  · exact .inl (List.mem_singleton.mp h)
  · rcases List.mem_append.mp h with h | h
    · obtain ⟨m, hm, rfl⟩ := List.mem_map.mp h
      exact .inr ⟨m, (mem_released.mp hm).1, rfl⟩
    · exact .inl (List.mem_singleton.mp h)

/-- **A truncation keeps all blocks owned** when it gives up all that are behind the new end. -/
theorem run_truncate_owned {n : ℕ} {os : List (List UInt8)} {row : FileRow}
    (h : OwnedBlocks bits s.db) (hrow : s.db.files.find fi.stIno = some row)
    (hclears : fi.Clears row.size n)
    (hrun : run (roundStep cfg) (s, fi) (truncateRounds bits fi n) = .ok ((s', fi'), os)) :
    OwnedBlocks bits s'.db := by
  unfold truncateRounds at hrun
  split at hrun
  · rename_i hgrow
    obtain ⟨⟨s₁, fi₁⟩, out, os', hfirst, hrest, -⟩ := run_cons_ok.mp hrun
    cases hfirst
    cases hrest
    apply h.ftruncate
    intro hne o g hf
    obtain ⟨row', hrow', -, hin⟩ := h _ o g hf
    rw [hrow] at hrow'
    cases hrow'
    have := hclears hne
    omega
  · rename_i hshrink
    obtain ⟨⟨s₁, fi₁⟩, os₁, os₂, hrel, hlast, -⟩ := run_append_ok.mp hrun
    obtain ⟨hfiles, hino, hsize₁, hhash⟩ := run_releases hrel
    obtain ⟨⟨s₂, fi₂⟩, out, os', hfirst, hrest, -⟩ := run_cons_ok.mp hlast
    cases hfirst
    cases hrest
    have h₁ : OwnedBlocks bits s₁.db := by
      intro f o g hf
      rw [hfiles]
      exact h f o g (hhash f o g hf).1
    apply h₁.ftruncate
    intro _ o g hf
    rw [hino] at hf
    obtain ⟨hold, hnot⟩ := hhash _ o g hf
    obtain ⟨row', hrow', -, hin⟩ := h _ o g hold
    rw [hrow] at hrow'
    cases hrow'
    have hmax := hclears (by omega)
    by_contra hge
    apply hnot rfl
    rw [mem_released]
    omega

/-- A truncation through a handle that knows the size sets it. -/
theorem run_truncate_size {n : ℕ} {os : List (List UInt8)} {row : FileRow}
    (hrow : s.db.files.find fi.stIno = some row) (hsize : fi.stSize = row.size)
    (hrun : run (roundStep cfg) (s, fi) (truncateRounds bits fi n) = .ok ((s', fi'), os)) :
    s'.db.files.find fi.stIno = some { row with size := n } := by
  have hset : ∀ {db : Db H} {fi : FileInfo H}, db.files.find fi.stIno = some row →
      fi.stSize = row.size →
      (db.ftruncate fi n).1.files.find fi.stIno = some { row with size := n } := by
    intro db fi hrow hsize
    by_cases hn : fi.stSize = n
    · unfold Db.ftruncate
      rw [if_neg (by omega), if_pos (by omega), hrow, ← hn, hsize]
    · rw [ftruncate_of_ne db hn]
      exact find_updateFileSize_self hrow n
  unfold truncateRounds at hrun
  split at hrun
  · obtain ⟨⟨s₁, fi₁⟩, out, os', hfirst, hrest, -⟩ := run_cons_ok.mp hrun
    cases hfirst
    cases hrest
    exact hset hrow hsize
  · obtain ⟨⟨s₁, fi₁⟩, os₁, os₂, hrel, hlast, -⟩ := run_append_ok.mp hrun
    obtain ⟨hfiles, hino, hsize₁, -⟩ := run_releases hrel
    obtain ⟨⟨s₂, fi₂⟩, out, os', hfirst, hrest, -⟩ := run_cons_ok.mp hlast
    cases hfirst
    cases hrest
    rw [← hino]
    apply hset
    · rw [hfiles, hino, hrow]
    · rw [hsize₁, hsize]

/-- Reading changes no table. -/
theorem run_reads_db {cs : List Chunk} {os : List (List UInt8)}
    (hrun : run (roundStep cfg) (s, fi) (cs.map .read) = .ok ((s', fi'), os)) : s'.db = s.db := by
  induction cs generalizing s fi os with
  | nil =>
    cases hrun
    rfl
  | cons c cs ih =>
    obtain ⟨⟨s₁, fi₁⟩, out, os', hfirst, hrest, -⟩ := run_cons_ok.mp hrun
    rw [ih hrest]
    cases roundStep_stepped hfirst with
    | read _ x touched shown =>
      rw [touched.same.db, (getLockedFileBlock_locates cfg s fi c.block).db_eq]

end rounds

/-! ### Steps -/

namespace Fs

/-- No handle is open on the file at the path. -/
def Unopened (fs : Fs bits H) (path : Path) : Prop :=
  ∀ row ∈ fs.store.db.files.rows, row.path = path →
    ∀ fh fi, fs.handles fh = some fi → fi.stIno ≠ row.id

/-- What the callers keep to: `Create` makes no directory, a write has bytes, and no handle is
open on a file that is removed or replaced. -/
def Proper (fs : Fs bits H) : Op → Prop
  | .create _ mode => sIsdir mode = false
  | .write _ buf _ => buf ≠ []
  | .unlink path => fs.Unopened path
  | .rename oldPath newPath =>
    ∀ q, fs.store.db.renameCheck oldPath newPath = .ok q → fs.Unopened newPath
  | _ => True

/-- Nothing orphans a block: `rename` replaces no file that has blocks, and the size that a
write or a truncation through a handle leaves in `files` covers the blocks of the file. -/
def KeepsBlocks (fs : Fs bits H) : Op → Prop
  | .rename oldPath newPath =>
    ∀ q, fs.store.db.renameCheck oldPath newPath = .ok q →
      ∀ row ∈ fs.store.db.files.rows, row.path = newPath →
        ∀ o, fs.store.db.fileHash row.id o = none
  | .write fh buf offset =>
    ∀ fi row, fs.handles fh = some fi → fs.store.db.files.find fi.stIno = some row →
      fi.Covers row.size (buf.length + offset)
  | .ftruncate fh newSize =>
    ∀ fi row, fs.handles fh = some fi → fs.store.db.files.find fi.stIno = some row →
      fi.Clears row.size newSize.toNat
  | _ => True

/-- All blocks have their file, and so has every handle. -/
structure Owned (fs : Fs bits H) : Prop where
  files : fs.store.db.FilesOk
  blocks : OwnedBlocks bits fs.store.db
  handles : ∀ fh fi, fs.handles fh = some fi → fs.store.db.IsFile fi.stIno

variable {cfg : Config bits H} {fs : Fs bits H}

omit [DecidableEq H] in
theorem owned_iff : fs.Owned ↔
    fs.Holds (fun s => s.db.FilesOk ∧ OwnedBlocks bits s.db) (fun s fi => s.db.IsFile fi.stIno) :=
  ⟨fun h => ⟨⟨h.files, h.blocks⟩, h.handles⟩, fun h => ⟨h.1.1, h.1.2, h.2⟩⟩

omit [DecidableEq H] in
/-- A step that changes the table `files` alone. -/
theorem Owned.setDb (h : fs.Owned) {db : Db H} (hok : db.FilesOk)
    (hblocks : ∀ f o, db.fileHash f o = fs.store.db.fileHash f o)
    (hkept : ∀ id, (∃ o, (fs.store.db.fileHash id o).isSome) ∨
      (∃ fh fi, fs.handles fh = some fi ∧ fi.stIno = id) → fs.store.db.FileKept db id) :
    (fs.setDb db).Owned where
  files := hok
  blocks := by
    refine h.blocks.kept (fun f o g hf => by rw [← hblocks]; exact hf) fun f o g hf => ?_
    exact hkept f (.inl ⟨o, by rw [hf]; rfl⟩)
  handles fh fi hfi := (h.handles fh fi hfi).kept (hkept _ (.inr ⟨fh, fi, hfi, rfl⟩))

/-- A request through a handle that keeps all blocks owned. -/
theorem Owned.through (h : fs.Owned) {fh : ℕ} {fi fi' : FileInfo H} {rs : List Round}
    {s' : Store bits H} {os : List (List UInt8)} (opened : fs.handles fh = some fi)
    (ran : run (roundStep cfg) (fs.store, fi) rs = .ok ((s', fi'), os))
    (howned : OwnedBlocks bits s'.db) : ((fs.setStore s').setHandle fh fi').Owned := by
  have hfile : s'.db.IsFile fi'.stIno := by
    rw [run_stIno ran]
    exact (h.handles fh fi opened).of_run ran
  exact owned_iff.mpr (Holds.setHandle ⟨run_filesOk h.files ran, howned⟩ hfile
    fun k fj _ hfj => (h.handles k fj hfj).of_run ran)

/-- A request through a `FileInfo` of its own that keeps all blocks owned. -/
theorem Owned.byPath (h : fs.Owned) {fi fi' : FileInfo H} {rs : List Round}
    {s' : Store bits H} {os : List (List UInt8)}
    (ran : run (roundStep cfg) (fs.store, fi) rs = .ok ((s', fi'), os))
    (howned : OwnedBlocks bits s'.db) : (fs.setStore s').Owned where
  files := run_filesOk h.files ran
  blocks := howned
  handles fh fj hfj := (h.handles fh fj hfj).of_run ran

omit [DecidableEq H] in
theorem Owned.create (h : fs.Owned) (path : Path) (mode : ℕ) :
    (fs.setDb (fs.store.db.create path mode).1).Owned := by
  obtain ⟨heq, -⟩ | ⟨-, hok, hkept, -⟩ := Db.create_cases h.files path mode
  · rw [heq]
    exact h
  · obtain ⟨files, hf⟩ := create_setFiles fs.store.db path mode
    refine h.setDb hok (fun f o => ?_) fun id _ => hkept id
    rw [hf]
    rfl

omit [DecidableEq H] in
/-- The `FileInfo` of a path with a row. -/
theorem exists_row {path : Path} (h : (fs.store.db.getByPath path).stIno ≠ 0) :
    ∃ row ∈ fs.store.db.files.rows, row.path = path ∧ fs.store.db.getByPath path = row.info ∧
      fs.store.db.files.find (fs.store.db.getByPath path).stIno = some row := by
  obtain ⟨row, hrow, hpath, heq⟩ := Db.getByPath_of_ne_zero h
  refine ⟨row, hrow, hpath, heq, ?_⟩
  rw [heq]
  exact KeyedTable.find_of_mem hrow

/-- **`Unlink` keeps all blocks owned**: the truncation has given up the blocks of the file. -/
theorem Owned.unlink (h : fs.Owned) {path : Path} (hopen : fs.Unopened path)
    (hino : (fs.store.db.getByPath path).stIno ≠ 0) {fi' : FileInfo H} {s' : Store bits H}
    {os : List (List UInt8)}
    (ran : run (roundStep cfg) (fs.store, fs.store.db.getByPath path)
      (truncateRounds bits (fs.store.db.getByPath path) 0) = .ok ((s', fi'), os)) :
    (fs.setStore (s'.setDb (s'.db.remove path).1)).Owned := by
  obtain ⟨row, hmem, hpath, hinfo, hrow⟩ := exists_row hino
  have hsize : (fs.store.db.getByPath path).stSize = row.size := by rw [hinfo]; rfl
  have howned := run_truncate_owned h.blocks hrow (FileInfo.clears_of_eq hsize 0) ran
  have hempty := run_truncate_size hrow hsize ran
  have hmid := h.byPath ran howned
  -- a row at the path is the row of the file
  have hid : ∀ id row', s'.db.files.find id = some row' → row'.path = path → id = row.id := by
    intro id row' hrow' hpath'
    have hname := run_names ran row.id
    rw [hinfo] at hrow
    change fs.store.db.files.find row.id = some row at hrow
    rw [hrow, Option.map_some, Option.map_eq_some_iff] at hname
    obtain ⟨row₁, hrow₁, hnames⟩ := hname
    have hsame := hmid.files.paths row' (KeyedTable.mem_of_find hrow') row₁
      (KeyedTable.mem_of_find hrow₁) (by rw [hpath', (Prod.mk.inj hnames).1, hpath])
    rw [← KeyedTable.key_of_find hrow', hsame, KeyedTable.key_of_find hrow₁]
  apply hmid.setDb (hmid.files.remove path) (fun _ _ => rfl)
  rintro id (⟨o, hblock⟩ | ⟨fh, fi, hfi, rfl⟩)
  · apply Db.fileKept_remove
    intro row' hrow' hpath'
    -- it has no blocks left
    obtain ⟨g, hg⟩ := Option.isSome_iff_exists.mp hblock
    obtain ⟨row₂, hrow₂, -, hin⟩ := howned id o g hg
    rw [hid id row' hrow' hpath'] at hrow₂
    rw [hinfo] at hempty
    change s'.db.files.find row.id = _ at hempty
    rw [hempty] at hrow₂
    cases hrow₂
    exact Nat.not_lt_zero _ hin
  · apply Db.fileKept_remove
    intro row' hrow' hpath'
    exact hopen row hmem hpath fh fi hfi (hid _ row' hrow' hpath')

section

omit [DecidableEq H]

/-- A new handle of a file. -/
theorem Owned.addHandle (h : fs.Owned) {fi : FileInfo H} (hfile : fs.store.db.IsFile fi.stIno) :
    (fs.addHandle fi).Owned :=
  owned_iff.mpr ((owned_iff.mp h).addHandle hfile)

/-- The handle of a file that was created. -/
theorem Owned.created (h : fs.Owned) {path : Path} {mode : ℕ} (hmode : sIsdir mode = false)
    (hnonneg : ¬(fs.store.db.create path mode).2 < 0) :
    ((fs.setDb (fs.store.db.create path mode).1).addHandle
      ((fs.store.db.create path mode).1.getByPath path)).Owned := by
  apply (h.create path mode).addHandle
  obtain ⟨-, hneg⟩ | ⟨-, -, -, depth, heq, hget⟩ := Db.create_cases h.files path mode
  · exact absurd hneg hnonneg
  · rw [hget]
    refine ⟨⟨fs.store.db.files.nextId, path, depth, 0, mode⟩, ?_, hmode⟩
    show (fs.store.db.create path mode).1.files.find fs.store.db.files.nextId = _
    rw [heq]
    exact (KeyedTable.find_insert ..).trans (if_pos rfl)

/-- `rmdir` keeps the row of every file: the row at the path is a directory. -/
theorem Owned.fileKept_rmdir (h : fs.Owned) {path : Path}
    (hdir : sIsdir (fs.store.db.getByPath path).stMode = true) {id : ℕ}
    (hid : fs.store.db.IsFile id) : fs.store.db.FileKept (fs.store.db.remove path).1 id := by
  obtain ⟨row, hrow, hmode⟩ := hid
  apply Db.fileKept_remove
  intro row' hrow' hpath
  rw [hrow] at hrow'
  cases hrow'
  rw [← hpath, h.files.getByPath_of_mem (KeyedTable.mem_of_find hrow)] at hdir
  change sIsdir row.mode = true at hdir
  rw [hmode] at hdir
  cases hdir

/-- **`rmdir` removes no file**: the row at the path is a directory. -/
theorem Owned.rmdir (h : fs.Owned) {path : Path}
    (hdir : sIsdir (fs.store.db.getByPath path).stMode = true) :
    (fs.setDb (fs.store.db.remove path).1).Owned := by
  apply h.setDb (h.files.remove path) (fun _ _ => rfl)
  rintro id (⟨o, hblock⟩ | ⟨fh, fi, hfi, rfl⟩)
  · obtain ⟨g, hg⟩ := Option.isSome_iff_exists.mp hblock
    exact h.fileKept_rmdir hdir (h.blocks.isFile hg)
  · exact h.fileKept_rmdir hdir (h.handles fh fi hfi)

/-- `rename` keeps all blocks owned, when the file that it replaces has no blocks and is not
open. -/
theorem Owned.rename (h : fs.Owned) {oldPath newPath : Path}
    (hproper : fs.Proper (.rename oldPath newPath))
    (hkeeps : fs.KeepsBlocks (.rename oldPath newPath)) :
    (fs.setDb (fs.store.db.rename oldPath newPath).1).Owned := by
  obtain ⟨hok, hkept⟩ := Db.rename_kept h.files oldPath newPath
  obtain ⟨files, hf⟩ := rename_setFiles fs.store.db oldPath newPath
  apply h.setDb hok (fun f o => by rw [hf]; rfl)
  rintro id (⟨o, hblock⟩ | ⟨fh, fi, hfi, rfl⟩)
  · apply hkept
    intro q hq row hrow hpath
    have hnone := hkeeps q hq row (KeyedTable.mem_of_find hrow) hpath o
    rw [KeyedTable.key_of_find hrow] at hnone
    rw [hnone] at hblock
    cases hblock
  · apply hkept
    intro q hq row hrow hpath
    apply hproper q hq row (KeyedTable.mem_of_find hrow) hpath fh fi hfi
    exact (KeyedTable.key_of_find hrow).symm

end

/-- **A step keeps all blocks owned.** -/
theorem step_owned {fs' : Fs bits H} {op : Op} {out : Out} (hco : fs.Coherent cfg) (h : fs.Owned)
    (hproper : fs.Proper op) (hkeeps : fs.KeepsBlocks op)
    (hstep : fs.step cfg op = .ok (fs', out)) : fs'.Owned := by
  cases op with
  | create path mode =>
    simp only [step, create, Except.ok.injEq] at hstep
    split at hstep
    · cases hstep
      exact h.create path mode
    · rename_i hnonneg
      cases hstep
      exact h.created hproper hnonneg
  | mkdir path mode =>
    cases hstep
    exact h.create path _
  | openFile path =>
    simp only [step, openFile, Except.ok.injEq] at hstep
    split at hstep
    · cases hstep
      exact h
    · rename_i hino
      split at hstep
      · cases hstep
        exact h
      · rename_i hreg
        cases hstep
        obtain ⟨row, -, -, hinfo, hrow⟩ := exists_row hino
        rw [hinfo] at hreg
        simp only [Bool.not_eq_true', Bool.not_eq_false] at hreg
        exact h.addHandle ⟨row, hrow, not_sIsdir_of_sIsreg hreg⟩
  | release fh =>
    cases hstep
    exact owned_iff.mpr ((owned_iff.mp h).close fh)
  | write fh buf offset =>
    obtain ⟨fi, fi', s', os, hfi, -, hrun, rfl, -⟩ := step_write_ok hstep
    obtain ⟨row, hrow, hdir⟩ := h.handles fh fi hfi
    exact h.through hfi hrun (run_write_owned hco.1 (hco.2 fh fi hfi) h.blocks hrow hdir
      (hkeeps fi row hfi hrow) hproper hrun)
  | read fh size offset =>
    obtain ⟨fi, fi', s', os, hfi, -, -, hrun, rfl, -⟩ := step_read_ok hstep
    apply h.through hfi hrun
    rw [run_reads_db hrun]
    exact h.blocks
  | truncate path newSize =>
    obtain ⟨rfl, -⟩ | ⟨n, fi', s', os, -, hr, hrun, rfl⟩ := step_truncate_ok hstep
    · exact h
    · have hino : (fs.store.db.getByPath path).stIno ≠ 0 := by
        intro hzero
        simp only [rounds, hzero, true_or, if_true] at hr
        cases hr
      obtain ⟨row, -, -, hinfo, hrow⟩ := exists_row hino
      refine h.byPath hrun (run_truncate_owned h.blocks hrow (FileInfo.clears_of_eq ?_ n) hrun)
      rw [hinfo]
      rfl
  | ftruncate fh newSize =>
    obtain ⟨rfl, -⟩ | ⟨n, fi, fi', s', os, rfl, hfi, -, hrun, rfl⟩ := step_ftruncate_ok hstep
    · exact h
    · obtain ⟨row, hrow, -⟩ := h.handles fh fi hfi
      exact h.through hfi hrun (run_truncate_owned h.blocks hrow (hkeeps fi row hfi hrow) hrun)
  | unlink path =>
    obtain ⟨rfl, -⟩ | ⟨fi', s', os, hr, hrun, rfl⟩ := step_unlink_ok hstep
    · exact h
    · apply h.unlink hproper _ hrun
      intro hzero
      simp only [rounds, hzero, true_or, if_true] at hr
      cases hr
  | rmdir path memory =>
    obtain rfl | ⟨hdir, -, rfl⟩ := step_rmdir_ok hstep
    · exact h
    · exact h.rmdir hdir
  | rename oldPath newPath =>
    cases hstep
    exact h.rename hproper hkeeps
  | writerPass victims =>
    cases hstep
    exact ⟨h.files, h.blocks, h.handles⟩
  | remount =>
    obtain ⟨-, rfl, -⟩ := step_remount_ok hstep
    have hcreated := h.create ['/'] (sIfdir ||| 0o755)
    exact ⟨hcreated.files, hcreated.blocks, fun fh fi hfi => by cases hfi⟩
  | clock now =>
    cases hstep
    exact ⟨h.files, h.blocks, h.handles⟩

theorem init_owned (bits : ℕ) (H : Type) [DecidableEq H] : (Fs.init bits H).Owned where
  files := init_filesOk
  blocks := by
    intro f o g hf
    exact absurd hf nofun
  handles := nofun

/-- **A new file has no blocks**, whatever number it gets. -/
theorem Owned.create_fresh {fs' : Fs bits H} {path : Path} {mode fh : ℕ} (h : fs.Owned)
    (hstep : fs.step cfg (.create path mode) = .ok (fs', .opened fh)) :
    ∃ fi, fs'.handles fh = some fi ∧ ∀ o, fs'.store.db.fileHash fi.stIno o = none := by
  simp only [step, Fs.create, Except.ok.injEq] at hstep
  split at hstep
  · cases hstep
  · rename_i hnonneg
    cases hstep
    obtain ⟨-, hneg⟩ | ⟨-, -, -, depth, heq, hget⟩ := Db.create_cases h.files path mode
    · exact absurd hneg hnonneg
    · refine ⟨_, Function.update_self .., fun o => ?_⟩
      rw [hget]
      show (fs.store.db.create path mode).1.fileHash fs.store.db.files.nextId o = none
      rw [heq]
      show fs.store.db.fileHash fs.store.db.files.nextId o = none
      -- the next number is that of no row
      by_contra hsome
      obtain ⟨g, hg⟩ := Option.ne_none_iff_exists'.mp hsome
      obtain ⟨row, hrow, -⟩ := h.blocks _ o g hg
      rw [KeyedTable.find_nextId] at hrow
      cases hrow

end Fs

/-- Inside the size is the same as below the number of blocks that the size needs. -/
theorem lt_ceil_iff {n size : ℕ} :
    n < (size + blockSize bits - 1) / blockSize bits ↔ n * blockSize bits < size := by
  have hpos := blockSize_pos bits
  rw [Nat.lt_iff_add_one_le, Nat.le_div_iff_mul_le hpos, Nat.add_mul, Nat.one_mul]
  omega

/-- **No orphaned or inherited blocks**: along a run in which no `rename` replaces a file that has
blocks and no write or truncation through a handle leaves a size that does not cover the blocks,
every row of `file_blocks` belongs to a row of `files` and lies inside its size, and a file that
is created next has no blocks. -/
theorem run_blocks_owned (cfg : Config bits H) (ops : List Op) (fs : Fs bits H) (outs : List Out)
    (hok : Meets (Fs.step cfg) (fun fs op => fs.Proper op ∧ fs.KeepsBlocks op) (Fs.init bits H) ops)
    (hrun : run (Fs.step cfg) (Fs.init bits H) ops = .ok (fs, outs)) :
    (∀ f o g, fs.store.db.fileHash f o = some g → ∃ row, fs.store.db.files.find f = some row ∧
      o < (row.size + blockSize bits - 1) / blockSize bits) ∧
    ∀ path mode fs' fh, fs.step cfg (.create path mode) = .ok (fs', .opened fh) →
      ∃ fi, fs'.handles fh = some fi ∧ ∀ o, fs'.store.db.fileHash fi.stIno o = none := by
  have hinit : (Fs.init bits H).Coherent cfg ∧ (Fs.init bits H).Owned :=
    ⟨Fs.init_coherent cfg, Fs.init_owned bits H⟩
  have hfs := run_invariant (I := fun fs => fs.Coherent cfg ∧ fs.Owned)
    (fun fs op fs' out h hg hstep => ⟨Fs.step_coherent h.1 hstep,
      Fs.step_owned h.1 h.2 hg.1 hg.2 hstep⟩) hinit hok hrun
  constructor
  · intro f o g hf
    obtain ⟨row, hrow, -, hin⟩ := hfs.2.blocks f o g hf
    exact ⟨row, hrow, lt_ceil_iff.mpr hin⟩
  · intro path mode fs' fh hstep
    exact hfs.2.create_fresh hstep

/-- A file that was written and closed replaces an empty one. -/
theorem run_blocks_owned_replaced :
    (∀ f o g, (Fs.after (plainConfig 0) [.create ['/', 'f'] sIfreg, .write 0 [7] 0, .release 0,
        .create ['/', 'g'] sIfreg, .release 1,
        .rename ['/', 'f'] ['/', 'g']]).store.db.fileHash f o = some g →
      ∃ row, (Fs.after (plainConfig 0) [.create ['/', 'f'] sIfreg, .write 0 [7] 0, .release 0,
        .create ['/', 'g'] sIfreg, .release 1,
        .rename ['/', 'f'] ['/', 'g']]).store.db.files.find f = some row ∧
        o < (row.size + blockSize 0 - 1) / blockSize 0) ∧
    ∀ path mode fs' fh, (Fs.after (plainConfig 0) [.create ['/', 'f'] sIfreg, .write 0 [7] 0,
        .release 0, .create ['/', 'g'] sIfreg, .release 1, .rename ['/', 'f'] ['/', 'g']]).step
          (plainConfig 0) (.create path mode) = .ok (fs', .opened fh) →
      ∃ fi, fs'.handles fh = some fi ∧ ∀ o, fs'.store.db.fileHash fi.stIno o = none := by
  refine run_blocks_owned (plainConfig 0) [.create ['/', 'f'] sIfreg, .write 0 [7] 0, .release 0,
    .create ['/', 'g'] sIfreg, .release 1, .rename ['/', 'f'] ['/', 'g']] _
    [.opened 0, .ret 1, .ret 0, .opened 1, .ret 0, .ret 0] ?_ rfl
  have hreg : sIsdir sIfreg = false := by decide
  refine .cons ⟨hreg, trivial⟩ rfl (.cons ⟨by simp [Fs.Proper], ?_⟩ rfl
    (.cons ⟨trivial, trivial⟩ rfl (.cons ⟨hreg, trivial⟩ rfl
      (.cons ⟨trivial, trivial⟩ rfl (.cons ⟨?_, ?_⟩ rfl trivial)))))
  · intro fi row hfi hrow
    cases hfi
    cases hrow
    exact FileInfo.covers_of_eq rfl _
  · intro q hq row hrow hpath fh fi hfi
    match fh with
    | 0 => cases hfi
    | 1 => cases hfi
    | fh + 2 => cases hfi
  · intro q hq row hrow hpath o
    have hmem : row ∈ [(⟨1, ['/'], 0, 0, sIfdir ||| 0o755⟩ : FileRow),
        ⟨2, ['/', 'f'], 1, 1, sIfreg⟩, ⟨3, ['/', 'g'], 1, 0, sIfreg⟩] := hrow
    have hid : row.id = 3 := by
      simp only [List.mem_cons, List.not_mem_nil, or_false] at hmem
      rcases hmem with rfl | rfl | rfl
      · simp at hpath
      · simp at hpath
      · rfl
    rw [hid]
    rfl

/-- **Renaming onto a file leaves its blocks behind**: the block of the replaced file is still
there without a file, and the file that is created next shows it. -/
theorem replaced_file_leaves_blocks :
    (¬∀ f o g, (Fs.after (plainConfig 0) [.create ['/', 'f'] sIfreg, .create ['/', 'g'] sIfreg,
        .write 1 [7] 0, .release 0, .release 1,
        .rename ['/', 'f'] ['/', 'g']]).store.db.fileHash f o = some g →
      ∃ row, (Fs.after (plainConfig 0) [.create ['/', 'f'] sIfreg, .create ['/', 'g'] sIfreg,
        .write 1 [7] 0, .release 0, .release 1,
        .rename ['/', 'f'] ['/', 'g']]).store.db.files.find f = some row ∧
        o < (row.size + blockSize 0 - 1) / blockSize 0) ∧
    (Fs.after (plainConfig 0) [.create ['/', 'f'] sIfreg, .create ['/', 'g'] sIfreg,
      .write 1 [7] 0, .release 0, .release 1, .rename ['/', 'f'] ['/', 'g'],
      .create ['/', 'h'] sIfreg]).store.db.fileHash 3 0 = some [7] ∧
    ((Fs.after (plainConfig 0) [.create ['/', 'f'] sIfreg, .create ['/', 'g'] sIfreg,
      .write 1 [7] 0, .release 0, .release 1, .rename ['/', 'f'] ['/', 'g'],
      .create ['/', 'h'] sIfreg]).handles 2).map FileInfo.stIno = some 3 := by
  refine ⟨fun hall => ?_, rfl, rfl⟩
  obtain ⟨row, hrow, -⟩ := hall 3 0 [7] rfl
  cases hrow

end Wwdedup
