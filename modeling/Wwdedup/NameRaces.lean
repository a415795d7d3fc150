import Wwdedup.Lib.Linearize
import Wwdedup.Rename

/-!
# Names from several connections

Every worker thread has a connection of its own, and a request on names is several statements that
commit one by one.  Between two of them the others go on.  `create` looks the parent and then the
path up before it inserts; `Rmdir` looks the directory up and counts its entries before it deletes
it; `Unlink` looks the file up, and its blocks go before its row does.  UNIQUE(path) is all that
the tables do against it.

* `NameCall.next` is the next statement of a request, where `memory` is what the memory of a new
  `file_info` held; `Connections.Step` lets the threads take them in any order, with writes of other
  threads between them (`SameNames`).
* `finish_create`, `finish_rmdir`: a request that is alone does what it should.
* `names_linearize`: when no directory is held by two requests at once, as the kernel holds the
  directories that it works in, or both only create, every run is one of whole requests, one
  after the other, and the rows are a tree in all states.
* `rmdir_races_create`: a `create` that found its directory before an `Rmdir` of it went on leaves
  an entry without a directory.
-/

namespace Wwdedup

open Linearize

variable {H : Type} [DecidableEq H]

/-- A request on names. -/
inductive NameReq where
  | create (path : Path) (mode : ℕ)
  | rmdir (path : Path)
  | unlink (path : Path)

/-- What a request returns, or that a statement threw. -/
inductive NameAnswer where
  | ret (n : ℤ)
  | thrown
  deriving DecidableEq

/-- The statement that a request is in front of, with what it knows by then. -/
inductive NameCall (H : Type) where
  | lookupDir (path : Path) (mode : ℕ)
  | lookupSelf (path : Path) (mode : ℕ) (depth : ℤ)
  | insert (path : Path) (mode : ℕ) (depth : ℤ)
  | lookupRemoved (path : Path)
  | countEntries (path : Path) (dir : FileInfo H)
  | deleteDir (path : Path)
  | lookupUnlinked (path : Path)
  | deleteFile (path : Path)

/-- Where a request begins. -/
def NameReq.first : NameReq → NameCall H
  | .create path mode => .lookupDir path mode
  | .rmdir path => .lookupRemoved path
  | .unlink path => .lookupUnlinked path

namespace NameCall

/-- The request. -/
def req : NameCall H → NameReq
  | .lookupDir path mode => .create path mode
  | .lookupSelf path mode _ => .create path mode
  | .insert path mode _ => .create path mode
  | .lookupRemoved path => .rmdir path
  | .countEntries path _ => .rmdir path
  | .deleteDir path => .rmdir path
  | .lookupUnlinked path => .unlink path
  | .deleteFile path => .unlink path

/-- The next statement: the tables after it, and the answer or how the request goes on. -/
def next (memory : ℕ) (db : Db H) : NameCall H → Db H × (NameAnswer ⊕ NameCall H)
  | .lookupDir path mode =>
    if path = ['/'] then (db, .inr (.lookupSelf path mode 0))
    else
      let dir := db.getByPath (branchPath path)
      if dir.stIno = 0 then (db, .inl (.ret (-enoent)))
      else if !sIsdir dir.stMode then (db, .inl (.ret (-enotdir)))
      else (db, .inr (.lookupSelf path mode (dir.depth + 1)))
  | .lookupSelf path mode depth =>
    if (db.getByPath path).stIno ≠ 0 then (db, .inl (.ret (-eexist)))
    else (db, .inr (.insert path mode depth))
  | .insert path mode depth =>
    -- UNIQUE(path)
    if ∃ r ∈ db.files.rows, r.path = path then (db, .inl .thrown)
    else
      ({ db with files := db.files.insert (fun n => ⟨n, path, depth, 0, mode⟩) (fun _ => rfl) },
        .inl (.ret 0))
  | .lookupRemoved path =>
    let fi := db.getByPathIn memory path
    if !sIsdir fi.stMode then (db, .inl (.ret (-enotdir)))
    else (db, .inr (.countEntries path fi))
  | .countEntries path dir =>
    if !db.dirEmpty dir then (db, .inl (.ret (-enotempty))) else (db, .inr (.deleteDir path))
  | .deleteDir path => ((db.remove path).1, .inl (.ret (db.remove path).2))
  | .lookupUnlinked path =>
    let fi := db.getByPath path
    if fi.stIno = 0 then (db, .inl (.ret (-enoent)))
    else if sIsdir fi.stMode then (db, .inl (.ret (-eisdir)))
    else (db, .inr (.deleteFile path))
  | .deleteFile path => ((db.remove path).1, .inl (.ret (db.remove path).2))

end NameCall

/-- The tables, and what every thread is about. -/
structure Connections (H : Type) where
  db : Db H
  calls : ℕ → Option (NameCall H)

/-- Writes and truncations change sizes and blocks. -/
def Db.SameNames (db db' : Db H) : Prop :=
  db'.files.rows.map (fun r => { r with size := 0 }) =
    db.files.rows.map fun r => { r with size := 0 }

/-- The directories that the kernel holds while a request is under way: the one that the name is
in, and the one that is to be removed. -/
def NameReq.dirs : NameReq → List Path
  | .create path _ => if path = ['/'] then [] else [branchPath path]
  | .rmdir path => [branchPath path, path]
  | .unlink path => [branchPath path]

def NameReq.Creates : NameReq → Prop
  | .create _ _ => True
  | _ => False

/-- Both create, or they hold different directories. -/
def NameReq.Apart (r r' : NameReq) : Prop :=
  r.Creates ∧ r'.Creates ∨ ∀ d ∈ r.dirs, d ∉ r'.dirs

/-- The names are normalised, and the root is not to be removed. -/
def NameReq.Proper : NameReq → Prop
  | .create path _ => NormalPath path
  | .rmdir path => path ≠ ['/']
  | .unlink _ => True

/-- A decided request with its answer, or a change by a write. -/
inductive NameEvent where
  | decided (req : NameReq) (answer : NameAnswer)
  | written

/-- One step of one thread. -/
inductive Connections.Step (n : Connections H) : Option NameEvent → Connections H → Prop
  | begins (t : ℕ) (req : NameReq) (free : n.calls t = none) (proper : req.Proper)
      (apart : ∀ u call, n.calls u = some call → req.Apart call.req) :
      Step n none ⟨n.db, Function.update n.calls t (some req.first)⟩
  | goesOn (t memory : ℕ) (call call' : NameCall H) (db' : Db H) (under : n.calls t = some call)
      (next : call.next memory n.db = (db', .inr call')) :
      Step n none ⟨db', Function.update n.calls t (some call')⟩
  | decides (t memory : ℕ) (call : NameCall H) (answer : NameAnswer) (db' : Db H)
      (under : n.calls t = some call) (next : call.next memory n.db = (db', .inl answer)) :
      Step n (some (.decided call.req answer)) ⟨db', Function.update n.calls t none⟩
  /-- a statement finds the tables locked -/
  | throws (t : ℕ) (call : NameCall H) (under : n.calls t = some call) :
      Step n (some (.decided call.req .thrown)) ⟨n.db, Function.update n.calls t none⟩
  | writes (db' : Db H) (same : n.db.SameNames db') :
      Step n (some .written) ⟨db', n.calls⟩

/-! ### What a request does at once -/

namespace Db

/-- The row of a directory for the path. -/
def DirAt (db : Db H) (path : Path) (depth : ℤ) : Prop :=
  ∃ d ∈ db.files.rows, d.path = path ∧ sIsdir d.mode = true ∧ d.depth = depth

/-- Where a name goes, and how deep. -/
def ParentAt (db : Db H) (path : Path) (depth : ℤ) : Prop :=
  path = ['/'] ∧ depth = 0 ∨ path ≠ ['/'] ∧ db.DirAt (branchPath path) (depth - 1)

/-- No row for the path. -/
def Missing (db : Db H) (path : Path) : Prop := ∀ r ∈ db.files.rows, r.path ≠ path

/-- The row of a file for the path. -/
def FileAt (db : Db H) (path : Path) : Prop :=
  ∃ r ∈ db.files.rows, r.path = path ∧ sIsdir r.mode = false

end Db

/-- Requests on names, one after the other. -/
inductive NameSpec (db : Db H) : NameEvent → Db H → Prop
  | created (path : Path) (mode : ℕ) (depth : ℤ) (absent : db.Missing path)
      (parent : db.ParentAt path depth) :
      NameSpec db (.decided (.create path mode) (.ret 0))
        { db with files := db.files.insert (fun n => ⟨n, path, depth, 0, mode⟩) (fun _ => rfl) }
  | present (path : Path) (mode : ℕ) (present : ∃ r ∈ db.files.rows, r.path = path) :
      NameSpec db (.decided (.create path mode) (.ret (-eexist))) db
  | noParent (path : Path) (mode : ℕ) (root : path ≠ ['/'])
      (absent : db.Missing (branchPath path)) :
      NameSpec db (.decided (.create path mode) (.ret (-enoent))) db
  | inFile (path : Path) (mode : ℕ) (root : path ≠ ['/']) (parent : db.FileAt (branchPath path)) :
      NameSpec db (.decided (.create path mode) (.ret (-enotdir))) db
  | removed (path : Path) (depth : ℤ) (dir : db.DirAt path depth) (empty : ¬db.HasEntry path) :
      NameSpec db (.decided (.rmdir path) (.ret 0)) (db.remove path).1
  | noDir (path : Path) (file : db.FileAt path) :
      NameSpec db (.decided (.rmdir path) (.ret (-enotdir))) db
  /-- the answer depends on the memory -/
  | missing (path : Path) (e : ℤ) (absent : db.Missing path)
      (answer : e = 0 ∨ e = -enotdir ∨ e = -enotempty) :
      NameSpec db (.decided (.rmdir path) (.ret e)) db
  /-- the pattern finds an entry, if only one of another directory -/
  | listed (path : Path) (depth : ℤ) (dir : db.DirAt path depth) (fi : FileInfo H)
      (name : fi.name = path) (deep : fi.depth = depth) (entries : db.dirEmpty fi = false) :
      NameSpec db (.decided (.rmdir path) (.ret (-enotempty))) db
  | unlinked (path : Path) (file : db.FileAt path) :
      NameSpec db (.decided (.unlink path) (.ret 0)) (db.remove path).1
  | noFile (path : Path) (absent : db.Missing path) :
      NameSpec db (.decided (.unlink path) (.ret (-enoent))) db
  | isDir (path : Path) (depth : ℤ) (dir : db.DirAt path depth) :
      NameSpec db (.decided (.unlink path) (.ret (-eisdir))) db
  | failed (req : NameReq) : NameSpec db (.decided req .thrown) db
  | written (db' : Db H) (same : db.SameNames db') : NameSpec db .written db'

/-! ### A request that is alone -/

/-- So many statements without those of others between them. -/
def NameCall.finish (memory : ℕ) (db : Db H) : ℕ → NameCall H → Option (Db H × NameAnswer)
  | 0, _ => none
  | fuel + 1, call =>
    match call.next memory db with
    | (db', .inl answer) => some (db', answer)
    | (db', .inr call') => finish memory db' fuel call'

section alone

variable {db : Db H} {path : Path}

omit [DecidableEq H] in
/-- `create` is its statements. -/
theorem finish_create (hok : db.FilesOk) (memory : ℕ) (path : Path) (mode : ℕ) :
    (NameReq.create path mode).first.finish memory db 3 =
      some ((db.create path mode).1, .ret (db.create path mode).2) := by
  have hinsert : ∀ depth, (db.getByPath path).stIno = 0 →
      (NameCall.insert path mode depth).finish memory db 1 = some
        ({ db with
          files := db.files.insert (fun n => ⟨n, path, depth, 0, mode⟩) (fun _ => rfl) },
          .ret 0) := by
    intro depth hzero
    have habsent : ¬∃ r ∈ db.files.rows, r.path = path := fun ⟨r, hr, hp⟩ =>
      hok.absent hzero r hr hp
    simp [NameCall.finish, NameCall.next, habsent]
  have hself : ∀ depth, (NameCall.lookupSelf path mode depth).finish memory db 2 =
      if (db.getByPath path).stIno ≠ 0 then some (db, .ret (-eexist)) else
        some ({ db with
          files := db.files.insert (fun n => ⟨n, path, depth, 0, mode⟩) (fun _ => rfl) },
          .ret 0) := by
    intro depth
    by_cases hzero : (db.getByPath path).stIno = 0
    · rw [NameCall.finish, NameCall.next, if_neg (not_not.mpr hzero), if_neg (not_not.mpr hzero)]
      exact hinsert depth hzero
    · rw [NameCall.finish, NameCall.next, if_pos hzero, if_pos hzero]
  show (NameCall.lookupDir path mode).finish memory db 3 = _
  rw [NameCall.finish, NameCall.next, Db.create]
  by_cases hroot : path = ['/']
  · subst hroot
    simp only [if_true, ne_eq, not_true_eq_false, false_and, if_false]
    rw [hself]
    split
    · rfl
    · rfl
  · simp only [hroot, if_false, ne_eq, not_false_eq_true, true_and]
    by_cases hzero : (db.getByPath (branchPath path)).stIno = 0
    · simp [hzero]
    · by_cases hdir : sIsdir (db.getByPath (branchPath path)).stMode = true
      · simp only [hzero, hdir, if_false, Bool.not_true, Bool.false_eq_true]
        rw [hself]
        split
        · rfl
        · rfl
      · simp [hzero, hdir]

omit [DecidableEq H] in
/-- `Rmdir` is its statements. -/
theorem finish_rmdir {bits : ℕ} (fs : Fs bits H) (memory : ℕ) (path : Path) : ∃ code,
    (NameReq.rmdir path).first.finish memory fs.store.db 3 =
      some ((fs.rmdir path memory).1.store.db, .ret code) ∧
    (fs.rmdir path memory).2 = .ret code := by
  show ∃ code, (NameCall.lookupRemoved path).finish memory fs.store.db 3 = _ ∧ _
  rw [NameCall.finish, NameCall.next, Fs.rmdir]
  by_cases hdir : sIsdir (fs.store.db.getByPathIn memory path).stMode = true
  · by_cases hempty : fs.store.db.dirEmpty (fs.store.db.getByPathIn memory path) = true
    · refine ⟨(fs.store.db.remove path).2, ?_, ?_⟩
      · simp [hdir, hempty, NameCall.finish, NameCall.next]
        rfl
      · simp [hdir, hempty]
    · refine ⟨-enotempty, ?_, ?_⟩
      · simp [hdir, hempty, NameCall.finish, NameCall.next]
      · simp [hdir, hempty]
  · refine ⟨-enotdir, ?_, ?_⟩
    · simp [hdir]
    · simp [hdir]

end alone

/-! ### What a request may rely on -/

/-- What the statements behind it have found still holds. -/
def NameCall.Valid (db : Db H) : NameCall H → Prop
  | .lookupDir path _ => NormalPath path
  | .lookupSelf path _ depth => NormalPath path ∧ db.ParentAt path depth
  | .insert path _ depth => NormalPath path ∧ db.ParentAt path depth
  | .lookupRemoved path => path ≠ ['/']
  | .countEntries path dir =>
    path ≠ ['/'] ∧ (db.Missing path ∨ dir.name = path ∧ db.DirAt path dir.depth)
  | .deleteDir path =>
    path ≠ ['/'] ∧ (db.Missing path ∨ (∃ depth, db.DirAt path depth) ∧ ¬db.HasEntry path)
  | .lookupUnlinked _ => True
  | .deleteFile path => db.FileAt path

variable {db db' : Db H} {call call' : NameCall H} {answer : NameAnswer} {memory : ℕ}

section

omit [DecidableEq H]

theorem getByPath_dirAt {path : Path} (hdir : sIsdir (db.getByPath path).stMode = true) :
    db.DirAt path (db.getByPath path).depth ∧ (db.getByPath path).name = path := by
  rcases db.getByPath_cases path with ⟨r, hr, hpath, hinfo⟩ | ⟨-, -, hmode⟩
  · rw [hinfo] at hdir ⊢
    exact ⟨⟨r, hr, hpath, hdir, rfl⟩, hpath⟩
  · rw [hmode] at hdir
    cases hdir

theorem getByPath_fileAt {path : Path} (hino : (db.getByPath path).stIno ≠ 0)
    (hdir : sIsdir (db.getByPath path).stMode = false) : db.FileAt path := by
  obtain ⟨r, hr, hpath, hinfo⟩ := Db.getByPath_of_ne_zero hino
  rw [hinfo] at hdir
  exact ⟨r, hr, hpath, hdir⟩

/-- No entry is missed when the entries are counted. -/
theorem Db.Tree.not_hasEntry (h : db.Tree) {path : Path} {dir : FileInfo H}
    (hname : dir.name = path) (hat : db.DirAt path dir.depth) (hempty : db.dirEmpty dir = true) :
    ¬db.HasEntry path := by
  rintro ⟨r, hr, hroot, hbranch⟩
  obtain ⟨d, hd, hpath, -, hdepth⟩ := hat
  have hsame : db.dirEmpty (db.getByPath path) = db.dirEmpty dir := by
    rw [← hpath, h.files.getByPath_of_mem hd]
    unfold Db.dirEmpty Db.entriesPattern
    rw [hname, ← hdepth, ← hpath]
    rfl
  exact h.leaf_of_dirEmpty (hsame.trans hempty) r hr hroot hbranch

/-- **A statement that decides nothing** changes nothing and finds what the next one relies on. -/
theorem NameCall.next_goesOn (h : db.Tree) (hvalid : call.Valid db)
    (hnext : call.next memory db = (db', .inr call')) :
    db' = db ∧ call'.req = call.req ∧ call'.Valid db := by
  cases call with
  | lookupDir path mode =>
    rw [NameCall.next] at hnext
    split at hnext
    · rename_i hroot
      cases hnext
      exact ⟨rfl, rfl, hvalid, .inl ⟨hroot, rfl⟩⟩
    · rename_i hroot
      dsimp only at hnext
      split at hnext
      · cases hnext
      · split at hnext
        · cases hnext
        · rename_i hdir
          cases hnext
          have hat := (getByPath_dirAt (by simpa using hdir)).1
          exact ⟨rfl, rfl, hvalid, .inr ⟨hroot, by rwa [Int.add_sub_cancel]⟩⟩
  | lookupSelf path mode depth =>
    rw [NameCall.next] at hnext
    split at hnext
    · cases hnext
    · cases hnext
      exact ⟨rfl, rfl, hvalid⟩
  | insert path mode depth =>
    rw [NameCall.next] at hnext
    split at hnext
    · cases hnext
    · cases hnext
  | lookupRemoved path =>
    rw [NameCall.next] at hnext
    split at hnext
    · cases hnext
    · rename_i hdir
      cases hnext
      refine ⟨rfl, rfl, hvalid, ?_⟩
      rcases Db.getByPathIn_cases memory db path with heq | habsent
      · have hisdir : sIsdir (db.getByPath path).stMode = true := by simpa [heq] using hdir
        obtain ⟨hat, hname⟩ := getByPath_dirAt hisdir
        rw [heq]
        exact .inr ⟨hname, hat⟩
      · exact .inl habsent
  | countEntries path dir =>
    rw [NameCall.next] at hnext
    split at hnext
    · cases hnext
    · rename_i hempty
      cases hnext
      obtain ⟨hroot, habsent | ⟨hname, hat⟩⟩ := hvalid
      · exact ⟨rfl, rfl, hroot, .inl habsent⟩
      · have hnone := h.not_hasEntry hname hat (by simpa using hempty)
        exact ⟨rfl, rfl, hroot, .inr ⟨⟨_, hat⟩, hnone⟩⟩
  | deleteDir path => cases hnext
  | lookupUnlinked path =>
    rw [NameCall.next] at hnext
    split at hnext
    · cases hnext
    · rename_i hino
      split at hnext
      · cases hnext
      · rename_i hdir
        cases hnext
        exact ⟨rfl, rfl, getByPath_fileAt hino (by simpa using hdir)⟩
  | deleteFile path => cases hnext

/-- **A statement that decides** does what the request should do at once. -/
theorem NameCall.next_decides (h : db.Tree) (hvalid : call.Valid db)
    (hnext : call.next memory db = (db', .inl answer)) :
    NameSpec db (.decided call.req answer) db' := by
  cases call with
  | lookupDir path mode =>
    rw [NameCall.next] at hnext
    split at hnext
    · cases hnext
    · rename_i hroot
      dsimp only at hnext
      split at hnext
      · rename_i hino
        cases hnext
        exact .noParent path mode hroot (h.files.absent hino)
      · rename_i hino
        split at hnext
        · rename_i hdir
          cases hnext
          exact .inFile path mode hroot (getByPath_fileAt hino (by simpa using hdir))
        · cases hnext
  | lookupSelf path mode depth =>
    rw [NameCall.next] at hnext
    split at hnext
    · rename_i hino
      cases hnext
      obtain ⟨r, hr, hpath, -⟩ := Db.getByPath_of_ne_zero hino
      exact .present path mode ⟨r, hr, hpath⟩
    · cases hnext
  | insert path mode depth =>
    rw [NameCall.next] at hnext
    split at hnext
    · cases hnext
      exact .failed _
    · rename_i habsent
      cases hnext
      exact .created path mode depth (fun r hr hp => habsent ⟨r, hr, hp⟩) hvalid.2
  | lookupRemoved path =>
    rw [NameCall.next] at hnext
    split at hnext
    · rename_i hdir
      cases hnext
      rcases Db.getByPathIn_cases memory db path with heq | habsent
      · rw [heq] at hdir
        rcases db.getByPath_cases path with ⟨r, hr, hpath, hinfo⟩ | ⟨habsent, -⟩
        · rw [hinfo] at hdir
          change (!sIsdir r.mode) = true at hdir
          exact .noDir path ⟨r, hr, hpath, by simpa using hdir⟩
        · exact .missing path _ habsent (.inr (.inl rfl))
      · exact .missing path _ habsent (.inr (.inl rfl))
    · cases hnext
  | countEntries path dir =>
    rw [NameCall.next] at hnext
    split at hnext
    · rename_i hlisted
      cases hnext
      obtain ⟨-, habsent | ⟨hname, hat⟩⟩ := hvalid
      · exact .missing path _ habsent (.inr (.inr rfl))
      · exact .listed path dir.depth hat dir hname rfl (by simpa using hlisted)
    · cases hnext
  | deleteDir path =>
    cases hnext
    obtain ⟨-, habsent | ⟨⟨depth, hat⟩, hempty⟩⟩ := hvalid
    · rw [db.remove_missing habsent]
      exact .missing path _ habsent (.inl rfl)
    · exact .removed path depth hat hempty
  | lookupUnlinked path =>
    rw [NameCall.next] at hnext
    split at hnext
    · rename_i hino
      cases hnext
      exact .noFile path (h.files.absent hino)
    · rename_i hino
      split at hnext
      · rename_i hdir
        cases hnext
        exact .isDir path _ (getByPath_dirAt hdir).1
      · cases hnext
  | deleteFile path =>
    cases hnext
    exact .unlinked path hvalid

end

/-! ### What the others leave -/

omit [DecidableEq H] in
/-- A row stays, up to its size. -/
theorem Db.SameNames.exists_row (h : db.SameNames db') {r : FileRow} (hr : r ∈ db.files.rows) :
    ∃ r' ∈ db'.files.rows, r'.id = r.id ∧ r'.path = r.path ∧ r'.depth = r.depth ∧
      r'.mode = r.mode := by
  have hmem := List.mem_map_of_mem (f := fun r : FileRow => { r with size := 0 }) hr
  rw [← h] at hmem
  obtain ⟨r', hr', heq⟩ := List.mem_map.mp hmem
  refine ⟨r', hr', ?_⟩
  have hfields := FileRow.mk.inj heq
  exact ⟨hfields.1, hfields.2.1, hfields.2.2.1, hfields.2.2.2.2⟩

section

omit [DecidableEq H]

theorem Db.SameNames.dirAt (h : db.SameNames db') {path : Path} {depth : ℤ}
    (hat : db.DirAt path depth) : db'.DirAt path depth := by
  obtain ⟨d, hd, hpath, hdir, hdepth⟩ := hat
  obtain ⟨d', hd', -, hpath', hdepth', hmode'⟩ := h.exists_row hd
  exact ⟨d', hd', hpath'.trans hpath, hmode' ▸ hdir, hdepth'.trans hdepth⟩

theorem Db.SameNames.missing (h : db.SameNames db') {path : Path} (habsent : db.Missing path) :
    db'.Missing path := by
  intro r hr hpath
  obtain ⟨r', hr', -, hpath', -⟩ := Db.SameNames.exists_row (Eq.symm h) hr
  exact habsent r' hr' (hpath'.trans hpath)

theorem Db.SameNames.hasEntry (h : db.SameNames db') {path : Path} (hentry : db'.HasEntry path) :
    db.HasEntry path := by
  obtain ⟨r, hr, hroot, hbranch⟩ := hentry
  obtain ⟨r', hr', -, hpath, -⟩ := Db.SameNames.exists_row (Eq.symm h) hr
  exact ⟨r', hr', hpath ▸ hroot, hpath ▸ hbranch⟩

theorem Db.SameNames.tree (h : db.SameNames db') (htree : db.Tree) : db'.Tree := by
  have hback : ∀ r ∈ db'.files.rows, ∃ r' ∈ db.files.rows, r'.id = r.id ∧ r'.path = r.path ∧
      r'.depth = r.depth ∧ r'.mode = r.mode := fun r hr =>
    Db.SameNames.exists_row (Eq.symm h) hr
  refine ⟨⟨fun r hr => ?_, fun r hr s hs hpaths => ?_⟩, fun r hr => ?_, fun r hr => ?_,
    fun r hr hroot => ?_⟩
  · obtain ⟨r', hr', hid, -⟩ := hback r hr
    exact hid ▸ htree.files.ids r' hr'
  · -- rows with one path have one number, and the numbers are keys
    obtain ⟨r', hr', hid, hpath, -⟩ := hback r hr
    obtain ⟨s', hs', hid', hpath', -⟩ := hback s hs
    have hsame := htree.files.paths r' hr' s' hs' (by rw [hpath, hpath', hpaths])
    have hids : r.id = s.id := by rw [← hid, ← hid', hsame]
    have hr₁ := KeyedTable.find_of_mem hr
    have hs₁ := KeyedTable.find_of_mem hs
    rw [hids, hs₁] at hr₁
    exact (Option.some.inj hr₁).symm
  · obtain ⟨r', hr', -, hpath, -⟩ := hback r hr
    exact hpath ▸ htree.normal r' hr'
  · obtain ⟨r', hr', -, hpath, hdepth, -⟩ := hback r hr
    rw [← hdepth, ← hpath]
    exact htree.depth r' hr'
  · obtain ⟨r', hr', -, hpath, -⟩ := hback r hr
    obtain ⟨d, hd, hparent, hdir⟩ := htree.parent r' hr' (hpath ▸ hroot)
    obtain ⟨d', hd', -, hpath', -, hmode'⟩ := h.exists_row hd
    exact ⟨d', hd', by rw [hpath', hparent, hpath], hmode' ▸ hdir⟩

end

omit [DecidableEq H] in
/-- A new row goes where `create` would put it. -/
theorem Db.Tree.create_eq (h : db.Tree) {path : Path} {depth : ℤ} (mode : ℕ)
    (habsent : ∀ r ∈ db.files.rows, r.path ≠ path) (hparent : db.ParentAt path depth) :
    (db.create path mode).1 = { db with
      files := db.files.insert (fun n => ⟨n, path, depth, 0, mode⟩) (fun _ => rfl) } := by
  have hfree : ¬(db.getByPath path).stIno ≠ 0 := fun hino => by
    obtain ⟨r, hr, hpath, -⟩ := Db.getByPath_of_ne_zero hino
    exact habsent r hr hpath
  rcases hparent with ⟨hroot, hdepth⟩ | ⟨hroot, d, hd, hpath, hdir, hdepth⟩
  · rw [Db.create, if_neg fun hc => hc.1 hroot, if_neg fun hc => hc.1 hroot, if_neg hfree,
      if_pos hroot, hdepth]
  · have hinfo : db.getByPath (branchPath path) = d.info := by
      rw [← hpath, h.files.getByPath_of_mem hd]
    have hino : (db.getByPath (branchPath path)).stIno ≠ 0 := by
      rw [hinfo]
      exact h.files.ids d hd
    have hisdir : sIsdir (db.getByPath (branchPath path)).stMode = true := by
      rw [hinfo]
      exact hdir
    have hdeep : (db.getByPath (branchPath path)).depth + 1 = depth := by
      rw [hinfo]
      show d.depth + 1 = depth
      omega
    rw [Db.create, if_neg fun hc => hino hc.2, if_neg (by simp [hisdir]), if_neg hfree,
      if_neg hroot, hdeep]

omit [DecidableEq H] in
/-- The rows are a tree after every request. -/
theorem NameSpec.tree {e : NameEvent} (h : db.Tree)
    (hproper : ∀ req answer, e = .decided req answer → req.Proper) (hspec : NameSpec db e db') :
    db'.Tree := by
  cases hspec with
  | created path mode depth absent parent =>
    rw [← h.create_eq mode absent parent]
    exact h.create (hproper _ _ rfl) mode
  | removed path depth dir empty =>
    exact h.remove fun r hr hroot hbranch => empty ⟨r, hr, hroot, hbranch⟩
  | unlinked path file =>
    obtain ⟨r, hr, hpath, hdir⟩ := file
    refine h.remove (h.leaf_of_not_dir ?_)
    rw [← hpath, h.files.getByPath_of_mem hr]
    exact hdir
  | written db' same => exact same.tree h
  | present | noParent | inFile | noDir | missing | listed | noFile | isDir | failed => exact h

section

omit [DecidableEq H]

/-- A directory stays when the row of another path goes. -/
theorem Db.DirAt.remove {path q : Path} {depth : ℤ} (h : db.DirAt path depth) (hne : path ≠ q) :
    (db.remove q).1.DirAt path depth := by
  obtain ⟨d, hd, hpath, hrest⟩ := h
  exact ⟨d, List.mem_filter.mpr ⟨hd, by simpa [hpath] using hne⟩, hpath, hrest⟩

theorem Db.Missing.remove {path : Path} (h : db.Missing path) (q : Path) :
    (db.remove q).1.Missing path := fun r hr => h r (List.mem_filter.mp hr).1

theorem Db.HasEntry.of_remove {path q : Path} (h : (db.remove q).1.HasEntry path) :
    db.HasEntry path := by
  obtain ⟨r, hr, hrest⟩ := h
  exact ⟨r, (List.mem_filter.mp hr).1, hrest⟩

/-- There is no file where a directory is. -/
theorem Db.Tree.dirAt_ne_fileAt (h : db.Tree) {path q : Path} {depth : ℤ}
    (hdir : db.DirAt path depth) (hfile : db.FileAt q) : path ≠ q := by
  rintro rfl
  obtain ⟨d, hd, hpath, hisdir, -⟩ := hdir
  obtain ⟨r, hr, hpath', hnot⟩ := hfile
  rw [h.files.paths d hd r hr (hpath.trans hpath'.symm), hnot] at hisdir
  cases hisdir

end

section

omit [DecidableEq H]

/-- What a request relies on stays when the directories that it relies on, and the file, do. -/
theorem NameCall.Valid.remove {c : NameCall H} {q : Path} (hvalid : c.Valid db)
    (hdirs : ∀ d ∈ c.req.dirs, ∀ depth, db.DirAt d depth → d ≠ q)
    (hfile : ∀ path, c = .deleteFile path → path ≠ q) : c.Valid (db.remove q).1 := by
  have hparent : ∀ path mode depth, c.req = .create path mode → db.ParentAt path depth →
      (db.remove q).1.ParentAt path depth := by
    intro path mode depth hreq hat
    rcases hat with hroot | ⟨hroot, hat⟩
    · exact .inl hroot
    · refine .inr ⟨hroot, hat.remove (hdirs _ ?_ _ hat)⟩
      rw [hreq, NameReq.dirs, if_neg hroot]
      exact List.mem_singleton_self _
  cases c with
  | lookupDir path mode => exact hvalid
  | lookupSelf path mode depth => exact ⟨hvalid.1, hparent path mode depth rfl hvalid.2⟩
  | insert path mode depth => exact ⟨hvalid.1, hparent path mode depth rfl hvalid.2⟩
  | lookupRemoved path => exact hvalid
  | countEntries path dir =>
    obtain ⟨hroot, habsent | ⟨hname, hat⟩⟩ := hvalid
    · exact ⟨hroot, .inl (habsent.remove q)⟩
    · have hat' := hat.remove (hdirs path (by simp [NameCall.req, NameReq.dirs]) _ hat)
      exact ⟨hroot, .inr ⟨hname, hat'⟩⟩
  | deleteDir path =>
    obtain ⟨hroot, habsent | ⟨⟨depth, hat⟩, hempty⟩⟩ := hvalid
    · exact ⟨hroot, .inl (habsent.remove q)⟩
    · have hat' := hat.remove (hdirs path (by simp [NameCall.req, NameReq.dirs]) _ hat)
      exact ⟨hroot, .inr ⟨⟨depth, hat'⟩, fun hentry => hempty hentry.of_remove⟩⟩
  | lookupUnlinked path => trivial
  | deleteFile path =>
    obtain ⟨r, hr, hpath, hdir⟩ := hvalid
    have hne := hfile path rfl
    exact ⟨r, List.mem_filter.mpr ⟨hr, by simpa [hpath] using hne⟩, hpath, hdir⟩

/-- It stays when a row comes that is no entry of a directory that is to be removed, and not that
directory. -/
theorem NameCall.Valid.insert {c : NameCall H} {mk : ℕ → FileRow} {hmk : ∀ n, (mk n).id = n}
    (hvalid : c.Valid db) (hentry : ∀ path, c.req = .rmdir path → path ≠ ['/'] → ∀ n,
      (mk n).path ≠ path ∧ ((mk n).path ≠ ['/'] → branchPath (mk n).path ≠ path)) :
    c.Valid { db with files := db.files.insert mk hmk } := by
  have hdir : ∀ path depth, db.DirAt path depth →
      Db.DirAt { db with files := db.files.insert mk hmk } path depth := by
    rintro path depth ⟨d, hd, hrest⟩
    exact ⟨d, List.mem_append_left _ hd, hrest⟩
  have hparent : ∀ path depth, db.ParentAt path depth →
      Db.ParentAt { db with files := db.files.insert mk hmk } path depth := by
    rintro path depth (hroot | ⟨hroot, hat⟩)
    · exact .inl hroot
    · exact .inr ⟨hroot, hdir _ _ hat⟩
  have hmissing : ∀ path, c.req = .rmdir path → path ≠ ['/'] → db.Missing path →
      Db.Missing { db with files := db.files.insert mk hmk } path := by
    intro path hreq hroot habsent r hr
    rcases List.mem_append.mp hr with hr | hr
    · exact habsent r hr
    · rw [List.mem_singleton.mp hr]
      exact (hentry path hreq hroot _).1
  cases c with
  | lookupDir path mode => exact hvalid
  | lookupSelf path mode depth => exact ⟨hvalid.1, hparent path depth hvalid.2⟩
  | insert path mode depth => exact ⟨hvalid.1, hparent path depth hvalid.2⟩
  | lookupRemoved path => exact hvalid
  | countEntries path dir =>
    obtain ⟨hroot, habsent | ⟨hname, hat⟩⟩ := hvalid
    · exact ⟨hroot, .inl (hmissing path rfl hroot habsent)⟩
    · exact ⟨hroot, .inr ⟨hname, hdir _ _ hat⟩⟩
  | deleteDir path =>
    obtain ⟨hroot, habsent | ⟨⟨depth, hat⟩, hempty⟩⟩ := hvalid
    · exact ⟨hroot, .inl (hmissing path rfl hroot habsent)⟩
    · refine ⟨hroot, .inr ⟨⟨depth, hdir _ _ hat⟩, ?_⟩⟩
      rintro ⟨r, hr, hne, hbranch⟩
      rcases List.mem_append.mp hr with hr | hr
      · exact hempty ⟨r, hr, hne, hbranch⟩
      · rw [List.mem_singleton.mp hr] at hne hbranch
        exact (hentry path rfl hroot _).2 hne hbranch
  | lookupUnlinked path => trivial
  | deleteFile path =>
    obtain ⟨r, hr, hrest⟩ := hvalid
    exact ⟨r, List.mem_append_left _ hr, hrest⟩

theorem NameCall.Valid.sameNames {c : NameCall H} (hvalid : c.Valid db) (h : db.SameNames db') :
    c.Valid db' := by
  have hparent : ∀ path depth, db.ParentAt path depth → db'.ParentAt path depth := by
    rintro path depth (hroot | ⟨hroot, hat⟩)
    · exact .inl hroot
    · exact .inr ⟨hroot, h.dirAt hat⟩
  cases c with
  | lookupDir path mode => exact hvalid
  | lookupSelf path mode depth => exact ⟨hvalid.1, hparent path depth hvalid.2⟩
  | insert path mode depth => exact ⟨hvalid.1, hparent path depth hvalid.2⟩
  | lookupRemoved path => exact hvalid
  | countEntries path dir =>
    obtain ⟨hroot, habsent | ⟨hname, hat⟩⟩ := hvalid
    · exact ⟨hroot, .inl (h.missing habsent)⟩
    · exact ⟨hroot, .inr ⟨hname, h.dirAt hat⟩⟩
  | deleteDir path =>
    obtain ⟨hroot, habsent | ⟨⟨depth, hat⟩, hempty⟩⟩ := hvalid
    · exact ⟨hroot, .inl (h.missing habsent)⟩
    · exact ⟨hroot, .inr ⟨⟨depth, h.dirAt hat⟩, fun hentry => hempty (h.hasEntry hentry)⟩⟩
  | lookupUnlinked path => trivial
  | deleteFile path =>
    obtain ⟨r, hr, hpath, hdir⟩ := hvalid
    obtain ⟨r', hr', -, hpath', -, hmode'⟩ := h.exists_row hr
    exact ⟨r', hr', hpath'.trans hpath, hmode' ▸ hdir⟩

end

/-! ### All of them -/

theorem NameReq.Apart.symm {r r' : NameReq} (h : r.Apart r') : r'.Apart r := by
  rcases h with ⟨hr, hr'⟩ | h
  · exact .inl ⟨hr', hr⟩
  · exact .inr fun d hd' hd => h d hd hd'

omit [DecidableEq H] in
/-- A decided request leaves what those in other directories rely on. -/
theorem NameSpec.keeps {req : NameReq} {c : NameCall H} (h : db.Tree)
    (hspec : NameSpec db (.decided req answer) db') (hapart : req.Apart c.req)
    (hvalid : c.Valid db) : c.Valid db' := by
  cases hspec with
  | created path mode depth absent parent =>
    refine hvalid.insert fun q hreq hq n => ?_
    rw [hreq] at hapart
    have hdirs : ∀ d ∈ (NameReq.create path mode).dirs, d ∉ [branchPath q, q] :=
      hapart.resolve_left fun hboth => hboth.2
    have hheld : path ≠ ['/'] → branchPath path ∈ (NameReq.create path mode).dirs := by
      intro hroot
      rw [NameReq.dirs, if_neg hroot]
      exact List.mem_singleton_self _
    constructor
    · rintro rfl
      exact hdirs _ (hheld hq) (List.mem_cons_self ..)
    · rintro hroot rfl
      exact hdirs _ (hheld hroot) (List.mem_cons_of_mem _ (List.mem_singleton_self _))
  | removed path depth dir empty =>
    have hfree : path ∉ c.req.dirs := by
      rcases hapart with ⟨hcreates, -⟩ | hapart
      · exact hcreates.elim
      · exact hapart path (by simp [NameReq.dirs])
    refine hvalid.remove (fun d hd _ _ heq => hfree (heq ▸ hd)) fun q hc => ?_
    subst hc
    exact (h.dirAt_ne_fileAt dir hvalid).symm
  | unlinked path file =>
    refine hvalid.remove (fun d _ _ hat => h.dirAt_ne_fileAt hat file) fun q hc heq => ?_
    subst hc heq
    rcases hapart with ⟨hcreates, -⟩ | hapart
    · exact hcreates
    · exact hapart _ (List.mem_singleton_self _) (List.mem_singleton_self _)
  | present | noParent | inFile | noDir | missing | listed | noFile | isDir | failed =>
    exact hvalid

/-- The rows are a tree, what the requests have found still holds, and they keep apart. -/
structure Connections.Sound (n : Connections H) : Prop where
  tree : n.db.Tree
  valid : ∀ t call, n.calls t = some call → call.Valid n.db ∧ call.req.Proper
  apart : ∀ t u call call', t ≠ u → n.calls t = some call → n.calls u = some call' →
    call.req.Apart call'.req

namespace Connections

variable {n n' : Connections H} {t : ℕ}

section

omit [DecidableEq H]

/-- A thread goes on with a request that keeps apart from the others. -/
theorem Sound.set (h : n.Sound) {db' : Db H} (htree : db'.Tree) (c : Option (NameCall H))
    (hothers : ∀ u call, u ≠ t → n.calls u = some call → call.Valid db')
    (hvalid : ∀ call, c = some call → call.Valid db' ∧ call.req.Proper)
    (hapart : ∀ call u call', c = some call → u ≠ t → n.calls u = some call' →
      call.req.Apart call'.req) : Sound ⟨db', Function.update n.calls t c⟩ := by
  refine ⟨htree, fun u call hcall => ?_, fun u v call call' hne hcall hcall' => ?_⟩
  · by_cases hu : u = t
    · subst hu
      exact hvalid call (by simpa using hcall)
    · have hcall : n.calls u = some call := by simpa [hu] using hcall
      exact ⟨hothers u call hu hcall, (h.valid u call hcall).2⟩
  · by_cases hu : u = t
    · subst hu
      have hv : v ≠ u := hne.symm
      exact hapart call v call' (by simpa using hcall) hv (by simpa [hv] using hcall')
    · have hold : n.calls u = some call := by simpa [hu] using hcall
      by_cases hv : v = t
      · subst hv
        exact (hapart call' u call (by simpa using hcall') hu hold).symm
      · exact h.apart u v call call' hne hold (by simpa [hv] using hcall')

/-- A thread is through with its request. -/
theorem Sound.ends (h : n.Sound) {db' : Db H} (htree : db'.Tree)
    (hothers : ∀ u call, u ≠ t → n.calls u = some call → call.Valid db') :
    Sound ⟨db', Function.update n.calls t none⟩ :=
  h.set htree none hothers nofun nofun

theorem first_valid {req : NameReq} (h : req.Proper) (db : Db H) : req.first.Valid db := by
  cases req with
  | create path mode => exact h
  | rmdir path => exact h
  | unlink path => trivial

theorem first_req (req : NameReq) : (req.first : NameCall H).req = req := by
  cases req <;> rfl

/-- What shows nothing changes nothing. -/
theorem Sound.silent (h : n.Sound) (hstep : n.Step none n') : n'.Sound ∧ n'.db = n.db := by
  cases hstep with
  | begins t req free proper apart =>
    refine ⟨h.set h.tree _ (fun u call _ hcall => (h.valid u call hcall).1) ?_ ?_, rfl⟩
    · intro call hcall
      rw [← Option.some.inj hcall, first_req]
      exact ⟨first_valid proper n.db, proper⟩
    · intro call u call' hcall _ hcall'
      rw [← Option.some.inj hcall, first_req]
      exact apart u call' hcall'
  | goesOn t memory call call' db' under next =>
    obtain ⟨hvalid, hproper⟩ := h.valid t call under
    obtain ⟨rfl, hreq, hvalid'⟩ := call.next_goesOn h.tree hvalid next
    refine ⟨h.set h.tree _ (fun u c _ hcall => (h.valid u c hcall).1) ?_ ?_, rfl⟩
    · intro c hcall
      rw [← Option.some.inj hcall, hreq]
      exact ⟨hvalid', hproper⟩
    · intro c u c' hcall hne hcall'
      rw [← Option.some.inj hcall, hreq]
      exact h.apart t u call c' hne.symm under hcall'

/-- What shows a request is the request at once. -/
theorem Sound.shows (h : n.Sound) {e : NameEvent} (hstep : n.Step (some e) n') :
    n'.Sound ∧ NameSpec n.db e n'.db := by
  cases hstep with
  | decides t memory call answer db' under next =>
    obtain ⟨hvalid, hproper⟩ := h.valid t call under
    have hspec := call.next_decides h.tree hvalid next
    have htree : db'.Tree := hspec.tree h.tree fun req answer heq => by
      cases heq
      exact hproper
    refine ⟨h.ends htree fun u c hne hcall => ?_, hspec⟩
    exact hspec.keeps h.tree (h.apart t u call c hne.symm under hcall) (h.valid u c hcall).1
  | throws t call under =>
    exact ⟨h.ends h.tree fun u c _ hcall => (h.valid u c hcall).1, .failed _⟩
  | writes db' same =>
    refine ⟨⟨same.tree h.tree, fun t c hcall => ?_, h.apart⟩, .written db' same⟩
    exact ⟨(h.valid t c hcall).1.sameNames same, (h.valid t c hcall).2⟩

end

end Connections

omit [DecidableEq H] in
/-- Without that the entry of a `create` that an `Rmdir` of its directory overtook is in none. -/
theorem rmdir_races_create {path : Path} (hroot : path ≠ ['/']) (hpath : NormalPath path)
    (habsent : ∀ r ∈ db.files.rows, r.path ≠ path) (mode : ℕ) (depth : ℤ) :
    ∃ db', (NameCall.insert path mode depth).next memory (db.remove (branchPath path)).1 =
      (db', .inl (.ret 0)) ∧ ¬db'.Tree := by
  have hfree : ¬∃ r ∈ (db.remove (branchPath path)).1.files.rows, r.path = path :=
    fun ⟨r, hr, hp⟩ => habsent r (List.mem_filter.mp hr).1 hp
  rw [NameCall.next, if_neg hfree]
  refine ⟨_, rfl, fun htree => ?_⟩
  obtain ⟨d, hd, hparent, -⟩ := htree.parent _ (List.mem_append_right _
    (List.mem_singleton_self _)) hroot
  change d.path = branchPath path at hparent
  rcases List.mem_append.mp hd with hd | hd
  · have hgone := (List.mem_filter.mp hd).2
    simp [hparent] at hgone
  · rw [List.mem_singleton.mp hd] at hparent
    have hcomp := components_branchPath hpath hroot
    rw [← show path = branchPath path from hparent] at hcomp
    omega

end Wwdedup
