import Wwdedup.RenameView

/-!
# The file system does what it is for

`Conforms` is what a request has to keep to: it is orderly, it reads no lost block, it goes
through an open handle and reads from inside the file, a truncation meets no hole, and names are
normalised paths that the patterns do not mix up.  Such a request never fails, and seen through
`Fs.view` it is a step of the `FileSystem` without blocks: `step_conforms`.  `Sound` is the
invariant that carries this through whole runs.
-/

namespace Wwdedup

open GuardedRun

variable {bits : ℕ} {H : Type} [DecidableEq H]

/-- The blocks that a truncation gives up have rows. -/
def Db.Filled (bits : ℕ) (db : Db H) (fi : FileInfo H) (n : ℕ) : Prop :=
  ∀ o, ceilBlock bits n ≤ o → o < ceilBlock bits fi.stSize → (db.fileHash fi.stIno o).isSome

/-- There is a row of a directory for "/". -/
def Db.Rooted (db : Db H) : Prop := ∃ r ∈ db.files.rows, r.path = ['/'] ∧ sIsdir r.mode = true

namespace Fs

/-- The request goes through an open handle, reads from inside the file and cuts no hole off; a
storage file of blocks that hold its signature is mounted again. -/
def Served (fs : Fs bits H) : Op → Prop
  | .write fh _ _ => ∃ fi, fs.handles fh = some fi
  | .read fh _ offset => ∃ fi, fs.handles fh = some fi ∧ offset ≤ fi.stSize
  | .ftruncate fh newSize => ∃ fi, fs.handles fh = some fi ∧
      (0 ≤ newSize → fs.store.db.Filled bits fi newSize.toNat)
  | .truncate path newSize =>
    0 ≤ newSize → fs.store.db.Filled bits (fs.store.db.getByPath path) newSize.toNat
  | .unlink path => fs.store.db.Filled bits (fs.store.db.getByPath path) 0
  | .remount => 4 ≤ bits
  | _ => True

/-- New names are normalised, the root stays, and no pattern matches what it should not. -/
def Named (fs : Fs bits H) : Op → Prop
  | .create path _ => NormalPath path
  | .mkdir path _ => NormalPath path
  | .rmdir path _ => path ≠ ['/'] ∧
      ∀ d ∈ fs.store.db.files.rows, d.path = path → ∀ e, ¬fs.store.db.Mistaken d e
  | .rename oldPath newPath => fs.store.db.RenameClear oldPath newPath
  | _ => True

/-- What a request keeps to. -/
structure Conforms (cfg : Config bits H) (fs : Fs bits H) (op : Op) : Prop where
  orderly : fs.Orderly cfg op
  sees : fs.RoundsMeet cfg (fun p r => r.Sees cfg p) op
  served : fs.Served op
  named : fs.Named op

/-- What such requests keep. -/
structure Sound (cfg : Config bits H) (fs : Fs bits H) : Prop where
  tidy : fs.Tidy cfg
  tree : fs.store.db.Tree
  rooted : fs.store.db.Rooted
  fresh : ∀ fh fi, fs.handles fh = some fi → fh < fs.nextFh

variable {cfg : Config bits H} {fs fs' : Fs bits H} {op : Op} {out : Out} {path : Path}

/-- A request without rounds conforms when its names do. -/
theorem Conforms.of_no_rounds (hnone : fs.rounds op = none) (hproper : fs.Proper op)
    (hempty : fs.ReplacesEmpty op) (hserved : fs.Served op) (hnamed : fs.Named op) :
    fs.Conforms cfg op where
  orderly := by
    refine ⟨hproper, hempty, fun fi rs hr => ?_, fun fi rs hr => ?_⟩
    all_goals
      rw [hnone] at hr
      cases hr
  sees := by
    intro fi rs hr
    rw [hnone] at hr
    cases hr
  served := hserved
  named := hnamed

/-- Without collisions a hash finds a block with that content only. -/
theorem Coherent.genuine (hinj : Function.Injective cfg.murmur) (h : fs.Coherent cfg) (op : Op) :
    fs.RoundsMeet cfg (fun p r => r.Genuine cfg p) op := by
  intro fi rs hr
  refine Meets.of_invariant (I := fun p => Wwdedup.Coherent cfg p.1 ∧ p.2.Ok p.1.db)
    (G := fun _ _ => True) (fun p r p' o hp _ hstep => ?_) (fun p r hp _ => ?_)
    ⟨h.1, h.acts_ok hr⟩ (meets_of_forall (fun _ _ => trivial) _ _)
  · obtain ⟨hco, hok, -⟩ := roundStep_coherent hp.1 hp.2 hstep
    exact ⟨hco, hok⟩
  · cases r with
    | write buf c =>
      intro x _ row hrow
      obtain ⟨y, hy, hhash⟩ := hp.1.row row.id _ (fun hf => hf) (Db.rowHash_of_select hrow)
      rw [hy, hinj hhash]
    | resize | read | release => trivial

/-! ### The invariant -/

theorem init_rooted : (Fs.init bits H).store.db.Rooted :=
  ⟨⟨1, ['/'], 0, 0, sIfdir ||| 0o755⟩, List.mem_singleton_self _, rfl, by decide⟩

theorem init_sound (cfg : Config bits H) : (Fs.init bits H).Sound cfg where
  tidy := init_tidy cfg
  tree := init_tree
  rooted := init_rooted
  fresh := nofun

/-- Handles are numbered from 0 on. -/
theorem step_fresh (h : ∀ fh fi, fs.handles fh = some fi → fh < fs.nextFh)
    (hstep : fs.step cfg op = .ok (fs', out)) :
    ∀ fh fi, fs'.handles fh = some fi → fh < fs'.nextFh := by
  intro k fi hk
  cases step_moves hstep with
  | same => exact h k fi hk
  | through fh acts opened rounds ran =>
    have hk' : Function.update fs.handles fh _ k = some fi := hk
    rw [Function.update_apply] at hk'
    split at hk'
    · rename_i heq
      exact heq ▸ h fh _ opened
    · exact h k fi hk'
  | byPath path acts files rounds ran => exact h k fi hk
  | files files => exact h k fi hk
  | opens path files =>
    show k < fs.nextFh + 1
    have hk' : Function.update fs.handles fs.nextFh _ k = some fi := hk
    rw [Function.update_apply] at hk'
    split at hk'
    · omega
    · exact Nat.lt_succ_of_lt (h k fi hk')
  | closes fh =>
    have hk' : Function.update fs.handles fh none k = some fi := hk
    rw [Function.update_apply] at hk'
    split at hk'
    · cases hk'
    · exact h k fi hk'
  | pass victims asked => exact h k fi hk
  | remount files asked => cases hk
  | clock now => exact h k fi hk

/-- Rounds keep the row of the root. -/
theorem run_rooted {s s' : Store bits H} {fi fi' : FileInfo H} {rs : List Round}
    {os : List (List UInt8)} (h : s.db.Rooted)
    (ran : run (roundStep cfg) (s, fi) rs = .ok ((s', fi'), os)) : s'.db.Rooted := by
  obtain ⟨r, hr, hpath, hdir⟩ := h
  have hnames := run_names ran r.id
  rw [KeyedTable.find_of_mem hr, Option.map_some] at hnames
  obtain ⟨r', hr', heq⟩ := Option.map_eq_some_iff.mp hnames
  obtain ⟨hpath', hmode'⟩ := Prod.mk.inj heq
  exact ⟨r', KeyedTable.mem_of_find hr', hpath'.trans hpath, hmode' ▸ hdir⟩

section

omit [DecidableEq H]

theorem Rooted.remove {db : Db H} (h : db.Rooted) (hne : path ≠ ['/']) :
    (db.remove path).1.Rooted := by
  obtain ⟨r, hr, hpath, hdir⟩ := h
  refine ⟨r, List.mem_filter.mpr ⟨hr, ?_⟩, hpath, hdir⟩
  simpa [hpath] using hne.symm

theorem Rooted.create {db : Db H} (h : db.Rooted) (hok : db.FilesOk) (path : Path) (mode : ℕ) :
    (db.create path mode).1.Rooted := by
  obtain ⟨r, hr, hroot⟩ := h
  rcases Db.create_cases hok path mode with ⟨hsame, -⟩ | ⟨-, -, -, depth, heq, -⟩
  · rw [hsame]
    exact ⟨r, hr, hroot⟩
  · rw [heq]
    exact ⟨r, List.mem_append_left _ hr, hroot⟩

theorem Rooted.isDir {db : Db H} (h : db.Rooted) (hok : db.FilesOk) :
    sIsdir (db.getByPath ['/']).stMode = true ∧ (db.getByPath ['/']).stIno ≠ 0 := by
  obtain ⟨r, hr, hpath, hdir⟩ := h
  rw [← hpath, hok.getByPath_of_mem hr]
  exact ⟨hdir, hok.ids r hr⟩

/-- A rename moves neither the root nor anything onto it. -/
theorem Rooted.moved {db db' : Db H} {old new : Path} {o t : FileRow} (h : db.Rooted)
    (hok : Db.RenameOk db old new o t)
    (hrows : db'.files.rows =
      (db.files.rows.filter fun r => r.path ≠ new).map (movedRow old new)) : db'.Rooted := by
  obtain ⟨r, hr, hpath, hdir⟩ := h
  have hstay : movedRow old new r = r := by
    rw [movedRow, if_neg]
    rintro (heq | hb)
    · exact hok.old_ne_root (heq.symm.trans hpath)
    · exact ne_root_of_below hb (hok.tree.normal r hr) hok.old_normal hpath
  refine ⟨r, ?_, hpath, hdir⟩
  rw [hrows, ← hstay]
  refine List.mem_map_of_mem (List.mem_filter.mpr ⟨hr, ?_⟩)
  simpa [hpath] using hok.new_ne_root.symm

/-- What a rename does to the tree and the root. -/
theorem rename_tree (htree : fs.store.db.Tree) (hroot : fs.store.db.Rooted) {old new : Path}
    (hclear : fs.store.db.RenameClear old new) :
    (fs.store.db.rename old new).1.Tree ∧ (fs.store.db.rename old new).1.Rooted := by
  by_cases hcheck : ∃ q, fs.store.db.renameCheck old new = .ok q
  · obtain ⟨o, t, hok, htree', hrows⟩ := htree.rename_moves hclear hcheck
    exact ⟨htree', Rooted.moved hroot hok hrows⟩
  · rw [Db.rename_unchanged hcheck]
    exact ⟨htree, hroot⟩

end

theorem step_rooted (htree : fs.store.db.Tree) (hroot : fs.store.db.Rooted)
    (hnamed : fs.Named op) (hstep : fs.step cfg op = .ok (fs', out)) : fs'.store.db.Rooted := by
  have hok := htree.files
  cases op with
  | create path mode =>
    have heq : (fs.create path mode).1 = fs' := congrArg Prod.fst (Except.ok.inj hstep)
    rw [← heq]
    unfold Fs.create
    dsimp only
    split
    · exact Rooted.create hroot hok path mode
    · exact Rooted.create hroot hok path mode
  | mkdir path mode =>
    cases hstep
    exact Rooted.create hroot hok path (mode ||| sIfdir)
  | openFile path =>
    have heq : (fs.openFile path).1 = fs' := congrArg Prod.fst (Except.ok.inj hstep)
    rw [← heq]
    unfold Fs.openFile
    dsimp only
    split
    · exact hroot
    · split
      · exact hroot
      · exact hroot
  | release fh =>
    cases hstep
    exact hroot
  | write fh buf offset =>
    obtain ⟨fi, fi', s', os, -, -, ran, rfl, -⟩ := step_write_ok hstep
    exact run_rooted hroot ran
  | read fh size offset =>
    obtain ⟨fi, fi', s', os, -, -, -, ran, rfl, -⟩ := step_read_ok hstep
    exact run_rooted hroot ran
  | truncate path newSize =>
    rcases step_truncate_ok hstep with ⟨rfl, -⟩ | ⟨n, fi', s', os, -, -, ran, rfl⟩
    · exact hroot
    · exact run_rooted hroot ran
  | ftruncate fh newSize =>
    rcases step_ftruncate_ok hstep with ⟨rfl, -⟩ | ⟨n, fi, fi', s', os, -, -, -, ran, rfl⟩
    · exact hroot
    · exact run_rooted hroot ran
  | unlink path =>
    rcases step_unlink_ok hstep with ⟨rfl, -⟩ | ⟨fi', s', os, hr, ran, rfl⟩
    · exact hroot
    · refine Rooted.remove (run_rooted hroot ran) ?_
      rintro rfl
      have hnot : ¬((fs.store.db.getByPath ['/']).stIno = 0 ∨
          sIsdir (fs.store.db.getByPath ['/']).stMode = true) := by
        intro hor
        rw [rounds, if_pos hor] at hr
        cases hr
      exact hnot (.inr (Rooted.isDir hroot hok).1)
  | rmdir path memory =>
    obtain rfl | ⟨-, -, rfl⟩ := step_rmdir_ok hstep
    · exact hroot
    · exact Rooted.remove hroot hnamed.1
  | rename oldPath newPath =>
    cases hstep
    exact (rename_tree htree hroot hnamed).2
  | writerPass victims =>
    cases hstep
    exact hroot
  | remount =>
    obtain ⟨-, rfl, -⟩ := step_remount_ok hstep
    exact Rooted.create hroot hok ['/'] _
  | clock now =>
    cases hstep
    exact hroot

/-- **What conforming requests keep.** -/
theorem Conforms.step_sound (h : fs.Sound cfg) (hc : fs.Conforms cfg op)
    (hstep : fs.step cfg op = .ok (fs', out)) : fs'.Sound cfg := by
  refine ⟨hc.orderly.step h.tidy hstep, ?_, step_rooted h.tree h.rooted hc.named hstep,
    step_fresh h.fresh hstep⟩
  have hkeeps : op.KeepsTree → fs'.store.db.Tree := fun hop => step_tree h.tree hop hstep
  have hnamed := hc.named
  cases op with
  | rename oldPath newPath =>
    cases hstep
    exact (rename_tree h.tree h.rooted hnamed).1
  | create path mode => exact hkeeps hnamed
  | mkdir path mode => exact hkeeps hnamed
  | openFile | release | write | read | truncate | ftruncate | unlink | rmdir | writerPass
  | remount | clock => exact hkeeps trivial

/-! ### Each request is a step of the view -/

/-- The request succeeds, and seen from outside it is a step of a file system without blocks. -/
def Simulated (cfg : Config bits H) (fs : Fs bits H) (op : Op) : Prop :=
  ∃ fs' out, fs.step cfg op = .ok (fs', out) ∧
    FileSystem.Step (blockCut bits) fs.view op fs'.view out

section names

variable (h : fs.Sound cfg)

include h

/-- A new name is refused, or put into the table. -/
theorem Sound.create_view (path : Path) (mode : ℕ) :
    match fs.view.newRefusal path with
    | some e => 0 < e ∧ fs.store.db.create path mode = (fs.store.db, -e)
    | none => (fs.store.db.create path mode).2 = 0 ∧
        (fs.setDb (fs.store.db.create path mode).1).view =
          fs.view.link path fs.store.db.files.nextId (.new mode) ∧
        ((fs.store.db.create path mode).1.getByPath path).stIno =
          fs.store.db.files.nextId := by
  have hok := h.tree.files
  have hcases := Db.create_cases hok path mode
  have hlinked : (fs.store.db.create path mode).2 = 0 →
      (fs.store.db.getByPath path).stIno = 0 →
      (fs.store.db.create path mode).2 = 0 ∧
        (fs.setDb (fs.store.db.create path mode).1).view =
          fs.view.link path fs.store.db.files.nextId (.new mode) ∧
        ((fs.store.db.create path mode).1.getByPath path).stIno = fs.store.db.files.nextId := by
    intro hzero hfree
    rcases hcases with ⟨-, hneg⟩ | ⟨-, hok', -, depth, heq, hget⟩
    · omega
    · exact ⟨hzero, view_insert h.tidy.owned (hok.absent hfree) hok' heq, by rw [hget]; rfl⟩
  simp only [FileSystem.newRefusal, FileSystem.parentRefusal, names_view_eq_none, isDir_view hok]
  have hname : (fs.view.names path).isSome = true ↔ (fs.store.db.getByPath path).stIno ≠ 0 := by
    rw [Option.isSome_iff_ne_none, ne_eq, names_view_eq_none]
  unfold Db.create at hlinked ⊢
  dsimp only at hlinked ⊢
  by_cases hroot : path = ['/']
  · by_cases hfree : (fs.store.db.getByPath path).stIno = 0
    · simp only [hroot] at hfree hname hlinked ⊢
      simp [hname, hfree] at hlinked ⊢
      exact hlinked
    · simp only [hroot] at hfree hname ⊢
      simp [hname, hfree, eexist]
  · by_cases hparent : (fs.store.db.getByPath (branchPath path)).stIno = 0
    · simp [hroot, hparent, enoent]
    · cases hdir : sIsdir (fs.store.db.getByPath (branchPath path)).stMode with
      | false => simp [hroot, hparent, enotdir]
      | true =>
        by_cases hfree : (fs.store.db.getByPath path).stIno = 0
        · simp [hroot, hparent, hdir, hname, hfree] at hlinked ⊢
          exact hlinked
        · simp [hroot, hparent, hname, hfree, eexist]

omit h in
theorem free_ino (fs : Fs bits H) : fs.view.nodes fs.store.db.files.nextId = none := by
  show (fs.store.db.files.find _).map _ = none
  rw [KeyedTable.find_nextId]
  rfl

theorem Sound.unused_handle : fs.view.handles fs.nextFh = none := by
  show (fs.handles fs.nextFh).map _ = none
  cases hfh : fs.handles fs.nextFh with
  | none => rfl
  | some fi => exact absurd (h.fresh _ _ hfh) (Nat.lt_irrefl _)

theorem Sound.create (path : Path) (mode : ℕ) : fs.Simulated cfg (.create path mode) := by
  refine ⟨(fs.create path mode).1, (fs.create path mode).2, rfl, ?_⟩
  have hview := h.create_view path mode
  unfold Fs.create
  dsimp only
  split at hview
  · rename_i e hrefused
    obtain ⟨hpos, heq⟩ := hview
    rw [heq, if_pos (by dsimp only; omega)]
    exact .refused hrefused
  · rename_i hallowed
    obtain ⟨hzero, hlink, hino⟩ := hview
    rw [if_neg (by omega)]
    dsimp only
    have hopen : ((fs.setDb (fs.store.db.create path mode).1).addHandle
        ((fs.store.db.create path mode).1.getByPath path)).view =
        (fs.view.link path fs.store.db.files.nextId (.new mode)).opens fs.nextFh
          fs.store.db.files.nextId := by
      rw [view_addHandle, hlink, hino]
      rfl
    rw [hopen]
    exact .create hallowed fs.free_ino h.unused_handle

theorem Sound.mkdir (path : Path) (mode : ℕ) : fs.Simulated cfg (.mkdir path mode) := by
  refine ⟨(fs.mkdir path mode).1, (fs.mkdir path mode).2, rfl, ?_⟩
  have hview := h.create_view path (mode ||| sIfdir)
  unfold Fs.mkdir
  dsimp only
  split at hview
  · rename_i e hrefused
    rw [hview.2]
    exact .refused hrefused
  · rename_i hallowed
    rw [hview.1, hview.2.1]
    exact .mkdir hallowed fs.free_ino

theorem Sound.openFile (path : Path) : fs.Simulated cfg (.openFile path) := by
  refine ⟨(fs.openFile path).1, (fs.openFile path).2, rfl, ?_⟩
  have hok := h.tree.files
  unfold Fs.openFile
  dsimp only
  by_cases hino : (fs.store.db.getByPath path).stIno = 0
  · rw [if_pos hino]
    apply FileSystem.Step.refused
    simp only [FileSystem.refusal, names_view_eq_none, hino, if_true]
  · rw [if_neg hino]
    cases hreg : sIsreg (fs.store.db.getByPath path).stMode with
    | false =>
      rw [if_pos (by decide)]
      apply FileSystem.Step.refused
      simp only [FileSystem.refusal, names_view_eq_none, isReg_view hok, hino, hreg, if_true,
        if_false]
    | true =>
      rw [if_neg (by decide)]
      dsimp only
      rw [view_addHandle]
      refine .openFile ?_ (Db.named_of_ne_zero hino) h.unused_handle
      simp only [FileSystem.refusal, names_view_eq_none, isReg_view hok, hino, hreg, if_false]
      rfl

theorem Sound.rmdir {path : Path} {memory : ℕ} (hnamed : fs.Named (.rmdir path memory)) :
    fs.Simulated cfg (.rmdir path memory) := by
  refine ⟨(fs.rmdir path memory).1, (fs.rmdir path memory).2, rfl, ?_⟩
  have hok := h.tree.files
  -- a directory looks empty when it is
  have hempty : sIsdir (fs.store.db.getByPath path).stMode = true →
      (fs.store.db.dirEmpty (fs.store.db.getByPath path) = true ↔ ¬fs.view.HasEntry path) := by
    intro hdir
    have hino : (fs.store.db.getByPath path).stIno ≠ 0 := by
      rcases Db.getByPath_cases fs.store.db path with ⟨row, hrow, -, hinfo⟩ | ⟨-, -, hmode⟩
      · rw [hinfo]
        exact hok.ids row hrow
      · rw [hmode] at hdir
        cases hdir
    rw [hasEntry_view hok]
    exact h.tree.dirEmpty_iff hnamed.2 hino
  have hcases := fs.rmdir_rmdirs path memory
  generalize fs.rmdir path memory = r at hcases
  cases hcases with
  | missing absent answer =>
    have hino : (fs.store.db.getByPath path).stIno = 0 := by
      rcases Db.getByPath_cases fs.store.db path with ⟨row, hrow, hpath, -⟩ | ⟨-, hzero, -⟩
      · exact absurd hpath (absent row hrow)
      · exact hzero
    exact .rmdirMissing (names_view_eq_none.mpr hino) answer
  | notDir file =>
    apply FileSystem.Step.refused
    simp only [FileSystem.refusal, isDir_view hok, file, if_true]
  | notEmpty dir full =>
    have hentry : fs.view.HasEntry path := by
      by_contra hno
      rw [(hempty dir).mpr hno] at full
      cases full
    apply FileSystem.Step.refused
    simp [FileSystem.refusal, isDir_view hok, dir, hentry]
  | removed dir empty =>
    have hentry := (hempty dir).mp empty
    dsimp only
    rw [view_remove hok]
    refine .rmdir ?_
    simp [FileSystem.refusal, isDir_view hok, dir, hentry]

theorem Sound.rename {old new : Path} (hclear : fs.store.db.RenameClear old new) :
    fs.Simulated cfg (.rename old new) := by
  refine ⟨(fs.rename old new).1, (fs.rename old new).2, rfl, ?_⟩
  have hview := renameCheck_view h.tree hclear
  unfold Fs.rename
  dsimp only
  split at hview
  · rename_i e hrefused
    rw [Db.rename_of_error hview]
    exact .refused hrefused
  · rename_i hallowed
    obtain ⟨o, t, hok, htree, hrows⟩ := h.tree.rename_moves hclear hview
    rw [h.tree.rename_isOk hclear hview,
      view_moved hok hrows (rename_setFiles ..) htree]
    exact .rename hallowed

end names

section files

variable (h : fs.Sound cfg)

include h

/-- The rounds of an orderly request run through a handle that knows its file. -/
theorem Sound.attends (hord : fs.Orderly cfg op) {fi : FileInfo H} {rs : List Round}
    (hr : fs.rounds op = some (fi, rs)) : Attends cfg fi.stIno (fs.store, fi) :=
  ⟨h.tidy.coherent.1, h.tidy.coherent.acts_ok hr, h.tidy.found, hord.2.2.1 fi rs hr, rfl⟩

/-- The rounds of a conforming request are plain. -/
theorem Conforms.plain (hdb : cfg.dbBlockSize ≤ blockSize bits) (hc : fs.Conforms cfg op)
    {fi : FileInfo H} {rs : List Round} (hr : fs.rounds op = some (fi, rs)) :
    Meets (roundStep cfg) (fun p r => r.Plain cfg p) (fs.store, fi) rs := by
  have hfinds := rounds_finds hdb h.tidy.owned.blocks (hc.orderly.2.2.1 fi rs hr).size hr
  have hall := ((hc.orderly.2.2.2 fi rs hr).and (hc.sees fi rs hr)).and hfinds
  exact hall.mono fun _ _ hg => ⟨hg.1.1.1, hg.1.1.2, hg.1.2, hg.2⟩

/-- The node of a handle that knows its file. -/
theorem Sound.node (hord : fs.Orderly cfg op) {fi : FileInfo H} {rs : List Round}
    (hr : fs.rounds op = some (fi, rs)) : ∃ row, fs.store.db.files.find fi.stIno = some row ∧
      fs.view.nodes fi.stIno = some (fs.store.nodeOf row) ∧ row.id = fi.stIno ∧
      row.size = fi.stSize := by
  obtain ⟨row, hrow, hsize⟩ := (h.attends hord hr).attached.size
  exact ⟨row, hrow, view_nodes_of_find hrow, KeyedTable.key_of_find hrow, hsize⟩

theorem Sound.write (hdb : cfg.dbBlockSize ≤ blockSize bits) {fh offset : ℕ} {buf : List UInt8}
    (hc : fs.Conforms cfg (.write fh buf offset)) :
    fs.Simulated cfg (.write fh buf offset) := by
  obtain ⟨fi, hfi⟩ := hc.served
  have hr : fs.rounds (.write fh buf offset) = some (fi, writeRounds bits fi buf offset) := by
    rw [rounds, hfi]
    rfl
  have hplain := hc.plain h hdb hr
  obtain ⟨row, hrow, hnode, hid, hsize⟩ := h.node hc.orderly hr
  obtain ⟨s', fi', os, ran, hend⟩ := run_write_array (h.attends hc.orderly hr) buf offset hplain
  refine ⟨(fs.setStore s').setHandle fh fi', .ret buf.length, ?_, ?_⟩
  · simp only [Fs.step, Fs.write, hfi, writeBuf_run, ran, Except.map, factSize_eq]
  · have hview := view_rounds h.tidy hr (hplain.mono fun _ _ hg => hg.1) ran hrow
      (hend.attends.stIno ▸ hend.attends.attached.size)
    rw [view_through _ hfi hend.attends.stIno, hview]
    have hwritten : (⟨row.mode, fi'.stSize, s'.byteOf fi.stIno⟩ : Node) =
        (fs.store.nodeOf row).write buf offset := by
      refine Node.ext rfl ?_ ?_
      · show fi'.stSize = max row.size (offset + buf.length)
        rw [hend.size, hsize]
      · show s'.byteOf fi.stIno =
          patch (fs.store.byteOf row.id) offset buf.length fun i => buf.getD i 0
        rw [hend.bytes, hid]
    rw [hwritten]
    refine .write buf offset ?_ hnode
    show (fs.handles fh).map FileInfo.stIno = some fi.stIno
    rw [hfi]
    rfl

theorem Sound.read (hdb : cfg.dbBlockSize ≤ blockSize bits) {fh size offset : ℕ}
    (hc : fs.Conforms cfg (.read fh size offset)) : fs.Simulated cfg (.read fh size offset) := by
  obtain ⟨fi, hfi, hle⟩ := hc.served
  have hr : fs.rounds (.read fh size offset) = some (fi, readRounds bits fi size offset) := by
    simp [rounds, hfi, readStart_of_le hle]
  have hplain := hc.plain h hdb hr
  obtain ⟨row, hrow, hnode, hid, hsize⟩ := h.node hc.orderly hr
  obtain ⟨s', fi', os, ran, hbytes, hend⟩ := run_read_array (h.attends hc.orderly hr) hplain
  refine ⟨(fs.setStore s').setHandle fh fi', .bytes os.flatten, ?_, ?_⟩
  · simp only [Fs.step, Fs.read, hfi, readBuf_run cfg _ _ (readStart_of_le hle), ran, Except.map]
  · have hview := view_rounds h.tidy hr (hplain.mono fun _ _ hg => hg.1) ran hrow
      (hend.attends.stIno ▸ hend.attends.attached.size)
    have hsame : (⟨row.mode, fi'.stSize, s'.byteOf fi.stIno⟩ : Node) = fs.store.nodeOf row := by
      refine Node.ext rfl ?_ ?_
      · show fi'.stSize = row.size
        rw [hend.size, hsize]
      · show s'.byteOf fi.stIno = fs.store.byteOf row.id
        rw [hend.bytes, hid]
    have hstays : fs.view.set fi.stIno (fs.store.nodeOf row) = fs.view := by
      unfold FileSystem.set
      rw [← hnode, Function.update_eq_self]
    rw [view_through _ hfi hend.attends.stIno, hview, hsame, hstays, hbytes]
    have hread : window (fs.store.byteOf fi.stIno) offset (min size (fi.stSize - offset)) =
        (fs.store.nodeOf row).read size offset := by
      rw [← hid, ← hsize]
      rfl
    rw [hread]
    refine .read size offset ?_ hnode
    show (fs.handles fh).map FileInfo.stIno = some fi.stIno
    rw [hfi]
    rfl

omit [DecidableEq H] in
/-- Every row has a content. -/
theorem Sound.slots (k : ℕ) (hk : (fs.store.db.rowHash k).isSome) :
    (fs.store.content k).isSome := by
  obtain ⟨g, hg⟩ := Option.isSome_iff_exists.mp hk
  obtain ⟨x, hx, -⟩ := h.tidy.coherent.1.row k g (fun hf => hf) hg
  rw [hx]
  rfl

/-- A pass of the writer shows nothing. -/
theorem Sound.view_writerPass (victims : List ℕ) :
    (fs.setStore (fs.store.writerPass victims)).view = fs.view := by
  have hkept : (fs.store.writerPass victims).byteOf = fs.store.byteOf :=
    Store.byteOf_kept h.slots (fun _ _ => rfl) (fun _ => rfl)
      fun _ _ hx => h.tidy.coherent.1.stored.content_writerPass victims hx
  exact view_congr rfl (fun _ => rfl) (fun i _ _ => congrFun hkept i) fun _ => rfl

/-- Mounting again closes the handles and shows the same files. -/
theorem Sound.view_remount : fs.remount.view = { fs.view with handles := fun _ => none } := by
  have hok := h.tree.files
  have hroot := (Rooted.isDir h.rooted hok).2
  have hsame : (fs.store.db.create ['/'] (sIfdir ||| 0o755)).1 = fs.store.db := by
    simp [Db.create, hroot]
  have hkept : fs.remount.store.byteOf = fs.store.byteOf := by
    refine Store.byteOf_kept h.slots (fun f o => ?_) (fun g => ?_) fun k x hx => ?_
    · show (fs.store.db.create ['/'] (sIfdir ||| 0o755)).1.fileHash f o = _
      rw [hsame]
    · show (fs.store.db.create ['/'] (sIfdir ||| 0o755)).1.selectBlockHash g = _
      rw [hsame]
    · exact h.tidy.coherent.1.content_remount fs.store.db.files hx
  have hfiles : fs.remount.store.db = fs.store.db := hsame
  refine FileSystem.ext ?_ ?_ rfl
  · show fs.remount.store.db.named = fs.store.db.named
    rw [hfiles]
  · funext i
    show (fs.remount.store.db.files.find i).map fs.remount.store.nodeOf =
      (fs.store.db.files.find i).map fs.store.nodeOf
    have hnode : fs.remount.store.nodeOf = fs.store.nodeOf := by
      funext row
      rw [Store.nodeOf, hkept]
      rfl
    rw [hfiles, hnode]

/-- A truncation that meets no hole goes through. -/
theorem Sound.truncate_ok (hdb : cfg.dbBlockSize ≤ blockSize bits) (hord : fs.Orderly cfg op)
    {fi : FileInfo H} {n : ℕ} (hr : fs.rounds op = some (fi, truncateRounds bits fi n))
    (hfilled : fs.store.db.Filled bits fi n) :
    ∃ s' fi' os, Wwdedup.truncate cfg fs.store fi n = .ok (s', fi', 0) ∧ fi'.stSize = n ∧
      run (roundStep cfg) (fs.store, fi) (truncateRounds bits fi n) = .ok ((s', fi'), os) := by
  have hatt := (h.attends hord hr).attached
  obtain ⟨row, hrow, -, -, hsize⟩ := h.node hord hr
  have hcovered : fs.store.db.Covered bits fi n := by
    refine ⟨hfilled, fun o ho => ?_⟩
    by_contra hsome
    obtain ⟨g, hg⟩ := Option.ne_none_iff_exists'.mp hsome
    obtain ⟨row', hrow', -, hin⟩ := h.tidy.owned.blocks _ _ g hg
    rw [hrow] at hrow'
    cases hrow'
    have hlt : o < ceilBlock bits row.size := lt_ceil_iff.mpr hin
    rw [hsize] at hlt
    exact absurd hlt (not_lt.mpr ((le_max_right ..).trans ho))
  obtain ⟨s', fi', htrunc, htruncated⟩ :=
    truncatesTo_of_covered hdb h.tidy.coherent.1 hatt.knows hcovered
  rw [truncate_run] at htrunc
  obtain ⟨⟨⟨s₁, fi₁⟩, os⟩, ran, heq⟩ := ok_of_map htrunc
  cases heq
  exact ⟨s₁, fi₁, os, by rw [truncate_run, ran]; rfl, htruncated.size, ran⟩

/-- What a truncation makes of the view. -/
theorem Sound.view_truncation (cut : Truncation) {fi fi' : FileInfo H} {n : ℕ}
    (hord : fs.Orderly cfg (cut.op n)) (hcut : cut.WorksOn fs fi) {s' : Store bits H}
    {os : List (List UInt8)} {row : FileRow} (hrow : fs.store.db.files.find fi.stIno = some row)
    (htrunc : Wwdedup.truncate cfg fs.store fi n = .ok (s', fi', 0)) (hsize' : fi'.stSize = n)
    (ran : run (roundStep cfg) (fs.store, fi) (truncateRounds bits fi n) = .ok ((s', fi'), os)) :
    (fs.setStore s').view =
      fs.view.set fi.stIno ((fs.store.nodeOf row).truncate (blockCut bits) n) := by
  have hr := hcut.rounds n
  have hatt := (h.attends hord hr).attached
  have hrow' := run_truncate_size hrow (hatt.size_eq hrow) ran
  obtain ⟨fs₁, hstep, hstore⟩ := hcut.step_ok htrunc
  have hbytes := hcut.byteOf h.tidy hord hstep
  rw [hstore] at hbytes
  have hid : row.id = fi.stIno := KeyedTable.key_of_find hrow
  rw [view_rounds h.tidy hr ((hord.2.2.2 fi _ hr).mono fun _ _ hg => hg.1) ran hrow
    ⟨_, hrow', hsize'.symm⟩]
  congr 1
  refine Node.ext rfl hsize' ?_
  funext p
  show s'.byteOf fi.stIno p = blockCut bits n (fs.store.byteOf row.id) p
  rw [hbytes, hid, blockCut]
  exact if_congr lt_ceil_iff rfl rfl

theorem Sound.ftruncate (hdb : cfg.dbBlockSize ≤ blockSize bits) {fh : ℕ} {newSize : ℤ}
    (hc : fs.Conforms cfg (.ftruncate fh newSize)) :
    fs.Simulated cfg (.ftruncate fh newSize) := by
  obtain ⟨fi, hfi, hfilled⟩ := hc.served
  by_cases hneg : newSize < 0
  · have htrunc : Wwdedup.truncate cfg fs.store fi newSize = .ok (fs.store, fi, -einval) :=
      if_pos hneg
    refine ⟨(fs.setStore fs.store).setHandle fh fi, .ret (-einval), ?_, ?_⟩
    · simp only [Fs.step, Fs.ftruncate, hfi, htrunc]
    · rw [view_through _ hfi rfl]
      exact .refused (if_pos hneg)
  · obtain ⟨n, rfl⟩ := Int.eq_ofNat_of_zero_le (not_lt.mp hneg)
    have hcut : (Truncation.byHandle fh).WorksOn fs fi := hfi
    have hr := hcut.rounds n
    obtain ⟨row, hrow, hnode, -⟩ := h.node hc.orderly hr
    obtain ⟨s', fi', os, htrunc, hsize', ran⟩ :=
      h.truncate_ok hdb hc.orderly hr (hfilled (by omega))
    refine ⟨(fs.setStore s').setHandle fh fi', .ret 0, ?_, ?_⟩
    · simp only [Fs.step, Fs.ftruncate, hfi, htrunc]
    · have hino : fi'.stIno = fi.stIno := (run_stIno ran)
      rw [view_through _ hfi hino,
        h.view_truncation (.byHandle fh) hc.orderly hcut hrow htrunc hsize' ran]
      refine .ftruncate ?_ hnode
      show (fs.handles fh).map FileInfo.stIno = some fi.stIno
      rw [hfi]
      rfl

theorem Sound.truncate (hdb : cfg.dbBlockSize ≤ blockSize bits) {path : Path} {newSize : ℤ}
    (hc : fs.Conforms cfg (.truncate path newSize)) :
    fs.Simulated cfg (.truncate path newSize) := by
  have hok := h.tree.files
  have hfilled := hc.served
  by_cases hino : (fs.store.db.getByPath path).stIno = 0
  · refine ⟨fs, .ret (-enoent), ?_, .refused ?_⟩
    · simp only [Fs.step, Fs.truncate, hino, if_true]
    · simp only [FileSystem.refusal, names_view_eq_none, hino, if_true]
  cases hreg : sIsreg (fs.store.db.getByPath path).stMode with
  | false =>
    refine ⟨fs, .ret (-einval), ?_, .refused ?_⟩
    · simp only [Fs.step, Fs.truncate, hino, hreg, if_false, Bool.not_false, if_true]
    · simp only [FileSystem.refusal, names_view_eq_none, isReg_view hok, hino, hreg, if_false,
        true_or, if_true]
  | true =>
    by_cases hneg : newSize < 0
    · have htrunc : Wwdedup.truncate cfg fs.store (fs.store.db.getByPath path) newSize =
          .ok (fs.store, fs.store.db.getByPath path, -einval) := if_pos hneg
      refine ⟨fs.setStore fs.store, .ret (-einval), ?_, .refused ?_⟩
      · simp [Fs.step, Fs.truncate, hino, hreg, htrunc]
      · simp only [FileSystem.refusal, names_view_eq_none, hino, hneg, if_false, or_true, if_true]
    · obtain ⟨n, rfl⟩ := Int.eq_ofNat_of_zero_le (not_lt.mp hneg)
      have hcut : (Truncation.byPath path).WorksOn fs (fs.store.db.getByPath path) :=
        ⟨rfl, hino, hreg⟩
      have hr := hcut.rounds n
      obtain ⟨row, hrow, hnode, -⟩ := h.node hc.orderly hr
      obtain ⟨s', fi', os, htrunc, hsize', ran⟩ :=
        h.truncate_ok hdb hc.orderly hr (hfilled (by omega))
      refine ⟨fs.setStore s', .ret 0, ?_, ?_⟩
      · simp [Fs.step, Fs.truncate, hino, hreg, htrunc]
      · rw [h.view_truncation (.byPath path) hc.orderly hcut hrow htrunc hsize' ran]
        refine .truncate ?_ (Db.named_of_ne_zero hino) hnode
        simp only [FileSystem.refusal, names_view_eq_none, isReg_view hok, hino, hreg, if_false]
        refine if_neg ?_
        rintro (hfalse | hlt)
        · cases hfalse
        · exact hneg hlt

theorem Sound.unlink (hdb : cfg.dbBlockSize ≤ blockSize bits) {path : Path}
    (hc : fs.Conforms cfg (.unlink path)) : fs.Simulated cfg (.unlink path) := by
  have hok := h.tree.files
  by_cases hino : (fs.store.db.getByPath path).stIno = 0
  · refine ⟨fs, .ret (-enoent), ?_, .refused ?_⟩
    · simp only [Fs.step, Fs.unlink, hino, if_true]
    · simp only [FileSystem.refusal, names_view_eq_none, hino, if_true]
  cases hdir : sIsdir (fs.store.db.getByPath path).stMode with
  | true =>
    refine ⟨fs, .ret (-eisdir), ?_, .refused ?_⟩
    · simp only [Fs.step, Fs.unlink, hino, hdir, if_false, if_true]
    · simp only [FileSystem.refusal, names_view_eq_none, isDir_view hok, hino, hdir, if_false,
        if_true]
  | false =>
    have hr : fs.rounds (.unlink path) = some (fs.store.db.getByPath path,
        truncateRounds bits (fs.store.db.getByPath path) 0) := by
      simp [rounds, hino, hdir]
    obtain ⟨row, hrow, hnode, -⟩ := h.node hc.orderly hr
    obtain ⟨s', fi', os, htrunc, hsize', ran⟩ := h.truncate_ok hdb hc.orderly hr hc.served
    refine ⟨(fs.setStore s').setDb (s'.db.remove path).1, .ret 0, ?_, ?_⟩
    · simp only [Nat.cast_zero] at htrunc
      simp [Fs.step, Fs.unlink, hino, hdir, htrunc, Db.remove]
    · have hfiles := run_filesOk hok ran
      have hname : fs.view.names path = some (fs.store.db.getByPath path).stIno :=
        Db.named_of_ne_zero hino
      have hview : ((fs.setStore s').setDb (s'.db.remove path).1).view = fs.view.unlink path := by
        rw [show ((fs.setStore s').setDb (s'.db.remove path).1).view =
          (fs.setStore s').view.unlink path from view_remove  hfiles path]
        have hrow' := run_truncate_size hrow
          ((h.attends hc.orderly hr).attached.size_eq hrow) ran
        rw [view_rounds h.tidy hr ((hc.orderly.2.2.2 _ _ hr).mono fun _ _ hg => hg.1) ran hrow
          ⟨_, hrow', hsize'.symm⟩]
        refine FileSystem.ext rfl ?_ rfl
        funext i
        by_cases hi : fs.view.names path = some i
        · exact (if_pos hi).trans (if_pos hi).symm
        · refine (if_neg hi).trans (Eq.trans ?_ (if_neg hi).symm)
          apply Function.update_of_ne
          rintro rfl
          exact hi hname
      rw [hview]
      refine .unlink ?_
      simp only [FileSystem.refusal, names_view_eq_none, isDir_view hok, hino, hdir, if_false]
      rfl

/-- **A conforming request** succeeds, keeps the invariant, and seen from outside it is a step of a
file system without blocks. -/
theorem Sound.step_conforms (hdb : cfg.dbBlockSize ≤ blockSize bits) (hc : fs.Conforms cfg op) :
    ∃ fs' out, fs.step cfg op = .ok (fs', out) ∧ fs'.Sound cfg ∧
      FileSystem.Step (blockCut bits) fs.view op fs'.view out := by
  have hnamed := hc.named
  have hsim : fs.Simulated cfg op := by
    cases op with
    | create path mode => exact h.create path mode
    | mkdir path mode => exact h.mkdir path mode
    | openFile path => exact h.openFile path
    | release fh =>
      refine ⟨(fs.release fh).1, .ret 0, rfl, ?_⟩
      rw [view_release]
      exact .release fh
    | write fh buf offset => exact h.write hdb hc
    | read fh size offset => exact h.read hdb hc
    | truncate path newSize => exact h.truncate hdb hc
    | ftruncate fh newSize => exact h.ftruncate hdb hc
    | unlink path => exact h.unlink hdb hc
    | rmdir path memory => exact h.rmdir hnamed
    | rename oldPath newPath => exact h.rename hnamed
    | writerPass victims =>
      refine ⟨_, _, rfl, ?_⟩
      rw [h.view_writerPass]
      exact .writerPass victims
    | remount =>
      have hbits : ¬bits < 4 := not_lt.mpr hc.served
      refine ⟨fs.remount, .ret 0, if_neg hbits, ?_⟩
      rw [h.view_remount]
      exact .remount
    | clock now => exact ⟨_, _, rfl, .clock now⟩
  obtain ⟨fs', out, hstep, hspec⟩ := hsim
  exact ⟨fs', out, hstep, hc.step_sound h hstep, hspec⟩

end files

/-- What a truncation cuts off the last block that stays is zero already. -/
def CutsZeros (fs : Fs bits H) (op : Op) : Prop :=
  ∀ n node, fs.view.Truncates op n node → ∀ p, n ≤ p → p / blockSize bits * blockSize bits < n →
    node.byte p = 0

/-- Then it cuts as it should. -/
theorem CutsZeros.cut_eq (hzeros : fs.CutsZeros op) {n : ℕ} {node : Node}
    (hn : fs.view.Truncates op n node) :
    node.truncate (blockCut bits) n = node.truncate flatCut n := by
  refine Node.ext rfl rfl (funext fun p => ?_)
  show (if p / blockSize bits * blockSize bits < n then node.byte p else 0) =
    if p < n then node.byte p else 0
  have hle := Nat.div_mul_le_self p (blockSize bits)
  by_cases hp : p < n
  · rw [if_pos hp, if_pos (by omega)]
  · rw [if_neg hp]
    split
    · rename_i hblock
      exact hzeros n node hn p (by omega) hblock
    · rfl

theorem init_view : (Fs.init bits H).view = .init := by
  refine FileSystem.ext ?_ ?_ rfl
  · funext p
    show (Fs.init bits H).store.db.named p =
      Function.update (fun _ => none : Path → Option ℕ) ['/'] (some 1) p
    apply Option.ext
    intro i
    rw [init_tree.files.named_eq_some, Function.update_apply]
    constructor
    · rintro ⟨row, hrow, rfl⟩
      obtain ⟨hmem, rfl⟩ := KeyedTable.find_eq_some.mp hrow
      rw [List.mem_singleton.mp hmem]
      rfl
    · intro hi
      split at hi
      · rename_i hp
        cases hi
        exact ⟨⟨1, ['/'], 0, 0, sIfdir ||| 0o755⟩, rfl, hp.symm⟩
      · cases hi
  · funext i
    show ((Fs.init bits H).store.db.files.find i).map _ =
      Function.update (fun _ => none : ℕ → Option Node) 1 (some (.new (sIfdir ||| 0o755))) i
    rw [Function.update_apply]
    split
    · rename_i hi
      rw [hi]
      rfl
    · rename_i hi
      have hnone : (Fs.init bits H).store.db.files.find i = none := by
        rw [KeyedTable.find_eq_none]
        intro row hrow
        rw [List.mem_singleton.mp hrow]
        exact fun heq => hi heq.symm
      rw [hnone]
      rfl

end Fs

/-! ### Runs -/

/-- **The store of blocks is a file system.**  Every run of conforming requests, passes of the
writer and remounts succeeds, and what it shows is what a run of the file system without blocks
shows: errors, handles, and the bytes that are read.  Blocks that are shared, evicted, loaded again
or overwritten in place make no difference. -/
theorem conforming_runs (cfg : Config bits H) (hdb : cfg.dbBlockSize ≤ blockSize bits)
    (ops : List Op)
    (hok : Meets (Fs.step cfg) (fun fs op => fs.Conforms cfg op) (Fs.init bits H) ops) :
    ∃ fs outs, run (Fs.step cfg) (Fs.init bits H) ops = .ok (fs, outs) ∧
      SpecRuns (FileSystem.Step (blockCut bits)) .init ops outs fs.view := by
  have hstep : ∀ (fs : Fs bits H) op, fs.Sound cfg → fs.Conforms cfg op →
      ∃ fs' out, fs.step cfg op = .ok (fs', out) ∧ fs'.Sound cfg ∧
        FileSystem.Step (blockCut bits) fs.view op fs'.view out :=
    fun fs op h hc => h.step_conforms hdb hc
  obtain ⟨fs, outs, hrun, -, hspec⟩ := run_simulates hstep (Fs.init_sound cfg) hok
  rw [Fs.init_view] at hspec
  exact ⟨fs, outs, hrun, hspec⟩

/-- **Where truncations cut no byte off inside a block**, the file system is one that cuts at the
byte, and no file has a byte behind its end. -/
theorem conforming_runs_flat (cfg : Config bits H) (hdb : cfg.dbBlockSize ≤ blockSize bits)
    (ops : List Op) (hok : Meets (Fs.step cfg) (fun fs op => fs.Conforms cfg op ∧ fs.CutsZeros op)
      (Fs.init bits H) ops) :
    ∃ fs outs, run (Fs.step cfg) (Fs.init bits H) ops = .ok (fs, outs) ∧
      SpecRuns (FileSystem.Step flatCut) .init ops outs fs.view ∧ fs.view.Flat := by
  have hstep : ∀ (fs : Fs bits H) op, fs.Sound cfg → fs.Conforms cfg op ∧ fs.CutsZeros op →
      ∃ fs' out, fs.step cfg op = .ok (fs', out) ∧ fs'.Sound cfg ∧
        FileSystem.Step flatCut fs.view op fs'.view out := by
    intro fs op h hc
    obtain ⟨fs', out, hrun, h', hspec⟩ := h.step_conforms hdb hc.1
    exact ⟨fs', out, hrun, h', hspec.cut_congr fun n node hn => hc.2.cut_eq hn⟩
  obtain ⟨fs, outs, hrun, -, hspec⟩ := run_simulates hstep (Fs.init_sound cfg) hok
  rw [Fs.init_view] at hspec
  exact ⟨fs, outs, hrun, hspec, FileSystem.runs_flat hspec FileSystem.init_flat⟩

/-! ### A run that conforms -/

theorem plainConfig_injective (bits : ℕ) : Function.Injective (plainConfig bits).murmur :=
  List.ofFn_injective

/-- A file with two equal bytes in a directory is read, cut, and moved with its directory. -/
def equalBytes : List Op :=
  [.mkdir ['/', 'd'] 0o755, .create ['/', 'd', '/', 'f'] sIfreg, .write 0 [7, 7] 0,
    .openFile ['/', 'd', '/', 'f'], .read 1 2 0, .truncate ['/', 'd', '/', 'f'] 1,
    .rename ['/', 'd'] ['/', 'e']]

/-- The second byte is found by its hash. -/
theorem equalBytes_write : (Fs.after (plainConfig 0) (equalBytes.take 2)).Conforms (plainConfig 0)
    (.write 0 [7, 7] 0) := by
  have hbuf : ([7, 7] : List UInt8) ≠ [] := by decide
  have hino : ((Fs.after (plainConfig 0) (equalBytes.take 2)).store.db.getByPath
      ['/', 'd', '/', 'f']).stIno ≠ 0 := by decide
  have hwhole : ¬(1 < blockSize 0) := by decide
  have hgenuine := (Fs.reachable_coherent (Fs.after_reachable (plainConfig 0)
    (equalBytes.take 2))).genuine (plainConfig_injective 0) (.write 0 [7, 7] 0)
  refine ⟨⟨hbuf, trivial, fun fi rs hr => ?_, fun fi rs hr => ?_⟩, fun fi rs hr => ?_, ⟨_, rfl⟩,
    trivial⟩
  · cases hr
    exact .getByPath hino
  · cases hr
    refine .and (.cons trivial rfl (.cons (fun x hx b hb => ?_) rfl
      (.cons (fun x hx b hb => ?_) rfl trivial))) (hgenuine _ _ rfl)
    · cases hb
    · cases hb
  · cases hr
    exact .cons trivial rfl (.cons (fun hlt => absurd hlt hwhole) rfl
      (.cons (fun hlt => absurd hlt hwhole) rfl trivial))

theorem equalBytes_read : (Fs.after (plainConfig 0) (equalBytes.take 4)).Conforms (plainConfig 0)
    (.read 1 2 0) := by
  have hino : ((Fs.after (plainConfig 0) (equalBytes.take 4)).store.db.getByPath
      ['/', 'd', '/', 'f']).stIno ≠ 0 := by decide
  refine ⟨⟨trivial, trivial, fun fi rs hr => ?_, fun fi rs hr => ?_⟩, fun fi rs hr => ?_,
    ⟨_, rfl, Nat.zero_le _⟩, trivial⟩
  · cases hr
    exact .getByPath hino
  · cases hr
    exact .cons ⟨trivial, trivial⟩ rfl (.cons ⟨trivial, trivial⟩ rfl trivial)
  · cases hr
    refine .cons (fun _ hlost => ?_) rfl (.cons (fun _ hlost => ?_) rfl trivial)
    · cases hlost.2.1
    · cases hlost.2.1

theorem equalBytes_truncate : (Fs.after (plainConfig 0) (equalBytes.take 5)).Conforms
    (plainConfig 0) (.truncate ['/', 'd', '/', 'f'] 1) := by
  have hino : ((Fs.after (plainConfig 0) (equalBytes.take 5)).store.db.getByPath
      ['/', 'd', '/', 'f']).stIno ≠ 0 := by decide
  refine ⟨⟨trivial, trivial, fun fi rs hr => ?_, fun fi rs hr => ?_⟩, fun fi rs hr => ?_,
    fun _ o hlow hhigh => ?_, trivial⟩
  · cases hr
    exact .getByPath hino
  · cases hr
    exact .cons ⟨trivial, trivial⟩ rfl (.cons ⟨trivial, trivial⟩ rfl trivial)
  · cases hr
    exact .cons trivial rfl (.cons trivial rfl trivial)
  · have ho : o = 1 := by
      have hlow' : 1 ≤ o := hlow
      have hhigh' : o < 2 := hhigh
      omega
    rw [ho]
    rfl

theorem equalBytes_rename : (Fs.after (plainConfig 0) (equalBytes.take 6)).Conforms
    (plainConfig 0) (.rename ['/', 'd'] ['/', 'e']) := by
  have hfree : ∀ row ∈ (Fs.after (plainConfig 0) (equalBytes.take 6)).store.db.files.rows,
      row.path ≠ ['/', 'e'] := by decide
  have hselects : ∀ r ∈ (Fs.after (plainConfig 0) (equalBytes.take 6)).store.db.files.rows,
      r.path ≠ ['/', 'e'] → like (['/', 'd'] ++ ['/', '%']) r.path = true →
        below ['/', 'd'] r.path = true := by decide
  refine .of_no_rounds rfl (fun _ _ row hrow hpath => absurd hpath (hfree row hrow))
    (fun _ _ row hrow hpath => absurd hpath (hfree row hrow)) trivial ?_
  exact ⟨⟨[['e']], by decide, rfl⟩, by decide, fun _ _ => rfl, fun _ hdir => (by cases hdir),
    fun d hd hpath => absurd hpath (hfree d hd), fun _ => hselects⟩

theorem equalBytes_conform : Meets (Fs.step (plainConfig 0))
    (fun fs op => fs.Conforms (plainConfig 0) op ∧ fs.CutsZeros op) (Fs.init 0 (List UInt8))
    equalBytes := by
  have hreg : sIsdir sIfreg = false := by decide
  refine .cons ⟨.of_no_rounds rfl trivial trivial trivial ⟨[['d']], by decide, rfl⟩,
    fun _ _ hcut => by cases hcut⟩ rfl ?_
  refine .cons ⟨.of_no_rounds rfl hreg trivial trivial ⟨[['d'], ['f']], by decide, rfl⟩,
    fun _ _ hcut => by cases hcut⟩ rfl ?_
  refine .cons ⟨equalBytes_write, fun _ _ hcut => by cases hcut⟩ rfl ?_
  refine .cons ⟨.of_no_rounds rfl trivial trivial trivial trivial,
    fun _ _ hcut => by cases hcut⟩ rfl ?_
  refine .cons ⟨equalBytes_read, fun _ _ hcut => by cases hcut⟩ rfl ?_
  refine .cons ⟨equalBytes_truncate, fun n node hcut p hle hlt => ?_⟩ rfl ?_
  · -- blocks of one byte are never cut
    rw [show blockSize 0 = 1 from rfl, Nat.div_one, Nat.mul_one] at hlt
    omega
  exact .cons ⟨equalBytes_rename, fun _ _ hcut => by cases hcut⟩ rfl trivial

/-- The run conforms. -/
theorem conforming_runs_equalBytes :
    ∃ fs outs, run (Fs.step (plainConfig 0)) (Fs.init 0 (List UInt8)) equalBytes =
        .ok (fs, outs) ∧
      SpecRuns (FileSystem.Step (blockCut 0)) .init equalBytes outs fs.view :=
  conforming_runs (plainConfig 0) (le_refl _) equalBytes
    (equalBytes_conform.mono fun _ _ hg => hg.1)

/-- It cuts no block in two. -/
theorem conforming_runs_flat_equalBytes :
    ∃ fs outs, run (Fs.step (plainConfig 0)) (Fs.init 0 (List UInt8)) equalBytes =
        .ok (fs, outs) ∧
      SpecRuns (FileSystem.Step flatCut) .init equalBytes outs fs.view ∧ fs.view.Flat :=
  conforming_runs_flat (plainConfig 0) (le_refl _) equalBytes equalBytes_conform

end Wwdedup
