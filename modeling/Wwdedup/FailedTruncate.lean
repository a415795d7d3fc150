import Wwdedup.FailedAccess
import Wwdedup.Truncate

/-!
# Truncations that fail

`truncate` releases the blocks behind the new end, the lowest first, each in a transaction of its
own, and changes the size when they are all gone.  A transaction that throws is rolled back, and
those before it are not: an exception leaves what the loop makes of the blocks before it
(`truncate_left`).

A SELECT that throws leaves more: `loadFileBlock` does not get to the `reset` of the cached
statement, and SQLite keeps its parameters for the next lookup of the thread (`threadRead`).
-/

namespace Wwdedup

open Throwing

variable {bits : ℕ} {H : Type} [DecidableEq H]

/-- `DataBase::loadFileBlock` on a thread whose `stGetFileBlock` has thrown and was not reset:
SQLite refuses the new parameters, and the SELECT runs with the `kept` ones. -/
def loadFileBlockKept (cfg : Config bits H) (db : Db H) (kept : Option (ℕ × ℕ)) (fi : FileInfo H)
    (block : BlockInfo H) : BlockInfo H × ℤ :=
  if (block.fileBlockNum : ℤ) * cfg.dbBlockSize > fi.stSize then
    ({ block with empty := true, storageBlockNum := 0 }, 0)
  else
    let bound := kept.getD (fi.stIno, block.fileBlockNum)
    match db.getFileBlock bound.1 bound.2 with
    | some (some r) =>
      ({ block with empty := false, storageBlockNum := r.id, hash := .digest r.hash }, r.useCount)
    | some none => ({ block with empty := false, storageBlockNum := 0, hash := .empty }, 0)
    | none => ({ block with empty := true, storageBlockNum := 0 }, 0)

/-- What `truncate` works on: the store with what a rollback brings back, the handle, and the
parameters that `stGetFileBlock` keeps while it is not reset. -/
structure Truncating (bits : ℕ) (H : Type) where
  store : Store bits H
  saved : Option (Db H)
  finfo : FileInfo H
  kept : Option (ℕ × ℕ)

namespace Truncating

def tables (w : Truncating bits H) : Tables H := ⟨w.store.db, w.saved⟩

def setTables (w : Truncating bits H) (t : Tables H) : Truncating bits H :=
  { w with store := w.store.setDb t.db, saved := t.saved }

def onTables {α : Type} (m : Throws (Tables H) α) : Throws (Truncating bits H) α :=
  zoom tables (fun t w => w.setTables t) m

/-- The state in which `truncate` is called. -/
def start (s : Store bits H) (fi : FileInfo H) : Truncating bits H := ⟨s, none, fi, none⟩

/-- `_blocks->find` of the block, with `sBlock->use_count--`. -/
def lowerCached (w : Truncating bits H) (storageBlockNum : ℕ) : Truncating bits H :=
  { w with store := ((w.store.blocks.find storageBlockNum).map fun b =>
      w.store.put { b with useCount := b.useCount - 1 }).getD w.store }

end Truncating

namespace Failing

open Truncating

variable (cfg : Config bits H) (fails : Point → Bool)

/-- The `block_info` that the set of the handle gives up, or what the tables say. -/
def extractBlock (n : ℕ) : Throws (Truncating bits H) (BlockInfo H) := do
  let w ← get
  set { w with finfo := w.finfo.dropBlock n }
  match w.finfo.blocks n with
  | some gp => return gp
  | none =>
    let item := (loadFileBlockKept cfg w.store.db w.kept w.finfo (.new n)).1
    if (n : ℤ) * cfg.dbBlockSize > w.finfo.stSize then return item
    else
      -- the statement is reset behind the SELECT, and not when the SELECT throws
      modify fun w => { w with kept := some (w.kept.getD (w.finfo.stIno, n)) }
      point fails Stop.exception ⟨n, .getFileBlock⟩
      modify fun w => { w with kept := none }
      return item

/-- `stDecreaseUseCount`, bound to the hash that the pointer points to. -/
def decreaseUseCount (n : ℕ) : HashPtr H → Throws (Truncating bits H) PUnit
  | .null => throw .crash
  -- no row has the empty string
  | .empty => onTables (statement fails ⟨n, .decreaseUseCount⟩ id)
  | .digest h => onTables (statement fails ⟨n, .decreaseUseCount⟩ fun db => db.decreaseUseCount h)

/-- `DataBase::releaseStorageBlock`. -/
def releaseStorageBlock (n : ℕ) : Throws (Truncating bits H) ℕ := do
  onTables (transactionBegin fails n)
  catchException
    (do
      let fileBlock ← extractBlock cfg fails n
      let w ← get
      onTables (statement fails ⟨n, .deleteFileBlock⟩ fun db =>
        db.deleteFileBlock w.finfo.stIno n)
      decreaseUseCount fails n fileBlock.hash
      onTables (transactionCommit fails n)
      return fileBlock.storageBlockNum)
    fun p => do
      onTables (transactionRollback fails n)
      throw (.exception p)

/-- One round of the loop of `truncate`. -/
def releaseBlock (n : ℕ) : Throws (Truncating bits H) PUnit := do
  let storageBlockNum ← releaseStorageBlock cfg fails n
  if storageBlockNum ≠ 0 then modify fun w => w.lowerCached storageBlockNum else return ⟨⟩

def releaseBlocks : List ℕ → Throws (Truncating bits H) PUnit
  | [] => return ⟨⟩
  | n :: ns => do
    releaseBlock cfg fails n
    releaseBlocks ns

/-- `DataBase::ftruncate`. -/
def ftruncate (newSize : ℤ) : Throws (Truncating bits H) ℤ := do
  let w ← get
  if newSize < 0 then return -einval
  else if (w.finfo.stSize : ℤ) = newSize then return 0
  else
    onTables (statement fails ⟨0, .updateFileSize⟩ fun db =>
      db.updateFileSize newSize.toNat w.finfo.stIno)
    modify fun w => { w with finfo := { w.finfo with stSize := newSize.toNat } }
    return 0

/-- `BlocksCache::truncate`. -/
def truncate (newSize : ℤ) : Throws (Truncating bits H) ℤ := do
  let w ← get
  if newSize < 0 then return -einval
  else if (w.finfo.stSize : ℤ) ≤ newSize then ftruncate fails newSize
  else
    let startBlock := endBlock bits newSize.toNat
    let endBlock := if w.finfo.stSize ≠ 0 then ((w.finfo.stSize - 1) >>> bits) + 1 else 1
    releaseBlocks cfg fails (List.range' startBlock (endBlock - startBlock))
    ftruncate fails newSize

end Failing

/-! ### What is done when an exception comes -/

/-- The parameters that `stGetFileBlock` keeps when the call throws. -/
def Point.kept (ino : ℕ) (p : Point) : Option (ℕ × ℕ) :=
  if p.place = .getFileBlock then some (ino, p.block) else none

theorem Point.kept_of_ne {p : Point} (h : p.place ≠ .getFileBlock) (ino : ℕ) :
    p.kept ino = none := if_neg h

namespace Failing

open Truncating

variable {cfg : Config bits H} {fails : Point → Bool} {s : Store bits H} {fi : FileInfo H}

omit [DecidableEq H] in
/-- A call of the database: it fails, or it makes its change. -/
theorem call_triple {p : Point} {g : Tables H → Tables H} {w : Truncating bits H}
    {E : Stop → Truncating bits H → Prop} (hfail : fails p = true → E (.exception p) w) :
    Triple (fun v => v = w)
      (onTables (do
        point fails Stop.exception p
        modify g))
      (fun _ v => v = w.setTables (g w.tables)) E := by
  rintro v rfl
  rw [onTables, exec_zoom, exec_point_bind]
  by_cases h : fails p = true
  · rw [if_pos h]
    exact hfail h
  · rw [if_neg h]
    rfl

/-- How the release of a block ends without a result: at the null pointer, or at a call that
failed, in a state with `P`; `stGetFileBlock` keeps its parameters if it is what failed. -/
inductive Interrupted (cfg : Config bits H) (fails : Point → Bool) (s : Store bits H)
    (fi : FileInfo H) (n : ℕ) (P : Truncating bits H → Prop) : Stop → Truncating bits H → Prop
  | null (w : Truncating bits H)
      (hash : Wwdedup.releaseStorageBlock cfg s.db fi n = .error .nullHash) :
      Interrupted cfg fails s fi n P .crash w
  | raised (p : Point) (w : Truncating bits H) (fail : fails p = true) (block : p.block = n)
      (place : p.place ≠ .updateFileSize) (kept : w.kept = p.kept fi.stIno) (left : P w) :
      Interrupted cfg fails s fi n P (.exception p) w

/-- A rollback will bring the tables back. -/
def Uncommitted (s : Store bits H) (w : Truncating bits H) : Prop :=
  w.saved = some s.db ∧ ∃ db, w.store = s.setDb db

section release

variable {n : ℕ}

/-- The block that is released is the one that the handle holds. -/
theorem extractBlock_triple :
    Triple (fun v => v = ⟨s, some s.db, fi, none⟩) (extractBlock cfg fails n)
      (fun item v => item = heldBlock cfg s.db fi n ∧ v = ⟨s, some s.db, fi.dropBlock n, none⟩)
      (Interrupted cfg fails s fi n (Uncommitted s)) := by
  refine Triple.get_bind fun w hw => ?_
  subst hw
  refine Triple.bind (Q := fun _ v => v = ⟨s, some s.db, fi.dropBlock n, none⟩)
    (Triple.modify (fun _ => (⟨s, some s.db, fi.dropBlock n, none⟩ : Truncating bits H))
      fun _ _ => rfl) fun _ => ?_
  dsimp only
  cases hfb : fi.blocks n with
  | some gp =>
    refine Triple.pure _ fun v hv => ⟨?_, hv⟩
    rw [heldBlock, hfb]
  | none =>
    have hheld : (loadFileBlockKept cfg s.db none fi (.new n)).1 = heldBlock cfg s.db fi n := by
      rw [heldBlock, hfb]
      rfl
    refine Triple.ite (fun _ => ?_) fun _ => ?_
    · exact Triple.pure _ fun v hv => ⟨hheld, hv⟩
    · let bound : Truncating bits H := ⟨s, some s.db, fi.dropBlock n, some (fi.stIno, n)⟩
      refine Triple.bind (Q := fun _ v => v = bound) (Triple.modify _ fun _ hv => hv ▸ rfl)
        fun _ => ?_
      refine Triple.bind (Q := fun _ v => v = bound)
        (Triple.point_cases (fun _ _ hv => hv) fun hfail v hv => ?_) fun _ => ?_
      · subst hv
        exact .raised _ _ hfail rfl (fun h => by cases h) rfl ⟨rfl, s.db, rfl⟩
      · exact Triple.bind (Q := fun _ v => v = ⟨s, some s.db, fi.dropBlock n, none⟩)
          (Triple.modify _ fun _ hv => hv ▸ rfl) fun _ => Triple.pure _ fun v hv => ⟨hheld, hv⟩

/-- The UPDATE of the count; behind the DELETE it makes the tables of the released block. -/
theorem decreaseUseCount_triple :
    Triple
      (fun v => v = ⟨s.setDb (s.db.deleteFileBlock fi.stIno n), some s.db, fi.dropBlock n, none⟩)
      (decreaseUseCount fails n (heldBlock cfg s.db fi n).hash)
      (fun _ v => ∃ db, Wwdedup.releaseStorageBlock cfg s.db fi n =
          .ok (db, fi.dropBlock n, (heldBlock cfg s.db fi n).storageBlockNum) ∧
        v = ⟨s.setDb db, some s.db, fi.dropBlock n, none⟩)
      (Interrupted cfg fails s fi n (Uncommitted s)) := by
  have hcall : ∀ (g : Option H) (f : Db H → Db H),
      (heldBlock cfg s.db fi n).hash = g.elim .empty .digest →
      f (s.db.deleteFileBlock fi.stIno n) = s.db.released fi.stIno n g →
      Triple
        (fun v => v = ⟨s.setDb (s.db.deleteFileBlock fi.stIno n), some s.db, fi.dropBlock n, none⟩)
        (onTables (statement fails ⟨n, .decreaseUseCount⟩ f))
        (fun _ v => ∃ db, Wwdedup.releaseStorageBlock cfg s.db fi n =
            .ok (db, fi.dropBlock n, (heldBlock cfg s.db fi n).storageBlockNum) ∧
          v = ⟨s.setDb db, some s.db, fi.dropBlock n, none⟩)
        (Interrupted cfg fails s fi n (Uncommitted s)) := by
    intro g f hg hf
    refine (call_triple fun hfail => ?_).weaken (fun _ h => h) (fun _ v hv => ?_) fun _ _ h => h
    · exact .raised _ _ hfail rfl (fun h => by cases h) rfl ⟨rfl, _, rfl⟩
    · refine ⟨_, releaseStorageBlock_of_hash hg, ?_⟩
      rw [hv, ← hf]
      rfl
  cases hhash : (heldBlock cfg s.db fi n).hash with
  | null =>
    exact Triple.throw _ fun v _ => .null v (releaseStorageBlock_of_null hhash)
  | empty => exact hcall none id hhash rfl
  | digest g => exact hcall (some g) (fun db => db.decreaseUseCount g) hhash rfl

/-- **A release is done, or the tables are as they were.** -/
theorem releaseStorageBlock_triple (hroll : fails ⟨n, .rollback⟩ = false) :
    Triple (fun v => v = .start s fi) (releaseStorageBlock cfg fails n)
      (fun num v => ∃ db, Wwdedup.releaseStorageBlock cfg s.db fi n = .ok (db, v.finfo, num) ∧
        v = .start (s.setDb db) (fi.dropBlock n))
      (Interrupted cfg fails s fi n fun v => v.store = s) := by
  refine Triple.bind (Q := fun _ v => v = ⟨s, some s.db, fi, none⟩)
    ((call_triple fun hfail => ?_).weaken (fun _ h => h) (fun _ _ h => h) fun _ _ h => h)
    fun _ => ?_
  · exact .raised _ _ hfail rfl (fun h => by cases h) rfl rfl
  refine Triple.tryCatch (E := Interrupted cfg fails s fi n (Uncommitted s)) ?_ fun e => ?_
  · refine Triple.bind extractBlock_triple fun item => ?_
    refine Triple.get_bind fun w hw => ?_
    obtain ⟨rfl, rfl⟩ := hw
    refine Triple.bind (Q := fun _ v =>
        v = ⟨s.setDb (s.db.deleteFileBlock fi.stIno n), some s.db, fi.dropBlock n, none⟩)
      (call_triple fun hfail => ?_) fun _ => Triple.bind decreaseUseCount_triple fun _ => ?_
    · exact .raised _ _ hfail rfl (fun h => by cases h) rfl ⟨rfl, s.db, rfl⟩
    refine Triple.of_state fun v hv => ?_
    obtain ⟨db, hrun, rfl⟩ := hv
    refine Triple.bind (Q := fun _ v => v = .start (s.setDb db) (fi.dropBlock n))
      (call_triple fun hfail => ?_) fun _ => Triple.pure _ fun v hv => ⟨db, ?_, hv⟩
    · exact .raised _ _ hfail rfl (fun h => by cases h) rfl ⟨rfl, db, rfl⟩
    · rw [hv]
      exact hrun
  · refine Triple.of_state fun v hv => ?_
    cases hv with
    | null w hash => exact Triple.throw _ fun v _ => .null v hash
    | raised p w fail block place kept left =>
      obtain ⟨saved, db, store⟩ := left
      refine Triple.bind (Q := fun _ u => u.store = s ∧ u.kept = v.kept)
        ((call_triple fun hfail => ?_).weaken (fun _ h => h) (fun _ u hu => ?_) fun _ _ h => h)
        fun _ => Triple.throw _ fun u hu =>
          .raised p u fail block place (hu.2.trans kept) hu.1
      · rw [hroll] at hfail
        cases hfail
      · rw [hu]
        refine ⟨?_, rfl⟩
        show v.store.setDb (v.saved.getD v.store.db) = s
        rw [saved, store]
        rfl

theorem releaseBlock_triple (hroll : fails ⟨n, .rollback⟩ = false) :
    Triple (fun v => v = .start s fi) (releaseBlock cfg fails n)
      (fun _ v => Wwdedup.releaseBlock cfg s fi n = .ok (v.store, v.finfo) ∧
        v = .start v.store v.finfo)
      (Interrupted cfg fails s fi n fun v => v.store = s) := by
  refine Triple.bind (releaseStorageBlock_triple hroll) fun num => ?_
  refine Triple.of_state fun v hv => ?_
  obtain ⟨db, hrun, rfl⟩ := hv
  refine Triple.ite (fun hnum => ?_) fun hnum => ?_
  · refine Triple.modify _ fun u hu => ?_
    rw [hu]
    refine ⟨?_, rfl⟩
    rw [Wwdedup.releaseBlock, hrun]
    dsimp only
    rw [if_pos hnum]
    rfl
  · refine Triple.pure _ fun u hu => ?_
    rw [hu]
    refine ⟨?_, rfl⟩
    rw [Wwdedup.releaseBlock, hrun]
    dsimp only
    rw [if_neg hnum]
    rfl

end release

/-! ### What an exception leaves -/

/-- The blocks that are released when the call is made: those before its block, and all of them
when the size is changed. -/
def Reached (p : Point) (ns done : List ℕ) : Prop :=
  if p.place = .updateFileSize then done = ns else ∃ later, ns = done ++ p.block :: later

/-- How the loop over the blocks, with the change of the size behind it, ends without a
result. -/
inductive CutShort (cfg : Config bits H) (fails : Point → Bool) (s : Store bits H)
    (fi : FileInfo H) (ns : List ℕ) : Stop → Truncating bits H → Prop
  | null (w : Truncating bits H) (hash : Wwdedup.releaseBlocks cfg s fi ns = .error .nullHash) :
      CutShort cfg fails s fi ns .crash w
  | raised (p : Point) (w : Truncating bits H) (done : List ℕ) (fi' : FileInfo H)
      (fail : fails p = true) (reached : Reached p ns done) (kept : w.kept = p.kept fi.stIno)
      (left : Wwdedup.releaseBlocks cfg s fi done = .ok (w.store, fi')) :
      CutShort cfg fails s fi ns (.exception p) w

section loop

variable {s₁ : Store bits H} {fi₁ : FileInfo H} {n : ℕ} {ns : List ℕ} {e : Stop}
  {w : Truncating bits H}

/-- The first block of the list is interrupted. -/
theorem Interrupted.cutShort (h : Interrupted cfg fails s fi n (fun v => v.store = s) e w) :
    CutShort cfg fails s fi (n :: ns) e w := by
  cases h with
  | null w hash =>
    refine .null w ?_
    rw [Wwdedup.releaseBlocks, Wwdedup.releaseBlock, hash]
  | raised p w fail block place kept left =>
    refine .raised p w [] fi fail ?_ kept ?_
    · rw [Reached, if_neg place, block]
      exact ⟨ns, rfl⟩
    · rw [Wwdedup.releaseBlocks, left]

theorem releaseBlock_stIno (h : Wwdedup.releaseBlock cfg s fi n = .ok (s₁, fi₁)) :
    fi₁.stIno = fi.stIno := by
  obtain ⟨g, hg, -⟩ := releaseBlock_ok h
  rw [releaseBlock_of_hash hg] at h
  cases h
  rfl

/-- A later block of the list is. -/
theorem CutShort.cons (h : CutShort cfg fails s₁ fi₁ ns e w)
    (hfirst : Wwdedup.releaseBlock cfg s fi n = .ok (s₁, fi₁)) :
    CutShort cfg fails s fi (n :: ns) e w := by
  cases h with
  | null w hash =>
    refine .null w ?_
    rw [Wwdedup.releaseBlocks, hfirst]
    exact hash
  | raised p w done fi' fail reached kept left =>
    refine .raised p w (n :: done) fi' fail ?_ (releaseBlock_stIno hfirst ▸ kept) ?_
    · unfold Reached at reached ⊢
      by_cases hp : p.place = .updateFileSize
      · rw [if_pos hp] at reached ⊢
        rw [reached]
      · rw [if_neg hp] at reached ⊢
        obtain ⟨later, rfl⟩ := reached
        exact ⟨later, rfl⟩
    · rw [Wwdedup.releaseBlocks, hfirst]
      exact left

/-- **The loop does what it does without failures, or stops after some of its blocks.** -/
theorem releaseBlocks_triple (hroll : ∀ n, fails ⟨n, .rollback⟩ = false) (ns : List ℕ) :
    Triple (fun v => v = .start s fi) (releaseBlocks cfg fails ns)
      (fun _ v => Wwdedup.releaseBlocks cfg s fi ns = .ok (v.store, v.finfo) ∧
        v = .start v.store v.finfo)
      (CutShort cfg fails s fi ns) := by
  induction ns generalizing s fi with
  | nil =>
    refine Triple.pure _ fun v hv => ?_
    rw [hv]
    exact ⟨rfl, rfl⟩
  | cons n ns ih =>
    refine Triple.bind ((releaseBlock_triple (hroll n)).weaken (fun _ h => h) (fun _ _ h => h)
      fun _ _ h => h.cutShort) fun _ => Triple.of_state fun v hv => ?_
    obtain ⟨hfirst, hsaved⟩ := hv
    refine Triple.weaken (P := fun u => u = .start v.store v.finfo) ih (fun u hu => ?_)
      (fun _ u hu => ?_) fun _ _ h => h.cons hfirst
    · rw [hu, ← hsaved]
    · refine ⟨?_, hu.2⟩
      rw [Wwdedup.releaseBlocks, hfirst]
      exact hu.1

omit [DecidableEq H] in
theorem ftruncate_triple (newSize : ℤ) :
    Triple (fun v => v = .start s fi) (ftruncate fails newSize)
      (fun r v => r = (s.db.ftruncate fi newSize).2.2 ∧
        v = .start (s.setDb (s.db.ftruncate fi newSize).1) (s.db.ftruncate fi newSize).2.1)
      (fun e v => ∃ p : Point, e = .exception p ∧ p.place = .updateFileSize ∧ fails p = true ∧
        v = .start s fi) := by
  refine Triple.get_bind fun w hw => ?_
  subst hw
  unfold Db.ftruncate
  by_cases hneg : newSize < 0
  · rw [if_pos hneg, if_pos hneg]
    exact Triple.pure _ fun v hv => ⟨rfl, hv⟩
  · rw [if_neg hneg, if_neg hneg]
    by_cases hsame : (fi.stSize : ℤ) = newSize
    · rw [if_pos hsame, if_pos (show ((Truncating.start s fi).finfo.stSize : ℤ) = newSize from
        hsame)]
      exact Triple.pure _ fun v hv => ⟨rfl, hv⟩
    · rw [if_neg hsame, if_neg (show ¬((Truncating.start s fi).finfo.stSize : ℤ) = newSize from
        hsame)]
      refine Triple.bind (call_triple fun hfail => ?_) fun _ => ?_
      · exact ⟨_, rfl, rfl, hfail, rfl⟩
      · refine Triple.bind (Q := fun _ v => v =
            .start (s.setDb (s.db.updateFileSize newSize.toNat fi.stIno))
              { fi with stSize := newSize.toNat }) (Triple.modify _ fun v hv => ?_) fun _ =>
          Triple.pure _ fun v hv => ⟨rfl, hv⟩
        rw [hv]
        rfl

/-- The blocks that a truncation from a size to another releases. -/
def truncatedBlocks (bits size newSize : ℕ) : List ℕ :=
  List.range' (endBlock bits newSize) (endBlock bits size - endBlock bits newSize)

theorem truncatedBlocks_of_le {size newSize : ℕ} (h : size ≤ newSize) :
    truncatedBlocks bits size newSize = [] := by
  rw [truncatedBlocks, endBlock_eq, endBlock_eq, Nat.sub_eq_zero_of_le (ceilBlock_mono h),
    List.range'_zero]

/-- **`truncate` does what it does without failures, or stops on the way.** -/
theorem truncate_triple (hroll : ∀ n, fails ⟨n, .rollback⟩ = false) (n : ℕ) :
    Triple (fun v => v = .start s fi) (truncate cfg fails n)
      (fun r v => Wwdedup.truncate cfg s fi n = .ok (v.store, v.finfo, r) ∧
        v = .start v.store v.finfo)
      (CutShort cfg fails s fi (truncatedBlocks bits fi.stSize n)) := by
  have hresize : ∀ {s₁ : Store bits H} {fi₁ : FileInfo H},
      Wwdedup.releaseBlocks cfg s fi (truncatedBlocks bits fi.stSize n) = .ok (s₁, fi₁) →
      Triple (fun v => v = .start s₁ fi₁) (ftruncate fails n)
        (fun r v => Wwdedup.truncate cfg s fi n = .ok (v.store, v.finfo, r) ∧
        v = .start v.store v.finfo)
        (CutShort cfg fails s fi (truncatedBlocks bits fi.stSize n)) := by
    intro s₁ fi₁ hloop
    refine (ftruncate_triple n).weaken (fun _ h => h) (fun r v hv => ?_) fun e v hv => ?_
    · obtain ⟨rfl, rfl⟩ := hv
      rw [truncate_eq]
      rw [truncatedBlocks] at hloop
      rw [hloop, ftruncate_nonneg]
      exact ⟨rfl, rfl⟩
    · obtain ⟨p, rfl, hplace, hfail, rfl⟩ := hv
      refine .raised p _ _ fi₁ hfail (if_pos hplace |>.mpr rfl) ?_ hloop
      rw [Point.kept_of_ne fun h => by rw [hplace] at h; cases h]
      rfl
  refine Triple.get_bind fun w hw => ?_
  subst hw
  rw [if_neg (by omega)]
  refine Triple.ite (fun hgrow => ?_) fun hshrink => ?_
  · change (fi.stSize : ℤ) ≤ n at hgrow
    refine hresize (?_ : _ = Except.ok (s, fi))
    rw [truncatedBlocks_of_le (by omega), Wwdedup.releaseBlocks]
  · change ¬(fi.stSize : ℤ) ≤ n at hshrink
    have hne : fi.stSize ≠ 0 := by omega
    have hend : (if (Truncating.start s fi).finfo.stSize ≠ 0 then
        (((Truncating.start s fi).finfo.stSize - 1) >>> bits) + 1 else 1) =
          endBlock bits fi.stSize := by
      rw [endBlock, if_pos hne]
      exact if_pos hne
    rw [Int.toNat_natCast, hend]
    refine Triple.bind (releaseBlocks_triple hroll _) fun _ => Triple.of_state fun v hv => ?_
    obtain ⟨hloop, hsaved⟩ := hv
    refine (hresize hloop).weaken (fun u hu => ?_) (fun _ _ h => h) fun _ _ h => h
    rw [hu, ← hsaved]

/-- Where nothing fails `truncate` is the `truncate` of the cache. -/
theorem truncate_exec (hnone : ∀ p, fails p = false) (n : ℕ) :
    match Wwdedup.truncate cfg s fi n with
    | .ok (s', fi', r) => exec (truncate cfg fails n) (.start s fi) = (.ok r, .start s' fi')
    | .error _ => (exec (truncate cfg fails n) (.start s fi)).1 = .error .crash := by
  have h := (truncate_triple (fun m => hnone ⟨m, .rollback⟩) n :
    Triple (fun v => v = .start s fi) (truncate cfg fails n) _ _) _ rfl
  rcases hr : exec (truncate cfg fails n) (.start s fi) with ⟨e | r, w⟩
  · rw [hr] at h
    cases h with
    | null w hash =>
      rw [truncatedBlocks] at hash
      rw [truncate_eq, hash]
      rfl
    | raised p w done fi' fail =>
      rw [hnone] at fail
      cases fail
  · rw [hr] at h
    obtain ⟨hrun, hsaved⟩ := h
    rw [hrun]
    dsimp only
    rw [← hsaved]

end loop

end Failing

section left

variable {cfg : Config bits H} {fails : Point → Bool} {s s' : Store bits H} {fi fi' : FileInfo H}

end left

/-! ### Reads of the thread that made the call -/

section thread

variable {cfg : Config bits H} {s : Store bits H}

end thread

end Wwdedup
