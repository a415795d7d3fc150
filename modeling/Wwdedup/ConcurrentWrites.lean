import Wwdedup.UseCounts

/-!
# Block writes of several threads

A block write changes the tables in one transaction and the cached use count after it, and
another thread may come in between.  `Writers.step` runs any number of `_writeBlockWrapper`s in
steps: the `block_info` is located and the old data are copied, the transaction of
`replaceStorageBlock` is committed, the cached block is updated.  The `block_info` stays locked
from the first step to the last.

A `use_count++` that a committed write still owes makes the cached count of the block too small
(`Writers.owed`).  Two things go wrong with it: the in-place branch takes the small count for the
true one, and the new count 1 of a block whose data are still to be stored wipes it out.  In runs
without these two (`WriteStep.Orderly`) the references of a row are at most its cached count and
what is owed (`Safe`), and the in-place branch is taken on unshared blocks only.
-/

namespace Wwdedup

open GuardedRun

variable {bits : ℕ} {H : Type} [DecidableEq H]

/-- A `_writeBlockWrapper` under way: the `block_info` that it has locked, the data that it
writes, and what `replaceStorageBlock` has returned. -/
structure Write (bits : ℕ) (H : Type) where
  fh : ℕ
  fblock : BlockInfo H
  data : Block bits
  present : Option Bool

def Write.key (x : Write bits H) : ℕ × ℕ := (x.fh, x.fblock.fileBlockNum)

/-- The store, the handles, and the writes under way, of which each has locked another
`block_info`. -/
structure Writers (bits : ℕ) (H : Type) where
  store : Store bits H
  handles : ℕ → Option (FileInfo H)
  writes : KeyedTable (Write bits H) (ℕ × ℕ) Write.key

/-- A step of a write to the block `n` through the handle `fh`. -/
inductive WriteStep where
  | locate (fh : ℕ) (buf : List UInt8) (c : Chunk)
  | commit (fh n : ℕ)
  | update (fh n : ℕ)

/-- Why a step cannot be taken: the `block_info` is locked, no write is at this point, or the
call fails. -/
inductive Blocked where
  | locked
  | notThere
  | fault (e : Fault)
  deriving DecidableEq, Repr

namespace Writers

/-- The handle has the `block_info` in its list. -/
def setBlock (handles : ℕ → Option (FileInfo H)) (fh : ℕ) (fi : FileInfo H) (fb : BlockInfo H) :
    ℕ → Option (FileInfo H) :=
  Function.update handles fh (some (fi.setBlock fb))

/-- One step of `_writeBlockWrapper`, in whatever thread. -/
def step (cfg : Config bits H) (w : Writers bits H) :
    WriteStep → Except Blocked (Writers bits H × Unit)
  | .locate fh buf c =>
    match w.handles fh with
    | none => .error (.fault .noHandle)
    | some fi =>
      if (w.writes.find (fh, c.block)).isSome then .error .locked
      else
        let l := getLockedFileBlock cfg w.store fi c.block
        match oldData l.store l.fblock c.len with
        | .error e => .error (.fault e)
        | .ok (s, old) =>
          .ok ({ store := s
                 handles := setBlock w.handles fh fi l.fblock
                 writes := w.writes.replace ⟨fh, l.fblock, c.data buf old, none⟩ }, ())
  | .commit fh n =>
    match w.handles fh, w.writes.find (fh, n) with
    | some fi, some x =>
      if x.present.isSome then .error .notThere
      else
        let c := commitBlock w.store fi.stIno (cfg.murmur x.data) x.fblock
        .ok ({ store := c.store
               handles := setBlock w.handles fh fi c.fblock
               writes := w.writes.replace
                 { x with fblock := c.fblock, present := some c.present } }, ())
    | _, _ => .error .notThere
  | .update fh n =>
    match w.handles fh, w.writes.find (fh, n) with
    | some fi, some x =>
      match x.present with
      | none => .error .notThere
      | some present =>
        let u := updateCache w.store x.fblock present x.data (cfg.murmur x.data)
        .ok ({ store := u.1
               handles := setBlock w.handles fh fi u.2
               writes := w.writes.deleteKey (fh, n) }, ())
    | _, _ => .error .notThere

/-- What a step that is taken does. -/
inductive Moves (cfg : Config bits H) (w : Writers bits H) : WriteStep → Writers bits H → Prop
  | locate {fh : ℕ} {buf : List UInt8} {c : Chunk} {fi : FileInfo H} {s : Store bits H}
      {old : Block bits} (opened : w.handles fh = some fi)
      (free : w.writes.find (fh, c.block) = none)
      (touched : (getLockedFileBlock cfg w.store fi c.block).store.Touches s) :
      Moves cfg w (.locate fh buf c)
        ⟨s, setBlock w.handles fh fi (getLockedFileBlock cfg w.store fi c.block).fblock,
          w.writes.replace
            ⟨fh, (getLockedFileBlock cfg w.store fi c.block).fblock, c.data buf old, none⟩⟩
  | commit {fh n : ℕ} {fi : FileInfo H} {x : Write bits H} {c : Committed bits H}
      (opened : w.handles fh = some fi) (under : w.writes.find (fh, n) = some x)
      (pending : x.present = none)
      (commits : Commits w.store fi.stIno (cfg.murmur x.data) x.fblock c) :
      Moves cfg w (.commit fh n)
        ⟨c.store, setBlock w.handles fh fi c.fblock,
          w.writes.replace { x with fblock := c.fblock, present := some c.present }⟩
  | found {fh n : ℕ} {fi : FileInfo H} {x : Write bits H} (opened : w.handles fh = some fi)
      (under : w.writes.find (fh, n) = some x) (present : x.present = some true) :
      Moves cfg w (.update fh n)
        ⟨w.store.adjust x.fblock.storageBlockNum 1, setBlock w.handles fh fi x.fblock,
          w.writes.deleteKey (fh, n)⟩
  | stored {fh n : ℕ} {fi : FileInfo H} {x : Write bits H} {p : WeakPtr}
      (opened : w.handles fh = some fi) (under : w.writes.find (fh, n) = some x)
      (absent : x.present = some false) (num : p.num = x.fblock.storageBlockNum) :
      Moves cfg w (.update fh n)
        ⟨w.store.place x.fblock.storageBlockNum x.data (cfg.murmur x.data),
          setBlock w.handles fh fi { x.fblock with storageBlock := some p },
          w.writes.deleteKey (fh, n)⟩

theorem step_moves {cfg : Config bits H} {w w' : Writers bits H} {a : WriteStep} {o : Unit}
    (h : w.step cfg a = .ok (w', o)) : Moves cfg w a w' := by
  cases a with
  | locate fh buf c =>
    simp only [step] at h
    split at h
    · cases h
    · rename_i fi hfi
      split at h
      · cases h
      · rename_i hfree
        split at h
        · cases h
        · rename_i s old hold
          cases h
          exact .locate hfi (Option.not_isSome_iff_eq_none.mp hfree) (oldData_ok hold).1
  | commit fh n =>
    simp only [step] at h
    split at h
    · rename_i fi x hfi hx
      split at h
      · cases h
      · rename_i hpending
        cases h
        exact .commit hfi hx (Option.not_isSome_iff_eq_none.mp hpending)
          (commitBlock_commits ..)
    · cases h
  | update fh n =>
    simp only [step] at h
    split at h
    · rename_i fi x hfi hx
      split at h
      · cases h
      · rename_i present hpresent
        cases h
        cases present with
        | true =>
          rw [updateCache_hit]
          exact .found hfi hx hpresent
        | false =>
          rw [updateCache_new]
          exact .stored hfi hx hpresent rfl
    · cases h

end Writers

/-! ### What the transaction does to references and counts -/

/-- 1 when the condition holds, else 0. -/
def iverson (p : Prop) [Decidable p] : ℤ := if p then 1 else 0

theorem iverson_nonneg (p : Prop) [Decidable p] : 0 ≤ iverson p := by
  unfold iverson
  split <;> decide

theorem iverson_mono {p q : Prop} [Decidable p] [Decidable q] (h : p → q) :
    iverson p ≤ iverson q := by
  unfold iverson
  split
  · rename_i hp
    rw [if_pos (h hp)]
  · split <;> decide

section transaction

variable {s : Store bits H} {ino : ℕ} {hash : H} {fb : BlockInfo H} {c : Committed bits H}

omit [DecidableEq H] in
/-- The block that a `block_info` in step locks is the one that the tables give. -/
theorem InStep.held (h : InStep s ino fb.fileBlockNum fb) (hfb : fb.Ok s.db)
    {b : StorageBlock bits H} (hl : s.lock fb.storageBlock = some b) :
    b.storageBlockNum = fb.storageBlockNum ∧ ∃ g, s.db.fileHash ino fb.fileBlockNum = some g ∧
      s.db.rowHash b.storageBlockNum = some g := by
  have hnum : b.storageBlockNum = fb.storageBlockNum := hfb.ptr _ (Store.lock_eq_some.mp hl).1
  refine ⟨hnum, ?_⟩
  rcases h with ⟨-, -, hnone⟩ | ⟨g, -, hfile, hrow⟩
  · rw [hnone] at hl
    cases hl
  · exact ⟨g, hfile, hnum ▸ hrow⟩

omit [DecidableEq H] in
theorem InStep.backed (h : InStep s ino fb.fileBlockNum fb) (hfb : fb.Ok s.db) :
    Replaces.Backed s.db fb (s.lock fb.storageBlock) := by
  intro b hl
  obtain ⟨hnum, g, -, hrow⟩ := h.held hfb hl
  exact ⟨hnum, fun _ => by rw [hrow]; rfl⟩

namespace Commits

/-- A hash without a row is that of no file block. -/
theorem refs_absent (hfound : ∀ f o g, s.db.fileHash f o = some g → ∃ k, s.db.rowHash k = some g)
    (habsent : ∀ k, s.db.rowHash k ≠ some hash) : s.db.refs hash = 0 := by
  apply Db.refs_eq_zero
  intro f o hf
  obtain ⟨k, hk⟩ := hfound f o hash hf
  exact habsent k hk

/-- A row that takes the new hash has one reference. -/
theorem refs_self (h : Commits s ino hash fb c)
    (hfound : ∀ f o g, s.db.fileHash f o = some g → ∃ k, s.db.rowHash k = some g)
    (hp : c.present = false) : c.store.db.refs hash = 1 := by
  obtain ⟨sblock, hr⟩ := h.replaces
  have hzero := refs_absent hfound (hr.new_of_absent hp)
  have hold : s.db.fileHash ino fb.fileBlockNum ≠ some hash := by
    intro hf
    have := Db.refs_pos hf
    omega
  have hrefs := hr.refs_eq hash
  rw [if_neg hold, if_pos rfl, hzero] at hrefs
  exact hrefs

/-- **The references of the other rows**: the row that was found gains one, and the row of the
locked block gives one up. -/
theorem refs_le (h : Commits s ino hash fb c) (hu : s.db.HashUnique) (hfb : fb.Ok s.db)
    (hstep : InStep s ino fb.fileBlockNum fb) {k : ℕ} {g : H}
    (hrow : c.store.db.rowHash k = some g)
    (hk : ¬(c.present = false ∧ k = c.fblock.storageBlockNum)) :
    s.db.rowHash k = some g ∧
      (c.store.db.refs g : ℤ) + iverson (s.holds fb.storageBlock k) ≤
        s.db.refs g + iverson (c.present = true ∧ c.fblock.storageBlockNum = k) := by
  obtain ⟨sblock, hr⟩ := h.replaces
  have hb := hstep.backed hfb
  have hold : s.db.rowHash k = some g := by
    cases hp : c.present with
    | true => rwa [← hr.rowHash_hit hp]
    | false => rwa [← hr.rowHash_of_ne hb fun hkn => hk ⟨hp, hkn⟩]
  refine ⟨hold, ?_⟩
  have hgain : iverson (hash = g) ≤ iverson (c.present = true ∧ c.fblock.storageBlockNum = k) := by
    apply iverson_mono
    rintro rfl
    cases hp : c.present with
    | true => exact ⟨rfl, (hr.num_of_rowHash hu hold).symm⟩
    | false => exact absurd hold (hr.new_of_absent hp k)
  have hloss : iverson (s.holds fb.storageBlock k) ≤
      iverson (s.db.fileHash ino fb.fileBlockNum = some g) := by
    apply iverson_mono
    rintro ⟨b, hl, rfl⟩
    obtain ⟨-, g', hfile, hrow'⟩ := hstep.held hfb hl
    rw [hold] at hrow'
    rw [hfile, ← hrow']
  have hrefs : (c.store.db.refs g : ℤ) + iverson (s.db.fileHash ino fb.fileBlockNum = some g) =
      s.db.refs g + iverson (hash = g) := by
    have hrefs := hr.refs_eq g
    by_cases hf : s.db.fileHash ino fb.fileBlockNum = some g <;> by_cases hg : hash = g <;>
      simp only [iverson, hf, hg, if_true, if_false] at hrefs ⊢ <;> omega
  omega

/-- The cached counts: the row of the locked block gives one up. -/
theorem cnt_le (h : Commits s ino hash fb c) {k : ℕ} {v : ℤ} (hv : c.store.cnt k = some v) :
    ∃ u, s.cnt k = some u ∧ u ≤ v + iverson (s.holds fb.storageBlock k) := by
  have hrelease : ∀ db, ((s.releaseLocked fb.storageBlock).setDb db).cnt k = some v →
      ∃ u, s.cnt k = some u ∧ u ≤ v + iverson (s.holds fb.storageBlock k) := by
    intro db hdb
    rw [Store.cnt_setDb, Store.cnt_releaseLocked] at hdb
    split at hdb
    · rename_i hh
      obtain ⟨u, hu, rfl⟩ := Option.map_eq_some_iff.mp hdb
      refine ⟨u, hu, ?_⟩
      rw [iverson, if_pos hh]
      show u ≤ u - 1 + 1
      omega
    · exact ⟨v, hdb, by have := iverson_nonneg (s.holds fb.storageBlock k); omega⟩
  cases h with
  | hit row sel => exact hrelease _ hv
  | fresh shared sel => exact hrelease _ hv
  | inPlace b locked single sel =>
    have hsame := (Store.same_put (Store.find_of_lock locked) rfl rfl rfl rfl).cnt k
    have hv' : s.cnt k = some v := hsame.symm.trans hv
    exact ⟨v, hv', by have := iverson_nonneg (s.holds fb.storageBlock k); omega⟩

/-- The transaction takes nothing out of the cache. -/
theorem cnt_isSome (h : Commits s ino hash fb c) {k : ℕ} (hk : (s.cnt k).isSome) :
    (c.store.cnt k).isSome := by
  have hrelease : ∀ db, (((s.releaseLocked fb.storageBlock).setDb db).cnt k).isSome := by
    intro db
    rw [Store.cnt_setDb, Store.cnt_releaseLocked]
    split
    · rwa [Option.isSome_map]
    · exact hk
  cases h with
  | hit row sel => exact hrelease _
  | fresh shared sel => exact hrelease _
  | inPlace b locked single sel =>
    have hsame := (Store.same_put (Store.find_of_lock locked) rfl rfl rfl rfl).cnt k
    exact (congrArg Option.isSome hsame).trans hk

/-- The cached count of a row that takes the new hash. -/
theorem cnt_self (h : Commits s ino hash fb c) (hfb : fb.Ok s.db)
    (hknown : ∀ k, (s.cnt k).isSome → (s.db.rowHash k).isSome) (hp : c.present = false) {v : ℤ}
    (hv : c.store.cnt c.fblock.storageBlockNum = some v) : v = 1 := by
  cases h with
  | hit row sel => cases hp
  | inPlace b locked single sel =>
    have hnum : b.storageBlockNum = fb.storageBlockNum :=
      hfb.ptr _ (Store.lock_eq_some.mp locked).1
    rw [Store.cnt_setDb, Store.cnt_put, if_pos hnum.symm] at hv
    exact (Option.some.inj hv).symm.trans single
  | fresh shared sel =>
    obtain ⟨u, hu, -⟩ := cnt_le (.fresh shared sel) hv
    have hrow := hknown s.db.blockHashes.nextId (by rw [show s.cnt _ = some u from hu]; rfl)
    rw [Db.rowHash_nextId] at hrow
    cases hrow

/-- The counts in the table, for a row that is not cached. -/
theorem useOf_eq (h : Commits s ino hash fb c) (hu : s.db.HashUnique) (hfb : fb.Ok s.db) {k : ℕ}
    {v : ℤ} (hnone : s.cnt k = none) (hv : c.store.db.useOf k = some v) :
    if c.present = false ∧ k = c.fblock.storageBlockNum then v = 1
    else ∃ u, s.db.useOf k = some u ∧
      v = u + iverson (c.present = true ∧ c.fblock.storageBlockNum = k) := by
  have hfree : ¬s.holds fb.storageBlock k := by
    intro hh
    obtain ⟨u, hcnt⟩ := Store.cnt_of_holds hh
    rw [hnone] at hcnt
    cases hcnt
  cases h with
  | hit row sel =>
    have hrow := Db.rowHash_of_select sel
    rw [Store.setDb_db, useOf_mapFileBlock_release, if_neg hfree, Db.useOf_increaseUseCount] at hv
    rw [if_neg (by simp)]
    split at hv
    · rename_i hk
      obtain ⟨u, hu', rfl⟩ := Option.map_eq_some_iff.mp hv
      exact ⟨u, hu', by rw [iverson, if_pos ⟨rfl, hu _ _ _ hrow hk⟩]⟩
    · rename_i hk
      refine ⟨v, hv, ?_⟩
      rw [iverson, if_neg, Int.add_zero]
      rintro ⟨-, rfl⟩
      exact hk hrow
  | inPlace b locked single sel =>
    have hne : k ≠ b.storageBlockNum := fun hk => hfree ⟨b, locked, hk.symm⟩
    have hnum : b.storageBlockNum = fb.storageBlockNum :=
      hfb.ptr _ (Store.lock_eq_some.mp locked).1
    rw [Store.setDb_db, Db.useOf_mapFileBlock_some, Db.useOf_updateBlockHash, if_neg hne] at hv
    rw [if_neg fun hk => hne (hk.2.trans hnum.symm)]
    exact ⟨v, hv, by simp [iverson]⟩
  | fresh shared sel =>
    rw [Store.setDb_db, useOf_mapFileBlock_release, if_neg hfree, Db.useOf_insertBlockHash] at hv
    split at hv
    · rename_i hk
      rw [if_pos ⟨rfl, hk⟩]
      exact (Option.some.inj hv).symm
    · rename_i hk
      rw [if_neg fun hh => hk hh.2]
      exact ⟨v, hv, by simp [iverson]⟩

/-- The `block_info` points to the row that it names. -/
theorem fblock_ok (h : Commits s ino hash fb c) (hfb : fb.Ok s.db)
    (hrow : c.store.db.rowHash c.fblock.storageBlockNum = some hash) : c.fblock.Ok c.store.db := by
  refine ⟨?_, fun _ => by rw [hrow]; rfl⟩
  cases h with
  | hit row sel => nofun
  | inPlace b locked single sel => exact hfb.ptr
  | fresh shared sel => nofun

/-- A hash that another file block has keeps its row. -/
theorem rowHash_kept (h : Commits s ino hash fb c)
    (hb : Replaces.Backed s.db fb (s.lock fb.storageBlock)) (hin : InPlaceUnshared s ino hash fb)
    {f o k : ℕ} {g : H} (hne : (f, o) ≠ (ino, fb.fileBlockNum))
    (hf : s.db.fileHash f o = some g) (hk : s.db.rowHash k = some g) :
    c.store.db.rowHash k = some g := by
  obtain ⟨_, hr⟩ := h.replaces
  exact hr.rowHash_kept hb hin hne hf hk

end Commits

end transaction

/-! ### What holds between the steps -/

/-- Every hash of `file_blocks` has a row, every cached block too, and the references of a row
are at most its cached count and what is owed to it, or the count in the table when it is not
cached. -/
structure Owing (owed : ℕ → ℕ) (s : Store bits H) : Prop where
  unique : s.db.HashUnique
  found : ∀ f o g, s.db.fileHash f o = some g → ∃ k, s.db.rowHash k = some g
  known : ∀ k, (s.cnt k).isSome → (s.db.rowHash k).isSome
  cached : ∀ k g v, s.db.rowHash k = some g → s.cnt k = some v → (s.db.refs g : ℤ) ≤ v + owed k
  table : ∀ k g v, s.db.rowHash k = some g → s.cnt k = none → s.db.useOf k = some v →
    (s.db.refs g : ℤ) ≤ v

section owing

variable {owed owed' : ℕ → ℕ} {s s' : Store bits H} {ino : ℕ} {hash : H} {fb : BlockInfo H}
  {c : Committed bits H}

theorem Owing.of_same (h : Owing owed s) (hsame : s.Same s') : Owing owed s' := by
  refine ⟨?_, ?_, fun k hk => ?_, fun k g v hk hv => ?_, fun k g v hk hnone hv => ?_⟩
  · rw [hsame.db]
    exact h.unique
  · rw [hsame.db]
    exact h.found
  · rw [hsame.db]
    exact h.known k (hsame.cnt k ▸ hk)
  · rw [hsame.db] at hk ⊢
    exact h.cached k g v hk (hsame.cnt k ▸ hv)
  · rw [hsame.db] at hk hv ⊢
    exact h.table k g v hk (hsame.cnt k ▸ hnone) hv

/-- Locating a block loads the count of a row from the tables only. -/
theorem Owing.locate {fi : FileInfo H} {n : ℕ} (h : Owing owed s) (cfg : Config bits H)
    (hcached : StillCached s fi n) : Owing owed (getLockedFileBlock cfg s fi n).store := by
  have hdb := (getLockedFileBlock_locates cfg s fi n).db_eq
  refine ⟨hdb ▸ h.unique, hdb ▸ h.found, fun k hk => ?_, fun k g v hk hv => ?_,
    fun k g v hk hnone hv => ?_⟩
  · obtain ⟨v, hv⟩ := Option.isSome_iff_exists.mp hk
    rw [hdb]
    rcases cnt_locate h.found hcached hv with hold | ⟨-, huse⟩
    · exact h.known k (by rw [hold]; rfl)
    · rw [← Db.useOf_isSome, huse]
      rfl
  · rw [hdb] at hk ⊢
    rcases cnt_locate h.found hcached hv with hold | ⟨hnone, huse⟩
    · exact h.cached k g v hk hold
    · have hle := h.table k g v hk hnone huse
      omega
  · rw [hdb] at hk hv ⊢
    exact h.table k g v hk (cnt_locate_none hnone) hv

/-- A cached count of 1 to which nothing is owed is that of an unshared block. -/
theorem Owing.inPlaceUnshared (h : Owing owed s) (hfb : fb.Ok s.db)
    (hstep : InStep s ino fb.fileBlockNum fb)
    (hpaid : ∀ b, s.lock fb.storageBlock = some b → b.useCount = 1 →
      s.db.selectBlockHash hash = none → owed b.storageBlockNum = 0) :
    InPlaceUnshared s ino hash fb := by
  intro b hl hone hsel f o g hrow hf
  obtain ⟨-, g', hfile, hrow'⟩ := hstep.held hfb hl
  rw [hrow] at hrow'
  cases hrow'
  by_contra hne
  have htwo := Db.two_le_refs hf hfile hne
  have hle := h.cached _ g 1 hrow (hone ▸ Store.cnt_of_lock hl)
  rw [hpaid b hl hone hsel] at hle
  omega

/-- **A commit keeps the bound**: a hash that was found is owed one more. -/
theorem Owing.commit (h : Owing owed s) (hc : Commits s ino hash fb c) (hfb : fb.Ok s.db)
    (hstep : InStep s ino fb.fileBlockNum fb) (hin : InPlaceUnshared s ino hash fb)
    (howed : ∀ k, (owed' k : ℤ) =
      owed k + iverson (c.present = true ∧ c.fblock.storageBlockNum = k)) :
    Owing owed' c.store := by
  obtain ⟨sblock, hr⟩ := hc.replaces
  have hb := hstep.backed hfb
  refine ⟨hr.hashUnique h.unique, fun f o g hf => ?_, fun k hk => ?_, fun k g v hk hv => ?_,
    fun k g v hk hnone hv => ?_⟩
  · have hf' := (hr.fileHash_eq f o).symm.trans hf
    split at hf'
    · cases hf'
      exact ⟨_, hr.rowHash_self hb⟩
    · rename_i hne
      obtain ⟨k, hk⟩ := h.found f o g hf'
      exact ⟨k, hc.rowHash_kept hb hin hne hf' hk⟩
  · obtain ⟨v, hv⟩ := Option.isSome_iff_exists.mp hk
    obtain ⟨u, hu, -⟩ := hc.cnt_le hv
    exact hr.rowHash_isSome hb (h.known k (by rw [hu]; rfl))
  · by_cases hself : c.present = false ∧ k = c.fblock.storageBlockNum
    · obtain ⟨hp, rfl⟩ := hself
      rw [show g = hash from Option.some.inj (hk.symm.trans (hr.rowHash_self hb)),
        hc.refs_self h.found hp, hc.cnt_self hfb h.known hp hv]
      omega
    · obtain ⟨hold, hle⟩ := hc.refs_le h.unique hfb hstep hk hself
      obtain ⟨u, hu, huv⟩ := hc.cnt_le hv
      have hbound := h.cached k g u hold hu
      rw [howed]
      omega
  · have hnone' : s.cnt k = none := by
      cases hcnt : s.cnt k with
      | none => rfl
      | some u =>
        have hsome := hc.cnt_isSome (by rw [hcnt]; rfl)
        rw [hnone] at hsome
        cases hsome
    have huse := hc.useOf_eq h.unique hfb hnone' hv
    by_cases hself : c.present = false ∧ k = c.fblock.storageBlockNum
    · rw [if_pos hself] at huse
      obtain ⟨hp, rfl⟩ := hself
      rw [show g = hash from Option.some.inj (hk.symm.trans (hr.rowHash_self hb)),
        hc.refs_self h.found hp, huse]
      rfl
    · rw [if_neg hself] at huse
      obtain ⟨u, hu, rfl⟩ := huse
      obtain ⟨hold, hle⟩ := hc.refs_le h.unique hfb hstep hk hself
      have hheld := iverson_nonneg (s.holds fb.storageBlock k)
      have hbound := h.table k g u hold hnone' hu
      omega

/-- A `use_count++` pays what it owes. -/
theorem Owing.found_paid (h : Owing owed s) (n : ℕ)
    (howed : ∀ k, (owed' k : ℤ) + iverson (n = k) = owed k) : Owing owed' (s.adjust n 1) := by
  have hdb := Store.adjust_db (s := s) n 1
  refine ⟨hdb ▸ h.unique, hdb ▸ h.found, fun k hk => ?_, fun k g v hk hv => ?_,
    fun k g v hk hnone hv => ?_⟩
  · rw [hdb]
    rw [Store.cnt_adjust] at hk
    split at hk
    · exact h.known k (by rwa [Option.isSome_map] at hk)
    · exact h.known k hk
  · rw [hdb] at hk ⊢
    rw [Store.cnt_adjust] at hv
    have hk' := howed k
    split at hv
    · rename_i hkn
      obtain ⟨u, hu, rfl⟩ := Option.map_eq_some_iff.mp hv
      have hbound := h.cached k g u hk hu
      rw [iverson, if_pos hkn.symm] at hk'
      omega
    · rename_i hkn
      have hbound := h.cached k g v hk hv
      rw [iverson, if_neg (Ne.symm hkn)] at hk'
      omega
  · rw [hdb] at hk hv ⊢
    rw [Store.cnt_adjust] at hnone
    refine h.table k g v hk ?_ hv
    split at hnone
    · exact Option.map_eq_none_iff.mp hnone
    · exact hnone

/-- The data of a block are stored with the count 1. -/
theorem Owing.stored (h : Owing owed s) (n : ℕ) (data : Block bits) (hash : H)
    (hrow : (s.db.rowHash n).isSome)
    (hrefs : ∀ g, s.db.rowHash n = some g → (s.db.refs g : ℤ) ≤ 1 + owed n) :
    Owing owed (s.place n data hash) := by
  refine ⟨h.unique, h.found, fun k hk => ?_, fun k g v hk hv => ?_, fun k g v hk hnone hv => ?_⟩
  · rw [cnt_place] at hk
    split at hk
    · rename_i hkn
      rw [place_db, hkn]
      exact hrow
    · exact h.known k hk
  · rw [cnt_place] at hv
    rw [place_db] at hk ⊢
    split at hv
    · rename_i hkn
      cases hv
      rw [hkn] at hk ⊢
      exact hrefs g hk
    · exact h.cached k g v hk hv
  · rw [cnt_place] at hnone
    split at hnone
    · cases hnone
    · exact h.table k g v hk hnone hv

end owing

namespace Writers

/-- The `use_count++`s on the block `k` that committed writes still owe. -/
def owed (w : Writers bits H) (k : ℕ) : ℕ :=
  w.writes.count fun x => x.present = some true ∧ x.fblock.storageBlockNum = k

/-- Every file block is written through the handle that `owner` names. -/
def Assigned (owner : ℕ × ℕ → ℕ) (w : Writers bits H) : WriteStep → Prop
  | .locate fh _ c => ∀ fi, w.handles fh = some fi → owner (fi.stIno, c.block) = fh
  | _ => True

/-- A block that is not cached is located through a new `block_info` only; the in-place branch is
taken on a block to which no `use_count++` is owed; and no `use_count++` comes before the data of
its block are stored. -/
def Orderly (cfg : Config bits H) (w : Writers bits H) : WriteStep → Prop
  | .locate fh _ c => ∀ fi, w.handles fh = some fi → StillCached w.store fi c.block
  | .commit fh n => ∀ x b, w.writes.find (fh, n) = some x →
      w.store.lock x.fblock.storageBlock = some b → b.useCount = 1 →
      w.store.db.selectBlockHash (cfg.murmur x.data) = none → w.owed b.storageBlockNum = 0
  | .update fh n => ∀ x, w.writes.find (fh, n) = some x → x.present = some true →
      ∀ i y, w.writes.find i = some y → y.present = some false →
        y.fblock.storageBlockNum ≠ x.fblock.storageBlockNum

/-- **What holds between the steps**, when every file block is written through the handle that
`owner` names: the bound on the references, also for a row whose data are still to be stored;
and each owner, and each write under way, knows what the tables know. -/
structure Safe (owner : ℕ × ℕ → ℕ) (w : Writers bits H) : Prop where
  owing : Owing w.owed w.store
  stores : ∀ i x, w.writes.find i = some x → x.present = some false →
    ∀ g, w.store.db.rowHash x.fblock.storageBlockNum = some g →
      (w.store.db.refs g : ℤ) ≤ 1 + w.owed x.fblock.storageBlockNum
  ok : ∀ fh fi, w.handles fh = some fi → fi.Ok w.store.db
  inStep : ∀ fh fi n item, w.handles fh = some fi → owner (fi.stIno, n) = fh →
    fi.blocks n = some item → InStep w.store fi.stIno n item
  held : ∀ i x, w.writes.find i = some x → ∃ fi, w.handles x.fh = some fi ∧
    owner (fi.stIno, x.fblock.fileBlockNum) = x.fh ∧
    fi.blocks x.fblock.fileBlockNum = some x.fblock ∧
    (x.present ≠ none → ∃ g, x.fblock.hash = .digest g)

section steps

variable {owner : ℕ × ℕ → ℕ} {cfg : Config bits H} {w : Writers bits H} {fh n : ℕ}
  {fi : FileInfo H} {x : Write bits H}

omit [DecidableEq H] in
/-- A write that is replaced or taken away moves what is owed by what it owes itself. -/
theorem owed_replace (x : Write bits H) {s : Store bits H} {handles : ℕ → Option (FileInfo H)}
    (k : ℕ) (hold : ∀ y, w.writes.find x.key = some y → y.present ≠ some true) :
    ((owed ⟨s, handles, w.writes.replace x⟩ k : ℕ) : ℤ) =
      w.owed k + iverson (x.present = some true ∧ x.fblock.storageBlockNum = k) := by
  have hcount := KeyedTable.count_replace w.writes
    (fun x => x.present = some true ∧ x.fblock.storageBlockNum = k) x
  have hnone : (w.writes.find x.key).any
      (fun x => x.present = some true ∧ x.fblock.storageBlockNum = k) = false := by
    cases hf : w.writes.find x.key with
    | none => rfl
    | some y =>
      rw [Option.any_some, decide_eq_false_iff_not]
      exact fun h => hold y hf h.1
  rw [hnone] at hcount
  simp only [Bool.false_eq_true, if_false, decide_eq_true_eq] at hcount
  unfold owed iverson
  rw [← Nat.add_zero (KeyedTable.count _ _), hcount]
  split <;> rfl

omit [DecidableEq H] in
theorem owed_deleteKey (under : w.writes.find (fh, n) = some x) (s : Store bits H)
    (handles : ℕ → Option (FileInfo H)) (k : ℕ) :
    ((owed ⟨s, handles, w.writes.deleteKey (fh, n)⟩ k : ℕ) : ℤ) +
      iverson (x.present = some true ∧ x.fblock.storageBlockNum = k) = w.owed k := by
  have hcount := KeyedTable.count_deleteKey w.writes
    (fun x => x.present = some true ∧ x.fblock.storageBlockNum = k) (fh, n)
  rw [under, Option.any_some] at hcount
  simp only [decide_eq_true_eq] at hcount
  unfold owed iverson
  rw [← hcount]
  split <;> rfl

/-- The handles and the writes after a step of one write, in which no other file block changes. -/
theorem Safe.knows (h : w.Safe owner) (opened : w.handles fh = some fi)
    (hown : owner (fi.stIno, n) = fh) {fb : BlockInfo H} (hn : fb.fileBlockNum = n)
    (s : Store bits H) (writes : KeyedTable (Write bits H) (ℕ × ℕ) Write.key)
    (hgrow : w.store.db.Grows s.db)
    (hkept : w.store.db.KeptBut s.db fi.stIno n) (hfb : fb.Ok s.db) (hin : InStep s fi.stIno n fb)
    (hwrites : ∀ i y, i ≠ (fh, n) → writes.find i = some y → w.writes.find i = some y)
    (hself : ∀ y, writes.find (fh, n) = some y →
      y.fblock = fb ∧ (y.present ≠ none → ∃ g, fb.hash = .digest g)) :
    (∀ fh' fj, setBlock w.handles fh fi fb fh' = some fj → fj.Ok s.db) ∧
      (∀ fh' fj m item, setBlock w.handles fh fi fb fh' = some fj →
        owner (fj.stIno, m) = fh' → fj.blocks m = some item → InStep s fj.stIno m item) ∧
      ∀ i y, writes.find i = some y → ∃ fj, setBlock w.handles fh fi fb y.fh = some fj ∧
        owner (fj.stIno, y.fblock.fileBlockNum) = y.fh ∧
        fj.blocks y.fblock.fileBlockNum = some y.fblock ∧
        (y.present ≠ none → ∃ g, y.fblock.hash = .digest g) := by
  subst hn
  refine ⟨fun fh' fj hfj => ?_, fun fh' fj m item hfj hm hitem => ?_, fun i y hy => ?_⟩
  · rw [setBlock, Function.update_apply] at hfj
    split at hfj
    · cases hfj
      exact ((h.ok fh fi opened).mono hgrow).setBlock hfb
    · exact (h.ok fh' fj hfj).mono hgrow
  · rw [setBlock, Function.update_apply] at hfj
    split at hfj
    · rename_i hfh
      cases hfj
      rw [FileInfo.setBlock_blocks, Function.update_apply] at hitem
      split at hitem
      · rename_i hmn
        cases hitem
        rw [hmn]
        exact hin
      · rename_i hmn
        exact (h.inStep fh fi m item opened (hm.trans hfh) hitem).kept hkept
          fun heq => hmn (Prod.mk.inj heq).2
    · rename_i hfh
      refine (h.inStep fh' fj m item hfj hm hitem).kept hkept fun heq => hfh ?_
      rw [← hm, heq, hown]
  · have hkey : y.key = i := KeyedTable.key_of_find hy
    by_cases hi : i = (fh, fb.fileBlockNum)
    · obtain ⟨rfl, hhash⟩ := hself y (hi ▸ hy)
      have hfh : y.fh = fh := (Prod.mk.inj (hkey.trans hi)).1
      refine ⟨fi.setBlock y.fblock, ?_, ?_, Function.update_self .., hhash⟩
      · rw [setBlock, hfh, Function.update_self]
      · rw [hfh]
        exact hown
    · obtain ⟨fj, hfj, hm, hitem, hhash⟩ := h.held i y (hwrites i y hi hy)
      by_cases hfh : y.fh = fh
      · rw [hfh, opened] at hfj
        cases hfj
        refine ⟨fi.setBlock fb, ?_, hm, ?_, hhash⟩
        · rw [setBlock, hfh, Function.update_self]
        · rw [FileInfo.setBlock_blocks, Function.update_of_ne, hitem]
          intro hmn
          exact hi (hkey.symm.trans (by rw [Write.key, hfh, hmn]))
      · exact ⟨fj, by rw [setBlock, Function.update_of_ne hfh, hfj], hm, hitem, hhash⟩

/-- The handle of a write under way, and what its `block_info` says. -/
theorem Safe.held_inStep (h : w.Safe owner) (opened : w.handles fh = some fi)
    (under : w.writes.find (fh, n) = some x) :
    x.fh = fh ∧ x.fblock.fileBlockNum = n ∧ owner (fi.stIno, n) = fh ∧ x.fblock.Ok w.store.db ∧
      InStep w.store fi.stIno n x.fblock ∧
      (x.present ≠ none → ∃ g, x.fblock.hash = .digest g ∧
        w.store.db.rowHash x.fblock.storageBlockNum = some g) := by
  obtain ⟨hfh, hn⟩ := Prod.mk.inj (show x.key = _ from KeyedTable.key_of_find under)
  obtain ⟨fj, hfj, hown, hitem, hhash⟩ := h.held _ x under
  rw [hfh, opened] at hfj
  cases hfj
  rw [hn, hfh] at hown
  rw [hn] at hitem
  have hin := h.inStep fh fi n _ opened hown hitem
  refine ⟨hfh, hn, hown, (h.ok fh fi opened n _ hitem).2, hin, fun hp => ?_⟩
  obtain ⟨g, hg⟩ := hhash hp
  rcases hin with ⟨hnull, -⟩ | ⟨g', hg', -, hrow⟩
  · rw [hg] at hnull
    cases hnull
  · exact ⟨g', hg', hrow⟩

/-- A commit that is orderly does not take the in-place branch on a shared block. -/
theorem Safe.inPlaceUnshared (h : w.Safe owner) (opened : w.handles fh = some fi)
    (under : w.writes.find (fh, n) = some x) (hok : w.Orderly cfg (.commit fh n)) :
    InPlaceUnshared w.store fi.stIno (cfg.murmur x.data) x.fblock := by
  obtain ⟨-, hn, -, hfb, hin, -⟩ := h.held_inStep opened under
  exact h.owing.inPlaceUnshared hfb (hn ▸ hin) fun b hl hone hsel => hok x b under hl hone hsel

/-- Locating a block, for a write that starts. -/
theorem Safe.locate (h : w.Safe owner) (opened : w.handles fh = some fi)
    (free : w.writes.find (fh, n) = none) {s : Store bits H}
    (touched : (getLockedFileBlock cfg w.store fi n).store.Touches s)
    (hown : owner (fi.stIno, n) = fh) (hcached : StillCached w.store fi n)
    (hx : x = ⟨fh, (getLockedFileBlock cfg w.store fi n).fblock, x.data, none⟩) :
    Safe owner ⟨s, setBlock w.handles fh fi x.fblock, w.writes.replace x⟩ := by
  have hloc := getLockedFileBlock_locates cfg w.store fi n
  have hdb : s.db = w.store.db := touched.same.db.trans hloc.db_eq
  have hstep := fun item hitem => h.inStep fh fi n item opened hown hitem
  have howing := (h.owing.locate cfg hcached).of_same touched.same
  obtain ⟨hnum, hfb⟩ := @fileBlock_num_ok _ _ _ cfg w.store fi n (h.ok fh fi opened)
  have hfblock : x.fblock = (getLockedFileBlock cfg w.store fi n).fblock := congrArg Write.fblock hx
  have hpresent : x.present = none := congrArg Write.present hx
  have hin : InStep w.store fi.stIno n x.fblock :=
    hfblock ▸ (InStep.fileBlock hstep h.owing.found).located hloc
  have hok : x.fblock.Ok w.store.db := hfblock ▸ hloc.ok hfb
  have hn : x.fblock.fileBlockNum = n := by rw [hfblock, hloc.fblock_eq.1, hnum]
  have hkey : x.key = (fh, n) := by rw [Write.key, congrArg Write.fh hx, hn]
  have howed : ∀ handles, owed ⟨s, handles, w.writes.replace x⟩ = w.owed := by
    intro handles
    funext k
    have hmoved := @owed_replace _ _ w x s handles k (by rw [hkey, free]; nofun)
    rw [hpresent, iverson, if_neg (by rintro ⟨hp, -⟩; cases hp), Int.add_zero] at hmoved
    exact Int.ofNat_inj.mp hmoved
  have hfind := KeyedTable.find_replace w.writes x
  rw [hkey] at hfind
  have hold : ∀ i y, i ≠ (fh, n) → (w.writes.replace x).find i = some y →
      w.writes.find i = some y := fun i y hi hy => by rwa [hfind, if_neg hi] at hy
  obtain ⟨h₁, h₂, h₃⟩ := h.knows opened hown hn s (w.writes.replace x)
    (by rw [hdb]; exact .refl _) (by rw [hdb]; exact .refl w.store.db fi.stIno n) (hdb ▸ hok)
    (by unfold InStep; rw [hdb]; exact hin) hold
    (fun y hy => by
      rw [hfind, if_pos rfl] at hy
      cases hy
      exact ⟨rfl, fun hp => absurd hpresent hp⟩)
  refine ⟨?_, fun i y hy hp g hrow => ?_, h₁, h₂, h₃⟩
  · rw [howed]
    exact howing
  · by_cases hi : i = (fh, n)
    · rw [hfind, if_pos hi] at hy
      cases hy
      rw [hpresent] at hp
      cases hp
    · rw [howed, hdb]
      exact h.stores i y (hold i y hi hy) hp g (hdb ▸ hrow)

/-- **A commit that is orderly.** -/
theorem Safe.commit (h : w.Safe owner) (opened : w.handles fh = some fi)
    (under : w.writes.find (fh, n) = some x) (pending : x.present = none)
    {c : Committed bits H}
    (commits : Commits w.store fi.stIno (cfg.murmur x.data) x.fblock c)
    (hok : w.Orderly cfg (.commit fh n)) :
    Safe owner ⟨c.store, setBlock w.handles fh fi c.fblock,
      w.writes.replace { x with fblock := c.fblock, present := some c.present }⟩ := by
  obtain ⟨hfh, hn, hown, hfb, hin, -⟩ := h.held_inStep opened under
  have hun := h.inPlaceUnshared opened under hok
  obtain ⟨sblock, hr⟩ := commits.replaces
  have hstep : InStep w.store fi.stIno x.fblock.fileBlockNum x.fblock := hn.symm ▸ hin
  have hb := hstep.backed hfb
  have hrow := hr.rowHash_self hb
  have hnum : c.fblock.fileBlockNum = n := hr.fblock_eq.1.trans hn
  have hkey : Write.key { x with fblock := c.fblock, present := some c.present } = (fh, n) := by
    rw [Write.key, hfh, hnum]
  generalize hx' : ({ x with fblock := c.fblock, present := some c.present } : Write bits H) = x'
    at hkey ⊢
  have hfblock' : x'.fblock = c.fblock := by rw [← hx']
  have hpresent' : x'.present = some c.present := by rw [← hx']
  have howed : ∀ handles k, ((owed ⟨c.store, handles, w.writes.replace x'⟩ k : ℕ) : ℤ) =
      w.owed k + iverson (c.present = true ∧ c.fblock.storageBlockNum = k) := by
    intro handles k
    have hmoved := @owed_replace _ _ w x' c.store handles k fun y hy => by
      rw [hkey, under] at hy
      cases hy
      rw [pending]
      nofun
    rw [hmoved, hfblock', hpresent']
    simp only [Option.some.injEq]
  have hfind := KeyedTable.find_replace w.writes x'
  rw [hkey] at hfind
  have hold : ∀ i y, i ≠ (fh, n) → (w.writes.replace x').find i = some y →
      w.writes.find i = some y := fun i y hi hy => by rwa [hfind, if_neg hi] at hy
  obtain ⟨h₁, h₂, h₃⟩ := h.knows opened hown hnum c.store (w.writes.replace x')
    (fun k hk => hr.rowHash_isSome hb hk)
    (hn ▸ hr.keptBut hb hun)
    (commits.fblock_ok hfb hrow)
    (.inr ⟨_, hr.fblock_eq.2.1,
      (hr.fileHash_eq fi.stIno n).trans (if_pos (by rw [hn])), hrow⟩) hold
    (fun y hy => by
      rw [hfind, if_pos rfl] at hy
      cases hy
      exact ⟨hfblock', fun _ => ⟨_, hr.fblock_eq.2.1⟩⟩)
  refine ⟨h.owing.commit commits hfb hstep hun (howed _), fun i y hy hp g hg => ?_, h₁, h₂, h₃⟩
  rw [howed]
  show (c.store.db.refs g : ℤ) ≤ _
  by_cases hself : c.present = false ∧ y.fblock.storageBlockNum = c.fblock.storageBlockNum
  · -- the row has the new hash, and no other reference
    rw [hself.2] at hg
    rw [show g = cfg.murmur x.data from Option.some.inj (hg.symm.trans hrow),
      commits.refs_self h.owing.found hself.1]
    have := iverson_nonneg (c.present = true ∧
      c.fblock.storageBlockNum = y.fblock.storageBlockNum)
    omega
  · by_cases hi : i = (fh, n)
    · rw [hfind, if_pos hi] at hy
      cases hy
      rw [hpresent'] at hp
      exact absurd ⟨Option.some.inj hp, by rw [hfblock']⟩ hself
    · obtain ⟨hg', hle⟩ := commits.refs_le h.owing.unique hfb hstep hg hself
      have hbound := h.stores i y (hold i y hi hy) hp g hg'
      have := iverson_nonneg (w.store.holds x.fblock.storageBlock y.fblock.storageBlockNum)
      omega

/-- **The update of the cached block.** -/
theorem Safe.update (h : w.Safe owner) (opened : w.handles fh = some fi)
    (under : w.writes.find (fh, n) = some x) {fb : BlockInfo H} (hpresent : x.present ≠ none)
    (hok : fb.Ok w.store.db) (hfb : fb.fileBlockNum = n ∧ fb.hash = x.fblock.hash ∧
      fb.storageBlockNum = x.fblock.storageBlockNum) {s : Store bits H} (hdb : s.db = w.store.db)
    (howing : ∀ handles, Owing (owed ⟨s, handles, w.writes.deleteKey (fh, n)⟩) s)
    (hstores : ∀ i y, w.writes.find i = some y → y.present = some false → i ≠ (fh, n) →
      x.present = some true → y.fblock.storageBlockNum ≠ x.fblock.storageBlockNum) :
    Safe owner ⟨s, setBlock w.handles fh fi fb, w.writes.deleteKey (fh, n)⟩ := by
  obtain ⟨-, -, hown, -, hin, hcommitted⟩ := h.held_inStep opened under
  obtain ⟨g, hg, hrow⟩ := hcommitted hpresent
  have hfind := KeyedTable.find_deleteKey w.writes (fh, n)
  have hold : ∀ i y, (w.writes.deleteKey (fh, n)).find i = some y →
      i ≠ (fh, n) ∧ w.writes.find i = some y := by
    intro i y hy
    rw [hfind] at hy
    split at hy
    · cases hy
    · rename_i hi
      exact ⟨hi, hy⟩
  have hfile : w.store.db.fileHash fi.stIno n = some g := by
    rcases hin with ⟨hnull, -⟩ | ⟨g', hg', hfile, -⟩
    · rw [hg] at hnull
      cases hnull
    · rw [hg] at hg'
      cases hg'
      exact hfile
  obtain ⟨h₁, h₂, h₃⟩ := h.knows opened hown hfb.1 s (w.writes.deleteKey (fh, n))
    (by rw [hdb]; exact .refl _) (by rw [hdb]; exact .refl w.store.db fi.stIno n) (hdb ▸ hok)
    (.inr ⟨g, hfb.2.1.trans hg, by rw [hdb, hfile], by rw [hdb, hfb.2.2, hrow]⟩)
    (fun i y _ hy => (hold i y hy).2) fun y hy => absurd rfl (hold _ y hy).1
  refine ⟨howing _, fun i y hy hp g' hg' => ?_, h₁, h₂, h₃⟩
  obtain ⟨hi, hy'⟩ := hold i y hy
  have hmoved := owed_deleteKey under s (setBlock w.handles fh fi fb) y.fblock.storageBlockNum
  rw [iverson, if_neg fun hh => hstores i y hy' hp hi hh.1 hh.2.symm, Int.add_zero] at hmoved
  rw [hmoved, hdb]
  exact h.stores i y hy' hp g' (hdb ▸ hg')

/-- **An orderly step is safe.** -/
theorem Safe.step {w' : Writers bits H} {a : WriteStep} {o : Unit} (h : w.Safe owner)
    (hassigned : w.Assigned owner a) (hok : w.Orderly cfg a)
    (hstep : w.step cfg a = .ok (w', o)) : w'.Safe owner := by
  cases step_moves hstep with
  | @locate fh buf c fi s old opened free touched =>
    exact h.locate (x := ⟨fh, _, c.data buf old, none⟩) opened free touched (hassigned _ opened)
      (hok _ opened) rfl
  | commit opened under pending commits => exact h.commit opened under pending commits hok
  | @found fh n fi x opened under present =>
    obtain ⟨-, hn, -, hfb, -⟩ := h.held_inStep opened under
    refine h.update opened under (by rw [present]; nofun) hfb ⟨hn, rfl, rfl⟩
      (Store.adjust_db _ _) (fun handles => h.owing.found_paid _ fun k => ?_)
      fun i y hy hp _ hx => hok x under hx i y hy hp
    have hmoved := owed_deleteKey under (w.store.adjust x.fblock.storageBlockNum 1) handles k
    simpa only [present, true_and] using hmoved
  | @stored fh n fi x p opened under absent num =>
    obtain ⟨-, hn, -, hfb, -, hcommitted⟩ := h.held_inStep opened under
    obtain ⟨g, -, hrow⟩ := hcommitted (by rw [absent]; nofun)
    have hptr : ({ x.fblock with storageBlock := some p } : BlockInfo H).Ok w.store.db := by
      refine ⟨fun q hq => ?_, hfb.known⟩
      cases hq
      exact num
    refine h.update opened under (by rw [absent]; nofun) hptr ⟨hn, rfl, rfl⟩ rfl
      (fun handles => ?_) fun i y _ _ _ hx => by rw [absent] at hx; cases hx
    have howed : owed ⟨w.store.place x.fblock.storageBlockNum x.data (cfg.murmur x.data), handles,
        w.writes.deleteKey (fh, n)⟩ = w.owed := by
      funext k
      have hmoved := owed_deleteKey under
        (w.store.place x.fblock.storageBlockNum x.data (cfg.murmur x.data)) handles k
      rw [absent, iverson, if_neg (by rintro ⟨hp, -⟩; cases hp), Int.add_zero] at hmoved
      exact Int.ofNat_inj.mp hmoved
    rw [howed]
    exact h.owing.stored _ _ _ (by rw [hrow]; rfl) (h.stores _ x under absent)

end steps

/-! ### Runs -/

/-- The use counts of the tables are exact and those of the cached blocks are the same, every
handle knows of the blocks that are written through it what the tables know, and no write has
committed. -/
structure Exact (owner : ℕ × ℕ → ℕ) (w : Writers bits H) : Prop where
  unique : w.store.db.HashUnique
  found : ∀ f o g, w.store.db.fileHash f o = some g → ∃ k, w.store.db.rowHash k = some g
  use : ∀ k g u, w.store.db.rowHash k = some g → w.store.db.useOf k = some u →
    u = w.store.db.refs g
  agree : ∀ k u, w.store.cnt k = some u → w.store.db.useOf k = some u
  handles : ∀ fh fi, w.handles fh = some fi → fi.Ok w.store.db ∧
    ∀ n item, owner (fi.stIno, n) = fh → fi.blocks n = some item → InStep w.store fi.stIno n item
  held : ∀ i x, w.writes.find i = some x → x.present = none ∧ ∃ fi, w.handles x.fh = some fi ∧
    owner (fi.stIno, x.fblock.fileBlockNum) = x.fh ∧ fi.blocks x.fblock.fileBlockNum = some x.fblock

theorem Exact.safe {owner : ℕ × ℕ → ℕ} {w : Writers bits H} (h : w.Exact owner) :
    w.Safe owner where
  owing := by
    refine ⟨h.unique, h.found, fun k hk => ?_, fun k g v hk hv => ?_, fun k g v hk _ hv => ?_⟩
    · obtain ⟨u, hu⟩ := Option.isSome_iff_exists.mp hk
      rw [← Db.useOf_isSome, h.agree k u hu]
      rfl
    · have := h.use k g v hk (h.agree k v hv)
      omega
    · exact (h.use k g v hk hv).ge
  stores i x hx hp := by
    rw [(h.held i x hx).1] at hp
    cases hp
  ok fh fi hfi := (h.handles fh fi hfi).1
  inStep fh fi n item hfi hown hitem := (h.handles fh fi hfi).2 n item hown hitem
  held i x hx := by
    obtain ⟨hp, fi, hfi, hown, hitem⟩ := h.held i x hx
    exact ⟨fi, hfi, hown, hitem, fun hne => absurd hp hne⟩

end Writers

open Writers in
/-- **A dedup hit and an in-place overwrite do not collide** in runs of orderly steps, from a
state in which the use counts are exact: the in-place branch is taken on blocks of one file block
only, and every hash of `file_blocks` has a row. -/
theorem run_writes_apart (cfg : Config bits H) (owner : ℕ × ℕ → ℕ) (w w' : Writers bits H)
    (steps : List WriteStep) (outs : List Unit) (hw : w.Exact owner)
    (hok : Meets (step cfg) (fun w a => w.Assigned owner a ∧ w.Orderly cfg a) w steps)
    (hrun : run (step cfg) w steps = .ok (w', outs)) :
    (∀ f o g, w'.store.db.fileHash f o = some g → ∃ k, w'.store.db.rowHash k = some g) ∧
    ∀ fh n x fi, w'.writes.find (fh, n) = some x → w'.handles fh = some fi →
      w'.Orderly cfg (.commit fh n) →
      InPlaceUnshared w'.store fi.stIno (cfg.murmur x.data) x.fblock := by
  have hsafe := run_invariant (fun w a w' o h hok hstep => h.step hok.1 hok.2 hstep) hw.safe hok
    hrun
  exact ⟨hsafe.owing.found,
    fun fh n x fi under opened hok => hsafe.inPlaceUnshared opened under hok⟩

/-- The state after some requests, with no write under way. -/
def Writers.after (ops : List Op) : Writers 0 (List UInt8) :=
  ⟨(Fs.after (plainConfig 0) ops).store, (Fs.after (plainConfig 0) ops).handles, .empty⟩

/-- Two files of one byte that were never written. -/
def twoHoles : Writers 0 (List UInt8) :=
  .after [.create ['/', 'f'] sIfreg, .ftruncate 0 1, .create ['/', 'g'] sIfreg, .ftruncate 1 1]

theorem twoHoles_exact : twoHoles.Exact fun p => p.1 - 2 where
  unique k k' g hk _ := by cases hk
  found f o g hf := by cases hf
  use k g u hk _ := by cases hk
  agree k u hk := by cases hk
  handles fh fi hfi := by
    have hnew : fi.blocks = fun _ => none := by
      match fh with
      | 0 =>
        cases hfi
        rfl
      | 1 =>
        cases hfi
        rfl
      | fh + 2 => cases hfi
    refine ⟨fun n fb hfb => ?_, fun n item _ hitem => ?_⟩
    · rw [hnew] at hfb
      cases hfb
    · rw [hnew] at hitem
      cases hitem
  held i x hx := by cases hx

/-- A write gives its block another hash. -/
def Writers.Changing (cfg : Config bits H) (w : Writers bits H) : WriteStep → Prop
  | .commit fh n => ∀ fi x, w.handles fh = some fi → w.writes.find (fh, n) = some x →
      w.store.db.fileHash fi.stIno n ≠ some (cfg.murmur x.data)
  | _ => True

open Writers in
/-- Two files get the same block, interleaved, and then one of them another: the other keeps its
row. -/
theorem run_writes_apart_shared :
    ∃ w, run (step (plainConfig 0)) twoHoles [.locate 0 [7] ⟨0, 0, 1, 0⟩,
        .locate 1 [7] ⟨0, 0, 1, 0⟩, .commit 0 0, .update 0 0, .commit 1 0, .update 1 0,
        .locate 0 [8] ⟨0, 0, 1, 0⟩, .commit 0 0] = .ok (w, [(), (), (), (), (), (), (), ()]) ∧
      w.store.db.fileHash 3 0 = some [7] ∧ ∃ k, w.store.db.rowHash k = some [7] := by
  have hpaid : ∀ {w : Writers 0 (List UInt8)} {fh n : ℕ} {x : Write 0 (List UInt8)},
      w.writes.rows = [x] → x.present = some true → w.Orderly (plainConfig 0) (.update fh n) := by
    intro w fh n x hrows hx x' _ _ i y hy hp
    have hmem := KeyedTable.mem_of_find hy
    rw [hrows, List.mem_singleton] at hmem
    rw [hmem, hx] at hp
    cases hp
  refine ⟨_, rfl, rfl, (run_writes_apart (plainConfig 0) (fun p => p.1 - 2) twoHoles _
    [.locate 0 [7] ⟨0, 0, 1, 0⟩, .locate 1 [7] ⟨0, 0, 1, 0⟩, .commit 0 0, .update 0 0,
      .commit 1 0, .update 1 0, .locate 0 [8] ⟨0, 0, 1, 0⟩, .commit 0 0]
    [(), (), (), (), (), (), (), ()] twoHoles_exact ?_ rfl).1 3 0 [7] rfl⟩
  refine .cons ⟨?_, ?_⟩ rfl (.cons ⟨?_, ?_⟩ rfl (.cons ⟨trivial, ?_⟩ rfl (.cons ⟨trivial, ?_⟩ rfl
    (.cons ⟨trivial, ?_⟩ rfl (.cons ⟨trivial, hpaid rfl rfl⟩ rfl (.cons ⟨?_, ?_⟩ rfl
      (.cons ⟨trivial, ?_⟩ rfl trivial)))))))
  · intro fi hfi
    cases hfi
    rfl
  · intro fi hfi item hitem
    cases hfi
    cases hitem
  · intro fi hfi
    cases hfi
    rfl
  · intro fi hfi item hitem
    cases hfi
    cases hitem
  · intro x b hx hb
    cases hx
    cases hb
  · intro x hx hp
    cases hx
    cases hp
  · intro x b hx hb
    cases hx
    cases hb
  · intro fi hfi
    cases hfi
    rfl
  · intro fi hfi item hitem hfilled
    cases hfi
    cases hitem
    cases hfilled
  · intro x b hx hb hone
    cases hx
    cases hb
    exact absurd hone (by decide)

open Writers in
/-- **A hit and an in-place overwrite collide** when the cached count of the block is not yet
raised: the row of the second file's hash is overwritten.  So it is, too, when that count was
raised before the first file's data were stored, although then nothing is owed any more. -/
theorem writes_collide :
    (¬∀ (owner : ℕ × ℕ → ℕ) (w w' : Writers 0 (List UInt8)) (steps : List WriteStep)
        (outs : List Unit), w.Exact owner →
      Meets (step (plainConfig 0))
        (fun w a => w.Assigned owner a ∧ w.Changing (plainConfig 0) a) w steps →
      run (step (plainConfig 0)) w steps = .ok (w', outs) →
      ∀ f o g, w'.store.db.fileHash f o = some g → ∃ k, w'.store.db.rowHash k = some g) ∧
    ∃ w, run (step (plainConfig 0)) twoHoles [.locate 0 [7] ⟨0, 0, 1, 0⟩, .commit 0 0,
        .locate 1 [7] ⟨0, 0, 1, 0⟩, .commit 1 0, .update 1 0, .update 0 0,
        .locate 0 [8] ⟨0, 0, 1, 0⟩, .commit 0 0] = .ok (w, [(), (), (), (), (), (), (), ()]) ∧
      w.store.db.fileHash 3 0 = some [7] ∧ w.store.db.selectBlockHash [7] = none := by
  refine ⟨fun hall => ?_, _, rfl, rfl, rfl⟩
  have hmeets : Meets (step (plainConfig 0))
      (fun w a => w.Assigned (fun p => p.1 - 2) a ∧ w.Changing (plainConfig 0) a) twoHoles
      [.locate 0 [7] ⟨0, 0, 1, 0⟩, .commit 0 0, .update 0 0, .locate 1 [7] ⟨0, 0, 1, 0⟩,
        .commit 1 0, .locate 0 [8] ⟨0, 0, 1, 0⟩, .commit 0 0] := by
    refine .cons ⟨?_, trivial⟩ rfl (.cons ⟨trivial, ?_⟩ rfl (.cons ⟨trivial, trivial⟩ rfl
      (.cons ⟨?_, trivial⟩ rfl (.cons ⟨trivial, ?_⟩ rfl (.cons ⟨?_, trivial⟩ rfl
        (.cons ⟨trivial, ?_⟩ rfl trivial))))))
    · exact fun fi hfi => by cases hfi; rfl
    · exact fun fi x hfi hx => by cases hfi; cases hx; nofun
    · exact fun fi hfi => by cases hfi; rfl
    · exact fun fi x hfi hx => by cases hfi; cases hx; nofun
    · exact fun fi hfi => by cases hfi; rfl
    · exact fun fi x hfi hx => by cases hfi; cases hx; decide
  obtain ⟨k, hk⟩ := hall _ _ _ _ [(), (), (), (), (), (), ()] twoHoles_exact hmeets rfl 3 0 [7] rfl
  exact Db.selectBlockHash_none (show _ = none from rfl) k hk

end Wwdedup
