import Mathlib.Data.Finset.Card
import Wwdedup.Counts
import Wwdedup.SlotAddressing

/-!
# What the store takes

No row of `block_hashes` is ever deleted, and the storage file never becomes shorter.  What keeps
them small is that a new row is only made for a hash that no row has, and that a new row takes the
next number: the rows have the numbers 1, …, n (`Numbered`) and different hashes, so that n is at
most the number of the digests that were ever computed, and the storage file has at most one slot
for each of them and one for the signature.
-/

namespace Wwdedup

open GuardedRun

variable {bits : ℕ} {H : Type} [DecidableEq H]

/-! ### The numbers of the rows -/

/-- The rows of `block_hashes` have the numbers 1, …, n. -/
def Db.Numbered (db : Db H) (n : ℕ) : Prop := ∀ k, (db.rowHash k).isSome ↔ 1 ≤ k ∧ k ≤ n

section numbers

variable {db : Db H} {n : ℕ}

omit [DecidableEq H] in
theorem Db.Numbered.nextId_eq (h : db.Numbered n) : db.blockHashes.nextId = n + 1 := by
  refine KeyedTable.nextId_eq _ fun k => ?_
  rw [← h k, Db.rowHash, Option.isSome_map]

omit [DecidableEq H] in
theorem Db.Numbered.length_eq (h : db.Numbered n) : db.blockHashes.rows.length = n := by
  rw [KeyedTable.length_rows _ (List.nodup_range' (s := 1) (n := n)), List.length_range']
  intro k
  rw [← Option.isSome_map (f := BlockHashRow.hash), List.mem_range'_1]
  refine (h k).trans ?_
  omega

/-- Rows with different hashes are at most as many as the hashes. -/
theorem Db.HashUnique.length_le (h : db.HashUnique) {D : Finset H}
    (hin : ∀ k g, db.rowHash k = some g → g ∈ D) : db.blockHashes.rows.length ≤ D.card := by
  have hrow : ∀ r ∈ db.blockHashes.rows, db.rowHash r.id = some r.hash := by
    intro r hr
    rw [Db.rowHash, KeyedTable.find_of_mem hr]
    rfl
  have hnodup : (db.blockHashes.rows.map BlockHashRow.hash).Nodup := by
    refine List.Nodup.map_on (fun r hr r' hr' heq => ?_) (List.Nodup.of_map _ db.blockHashes.nodup)
    have hid : r.id = r'.id := h _ _ _ (hrow r hr) (heq ▸ hrow r' hr')
    have hfind := KeyedTable.find_of_mem hr
    rw [hid, KeyedTable.find_of_mem hr'] at hfind
    exact (Option.some.inj hfind).symm
  rw [← List.length_map (f := BlockHashRow.hash), ← List.toFinset_card_of_nodup hnodup]
  refine Finset.card_le_card fun g hg => ?_
  obtain ⟨r, hr, rfl⟩ := List.mem_map.mp (List.mem_toFinset.mp hg)
  exact hin r.id r.hash (hrow r hr)

end numbers

/-- A write goes to a row that was there or to the next one. -/
theorem Wrote.num_cases {s : Store bits H} {ino : ℕ} {data : Block bits} {hash : H}
    {fb : BlockInfo H} {r : Store bits H × BlockInfo H} (h : Wrote s ino data hash fb r)
    (hb : Replaces.Backed s.db fb (s.lock fb.storageBlock)) :
    (s.db.rowHash r.2.storageBlockNum).isSome ∨
      r.2.storageBlockNum = s.db.blockHashes.nextId := by
  cases h with
  | hit row sel => exact .inl (Option.isSome_of_eq_some (Db.rowHash_of_select sel))
  | inPlace b locked one sel =>
    obtain ⟨hnum, hrow⟩ := hb b locked
    exact .inl (hnum ▸ hrow one)
  | fresh shared sel => exact .inr rfl

/-! ### What the parts of a run keep -/

/-- The rows are numbered, their hashes are among the given ones, and the storage file has slots
for them and the signature only. -/
structure Store.Compact (D : H → Prop) (s : Store bits H) (n : ℕ) : Prop where
  numbered : s.db.Numbered n
  hashes : ∀ k g, s.db.rowHash k = some g → D g
  size : s.storage.size ≤ (n + 1) * blockSize bits

/-- The digest of the block that the round writes is among the given ones. -/
def Round.HashesIn (cfg : Config bits H) (D : H → Prop) (p : Store bits H × FileInfo H) :
    Round → Prop
  | .write buf c => ∀ x, NewContent cfg p.1 p.2 buf c x → D (cfg.murmur x)
  | _ => True

section compact

variable {D : H → Prop} {cfg : Config bits H} {s s' : Store bits H} {fi fi' : FileInfo H} {n : ℕ}

omit [DecidableEq H] in
theorem Store.Compact.of_same (h : s.Compact D n) (hrow : ∀ k, s'.db.rowHash k = s.db.rowHash k)
    (hsize : s'.storage.size = s.storage.size) : s'.Compact D n where
  numbered k := by rw [hrow, h.numbered k]
  hashes k g hk := h.hashes k g (hrow k ▸ hk)
  size := hsize ▸ h.size

/-- A block write keeps the numbers without a gap. -/
theorem Store.Compact.wrote (h : s.Compact D n) {ino : ℕ} {data : Block bits} {hash : H}
    {fb : BlockInfo H} {r : Store bits H × BlockInfo H} (hw : Wrote s ino data hash fb r)
    (hb : Replaces.Backed s.db fb (s.lock fb.storageBlock)) (hhash : D hash) :
    ∃ m, r.1.Compact D m := by
  have hrow := hw.rowHash_eq hb
  have hhashes : ∀ k g, r.1.db.rowHash k = some g → D g := by
    intro k g hk
    rw [hrow] at hk
    split at hk
    · cases hk
      exact hhash
    · exact h.hashes k g hk
  have hsome : ∀ k, (r.1.db.rowHash k).isSome ↔
      k = r.2.storageBlockNum ∨ (1 ≤ k ∧ k ≤ n) := by
    intro k
    rw [hrow, ← h.numbered k]
    by_cases hk : k = r.2.storageBlockNum <;> simp [hk]
  have hsize := h.size
  rw [← hw.storage_eq] at hsize
  rcases hw.num_cases hb with hold | hnew
  · refine ⟨n, fun k => ?_, hhashes, hsize⟩
    have hnum := (h.numbered _).mp hold
    rw [hsome]
    omega
  · have hmore := Nat.mul_le_mul_right (blockSize bits) (Nat.le_succ (n + 1))
    refine ⟨n + 1, fun k => ?_, hhashes, hsize.trans hmore⟩
    rw [h.numbered.nextId_eq] at hnew
    rw [hsome]
    omega

/-- **A round keeps the store compact.** -/
theorem roundStep_compact (h : s.Compact D n) (hco : Coherent cfg s) (hfi : fi.Ok s.db) {r : Round}
    {out : List UInt8} (hin : r.HashesIn cfg D (s, fi))
    (hr : roundStep cfg (s, fi) r = .ok ((s', fi'), out)) : ∃ m, s'.Compact D m := by
  cases roundStep_stepped hr with
  | resize newSize => exact ⟨n, h.of_same (fun k => rowHash_ftruncate ..) rfl⟩
  | read c x touched shown =>
    have hloc := getLockedFileBlock_locates cfg s fi c.block
    refine ⟨n, h.of_same (fun k => ?_) ?_⟩
    · rw [touched.same.db, hloc.db_eq]
    · rw [touched.same.storage, hloc.storage_eq]
  | write buf c old touched shown ran wrote =>
    have hloc := getLockedFileBlock_locates cfg s fi c.block
    obtain ⟨hl, -, hfb⟩ := hco.locate hfi c.block
    have hdb := touched.same.db.trans hloc.db_eq
    refine Store.Compact.wrote (h.of_same (fun k => by rw [hdb]) ?_) wrote
      ((hl.touches touched).backed (hdb ▸ hfb)) (hin _ ⟨old, shown, rfl⟩)
    rw [touched.same.storage, hloc.storage_eq]
  | release m g hash =>
    refine ⟨n, h.of_same (fun k => ?_) ?_⟩
    · rw [released_db, rowHash_released]
    · rw [storage_released]

theorem pwriteAll_size_le (st : Storage bits) {ws : List (ℕ × Block bits)}
    (hws : ∀ w ∈ ws, w.1 ≤ n) (hst : st.size ≤ (n + 1) * blockSize bits) :
    (st.pwriteAll ws).size ≤ (n + 1) * blockSize bits := by
  induction ws generalizing st with
  | nil => exact hst
  | cons w ws ih =>
    refine ih (st.pwrite w.1 w.2) (fun v hv => hws v (List.mem_cons_of_mem _ hv)) ?_
    have hw := Nat.succ_le_succ (hws w (List.mem_cons_self ..))
    exact max_le hst (Nat.mul_le_mul_right (blockSize bits) hw)

omit [DecidableEq H] in
/-- Flushing writes slots of rows only. -/
theorem Store.Compact.flush (h : s.Compact D n) (hco : Coherent cfg s)
    (p : StorageBlock bits H → Bool) : (s.flush p).Compact D n where
  numbered := h.numbered
  hashes := h.hashes
  size := by
    rw [flush_storage]
    refine pwriteAll_size_le _ (fun w hw => ?_) h.size
    obtain ⟨-, row, hrow, hid⟩ := hco.flushed p hw
    refine ((h.numbered w.1).mp ?_).2
    rw [← hid, Db.rowHash, KeyedTable.find_of_mem hrow]
    rfl

end compact

theorem compact_keeps (cfg : Config bits H) (D : H → Prop) :
    Fs.Keeps cfg (fun p r => r.HashesIn cfg D p)
      (fun s => Coherent cfg s ∧ ∃ n, s.Compact D n) fun s fi => fi.Ok s.db where
  round s fi r s' fi' o hs hfi hin hr := by
    obtain ⟨hco, n, hn⟩ := hs
    obtain ⟨hco', hothers⟩ := (coherent_keeps cfg).round s fi r s' fi' o hco hfi trivial hr
    exact ⟨⟨hco', roundStep_compact hn hco hfi hin hr⟩, hothers⟩
  files s files hs := by
    obtain ⟨hco, n, hn⟩ := hs
    obtain ⟨hco', hothers⟩ := (coherent_keeps cfg).files s files hco
    exact ⟨⟨hco', n, hn.of_same (fun k => rfl) rfl⟩, hothers⟩
  fresh s path hs := .getByPath s.db path
  pass s victims hs := by
    obtain ⟨hco, n, hn⟩ := hs
    exact ⟨⟨hco.writerPass victims, n,
      ((hn.flush hco _).flush (hco.flush _) _).of_same (fun k => rfl) rfl⟩, fun _ h => h⟩
  remount s files hs := by
    obtain ⟨hco, n, hn⟩ := hs
    exact ⟨hco.remount files, n, (hn.flush hco _).of_same (fun k => rfl) rfl⟩
  clock s now hs := by
    obtain ⟨hco, n, hn⟩ := hs
    obtain ⟨hco', hothers⟩ := (coherent_keeps cfg).clock s now hco
    exact ⟨⟨hco', n, hn.of_same (fun k => rfl) rfl⟩, hothers⟩

/-- The rows are numbered in every reachable state. -/
theorem Fs.reachable_compact {cfg : Config bits H} {fs : Fs bits H}
    (h : Reachable (Fs.step cfg) (Fs.init bits H) fs) :
    ∃ n, fs.store.Compact (fun _ => True) n := by
  have hinit : (Fs.init bits H).Holds
      (fun s => Wwdedup.Coherent cfg s ∧ ∃ n, s.Compact (fun _ => True) n)
      fun s fi => fi.Ok s.db :=
    ⟨⟨(init_coherent cfg).1, 0, fun k => ⟨nofun, by omega⟩, nofun, (Nat.one_mul _).ge⟩,
      (init_coherent cfg).2⟩
  have hholds := reachable_invariant (fun fs op fs' out hfs hstep =>
    (compact_keeps cfg fun _ => True).step hfs (fun fi rs _ => meets_of_forall
      (fun p r => by cases r <;> first | exact fun _ _ => trivial | trivial) _ _) hstep) hinit h
  exact hholds.1.2

/-- **The store grows with the different blocks only.**  The rows of `block_hashes` have the numbers
from 1 on without a gap, and the storage file has no more slots than one for each and one for the
signature.  When `D` has the hashes that were there before the run and the digests of the blocks
that the run writes, there are at most as many rows as digests in `D`. -/
theorem space_bounded (cfg : Config bits H) (D : Finset H) (fs₀ fs : Fs bits H) (ops : List Op)
    (outs : List Out) (hreach : Reachable (Fs.step cfg) (Fs.init bits H) fs₀)
    (hold : ∀ row ∈ fs₀.store.db.blockHashes.rows, row.hash ∈ D)
    (hok : Meets (Fs.step cfg)
      (fun fs op => fs.RoundsMeet cfg (fun p r => r.HashesIn cfg (· ∈ D) p) op) fs₀ ops)
    (hrun : run (Fs.step cfg) fs₀ ops = .ok (fs, outs)) :
    (∀ k, (fs.store.db.rowHash k).isSome ↔
      1 ≤ k ∧ k ≤ fs.store.db.blockHashes.rows.length) ∧
    fs.store.storage.size ≤ (fs.store.db.blockHashes.rows.length + 1) * blockSize bits ∧
    fs.store.db.blockHashes.rows.length ≤ D.card := by
  obtain ⟨n, hn⟩ := Fs.reachable_compact hreach
  have hco := Fs.reachable_coherent hreach
  have hin : ∀ k g, fs₀.store.db.rowHash k = some g → g ∈ D := by
    intro k g hk
    obtain ⟨row, hrow, rfl⟩ := Option.map_eq_some_iff.mp hk
    exact hold row (KeyedTable.mem_of_find hrow)
  have hholds := run_invariant (fun fs op fs' out hfs hok hstep =>
    (compact_keeps cfg (· ∈ D)).step hfs hok hstep)
    ⟨⟨hco.1, n, hn.numbered, hin, hn.size⟩, hco.2⟩ hok hrun
  obtain ⟨⟨hco', m, hm⟩, -⟩ := hholds
  rw [hm.numbered.length_eq]
  refine ⟨hm.numbered, hm.size, ?_⟩
  rw [← hm.numbered.length_eq]
  exact hco'.unique.length_le hm.hashes

/-- Three bytes, two of them equal, take two rows. -/
theorem space_bounded_twoBytes :
    (Fs.after (plainConfig 0) [.create ['/', 'f'] sIfreg, .write 0 [7, 7, 8] 0,
      .writerPass []]).store.storage.size ≤ 3 := by
  have hbounded := space_bounded (plainConfig 0) {[7], [8]} (Fs.init 0 (List UInt8)) _
    [.create ['/', 'f'] sIfreg, .write 0 [7, 7, 8] 0, .writerPass []] _ (.refl _) nofun ?_ rfl
  · exact hbounded.2.1.trans (Nat.mul_le_mul_right (blockSize 0) (Nat.succ_le_succ hbounded.2.2))
  · refine .cons (fun fi rs hr => by cases hr) rfl (.cons (fun fi rs hr => ?_) rfl
      (.cons (fun fi rs hr => by cases hr) rfl trivial))
    cases hr
    refine .cons trivial rfl (.cons ?_ rfl (.cons ?_ rfl (.cons ?_ rfl trivial)))
    · rintro x ⟨old, -, rfl⟩
      exact Finset.mem_insert_self ..
    · rintro x ⟨old, -, rfl⟩
      exact Finset.mem_insert_self ..
    · rintro x ⟨old, -, rfl⟩
      exact Finset.mem_insert_of_mem (Finset.mem_singleton_self _)

/-! ### Copies -/

/-- The rows are those of the other store, and its contents are still there. -/
structure Store.Copies (s₀ s : Store bits H) : Prop where
  rows : ∀ k, s.db.rowHash k = s₀.db.rowHash k
  contents : ∀ k x, s₀.content k = some x → s.content k = some x

section copies

variable {cfg : Config bits H} {s₀ s s' : Store bits H} {fi fi' : FileInfo H}

omit [DecidableEq H] in
theorem Store.Copies.of_same (h : s₀.Copies s) (hrow : ∀ k, s'.db.rowHash k = s.db.rowHash k)
    (hcontent : ∀ k x, s.content k = some x → s'.content k = some x) : s₀.Copies s' where
  rows k := (hrow k).trans (h.rows k)
  contents k x hx := hcontent k x (h.contents k x hx)

/-- A block whose digest is that of a row is found. -/
theorem roundStep_copies (h : s₀.Copies s) (hco : Coherent cfg s) (hfi : fi.Ok s.db) {r : Round}
    {out : List UInt8} (hin : r.HashesIn cfg (fun g => ∃ k, s₀.db.rowHash k = some g) (s, fi))
    (hr : roundStep cfg (s, fi) r = .ok ((s', fi'), out)) : s₀.Copies s' := by
  cases roundStep_stepped hr with
  | resize newSize => exact h.of_same (fun k => rowHash_ftruncate ..) fun k x hx => hx
  | read c x touched shown =>
    have hloc := getLockedFileBlock_locates cfg s fi c.block
    refine h.of_same (fun k => ?_) fun k y hy => ?_
    · rw [touched.same.db, hloc.db_eq]
    · rw [touched.same.content, hloc.content_eq, hy]
  | write buf c old touched shown ran wrote =>
    have hloc := getLockedFileBlock_locates cfg s fi c.block
    obtain ⟨hl, -, hfb⟩ := hco.locate hfi c.block
    have hdb := touched.same.db.trans hloc.db_eq
    have hco₁ := hl.touches touched
    obtain ⟨k₀, hk₀⟩ := hin _ ⟨old, shown, rfl⟩
    rw [← h.rows, ← hdb] at hk₀
    refine h.of_same (fun k => ?_) fun k y hy => ?_
    · rw [wrote.rowHash_eq (hco₁.backed (hdb ▸ hfb)), ← hdb]
      split
      · rename_i hk
        rw [hk, ← wrote.num_of_rowHash hco₁.unique hk₀, hk₀]
      · rfl
    · rw [wrote.content_eq, if_neg, touched.same.content, hloc.content_eq, hy]
      rintro ⟨hnone, -⟩
      exact Db.selectBlockHash_none (Option.isNone_iff_eq_none.mp hnone) k₀ hk₀
  | release m g hash =>
    refine h.of_same (fun k => ?_) fun k x hx => ?_
    · rw [released_db, rowHash_released]
    · rw [content_released, hx]

theorem copies_keeps (cfg : Config bits H) (s₀ : Store bits H) :
    Fs.Keeps cfg (fun p r => r.HashesIn cfg (fun g => ∃ k, s₀.db.rowHash k = some g) p)
      (fun s => Coherent cfg s ∧ s₀.Copies s) fun s fi => fi.Ok s.db where
  round s fi r s' fi' o hs hfi hin hr := by
    obtain ⟨hco', hothers⟩ := (coherent_keeps cfg).round s fi r s' fi' o hs.1 hfi trivial hr
    exact ⟨⟨hco', roundStep_copies hs.2 hs.1 hfi hin hr⟩, hothers⟩
  files s files hs := by
    obtain ⟨hco', hothers⟩ := (coherent_keeps cfg).files s files hs.1
    exact ⟨⟨hco', hs.2.of_same (fun k => rfl) fun k x hx => hx⟩, hothers⟩
  fresh s path hs := .getByPath s.db path
  pass s victims hs :=
    ⟨⟨hs.1.writerPass victims, hs.2.of_same (fun k => rfl) fun k x hx =>
      hs.1.stored.content_writerPass victims hx⟩, fun _ h => h⟩
  remount s files hs :=
    ⟨hs.1.remount files, hs.2.of_same (fun k => rfl) fun k x hx => hs.1.content_remount files hx⟩
  clock s now hs := by
    obtain ⟨hco', hothers⟩ := (coherent_keeps cfg).clock s now hs.1
    exact ⟨⟨hco', hs.2.of_same (fun k => rfl) fun k x hx => hx⟩, hothers⟩

end copies

/-- **A copy takes no space.**  A run that writes only blocks whose digests are those of rows adds
no row, changes none, and keeps every content; and the storage file gets no slot beyond those of the
rows. -/
theorem copies_take_no_space (cfg : Config bits H) (fs₀ fs : Fs bits H) (ops : List Op)
    (outs : List Out) (hreach : Reachable (Fs.step cfg) (Fs.init bits H) fs₀)
    (hok : Meets (Fs.step cfg) (fun fs op => fs.RoundsMeet cfg
      (fun p r => r.HashesIn cfg (fun g => ∃ k, fs₀.store.db.rowHash k = some g) p) op) fs₀ ops)
    (hrun : run (Fs.step cfg) fs₀ ops = .ok (fs, outs)) :
    (∀ k, fs.store.db.rowHash k = fs₀.store.db.rowHash k) ∧
    (∀ k x, fs₀.store.content k = some x → fs.store.content k = some x) ∧
    fs.store.storage.size ≤ (fs₀.store.db.blockHashes.rows.length + 1) * blockSize bits := by
  have hco := Fs.reachable_coherent hreach
  obtain ⟨⟨-, hcopies⟩, -⟩ := run_invariant (fun fs op fs' out hfs hok hstep =>
    (copies_keeps cfg fs₀.store).step hfs hok hstep)
    ⟨⟨hco.1, fun k => rfl, fun k x hx => hx⟩, hco.2⟩ hok hrun
  obtain ⟨is, os, hbefore⟩ := hreach
  have hreach' : Reachable (Fs.step cfg) (Fs.init bits H) fs :=
    ⟨is ++ ops, os ++ outs, run_append_ok.mpr ⟨fs₀, os, outs, hbefore, hrun, rfl⟩⟩
  obtain ⟨m, hm⟩ := Fs.reachable_compact hreach'
  have hnumbered : fs₀.store.db.Numbered m := fun k => by rw [← hcopies.rows, hm.numbered k]
  refine ⟨hcopies.rows, hcopies.contents, ?_⟩
  rw [hnumbered.length_eq]
  exact hm.size

/-- The two bytes of a file, copied in the other order. -/
theorem copies_take_no_space_swapped :
    ∃ fs outs, run (Fs.step (plainConfig 0)) (Fs.after (plainConfig 0)
        [.create ['/', 'f'] sIfreg, .write 0 [7, 8] 0])
        [.create ['/', 'g'] sIfreg, .write 1 [8, 7] 0, .writerPass []] = .ok (fs, outs) ∧
      fs.store.db.rowHash 3 = none ∧ fs.store.storage.size ≤ 3 := by
  have hcopies := copies_take_no_space (plainConfig 0) (Fs.after (plainConfig 0)
      [.create ['/', 'f'] sIfreg, .write 0 [7, 8] 0]) _
    [.create ['/', 'g'] sIfreg, .write 1 [8, 7] 0, .writerPass []] _ (Fs.after_reachable _ _) ?_ rfl
  · exact ⟨_, _, rfl, (hcopies.1 3).trans rfl, hcopies.2.2⟩
  · refine .cons (fun fi rs hr => by cases hr) rfl (.cons (fun fi rs hr => ?_) rfl
      (.cons (fun fi rs hr => by cases hr) rfl trivial))
    cases hr
    refine .cons trivial rfl (.cons ?_ rfl (.cons ?_ rfl trivial))
    · rintro x ⟨old, -, rfl⟩
      exact ⟨2, rfl⟩
    · rintro x ⟨old, -, rfl⟩
      exact ⟨1, rfl⟩

end Wwdedup
