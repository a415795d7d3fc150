import Wwdedup.Coherence

/-!
# What survives a stop

The process can stop between two durable steps: between the rounds of a request, after the
commit of a block write and before the cache is updated, and anywhere in the loops of `pwrite`
of a pass.  `Cut` lists these points with the store at each of them; then the cache is gone
(`Store.crash`).  The data of a block are written after the commit, by another thread, so a row
can be without its content when the process stops; `cut_durable` says that only blocks that
await write-back can be.
-/

namespace Wwdedup

open GuardedRun

variable {bits : ℕ} {H : Type} [DecidableEq H]

/-- The database and the storage file, without the cache. -/
def Store.crash (s : Store bits H) : Store bits H := { s with blocks := .empty }

/-- The points at which the process can stop in a step: the store there, and the number of the
block whose commit is not followed by the update of the cache yet.  In the loops of a pass the
blocks that are flushed already are any set. -/
inductive Cut (cfg : Config bits H) (fs : Fs bits H) (op : Op) :
    Store bits H → (ℕ → Prop) → Prop
  | start : Cut cfg fs op fs.store fun _ => False
  | between {fi fi' : FileInfo H} {rs later : List Round} {s : Store bits H}
      {os : List (List UInt8)} (rounds : fs.rounds op = some (fi, rs ++ later))
      (ran : run (roundStep cfg) (fs.store, fi) rs = .ok ((s, fi'), os)) :
      Cut cfg fs op s fun _ => False
  | committed {fi fi' : FileInfo H} {rs later : List Round} {s s₁ : Store bits H}
      {os : List (List UInt8)} {buf : List UInt8} {c : Chunk} {old : Block bits}
      (rounds : fs.rounds op = some (fi, rs ++ .write buf c :: later))
      (ran : run (roundStep cfg) (fs.store, fi) rs = .ok ((s, fi'), os))
      (copied : oldData (getLockedFileBlock cfg s fi' c.block).store
        (getLockedFileBlock cfg s fi' c.block).fblock c.len = .ok (s₁, old))
      {r : Committed bits H}
      (commit : r = commitBlock s₁ fi'.stIno (cfg.murmur (c.data buf old))
        (getLockedFileBlock cfg s fi' c.block).fblock) :
      Cut cfg fs op r.store fun k => r.present = false ∧ k = r.fblock.storageBlockNum
  | flushing (p : StorageBlock bits H → Bool) (writer : (∃ v, op = .writerPass v) ∨ op = .remount) :
      Cut cfg fs op (fs.store.flush p) fun _ => False
  | flushingVictims (p : StorageBlock bits H → Bool) (writer : ∃ v, op = .writerPass v) :
      Cut cfg fs op ((fs.store.flush fun _ => true).flush p) fun _ => False
  | finish {fs' : Fs bits H} {out : Out} (done : fs.step cfg op = .ok (fs', out)) :
      Cut cfg fs op fs'.store fun _ => False

variable {cfg : Config bits H} {fs : Fs bits H} {op : Op} {s : Store bits H} {pending : ℕ → Prop}

/-- At every cut point the store is coherent but for the pending row. -/
theorem Cut.coherentBut (hcut : Cut cfg fs op s pending) (h : fs.Coherent cfg) :
    CoherentBut cfg pending s := by
  have hrun : ∀ {fi fi' : FileInfo H} {rs : List Round} {s : Store bits H}
      {os : List (List UInt8)}, fi.Ok fs.store.db →
      run (roundStep cfg) (fs.store, fi) rs = .ok ((s, fi'), os) →
      Coherent cfg s ∧ fi'.Ok s.db := fun hfi ran => by
    obtain ⟨hs, hfi', -⟩ := (coherent_keeps cfg).toKeepsCached.run_rounds h.1 hfi
      (meets_of_forall (fun _ _ => trivial) _ _) ran
    exact ⟨hs, hfi'⟩
  cases hcut with
  | start => exact h.1
  | between rounds ran => exact (hrun (h.acts_ok rounds) ran).1
  | @committed fi fi' rs later s s₁ os buf c old rounds ran copied r commit =>
    subst commit
    obtain ⟨hs, hfi'⟩ := hrun (h.acts_ok rounds) ran
    obtain ⟨hl, -, hok⟩ := hs.locate hfi' c.block
    obtain ⟨ht, -⟩ := oldData_ok copied
    have hdb : s₁.db = s.db :=
      ht.same.db.trans (getLockedFileBlock_locates cfg s fi' c.block).db_eq
    exact (commitBlock_commits ..).coherentBut (hl.touches ht) (hdb ▸ hok)
  | flushing p writer => exact h.1.flush p
  | flushingVictims p writer => exact (h.1.flush _).flush p
  | finish done => exact (Fs.step_coherent h done).1

omit [DecidableEq H] in
/-- A row that awaits no write-back has its content in the storage file. -/
theorem CoherentBut.durable (h : CoherentBut cfg pending s) {n : ℕ} {g : H}
    (hrow : s.db.rowHash n = some g) (hdirty : ¬s.dirty n) (hpend : ¬pending n) :
    ∃ x, s.crash.content n = some x ∧ cfg.murmur x = g := by
  obtain ⟨x, hx, hmx⟩ := h.row n g hpend hrow
  refine ⟨x, ?_, hmx⟩
  show s.storage.read n = some x
  rw [Store.content, Option.or_eq_some_iff] at hx
  rcases hx with hx | ⟨-, hread⟩
  · obtain ⟨b, hb, hdata⟩ := Option.bind_eq_some_iff.mp hx
    obtain rfl : b.storageBlockNum = n := KeyedTable.key_of_find hb
    refine (h.sound _ b hb).clean (Bool.eq_false_iff.mpr fun hd => hdirty ⟨b, hb, hd⟩) x hdata
  · exact hread

omit [DecidableEq H] in
theorem not_dirty_writerPass (s : Store bits H) (victims : List ℕ) (n : ℕ) :
    ¬(s.writerPass victims).dirty n := by
  rintro ⟨b, hb, hd⟩
  rw [Store.writerPass_eq, Store.find_evict] at hb
  split at hb
  · cases hb
  · obtain ⟨b₀, hb₀, -, -, -, ⟨rfl, -⟩ | ⟨hd', -⟩⟩ := Store.of_find_flush hb
    · rw [Store.find_flush_all hb₀] at hd
      cases hd
    · rw [hd'] at hd
      cases hd

/-- **A stop loses only blocks that await write-back.**  At every point between two durable
steps of every run, a `file_blocks` row whose hash is in `block_hashes` reads after the stop as
a full block with that hash, unless the block is dirty in the cache or its commit is not yet
followed by the update of the cache; after a complete pass there is no such exception. -/
theorem cut_durable (h : Reachable (Fs.step cfg) (Fs.init bits H) fs) :
    (∀ op s pending, Cut cfg fs op s pending → ∀ f o row,
      s.db.fileHash f o = some row.hash → s.db.selectBlockHash row.hash = some row →
        s.dirty row.id ∨ pending row.id ∨
          ∃ x, s.crash.content row.id = some x ∧ cfg.murmur x = row.hash) ∧
    ∀ victims f o row, fs.store.db.fileHash f o = some row.hash →
      fs.store.db.selectBlockHash row.hash = some row →
        ∃ x, (fs.store.writerPass victims).crash.content row.id = some x ∧
          cfg.murmur x = row.hash := by
  have hco := Fs.reachable_coherent h
  refine ⟨fun op s pending hcut f o row _ hsel => ?_, fun victims f o row _ hsel => ?_⟩
  · by_cases hd : s.dirty row.id
    · exact .inl hd
    · by_cases hp : pending row.id
      · exact .inr (.inl hp)
      · exact .inr (.inr ((hcut.coherentBut hco).durable (Db.rowHash_of_select hsel) hd hp))
  · exact (hco.1.writerPass victims).durable (Db.rowHash_of_select hsel)
      (not_dirty_writerPass fs.store victims row.id) fun hf => hf

/-- One file with one block, which no pass has flushed yet. -/
def unflushed : Fs 0 (List UInt8) :=
  Fs.after (plainConfig 0) [.create ['/', 'f'] sIfreg, .write 0 [7] 0]

/-- A pass saves the block. -/
theorem cut_durable_unflushed :
    ∃ x, (unflushed.store.writerPass []).crash.content 1 = some x ∧ List.ofFn x = [7] :=
  (cut_durable (Fs.after_reachable (plainConfig 0) _)).2 [] 2 0 ⟨1, [7], 1⟩ rfl rfl

/-- **Without the pass the block is lost**: after the stop no row with its hash has a
content. -/
theorem unflushed_block_lost :
    ¬∀ f o g, unflushed.store.db.fileHash f o = some g →
      ∃ n x, unflushed.store.db.rowHash n = some g ∧
        unflushed.store.crash.content n = some x ∧ (plainConfig 0).murmur x = g := by
  intro hall
  obtain ⟨n, x, hrow, hx, -⟩ := hall 2 0 [7] rfl
  obtain ⟨row, hfind, -⟩ := Option.map_eq_some_iff.mp hrow
  obtain ⟨hmem, hid⟩ := KeyedTable.find_eq_some.mp hfind
  have hrows : unflushed.store.db.blockHashes.rows = [⟨1, [7], 1⟩] := rfl
  rw [hrows, List.mem_singleton] at hmem
  have hn : n = 1 := by rw [← hid, hmem]
  have hnone : unflushed.store.crash.content 1 = none := rfl
  rw [hn, hnone] at hx
  cases hx

end Wwdedup
