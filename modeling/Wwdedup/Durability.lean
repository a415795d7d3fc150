import Wwdedup.SlotAddressing
import Wwdedup.WriterLoop

/-!
# When data reach the storage file

Two promises rest on the loop of the writer thread: after `stop` the latest data of every
block are in their slot, and when `Fsync` returns, the data of every write that returned before
the call, or newer ones, have been written to their slot by a `pwrite`.  `stop` only sets
`terminated`, which the loop tests before a pass, and `sync` only wakes the thread and returns; so
each promise holds when no block is left dirty behind the loop's back, and breaks otherwise.
-/

namespace Wwdedup

open GuardedRun

variable {bits : ℕ} {H : Type} [DecidableEq H]

/-- The writer thread will come to the block `n` in the pass that it is in or about to start. -/
def WriterPc.reaches (n : ℕ) : WriterPc → Prop
  | .wait => True
  | .flush next => next ≤ n
  | _ => False

namespace Loop

variable {cfg : Config bits H}

/-! ### Clean shutdown -/

/-- Every dirty block is still ahead of the writer thread. -/
def Covers (l : Loop bits H) : Prop := ∀ n, l.fs.store.dirty n → l.pc.reaches n

omit [DecidableEq H] in
/-- After `terminated` is set, the thread goes through its pass to the end. -/
theorem writer_covers {l : Loop bits H} (h : l.Covers) (hterm : l.terminated = true) :
    l.writer.Covers ∧ l.writer.terminated = true := by
  unfold Covers at h
  unfold writer
  split
  · rename_i hpc
    rw [if_pos hterm]
    rw [hpc] at h
    exact ⟨h, hterm⟩
  · exact ⟨fun n _ => Nat.zero_le n, hterm⟩
  · rename_i next hpc
    rw [hpc] at h
    split
    · rename_i b hb
      refine ⟨fun n hn => ?_, hterm⟩
      obtain ⟨hdirty, hne⟩ := Store.dirty_flushBlock hn
      have hle : next ≤ n := h n hdirty
      obtain ⟨b', hb', -⟩ := hdirty
      have hleast := (Store.nextBlock_eq_some hb).2.2 n b' hb' hle
      show b.storageBlockNum + 1 ≤ n
      omega
    · rename_i hnone
      refine ⟨fun n hn => ?_, hterm⟩
      have hle : next ≤ n := h n hn
      obtain ⟨b', hb', -⟩ := hn
      have hlt := Store.nextBlock_eq_none hnone hb'
      omega
  · rename_i next toDelete hpc
    rw [hpc] at h
    split
    · exact ⟨h, hterm⟩
    · split
      · split
        · exact ⟨fun n hn => h n (Store.dirty_flushBlock hn).1, hterm⟩
        · exact ⟨h, hterm⟩
      · exact ⟨h, hterm⟩
  · rename_i hpc
    rw [hpc] at h
    exact ⟨h, hterm⟩
  · rename_i n toDelete hpc
    rw [hpc] at h
    exact ⟨fun k hk => h k (Store.dirty_eraseBlock hk), hterm⟩
  · rename_i hpc
    rw [hpc] at h
    exact ⟨h, hterm⟩
  · exact ⟨h, hterm⟩

omit [DecidableEq H] in
/-- Once no dirty block is behind the thread, no victim is dirty. -/
theorem Covers.erasesClean {l : Loop bits H} (h : l.Covers) : l.ErasesClean .writer := by
  intro n toDelete hpc hdirty
  have hreach := h n hdirty
  rw [hpc] at hreach
  exact hreach

/-- The invariant of the thread's last steps. -/
theorem run_writer_covers {l l' : Loop bits H} {k : ℕ} {os : List (Option Out)}
    (htracks : Tracks l.fs.store l.journal) (hcovers : l.Covers) (hterm : l.terminated = true)
    (hrun : run (step cfg) l (List.replicate k .writer) = .ok (l', os)) :
    Tracks l'.fs.store l'.journal ∧ l'.Covers := by
  induction k generalizing l os with
  | zero =>
    cases hrun
    exact ⟨htracks, hcovers⟩
  | succ k ih =>
    obtain ⟨l₁, o, os', hstep, hrest, rfl⟩ := run_cons_ok.mp hrun
    have htracks₁ := step_tracks htracks hcovers.erasesClean hstep
    cases hstep
    obtain ⟨hcovers₁, hterm₁⟩ := writer_covers hcovers hterm
    exact ih htracks₁ hcovers₁ hterm₁ hrest

/-- **A shutdown that loses nothing.**  When no victim was dirty as it was erased, and every
block that is dirty as `stop` sets `terminated` is still ahead of the writer thread, then the
latest data of every block are in their slot when the thread has ended. -/
theorem stop_flushes_all {is : List Input} {l l' : Loop bits H} {k : ℕ}
    {os os' : List (Option Out)} (hok : Meets (step cfg) ErasesClean (init bits H) is)
    (hrun : run (step cfg) (init bits H) is = .ok (l, os)) (hcovers : l.Covers)
    (hstop : run (step cfg) l.stop (List.replicate k .writer) = .ok (l', os'))
    (hend : l'.pc = .stopped) :
    ∀ n data, latest l'.journal n = some data → l'.fs.store.storage.read n = some data := by
  have htracks : Tracks l.fs.store l.journal :=
    run_invariant (I := fun l => Tracks l.fs.store l.journal)
      (fun _ _ _ _ h hi hs => step_tracks h hi hs) tracks_init hok hrun
  obtain ⟨htracks', hcovers'⟩ := run_writer_covers (l := l.stop) htracks hcovers rfl hstop
  intro n data hlatest
  obtain ⟨⟨x, flag⟩, hrec, hx⟩ := Option.map_eq_some_iff.mp hlatest
  cases hx
  cases flag with
  | true => exact (htracks'.stored n _ hrec).1
  | false =>
    have hreach := hcovers' n ((htracks'.dirty_iff n).mpr ⟨_, hrec⟩)
    rw [hend] at hreach
    exact hreach.elim

/-- A file is written while the writer thread waits, and then `stop` is called. -/
theorem stop_flushes_all_waiting :
    ∃ (l l' : Loop 0 (List UInt8)) (os os' : List (Option Out)),
      run (step (plainConfig 0)) (init 0 (List UInt8))
        [.writer, .op (.create ['/', 'f'] sIfreg), .op (.write 0 [7] 0)] = .ok (l, os) ∧
      run (step (plainConfig 0)) l.stop (List.replicate 5 .writer) = .ok (l', os') ∧
      l'.pc = .stopped ∧
      ∀ n data, latest l'.journal n = some data → l'.fs.store.storage.read n = some data := by
  refine ⟨_, _, _, _, rfl, rfl, rfl, @stop_flushes_all _ _ _ (plainConfig 0)
    [.writer, .op (.create ['/', 'f'] sIfreg), .op (.write 0 [7] 0)] _ _ 5 _ _ ?_ rfl ?_ rfl rfl⟩
  · refine .cons ?_ rfl (.cons trivial rfl (.cons trivial rfl trivial))
    exact fun _ _ h => nomatch (show WriterPc.test = _ from h)
  · exact fun _ _ => trivial

/-- The thread sleeps after its pass as a file is written, and `stop` is called before it wakes:
it finds `terminated` set, and the byte never gets to the storage file. -/
theorem stop_drops_dirty_block :
    ∃ (l l' : Loop 0 (List UInt8)) (os os' : List (Option Out)),
      run (step (plainConfig 0)) (init 0 (List UInt8))
        [.writer, .writer, .writer, .op (.create ['/', 'f'] sIfreg), .op (.write 0 [7] 0)] =
          .ok (l, os) ∧
      run (step (plainConfig 0)) l.stop [.writer, .writer] = .ok (l', os') ∧
      l'.pc = .stopped ∧ (∃ data, latest l'.journal 1 = some data) ∧
      l'.fs.store.storage.read 1 = none :=
  ⟨_, _, _, _, rfl, rfl, rfl, ⟨_, rfl⟩, rfl⟩

/-! ### Durability of `Fsync` -/

/-- Every set of the journal `j` was followed, in `j` itself or in what came `later`, by a `pwrite`
of the data that were set or of newer ones, and the slot has what that `pwrite` took. -/
def Durable (j later : List (Entry bits)) (st : Storage bits) : Prop :=
  ∀ before after n data, j = before ++ .set n data :: after →
    ∃ mid data' rest, after ++ later = mid ++ .pwrite n data' :: rest ∧
      (data' = data ∨ .set n data' ∈ mid) ∧ st.read n = some data'

/-- Every `pwrite` of the journal took the latest data of its block, and a slot has what the last
one took. -/
structure Written (st : Storage bits) (j : List (Entry bits)) : Prop where
  newest : ∀ before n x after, j = before ++ .pwrite n x :: after → latest before n = some x
  slot : ∀ before n x after, j = before ++ .pwrite n x :: after →
    (∀ y, .pwrite n y ∉ after) → st.read n = some x

/-- An entry that was not appended was there before. -/
theorem split_append {e : Entry bits} {j es before after : List (Entry bits)} (hnot : e ∉ es)
    (h : j ++ es = before ++ e :: after) :
    ∃ rest, j = before ++ e :: rest ∧ after = rest ++ es := by
  rcases List.append_eq_append_iff.mp h with ⟨mid, -, hes⟩ | ⟨mid, hj, hrest⟩
  · rw [hes] at hnot
    exact absurd (List.mem_append_right _ (List.mem_cons_self ..)) hnot
  · rcases List.cons_eq_append_iff.mp hrest with ⟨-, hes⟩ | ⟨rest, hmid, hafter⟩
    · rw [hes] at hnot
      exact absurd (List.mem_cons_self ..) hnot
    · exact ⟨rest, hmid ▸ hj, hafter⟩

/-- It is the last one, or was there before. -/
theorem split_concat {e last : Entry bits} {j before after : List (Entry bits)}
    (h : j ++ [last] = before ++ e :: after) : before = j ∧ e = last ∨
      ∃ rest, j = before ++ e :: rest ∧ after = rest ++ [last] := by
  rcases List.append_eq_append_iff.mp h with ⟨mid, hbefore, hlast⟩ | ⟨mid, hj, hrest⟩
  · rcases List.cons_eq_append_iff.mp hlast with ⟨rfl, heq⟩ | ⟨rest, -, hnil⟩
    · rw [List.append_nil] at hbefore
      exact .inl ⟨hbefore, (List.cons.inj heq).1⟩
    · simp at hnil
  · rcases List.cons_eq_append_iff.mp hrest with ⟨rfl, heq⟩ | ⟨rest, hmid, hafter⟩
    · rw [List.append_nil] at hj
      exact .inl ⟨hj.symm, (List.cons.inj heq).1.symm⟩
    · exact .inr ⟨rest, hmid ▸ hj, hafter⟩

section written

variable {s : Store bits H} {j : List (Entry bits)}

/-- Requests put data into blocks and leave the storage file. -/
theorem Written.sets {st : Storage bits} (h : Written st j) {es : List (Entry bits)}
    (hes : ∀ n x, .pwrite n x ∉ es) : Written st (j ++ es) where
  newest before n x after heq := by
    obtain ⟨rest, hj, -⟩ := split_append (hes n x) heq
    exact h.newest before n x rest hj
  slot before n x after heq hlast := by
    obtain ⟨rest, hj, rfl⟩ := split_append (hes n x) heq
    exact h.slot before n x rest hj fun y hy => hlast y (List.mem_append_left _ hy)

omit [DecidableEq H] in
/-- The writer flushes a block. -/
theorem Written.flushBlock (h : Written s.storage j) (htracks : Tracks s j)
    {b : StorageBlock bits H} (hb : s.blocks.find b.storageBlockNum = some b) :
    Written (s.flushBlock b.storageBlockNum).storage (j ++ b.pwrites) := by
  cases hdirty : b.dirty with
  | false =>
    have hnone : b.pwrites = [] := by rw [StorageBlock.pwrites, hdirty, if_neg Bool.false_ne_true]
    rw [hnone, List.append_nil]
    refine ⟨h.newest, fun before n x after heq hlast => ?_⟩
    refine Store.flushBlock_read (h.slot before n x after heq hlast) fun hn b' hb' => ?_
    rw [hn, hb] at hb'
    cases hb'
    exact hdirty
  | true =>
    -- what is written is what the block got last
    obtain ⟨d, hrec⟩ := (htracks.dirty_iff _).mp ⟨b, hb, hdirty⟩
    obtain ⟨b', hb', -, hdata⟩ := htracks.waiting _ d hrec
    rw [hb] at hb'
    cases hb'
    have hone : b.pwrites = [.pwrite b.storageBlockNum d] := by
      rw [StorageBlock.pwrites, hdirty, hdata]
      rfl
    rw [hone]
    refine ⟨fun before n x after heq => ?_, fun before n x after heq hlast => ?_⟩
    · rcases split_concat heq with ⟨rfl, he⟩ | ⟨rest, hj, -⟩
      · cases he
        rw [latest, hrec]
        rfl
      · exact h.newest before n x rest hj
    · rcases split_concat heq with ⟨-, he⟩ | ⟨rest, hj, rfl⟩
      · cases he
        exact Store.flush_read_written hb (by simp) hdirty hdata
      · have hne : n ≠ b.storageBlockNum := by
          rintro rfl
          exact hlast d (by simp)
        refine Store.flushBlock_read (h.slot before n x rest hj fun y hy => ?_) fun hn =>
          absurd hn hne
        exact hlast y (List.mem_append_left _ hy)

theorem placedIn_sets (cfg : Config bits H) (p : Store bits H × FileInfo H) (rs : List Round)
    (n : ℕ) (x : Block bits) : .pwrite n x ∉ placedIn cfg p rs := by
  induction rs generalizing p with
  | nil => exact List.not_mem_nil
  | cons r rs ih =>
    unfold placedIn
    split
    · exact List.not_mem_nil
    · rw [List.mem_append, Option.mem_toList]
      rintro (hr | hrest)
      · unfold placed at hr
        split at hr
        · dsimp only at hr
          split at hr
          · cases hr
          · split at hr <;> cases hr
        · cases hr
      · exact ih _ hrest

theorem placedBy_sets (cfg : Config bits H) (fs : Fs bits H) (op : Op) (n : ℕ) (x : Block bits) :
    .pwrite n x ∉ fs.placedBy cfg op := by
  unfold Fs.placedBy
  split
  · exact List.not_mem_nil
  · exact placedIn_sets cfg _ _ n x

omit [DecidableEq H] in
theorem writer_written {l : Loop bits H} (h : Written l.fs.store.storage l.journal)
    (htracks : Tracks l.fs.store l.journal) :
    Written l.writer.fs.store.storage l.writer.journal := by
  unfold writer
  split
  · split
    · exact h
    · split
      · exact h
      · split <;> exact h
  · exact h
  · split
    · rename_i b hb
      exact h.flushBlock htracks (Store.nextBlock_eq_some hb).1
    · exact h
  · split
    · exact h
    · split
      · rename_i b hb
        split
        · exact h.flushBlock htracks (Store.nextBlock_eq_some hb).1
        · exact h
      · exact h
  · exact h
  · exact h
  · exact h
  · exact h

/-- **What the journal says of the storage file** stays true. -/
theorem step_written {l l' : Loop bits H} {i : Input} {o : Option Out}
    (h : Written l.fs.store.storage l.journal) (htracks : Tracks l.fs.store l.journal)
    (hstep : l.step cfg i = .ok (l', o)) : Written l'.fs.store.storage l'.journal := by
  cases i with
  | op o' =>
    obtain ⟨r, hr, heq⟩ := ok_of_map hstep
    cases heq
    obtain ⟨hop, fs, hfs, hfs', hj, -, -⟩ := request_ok hr
    have hstorage : fs.store.storage = l.fs.store.storage := by
      rw [step_storage hfs]
      cases o' with
      | writerPass victims => cases hop
      | remount => cases hop
      | _ => rfl
    rw [hfs', hj, hstorage]
    exact h.sets (placedBy_sets cfg l.fs o')
  | writer =>
    cases hstep
    exact writer_written h htracks
  | sync =>
    simp only [step] at hstep
    split at hstep
    · cases hstep
      exact h
    · cases hstep

theorem written_init : Written (init bits H).fs.store.storage (init bits H).journal where
  newest before n x after heq := by simp [init] at heq
  slot before n x after heq := by simp [init] at heq

end written

/-- What a block got last is what it got in this place or later. -/
theorem latest_of_set {before mid : List (Entry bits)} {n : ℕ} {data x : Block bits}
    (h : latest (before ++ .set n data :: mid) n = some x) : x = data ∨ .set n x ∈ mid := by
  have hfold : ∀ (es : List (Entry bits)) (q : Option (Block bits × Bool)),
      (es.foldl (Entry.record n) q).map Prod.fst = some x →
      q.map Prod.fst = some x ∨ .set n x ∈ es := by
    intro es
    induction es with
    | nil => exact fun q hq => .inl hq
    | cons e es ih =>
      intro q hq
      rcases ih _ hq with hfirst | hlater
      · cases e with
        | set k y =>
          change (if k = n then some (y, false) else q).map Prod.fst = some x at hfirst
          split at hfirst
          · rename_i hk
            cases hfirst
            rw [hk]
            exact .inr (List.mem_cons_self ..)
          · exact .inl hfirst
        | pwrite k y =>
          change (if k = n then q.map fun x => (x.1, true) else q).map Prod.fst = some x at hfirst
          split at hfirst
          · rw [Option.map_map] at hfirst
            exact .inl hfirst
          · exact .inl hfirst
      · exact .inr (List.mem_cons_of_mem _ hlater)
  rw [latest, recorded_append, List.foldl_cons] at h
  rcases hfold mid _ h with hset | hmem
  · rw [show Entry.record n (recorded before n) (.set n data) = some (data, false) from if_pos rfl]
      at hset
    exact .inl (Option.some.inj hset).symm
  · exact .inr hmem

/-- The last of the `pwrite`s of a block. -/
theorem last_pwrite {n : ℕ} {es : List (Entry bits)} (h : ∃ y, .pwrite n y ∈ es) :
    ∃ mid y rest, es = mid ++ .pwrite n y :: rest ∧ ∀ z, .pwrite n z ∉ rest := by
  induction es with
  | nil =>
    obtain ⟨y, hy⟩ := h
    cases hy
  | cons e es ih =>
    by_cases hlater : ∃ y, .pwrite n y ∈ es
    · obtain ⟨mid, y, rest, rfl, hlast⟩ := ih hlater
      exact ⟨e :: mid, y, rest, rfl, hlast⟩
    · obtain ⟨y, hy⟩ := h
      rcases List.mem_cons.mp hy with rfl | hy
      · exact ⟨[], y, es, rfl, fun z hz => hlater ⟨z, hz⟩⟩
      · exact absurd ⟨y, hy⟩ hlater

/-- Without a `pwrite` a block stays recorded as waiting. -/
theorem recorded_waiting {j : List (Entry bits)} {n : ℕ} {q : Option (Block bits × Bool)}
    (hq : ∃ data, q = some (data, false)) (hnone : ∀ data, .pwrite n data ∉ j) :
    ∃ data, j.foldl (Entry.record n) q = some (data, false) := by
  induction j generalizing q with
  | nil => exact hq
  | cons e j ih =>
    have hrest : ∀ data, .pwrite n data ∉ j := fun data hmem =>
      hnone data (List.mem_cons_of_mem _ hmem)
    cases e with
    | set k data =>
      refine ih ?_ hrest
      show ∃ x, (if k = n then some (data, false) else q) = some (x, false)
      split
      · exact ⟨data, rfl⟩
      · exact hq
    | pwrite k data =>
      refine ih ?_ hrest
      show ∃ x, (if k = n then q.map fun x => (x.1, true) else q) = some (x, false)
      rw [if_neg]
      · exact hq
      · rintro rfl
        exact hnone data (List.mem_cons_self ..)

theorem step_journal {l l' : Loop bits H} {i : Input} {o : Option Out}
    (hstep : l.step cfg i = .ok (l', o)) : l.journal <+: l'.journal := by
  cases i with
  | op o' =>
    obtain ⟨r, hr, heq⟩ := ok_of_map hstep
    cases heq
    obtain ⟨-, fs, -, -, hj, -, -⟩ := request_ok hr
    rw [hj]
    exact List.prefix_append ..
  | writer =>
    cases hstep
    unfold writer
    split
    · split
      · exact List.prefix_rfl
      · split
        · exact List.prefix_rfl
        · split <;> exact List.prefix_rfl
    · exact List.prefix_rfl
    · split
      · exact List.prefix_append ..
      · exact List.prefix_rfl
    · split
      · exact List.prefix_rfl
      · split
        · split
          · exact List.prefix_append ..
          · exact List.prefix_rfl
        · exact List.prefix_rfl
    · exact List.prefix_rfl
    · exact List.prefix_rfl
    · exact List.prefix_rfl
    · exact List.prefix_rfl
  | sync =>
    simp only [step] at hstep
    split at hstep
    · cases hstep
      exact List.prefix_rfl
    · cases hstep

theorem run_journal {l l' : Loop bits H} {is : List Input} {os : List (Option Out)}
    (hrun : run (step cfg) l is = .ok (l', os)) : l.journal <+: l'.journal := by
  refine run_invariant (G := fun _ _ => True) (I := fun l' => l.journal <+: l'.journal) ?_
    List.prefix_rfl (meets_of_forall (fun _ _ => trivial) _ _) hrun
  rintro l₁ i l₂ o h - hstep
  exact h.trans (step_journal hstep)

/-- **An `Fsync` that is durable.**  `Fsync` is called in the state `l` and gets the mutex in
`l'`.  When no victim was dirty as it was erased, and no block that was dirty at the call is
dirty as `sync` gets the mutex, then all data that were set before the call, or newer ones, have
been written to their slots. -/
theorem fsync_durable {is js : List Input} {l l' l'' : Loop bits H} {os os' : List (Option Out)}
    (hok : Meets (step cfg) ErasesClean (init bits H) (is ++ js))
    (hcall : run (step cfg) (init bits H) is = .ok (l, os))
    (hwait : run (step cfg) l js = .ok (l', os'))
    (hclean : ∀ n, l.fs.store.dirty n → ¬ l'.fs.store.dirty n)
    (hsync : l'.step cfg .sync = .ok (l'', some (.ret 0))) :
    ∃ later, l''.journal = l.journal ++ later ∧
      Durable l.journal later l''.fs.store.storage := by
  have hkeeps : ∀ (l : Loop bits H) i l' o, Tracks l.fs.store l.journal ∧
      Written l.fs.store.storage l.journal → l.ErasesClean i → l.step cfg i = .ok (l', o) →
      Tracks l'.fs.store l'.journal ∧ Written l'.fs.store.storage l'.journal :=
    fun _ _ _ _ h hi hs => ⟨step_tracks h.1 hi hs, step_written h.2 h.1 hs⟩
  have hbefore := run_invariant (I := fun l => Tracks l.fs.store l.journal ∧
    Written l.fs.store.storage l.journal) hkeeps ⟨tracks_init, written_init⟩ hok.left hcall
  obtain ⟨htracks', hwritten⟩ := run_invariant (I := fun l => Tracks l.fs.store l.journal ∧
    Written l.fs.store.storage l.journal) hkeeps hbefore (hok.append hcall) hwait
  have htracks := hbefore.1
  obtain ⟨later, hlater⟩ := run_journal hwait
  have hlast : l''.journal = l'.journal ∧ l''.fs = l'.fs := by
    simp only [step] at hsync
    split at hsync
    · cases hsync
      exact ⟨rfl, rfl⟩
    · cases hsync
  rw [hlast.1, hlast.2]
  refine ⟨later, hlater.symm, ?_⟩
  intro before after n data hj
  have hsome : ∃ data', .pwrite n data' ∈ after ++ later := by
    by_contra hnone
    have hnot : ∀ data', .pwrite n data' ∉ after ++ later := fun data' hmem =>
      hnone ⟨data', hmem⟩
    have hwaiting : ∀ tail : List (Entry bits), (∀ data', .pwrite n data' ∉ after ++ tail) →
        ∃ x, recorded (l.journal ++ tail) n = some (x, false) := by
      intro tail htail
      rw [hj, List.append_assoc, recorded_append, List.cons_append, List.foldl_cons]
      exact recorded_waiting ⟨data, if_pos rfl⟩ htail
    refine hclean n ((htracks.dirty_iff n).mpr ?_) ((htracks'.dirty_iff n).mpr ?_)
    · have hleft := hwaiting [] fun data' hmem =>
        hnot data' (List.mem_append_left _ (by simpa using hmem))
      simpa using hleft
    · rw [← hlater]
      exact hwaiting later hnot
  obtain ⟨mid, data', rest, heq, hnone⟩ := last_pwrite hsome
  have hjournal : l'.journal = (before ++ .set n data :: mid) ++ .pwrite n data' :: rest := by
    rw [← hlater, hj, List.append_assoc, List.cons_append, heq, List.append_assoc,
      List.cons_append]
  exact ⟨mid, data', rest, heq, latest_of_set (hwritten.newest _ n data' rest hjournal),
    hwritten.slot _ n data' rest hjournal hnone⟩

/-- `Fsync` is called while the writer thread waits, and gets the mutex after a whole pass. -/
theorem fsync_durable_pass :
    ∃ (l l' l'' : Loop 0 (List UInt8)) (os os' : List (Option Out)),
      run (step (plainConfig 0)) (init 0 (List UInt8))
        [.writer, .op (.create ['/', 'f'] sIfreg), .op (.write 0 [7] 0)] = .ok (l, os) ∧
      run (step (plainConfig 0)) l (List.replicate 5 .writer) = .ok (l', os') ∧
      l'.step (plainConfig 0) .sync = .ok (l'', some (.ret 0)) ∧
      ∃ later, l''.journal = l.journal ++ later ∧
        Durable l.journal later l''.fs.store.storage := by
  refine ⟨_, _, _, _, _, rfl, rfl, rfl, @fsync_durable _ _ _ (plainConfig 0)
    [.writer, .op (.create ['/', 'f'] sIfreg), .op (.write 0 [7] 0)] (List.replicate 5 .writer)
    _ _ _ _ _ ?_ rfl rfl ?_ rfl⟩
  · refine .cons ?_ rfl (.cons trivial rfl (.cons trivial rfl (.cons ?_ rfl (.cons ?_ rfl
      (.cons ?_ rfl (.cons ?_ rfl (.cons ?_ rfl trivial)))))))
    · exact fun _ _ h => nomatch (show WriterPc.test = _ from h)
    · exact fun _ _ h => nomatch (show WriterPc.wait = _ from h)
    · exact fun _ _ h => nomatch (show WriterPc.flush 0 = _ from h)
    · exact fun _ _ h => nomatch (show WriterPc.flush 2 = _ from h)
    · exact fun _ _ h => nomatch (show WriterPc.sleep = _ from h)
    · exact fun _ _ h => nomatch (show WriterPc.test = _ from h)
  · rintro n - ⟨b, hb, hdirty⟩
    obtain ⟨hrow, -⟩ := KeyedTable.find_eq_some.mp hb
    obtain rfl := List.mem_singleton.mp (show b ∈ [_] from hrow)
    exact nomatch (show false = true from hdirty)

/-- `Fsync` gets the mutex at once while the writer thread waits, and returns 0 although the
byte that was written before is in the cache only. -/
theorem fsync_returns_before_pwrite :
    ∃ (l l' : Loop 0 (List UInt8)) (os : List (Option Out)),
      run (step (plainConfig 0)) (init 0 (List UInt8))
        [.writer, .op (.create ['/', 'f'] sIfreg), .op (.write 0 [7] 0)] = .ok (l, os) ∧
      l.step (plainConfig 0) .sync = .ok (l', some (.ret 0)) ∧
      ¬ ∃ later, l'.journal = l.journal ++ later ∧
        Durable l.journal later l'.fs.store.storage := by
  refine ⟨_, _, _, rfl, rfl, ?_⟩
  rintro ⟨later, hj, hdurable⟩
  obtain rfl : later = [] := List.self_eq_append_right.mp hj
  obtain ⟨mid, data', rest, heq, -⟩ := hdurable [] [] 1 _ rfl
  simp at heq

end Loop

end Wwdedup
