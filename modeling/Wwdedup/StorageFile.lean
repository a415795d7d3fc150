import Wwdedup.Chunks
import Wwdedup.Lib.FixedWidth
import Wwdedup.SlotAddressing
import Mathlib.Data.List.GetD
import Mathlib.Data.UInt

/-!
# The storage file in bytes

`Storage` is an array of slots.  The file that the writer thread and `_populateStorageBlock` work on
is one of bytes: a `pwrite` at `n << block_size_bits` that grows it where it ends too early, and a
`read` there that may come back short.  `SameBytes` relates the two.  `openStorage` is the part of
the constructor of `BlocksCache` that makes a new file, or checks the signature and the block size
of an old one; `Mounted.step` runs the requests beside the bytes and comes back through it after
each remount.

`mounted_runs`: no remount is ever refused, each slot is what a `read` returns, and a crash at any
moment, in the middle of a `pwrite` too, leaves a file that opens with its own block size and with
no other.
-/

namespace Wwdedup

open GuardedRun

variable {bits : ℕ} {H : Type} [DecidableEq H]

/-! ### Slots and bytes -/

/-- `pwrite(_storage, data, block_size, n << block_size_bits)`. -/
def pwriteSlot (f : FlatFile UInt8) (n : ℕ) (data : Block bits) : FlatFile UInt8 :=
  f.write (List.ofFn data) (n <<< bits)

def pwriteSlots (f : FlatFile UInt8) (ws : List (ℕ × Block bits)) : FlatFile UInt8 :=
  ws.foldl (fun f w => pwriteSlot f w.1 w.2) f

/-- `lseek` to `n << block_size_bits` and `read`: the bytes, unless they are fewer than
`block_size`. -/
def readSlot (bits : ℕ) (f : FlatFile UInt8) (n : ℕ) : Option (List UInt8) :=
  let buf := f.read (blockSize bits) (n <<< bits)
  if buf.length ≠ blockSize bits then none else some buf

/-- The slot `n` lies in the file and holds the block. -/
structure HasSlot (f : FlatFile UInt8) (n : ℕ) (x : Block bits) : Prop where
  size : (n + 1) * blockSize bits ≤ f.size
  block : blockView bits f.entry n = x

/-- The file has the bytes of the slots, and no more. -/
structure Storage.SameBytes (st : Storage bits) (f : FlatFile UInt8) : Prop where
  size : f.size = st.size
  block : ∀ n, blockView bits f.entry n = st.slot n

theorem shiftLeft_eq_mul (n : ℕ) : n <<< bits = n * blockSize bits := by
  rw [Nat.shiftLeft_eq, blockSize_eq]

theorem window_blockView (f : ℕ → UInt8) (n : ℕ) :
    window f (n * blockSize bits) (blockSize bits) = List.ofFn (blockView bits f n) := by
  apply List.ext_getElem
  · simp [window]
  · intro i hi hi'
    simp [window, blockView]

/-- A read is short where the file ends before the slot does. -/
theorem readSlot_eq (f : FlatFile UInt8) (n : ℕ) :
    readSlot bits f n = if (n + 1) * blockSize bits ≤ f.size then
      some (List.ofFn (blockView bits f.entry n)) else none := by
  have hpos := blockSize_pos bits
  have hmul : (n + 1) * blockSize bits = n * blockSize bits + blockSize bits := Nat.succ_mul ..
  unfold readSlot FlatFile.read
  rw [shiftLeft_eq_mul]
  by_cases hn : (n + 1) * blockSize bits ≤ f.size
  · have hmin : min (blockSize bits) (f.size - n * blockSize bits) = blockSize bits := by omega
    rw [hmin, window_blockView, if_pos hn]
    simp
  · have hmin : min (blockSize bits) (f.size - n * blockSize bits) ≠ blockSize bits := by omega
    rw [if_neg hn]
    simp [window, hmin]

theorem readSlot_eq_some {f : FlatFile UInt8} {n : ℕ} {xs : List UInt8} :
    readSlot bits f n = some xs ↔ ∃ x : Block bits, HasSlot f n x ∧ List.ofFn x = xs := by
  rw [readSlot_eq]
  constructor
  · intro h
    split at h
    · rename_i hn
      exact ⟨_, ⟨hn, rfl⟩, Option.some.inj h⟩
    · cases h
  · rintro ⟨x, hx, rfl⟩
    rw [if_pos hx.size, hx.block]

/-- A write in another slot, of the whole slot or of a part. -/
theorem HasSlot.write {f : FlatFile UInt8} {m n : ℕ} {x : Block bits} (h : HasSlot f n x)
    (hne : m ≠ n) {xs : List UInt8} (hlen : xs.length ≤ blockSize bits) :
    HasSlot (f.write xs (m <<< bits)) n x where
  size := le_trans h.size (Nat.le_max_left _ _)
  block := by
    have hfits : 0 + xs.length ≤ blockSize bits := by omega
    show blockView bits (patch f.entry (m <<< bits) xs.length fun i => xs.getD i 0) n = x
    rw [← h.block, shiftLeft_eq_mul]
    exact blockView_patch_of_ne f.entry _ hfits (Ne.symm hne)

theorem HasSlot.pwriteSlots {f : FlatFile UInt8} {n : ℕ} {x : Block bits} (h : HasSlot f n x)
    {ws : List (ℕ × Block bits)} (hne : ∀ w ∈ ws, w.1 ≠ n) : HasSlot (pwriteSlots f ws) n x := by
  induction ws generalizing f with
  | nil => exact h
  | cons w ws ih =>
    have hfits : (List.ofFn w.2).length ≤ blockSize bits := by rw [List.length_ofFn]
    have hfirst := h.write (hne w (List.mem_cons_self ..)) hfits
    exact ih hfirst fun v hv => hne v (List.mem_cons_of_mem _ hv)

/-- **A read of a slot.** -/
theorem Storage.SameBytes.read {st : Storage bits} {f : FlatFile UInt8} (h : st.SameBytes f)
    (n : ℕ) : readSlot bits f n = (st.read n).map List.ofFn := by
  rw [readSlot_eq, h.size, h.block, Storage.read]
  show (if st.Has n then _ else none) = _
  by_cases hn : st.Has n
  · rw [if_pos hn, if_pos hn]
    rfl
  · rw [if_neg hn, if_neg hn]
    rfl

theorem Storage.SameBytes.hasSlot {st : Storage bits} {f : FlatFile UInt8} (h : st.SameBytes f)
    {n : ℕ} (hn : st.Has n) : HasSlot f n (st.slot n) where
  size := by
    rw [h.size]
    exact hn
  block := h.block n

/-- **A write of a slot.** -/
theorem Storage.SameBytes.pwrite {st : Storage bits} {f : FlatFile UInt8} (h : st.SameBytes f)
    (n : ℕ) (data : Block bits) : (st.pwrite n data).SameBytes (pwriteSlot f n data) where
  size := by
    have hmul : (n + 1) * blockSize bits = n * blockSize bits + blockSize bits := Nat.succ_mul ..
    show max f.size (n <<< bits + (List.ofFn data).length) = max st.size ((n + 1) * blockSize bits)
    rw [List.length_ofFn, shiftLeft_eq_mul, h.size, ← hmul]
  block m := by
    show blockView bits (patch f.entry (n <<< bits) (List.ofFn data).length
      fun i => (List.ofFn data).getD i 0) m = Function.update st.slot n data m
    rw [List.length_ofFn, shiftLeft_eq_mul]
    by_cases hm : m = n
    · rw [hm, Function.update_self]
      funext i
      have hi := i.isLt
      show patch f.entry (n * blockSize bits) (blockSize bits) _ (n * blockSize bits + i) = data i
      rw [patch, if_pos (by omega), Nat.add_sub_cancel_left]
      simp [List.getD, hi]
    · rw [Function.update_of_ne hm, ← h.block m]
      have hfits : 0 + blockSize bits ≤ blockSize bits := by omega
      exact blockView_patch_of_ne f.entry _ hfits hm

theorem Storage.SameBytes.pwriteAll {st : Storage bits} {f : FlatFile UInt8} (h : st.SameBytes f)
    (ws : List (ℕ × Block bits)) : (st.pwriteAll ws).SameBytes (pwriteSlots f ws) := by
  induction ws generalizing st f with
  | nil => exact h
  | cons w ws ih => exact ih (h.pwrite w.1 w.2)

/-! ### A crash between or within the writes -/

/-- What a crash leaves while the `pwrite`s are made: the first of them are done, and of the next
one it may be that some bytes are. -/
inductive Halfway (f : FlatFile UInt8) (ws : List (ℕ × Block bits)) : FlatFile UInt8 → Prop
  | between (first : List (ℕ × Block bits)) (done : first <+: ws) :
      Halfway f ws (pwriteSlots f first)
  | within (first : List (ℕ × Block bits)) (w : ℕ × Block bits) (len : ℕ) (pos : 0 < len)
      (begun : first ++ [w] <+: ws) :
      Halfway f ws ((pwriteSlots f first).write ((List.ofFn w.2).take len) (w.1 <<< bits))

/-- The slots that are not written are as before. -/
theorem HasSlot.halfway {f f' : FlatFile UInt8} {n : ℕ} {x : Block bits} (h : HasSlot f n x)
    {ws : List (ℕ × Block bits)} (hne : ∀ w ∈ ws, w.1 ≠ n) (hf : Halfway f ws f') :
    HasSlot f' n x := by
  cases hf with
  | between first done => exact h.pwriteSlots fun w hw => hne w (done.subset hw)
  | within first w len pos begun =>
    have hfits : ((List.ofFn w.2).take len).length ≤ blockSize bits := by
      rw [List.length_take, List.length_ofFn]
      exact Nat.min_le_right ..
    have hfirst : HasSlot (Wwdedup.pwriteSlots f first) n x :=
      h.pwriteSlots fun v hv => hne v (begun.subset (List.mem_append_left _ hv))
    exact hfirst.write (hne w (begun.subset (List.mem_append_right _ (List.mem_singleton_self w))))
      hfits

/-! ### The signature -/

/-- What the constructor of `BlocksCache` throws for a file that is not empty. -/
inductive StorageError where
  /-- `"Can not read storage file "` -/
  | canNotRead
  /-- `"Wrong or corrupt storage file "` -/
  | wrongOrCorrupt
  /-- `"Wrong block size in storage file "` -/
  | wrongBlockSize
  deriving DecidableEq, Repr

def magic : List UInt8 := "WWDEDUP1".toUTF8.toList

/-- The `int32_t` at a position, the lowest byte first. -/
def int32At (buf : List UInt8) (pos : ℕ) : ℤ :=
  FixedWidth.signed 32 ((List.range 4).map fun k => (buf.getD (pos + k) 0).toNat * 256 ^ k).sum

/-- The constructor of `BlocksCache`, after `open`. -/
def openStorage (bits : ℕ) (f : FlatFile UInt8) : Except StorageError (FlatFile UInt8) :=
  if f.size = 0 then .ok (f.write (List.ofFn (signature bits)) 0)
  else
    let buf := f.read (blockSize bits) 0
    if buf.length ≠ blockSize bits then .error .canNotRead
    else if buf.take 8 ≠ magic then .error .wrongOrCorrupt
    else if int32At buf 8 ≠ blockSize bits then .error .wrongBlockSize
    else .ok f

/-- The first twelve bytes: the signature and the block size. -/
def storageHead (bits : ℕ) : List UInt8 :=
  magic ++ (List.range 4).map fun k => UInt8.ofNat (blockSize bits / 256 ^ k)

theorem magic_eq : magic = [87, 87, 68, 69, 68, 85, 80, 49] := by decide +kernel

theorem magic_length : magic.length = 8 := by
  rw [magic_eq]
  rfl

theorem sixteen_le_blockSize (h : 4 ≤ bits) : 16 ≤ blockSize bits := by
  rw [blockSize_eq]
  show 2 ^ 4 ≤ 2 ^ bits
  exact Nat.pow_le_pow_right Nat.two_pos h

theorem blockSize_fits (h : bits ≤ 30) : blockSize bits ≤ 2 ^ 30 := by
  rw [blockSize_eq]
  exact Nat.pow_le_pow_right Nat.two_pos h

theorem blockSize_injective {b b' : ℕ} (h : blockSize b = blockSize b') : b = b' := by
  rw [blockSize_eq, blockSize_eq] at h
  exact Nat.pow_right_injective (le_refl 2) h

/-- The bytes of the first slot of a signed file. -/
theorem HasSlot.head {f : FlatFile UInt8} (h : HasSlot f 0 (signature bits)) {i : ℕ}
    (hi : i < blockSize bits) : f.entry i = (storageHead bits).getD i 0 := by
  have hblock : blockView bits f.entry 0 ⟨i, hi⟩ = (storageHead bits).getD i 0 :=
    congrFun h.block ⟨i, hi⟩
  unfold blockView at hblock
  rwa [Nat.zero_mul, Nat.zero_add] at hblock

theorem HasSlot.begins {f : FlatFile UInt8} (h : HasSlot f 0 (signature bits))
    (hlen : 8 ≤ blockSize bits) : window f.entry 0 8 = magic := by
  have hlength := magic_length
  apply List.ext_getElem
  · simp [window, hlength]
  · intro i hi hi'
    have hbyte := h.head (show i < blockSize bits by omega)
    rw [storageHead, List.getD_append _ _ _ _ hi', List.getD_eq_getElem _ _ hi'] at hbyte
    rw [← hbyte]
    simp [window]

/-- Four bytes of a number below `2 ^ 31` are the number. -/
theorem int32At_storageHead (h : bits ≤ 30) {buf : List UInt8}
    (hbuf : ∀ k < 4, buf.getD (8 + k) 0 = (storageHead bits).getD (8 + k) 0) :
    int32At buf 8 = blockSize bits := by
  have hfits := blockSize_fits h
  have hbyte : ∀ k < 4,
      (buf.getD (8 + k) 0).toNat * 256 ^ k = blockSize bits / 256 ^ k % 256 * 256 ^ k := by
    intro k hk
    have hbehind : magic.length ≤ 8 + k := by
      rw [magic_length]
      omega
    rw [hbuf k hk, storageHead, List.getD_append_right _ _ _ _ hbehind, magic_length,
      Nat.add_sub_cancel_left]
    simp [List.getD, hk]
  have hsum : ((List.range 4).map fun k => (buf.getD (8 + k) 0).toNat * 256 ^ k).sum =
      blockSize bits := by
    have hlt : blockSize bits < 256 ^ 4 := lt_of_le_of_lt hfits (by decide)
    rw [List.map_congr_left fun k hk => hbyte k (List.mem_range.mp hk), FixedWidth.sum_digits,
      Nat.mod_eq_of_lt hlt]
  rw [int32At, hsum]
  apply FixedWidth.signed_of_fits
  · omega
  · omega

theorem HasSlot.not_short {f : FlatFile UInt8} {x : Block bits} (h : HasSlot f 0 x) :
    ¬f.size < blockSize bits := by
  have hsize := h.size
  rw [Nat.zero_add, Nat.one_mul] at hsize
  exact Nat.not_lt.mpr hsize

/-- **A signed file opens** with its own block size, and with no other one. -/
theorem HasSlot.openStorage {f : FlatFile UInt8} (h : HasSlot f 0 (signature bits))
    (hlow : 4 ≤ bits) (hhigh : bits ≤ 30) {b : ℕ} (hb : 4 ≤ b) :
    openStorage b f = if f.size < blockSize b then .error .canNotRead
      else if b = bits then .ok f else .error .wrongBlockSize := by
  have hsixteen := sixteen_le_blockSize hlow
  have hread := sixteen_le_blockSize hb
  have hsize := h.not_short
  have hne : f.size ≠ 0 := by omega
  unfold Wwdedup.openStorage FlatFile.read
  rw [if_neg hne]
  dsimp only
  by_cases hshort : f.size < blockSize b
  · have hlen : (window f.entry 0 (min (blockSize b) (f.size - 0))).length ≠ blockSize b := by
      simp [window]
      omega
    rw [if_pos hlen, if_pos hshort]
  · have hmin : min (blockSize b) (f.size - 0) = blockSize b := by omega
    have hlen : (window f.entry 0 (blockSize b)).length = blockSize b := by simp [window]
    have htake : (window f.entry 0 (blockSize b)).take 8 = magic := by
      have hsplit := window_append f.entry 0 8 (blockSize b - 8)
      rw [Nat.add_sub_cancel' (by omega)] at hsplit
      rw [← hsplit, List.take_left' (by simp [window])]
      exact h.begins (by omega)
    have hint : int32At (window f.entry 0 (blockSize b)) 8 = blockSize bits := by
      apply int32At_storageHead hhigh
      intro k hk
      rw [window_getD, if_pos (by omega), Nat.zero_add]
      exact h.head (by omega)
    rw [hmin, if_neg (not_not.mpr hlen), if_neg (not_not.mpr htake), hint, if_neg hshort]
    by_cases heq : b = bits
    · rw [heq, if_neg (not_not.mpr rfl), if_pos rfl]
    · rw [if_neg heq, if_pos]
      exact fun hcast => heq (blockSize_injective (Int.ofNat.inj hcast)).symm

/-- A new file has the slots of a new store. -/
theorem openStorage_empty :
    ∃ f, openStorage bits .empty = .ok f ∧ (Storage.create bits).SameBytes f := by
  have hnew : (⟨0, fun _ => zeroBlock bits, fun _ _ _ => rfl⟩ : Storage bits).SameBytes .empty :=
    ⟨rfl, fun n => rfl⟩
  have hshift : (0 : ℕ) <<< bits = 0 := Nat.zero_shiftLeft bits
  have hsize : max 0 ((0 + 1) * blockSize bits) = blockSize bits := by
    rw [Nat.zero_max, Nat.zero_add, Nat.one_mul]
  obtain ⟨hwritten, hblock⟩ := hnew.pwrite 0 (signature bits)
  refine ⟨pwriteSlot .empty 0 (signature bits), ?_, hwritten.trans hsize, hblock⟩
  rw [pwriteSlot, hshift]
  rfl

/-! ### Requests beside the bytes -/

/-- The file system and the bytes of its storage file. -/
structure Mounted (bits : ℕ) (H : Type) where
  fs : Fs bits H
  file : FlatFile UInt8

namespace Mounted

/-- A step with its `pwrite`s; after those of an unmount the constructor opens the file. -/
def step (cfg : Config bits H) (m : Mounted bits H) (op : Op) :
    Except (Fault ⊕ StorageError) (Mounted bits H × Out) :=
  match m.fs.step cfg op with
  | .error e => .error (.inl e)
  | .ok (fs, out) =>
    let file := pwriteSlots m.file (m.fs.pwrites op)
    match op with
    | .remount =>
      match openStorage bits file with
      | .error e => .error (.inr e)
      | .ok file => .ok (⟨fs, file⟩, out)
    | _ => .ok (⟨fs, file⟩, out)

/-- A state of the file system that is reached, and the file has its slots. -/
structure Sound (cfg : Config bits H) (fs : Fs bits H) (m : Mounted bits H) : Prop where
  same : m.fs = fs
  reached : Reachable (Fs.step cfg) (Fs.init bits H) fs
  bytes : fs.store.storage.SameBytes m.file

theorem Sound.hasSlot {cfg : Config bits H} {fs : Fs bits H} {m : Mounted bits H}
    (h : Sound cfg fs m) : HasSlot m.file 0 (signature bits) := by
  obtain ⟨hpos, hslot⟩ := Fs.reachable_signed h.reached
  rw [← hslot]
  exact h.bytes.hasSlot hpos

/-- **Nothing refuses the file**, and it goes on with the slots. -/
theorem Sound.step {cfg : Config bits H} {fs fs' : Fs bits H} {m : Mounted bits H}
    (h : Sound cfg fs m) (hlow : 4 ≤ bits) (hhigh : bits ≤ 30) {op : Op} {out : Out}
    (hstep : fs.step cfg op = .ok (fs', out)) :
    ∃ m', m.step cfg op = .ok (m', out) ∧ Sound cfg fs' m' := by
  have hbytes := h.bytes.pwriteAll (fs.pwrites op)
  rw [← step_storage hstep] at hbytes
  have hnext : Sound cfg fs' ⟨fs', pwriteSlots m.file (fs.pwrites op)⟩ :=
    ⟨rfl, h.reached.next hstep, hbytes⟩
  have hslot := hnext.hasSlot
  have hopens := hslot.openStorage hlow hhigh hlow
  rw [if_neg hslot.not_short, if_pos rfl] at hopens
  refine ⟨_, ?_, hnext⟩
  unfold Mounted.step
  rw [h.same, hstep]
  cases op with
  | remount =>
    dsimp only
    rw [hopens]
  | _ => rfl

end Mounted

/-- **The storage file in bytes.**  The signature has twelve bytes and `block_size` is an `int`, so
`block_size_bits` is from 4 to 30.  Beside any run from a new store the constructor never refuses
the file, and at the end

* a `read` at a slot returns the slot, and comes back short where there is none,
* a crash at any moment of the next step leaves a file that the constructor opens,
* which it refuses with any other block size, and
* the slots that the step does not write read as before. -/
theorem mounted_runs (cfg : Config bits H) (hlow : 4 ≤ bits) (hhigh : bits ≤ 30)
    {f₀ : FlatFile UInt8} (hnew : openStorage bits .empty = .ok f₀) (ops : List Op) :
    (∀ e, run (Fs.step cfg) (Fs.init bits H) ops = .error e →
      run (Mounted.step cfg) ⟨Fs.init bits H, f₀⟩ ops = .error (.inl e)) ∧
    ∀ fs outs, run (Fs.step cfg) (Fs.init bits H) ops = .ok (fs, outs) →
      ∃ f, run (Mounted.step cfg) ⟨Fs.init bits H, f₀⟩ ops = .ok (⟨fs, f⟩, outs) ∧
        (∀ n, readSlot bits f n = (fs.store.storage.read n).map List.ofFn) ∧
        ∀ op f', Halfway f (fs.pwrites op) f' →
          openStorage bits f' = .ok f' ∧
          (∀ b, 4 ≤ b → b ≠ bits → openStorage b f' =
            .error (if f'.size < blockSize b then .canNotRead else .wrongBlockSize)) ∧
          ∀ n xs, (∀ w ∈ fs.pwrites op, w.1 ≠ n) → readSlot bits f n = some xs →
            readSlot bits f' n = some xs := by
  obtain ⟨f, hf, hbytes⟩ := @openStorage_empty bits
  cases hf.symm.trans hnew
  have hfault : ∀ fs m op e, Mounted.Sound cfg fs m → fs.step cfg op = .error e →
      Mounted.step cfg m op = .error (.inl e) := by
    intro fs m op e h herr
    unfold Mounted.step
    rw [h.same, herr]
  have hnext : ∀ fs m op fs' out, Mounted.Sound cfg fs m → fs.step cfg op = .ok (fs', out) →
      ∃ m', Mounted.step cfg m op = .ok (m', out) ∧ Mounted.Sound cfg fs' m' :=
    fun fs m op fs' out h hstep => h.step hlow hhigh hstep
  have hsound : Mounted.Sound cfg (Fs.init bits H) ⟨Fs.init bits H, f₀⟩ := ⟨rfl, .refl _, hbytes⟩
  obtain ⟨hfails, hok⟩ := run_lockstep hfault hnext hsound ops
  refine ⟨hfails, fun fs outs hrun => ?_⟩
  obtain ⟨⟨fs', f⟩, hm, h⟩ := hok fs outs hrun
  cases h.same
  refine ⟨f, hm, h.bytes.read, fun op f' hf => ?_⟩
  have hzero : ∀ w ∈ fs'.pwrites op, w.1 ≠ 0 := fun w hw =>
    ((Fs.reachable_coherent h.reached).pwrites op hw).1
  have hslot := h.hasSlot.halfway hzero hf
  refine ⟨?_, fun b hb hne => ?_, fun n xs hothers hread => ?_⟩
  · rw [hslot.openStorage hlow hhigh hlow, if_neg hslot.not_short, if_pos rfl]
  · rw [hslot.openStorage hlow hhigh hb, if_neg hne]
    split
    · rfl
    · rfl
  · obtain ⟨x, hx, hxs⟩ := readSlot_eq_some.mp hread
    exact readSlot_eq_some.mpr ⟨x, hx.halfway hothers hf, hxs⟩

/-- One byte, written by a pass and read back from its slot after a remount. -/
theorem mounted_runs_oneByte :
    ∃ fs f, run (Mounted.step (plainConfig 4))
        ⟨Fs.init 4 (List UInt8), FlatFile.empty.write (List.ofFn (signature 4)) 0⟩
        [.create ['/', 'f'] sIfreg, .write 0 [7] 0, .writerPass [], .remount] =
          .ok (⟨fs, f⟩, [.opened 0, .ret 1, .ret 0, .ret 0]) ∧
      readSlot 4 f 1 = some (7 :: List.replicate 15 0) := by
  obtain ⟨f, hrun, hread, -⟩ := (mounted_runs (plainConfig 4) (le_refl 4) (by decide) rfl
    [.create ['/', 'f'] sIfreg, .write 0 [7] 0, .writerPass [], .remount]).2 _ _ rfl
  exact ⟨_, f, hrun, (hread 1).trans rfl⟩

end Wwdedup
