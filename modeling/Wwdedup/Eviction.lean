import Wwdedup.WriterLoop
import Wwdedup.ConcurrentWrites

/-!
# Writes while the writer thread evicts

`Threads.step` runs the writer thread and any number of `_writeBlockWrapper`s in atomic steps.
A write locates its `block_info`, locks the weak pointer, populates the old block and copies it,
commits the transaction and updates the cache.  The writer flushes blocks, selects victims,
which it flushes too, erases them by their numbers and destroys its vector of them.

An erased object lives on as long as the vector or a `firstBlock` holds it; it is then
`detached`: no longer what the cache has under its number.  So eviction can lose a write in three
ways: a victim was written again before it was erased; a partial write finds its block destroyed
and takes zeros for the old data; it copies them from a detached object although another write
has put newer data under the number.  In runs without these (`Part.Orderly`) the cache follows
the completed writes.
-/

namespace Wwdedup

open GuardedRun

variable {bits : ℕ} {H : Type} [DecidableEq H]

/-! ### The states -/

/-- How far a write has come, with its local variables: `firstBlock`, the data that it writes,
what the old block contained when they were copied, and what `replaceStorageBlock` returned. -/
inductive Phase (bits : ℕ) where
  | located
  | taken (first : Option WeakPtr)
  | copied (first : Option WeakPtr) (before data : Block bits)
  | committed (first : Option WeakPtr) (before data : Block bits) (present : Bool)

/-- `firstBlock`. -/
def Phase.first : Phase bits → Option WeakPtr
  | located => none
  | taken first => first
  | copied first _ _ => first
  | committed first _ _ _ => first

/-- A `_writeBlockWrapper` under way with the `block_info` that it has locked. -/
structure PartWrite (bits : ℕ) (H : Type) where
  fh : ℕ
  buf : List UInt8
  chunk : Chunk
  fblock : BlockInfo H
  phase : Phase bits

def PartWrite.key (x : PartWrite bits H) : ℕ × ℕ := (x.fh, x.chunk.block)

/-- `chunkSize < block_size`. -/
def PartWrite.Partial (x : PartWrite bits H) : Prop := x.chunk.len < blockSize bits

/-- A write that is complete: the storage block of its file block, the data, what the old block
contained, and whether the data were present already. -/
structure Finished (bits : ℕ) where
  num : ℕ
  chunk : Chunk
  before : Block bits
  data : Block bits
  present : Bool

/-- The storage blocks after the write. -/
def Finished.apply (blocks : ℕ → Option (Block bits)) (w : Finished bits) :
    ℕ → Option (Block bits) :=
  if w.present then blocks else Function.update blocks w.num (some w.data)

/-- The bytes outside the range of a partial write are those of the old block. -/
def Chunk.Keeps (c : Chunk) (before data : Block bits) : Prop :=
  c.len < blockSize bits → ∀ i : Fin (blockSize bits),
    ¬(c.startOffset ≤ i.val ∧ i.val < c.startOffset + c.len) → data i = before i

/-- What the storage block of a `block_info` contains; the number 0 is a hole. -/
def Store.oldBlock (s : Store bits H) (n : ℕ) : Block bits :=
  if n = 0 then zeroBlock bits else (s.content n).getD (zeroBlock bits)

/-- The store, the handles and the writes under way; the vector `toDelete` of the writer and how
many of it are erased; the objects that were erased; and, only to say what went wrong, those of
them whose number has got other data since. -/
structure Threads (bits : ℕ) (H : Type) where
  store : Store bits H
  handles : ℕ → Option (FileInfo H)
  writes : KeyedTable (PartWrite bits H) (ℕ × ℕ) PartWrite.key
  toDelete : List WeakPtr
  erased : ℕ
  detached : KeyedTable (StorageBlock bits H) WeakPtr StorageBlock.ptr
  superseded : List WeakPtr

/-- The atomic steps: of the write to the block `n` through the handle `fh`, and of the writer. -/
inductive Part where
  | locate (fh : ℕ) (buf : List UInt8) (c : Chunk)
  | take (fh n : ℕ)
  | copy (fh n : ℕ)
  | commit (fh n : ℕ)
  | update (fh n : ℕ)
  | flush (n : ℕ)
  | select (n : ℕ)
  | erase
  | drop

namespace Threads

/-- Nothing is under way. -/
def of (fs : Fs bits H) : Threads bits H := ⟨fs.store, fs.handles, .empty, [], 0, .empty, []⟩

/-! ### Objects -/

/-- The object behind a `shared_ptr`. -/
def object (m : Threads bits H) (p : WeakPtr) : Option (StorageBlock bits H) :=
  (m.store.lock (some p)).or (m.detached.find p)

/-- A vector or a local variable has a `shared_ptr` to the object. -/
def held (m : Threads bits H) (p : WeakPtr) : Bool :=
  m.toDelete.contains p || m.writes.rows.any fun x => x.phase.first = some p

/-- `weak_ptr::lock()`: an erased object can be locked as long as it is held. -/
def lock (m : Threads bits H) (w : Option WeakPtr) : Option (StorageBlock bits H) :=
  (m.store.lock w).or (w.bind fun p => if m.held p then m.detached.find p else none)

/-- An object changed in place. -/
def putObject (m : Threads bits H) (b : StorageBlock bits H) : Threads bits H :=
  if (m.store.lock (some b.ptr)).isSome then { m with store := m.store.put b }
  else { m with detached := m.detached.replace b }

/-! ### The parts of a write -/

/-- `_getLockedFileBlock`: `expired()` is false for a held object, too. -/
def locate (cfg : Config bits H) (m : Threads bits H) (fi : FileInfo H) (n : ℕ) :
    Located bits H :=
  let item := (fileBlock cfg m.store fi n).1
  if (m.lock item.storageBlock).isSome then ⟨m.store, fi.setBlock item, item⟩
  else getLockedFileBlock cfg m.store fi n

/-- The critical section of `_writeBlockWrapper` on `firstBlock`: the old data. -/
def oldData (m : Threads bits H) (first : Option WeakPtr) (chunkSize : ℕ) :
    Except Fault (Threads bits H × Block bits) :=
  match first.bind m.object with
  | none => .ok (m, zeroBlock bits)
  | some firstBlock =>
    let firstBlock := { firstBlock with atime := m.store.now }
    if firstBlock.storageBlockNum ≠ 0 ∧ chunkSize < blockSize bits then
      match populateStorageBlock m.store.storage firstBlock with
      | .error e => .error e
      | .ok firstBlock => .ok (m.putObject firstBlock, firstBlock.data.getD (zeroBlock bits))
    else .ok (m.putObject firstBlock, zeroBlock bits)

/-- The write goes on to its next part. -/
def setWrite (m : Threads bits H) (x : PartWrite bits H) : Threads bits H :=
  { m with writes := m.writes.replace x }

/-- The detached objects of a number. -/
def detachedOf (m : Threads bits H) (n : ℕ) : List WeakPtr :=
  (m.detached.rows.map StorageBlock.ptr).filter fun p => p.num = n

/-- One atomic step; the last step of a write shows the write. -/
def step (cfg : Config bits H) (m : Threads bits H) :
    Part → Except Blocked (Threads bits H × List (Finished bits))
  | .locate fh buf c =>
    match m.handles fh with
    | none => .error (.fault .noHandle)
    | some fi =>
      if (m.writes.find (fh, c.block)).isSome then .error .locked
      else
        let l := m.locate cfg fi c.block
        .ok ({ m with
          store := l.store
          handles := Writers.setBlock m.handles fh fi l.fblock
          writes := m.writes.replace ⟨fh, buf, c, l.fblock, .located⟩ }, [])
  | .take fh n =>
    match m.writes.find (fh, n) with
    | some ⟨_, buf, c, fblock, .located⟩ =>
      .ok (m.setWrite ⟨fh, buf, c, fblock,
        .taken ((m.lock fblock.storageBlock).map StorageBlock.ptr)⟩, [])
    | _ => .error .notThere
  | .copy fh n =>
    match m.writes.find (fh, n) with
    | some ⟨_, buf, c, fblock, .taken first⟩ =>
      match m.oldData first c.len with
      | .error e => .error (.fault e)
      | .ok (m', old) =>
        .ok (m'.setWrite ⟨fh, buf, c, fblock,
          .copied first (m.store.oldBlock fblock.storageBlockNum) (c.data buf old)⟩, [])
    | _ => .error .notThere
  | .commit fh n =>
    match m.handles fh, m.writes.find (fh, n) with
    | some fi, some ⟨_, buf, c, fblock, .copied first before data⟩ =>
      let r := replaceStorageBlock m.store.db fi.stIno fblock (m.lock fblock.storageBlock)
        (cfg.murmur data)
      let m' := (r.sblock.map m.putObject).getD m
      .ok ({ m'.setWrite ⟨fh, buf, c, r.fblock, .committed first before data r.present⟩ with
        store := m'.store.setDb r.db
        handles := Writers.setBlock m.handles fh fi r.fblock }, [])
    | _, _ => .error .notThere
  | .update fh n =>
    match m.handles fh, m.writes.find (fh, n) with
    | some fi, some ⟨_, _, c, fblock, .committed _ before data present⟩ =>
      let u := updateCache m.store fblock present data (cfg.murmur data)
      .ok ({ m with
        store := u.1
        handles := Writers.setBlock m.handles fh fi u.2
        writes := m.writes.deleteKey (fh, n)
        superseded :=
          if present then m.superseded else m.superseded ++ m.detachedOf fblock.storageBlockNum },
        [⟨fblock.storageBlockNum, c, before, data, present⟩])
    | _, _ => .error .notThere
  | .flush n =>
    if m.toDelete ≠ [] then .error .notThere
    else .ok ({ m with store := m.store.flushBlock n }, [])
  | .select n =>
    match m.store.blocks.find n with
    | none => .error .notThere
    | some b =>
      if m.erased ≠ 0 then .error .notThere
      else .ok ({ m with
        store := m.store.flushBlock n
        toDelete := m.toDelete ++ [b.ptr] }, [])
  | .erase =>
    match m.toDelete[m.erased]? with
    | none => .error .notThere
    | some p =>
      .ok ({ m with
        store := m.store.eraseBlock p.num
        erased := m.erased + 1
        detached := ((m.store.blocks.find p.num).map m.detached.replace).getD m.detached }, [])
  | .drop =>
    if m.erased = m.toDelete.length then .ok ({ m with toDelete := [], erased := 0 }, [])
    else .error .notThere

/-- The three things that an orderly step does not do: copy from nothing where there is an old
block, copy from an object whose number has got other data since it was erased, erase a dirty
block. -/
def Orderly (m : Threads bits H) : Part → Prop
  | .take fh n => ∀ x, m.writes.find (fh, n) = some x → x.Partial →
      x.fblock.storageBlockNum ≠ 0 → (m.lock x.fblock.storageBlock).isSome
  | .copy fh n => ∀ x p, m.writes.find (fh, n) = some x → x.Partial →
      x.phase = .taken (some p) → p ∉ m.superseded
  | .erase => ∀ p, m.toDelete[m.erased]? = some p → ¬m.store.dirty p.num
  | _ => True

end Threads

/-! ### Stores that lose nothing -/

/-- The store has what the blocks are to contain. -/
def Store.Shows (s : Store bits H) (blocks : ℕ → Option (Block bits)) : Prop :=
  ∀ n x, blocks n = some x → s.content n = some x

/-- The dirty blocks of the cache have data. -/
def Store.Full (s : Store bits H) : Prop :=
  ∀ k b, s.blocks.find k = some b → b.dirty = true → b.data.isSome

/-- A quiet part that changes no content and replaces no object. -/
structure Store.Calm (s s' : Store bits H) : Prop extends Store.Quiet s s' where
  content : ∀ k, s'.content k = s.content k
  stamp : ∀ k u, s.stamp k = some u → s'.stamp k = some u

namespace Store.Calm

variable {s s' : Store bits H}

section

omit [DecidableEq H]

theorem refl (s : Store bits H) : s.Calm s := ⟨.refl s, fun _ => rfl, fun _ _ h => h⟩

theorem setDb (s : Store bits H) (db : Db H) : s.Calm (s.setDb db) :=
  ⟨.setDb s db, fun _ => rfl, fun _ _ h => h⟩

theorem adjust (s : Store bits H) (n : ℕ) (d : ℤ) : s.Calm (s.adjust n d) :=
  ⟨.adjust s n d, content_adjust n d, fun k _ h => (stamp_adjust n d k).trans h⟩

end

theorem getLockedFileBlock (cfg : Config bits H) (s : Store bits H) (fi : FileInfo H) (n : ℕ) :
    s.Calm (getLockedFileBlock cfg s fi n).store := by
  have hl := getLockedFileBlock_locates cfg s fi n
  refine ⟨.getLockedFileBlock cfg s fi n, hl.content_eq, fun k u hk => ?_⟩
  generalize Wwdedup.getLockedFileBlock cfg s fi n = l at hl ⊢
  cases hl with
  | kept => exact hk
  | reloaded filled dead =>
    obtain ⟨-, -, -, -, hstamp, -⟩ := ensureLoaded_views s (fileBlock cfg s fi n).1
      (fileBlock cfg s fi n).2
    rw [hstamp, if_neg, hk]
    rw [hk]
    exact fun h => by cases h.2

section

omit [DecidableEq H]

theorem stored (h : s.Calm s') (hs : s.Stored) : s'.Stored := by
  intro k b' x hb' hd hx
  have hcontent : s.content k = some x := by
    rw [← h.content, Store.content, hb', Option.bind_some, hx]
    rfl
  rw [h.storage]
  cases hb : s.blocks.find k with
  | none =>
    rw [Store.content, hb] at hcontent
    exact hcontent
  | some b =>
    obtain ⟨b₁, hb₁, hdirty, -⟩ := h.kept k b hb
    rw [hb'] at hb₁
    cases hb₁
    rw [Store.content, hb, Option.bind_some, Option.or_eq_some_iff] at hcontent
    rcases hcontent with hdata | ⟨-, hread⟩
    · exact hs k b x hb (hdirty.symm.trans hd) hdata
    · exact hread

/-- Dirty blocks were dirty. -/
theorem dirty (h : s.Calm s') {k : ℕ} (hk : s'.dirty k) : s.dirty k := by
  obtain ⟨b', hb', hd⟩ := hk
  cases hb : s.blocks.find k with
  | none =>
    rw [h.fresh k b' hb hb'] at hd
    cases hd
  | some b =>
    obtain ⟨b₁, hb₁, hdirty, -⟩ := h.kept k b hb
    rw [hb'] at hb₁
    cases hb₁
    exact ⟨b, hb, hdirty.symm.trans hd⟩

theorem full (h : s.Calm s') (hs : s.Full) : s'.Full := by
  intro k b' hb' hd
  obtain ⟨b, hb, hd'⟩ := h.dirty ⟨b', hb', hd⟩
  obtain ⟨x, hx⟩ := Option.isSome_iff_exists.mp (hs k b hb hd')
  obtain ⟨b₁, hb₁, -, hdata⟩ := h.kept k b hb
  rw [hb'] at hb₁
  cases hb₁
  rw [hdata x hx]
  rfl

theorem shows (h : s.Calm s') {blocks : ℕ → Option (Block bits)} (hs : s.Shows blocks) :
    s'.Shows blocks := fun n x hx => (h.content n).trans (hs n x hx)

end

end Store.Calm

/-! ### The invariant -/

/-- The weak pointer of the `block_info` is to a block with its number. -/
def BlockInfo.Pointed (fb : BlockInfo H) : Prop :=
  ∀ p, fb.storageBlock = some p → p.num = fb.storageBlockNum

/-- What holds of a write under way; `alive` are the objects that there are. -/
structure PartWrite.Ok (alive : WeakPtr → Prop) (x : PartWrite bits H) : Prop where
  pointed : x.fblock.Pointed
  first : ∀ p, x.phase = .taken (some p) → p.num = x.fblock.storageBlockNum ∧ alive p
  bare : x.phase = .taken none → x.Partial → x.fblock.storageBlockNum = 0
  copied : ∀ first before data, x.phase = .copied first before data → x.chunk.Keeps before data
  committed : ∀ first before data present, x.phase = .committed first before data present →
    x.chunk.Keeps before data

omit [DecidableEq H] in
theorem PartWrite.Ok.mono {alive alive' : WeakPtr → Prop} {x : PartWrite bits H} (h : x.Ok alive)
    (himp : ∀ p, alive p → alive' p) : x.Ok alive' :=
  { h with first := fun p hp => ⟨(h.first p hp).1, himp p (h.first p hp).2⟩ }

section stages

variable {alive : WeakPtr → Prop} {fh : ℕ} {buf : List UInt8} {c : Chunk} {fblock : BlockInfo H}

section

omit [DecidableEq H]

theorem PartWrite.Ok.located (h : fblock.Pointed) :
    (⟨fh, buf, c, fblock, .located⟩ : PartWrite bits H).Ok alive where
  pointed := h
  first _ hp := by cases hp
  bare hp := by cases hp
  copied _ _ _ hp := by cases hp
  committed _ _ _ _ hp := by cases hp

theorem PartWrite.Ok.taken (h : fblock.Pointed) {first : Option WeakPtr}
    (hfirst : ∀ p, first = some p → p.num = fblock.storageBlockNum ∧ alive p)
    (hbare : first = none → c.len < blockSize bits → fblock.storageBlockNum = 0) :
    (⟨fh, buf, c, fblock, .taken first⟩ : PartWrite bits H).Ok alive where
  pointed := h
  first p hp := hfirst p (Phase.taken.inj hp)
  bare hp := hbare (Phase.taken.inj hp)
  copied _ _ _ hp := by cases hp
  committed _ _ _ _ hp := by cases hp

theorem PartWrite.Ok.copies (h : fblock.Pointed) {first : Option WeakPtr}
    {before data : Block bits} (hkept : c.Keeps before data) :
    PartWrite.Ok alive ⟨fh, buf, c, fblock, .copied first before data⟩ where
  pointed := h
  first _ hp := by cases hp
  bare hp := by cases hp
  copied _ _ _ hp := by
    cases hp
    exact hkept
  committed _ _ _ _ hp := by cases hp

theorem PartWrite.Ok.commits (h : fblock.Pointed) {first : Option WeakPtr}
    {before data : Block bits} {present : Bool} (hkept : c.Keeps before data) :
    PartWrite.Ok alive ⟨fh, buf, c, fblock, .committed first before data present⟩ where
  pointed := h
  first _ hp := by cases hp
  bare hp := by cases hp
  copied _ _ _ hp := by cases hp
  committed _ _ _ _ hp := by
    cases hp
    exact hkept

end

end stages

namespace Threads

omit [DecidableEq H] in
@[simp] theorem putObject_handles {m : Threads bits H} (b : StorageBlock bits H) :
    (m.putObject b).handles = m.handles := by
  unfold putObject
  split <;> rfl

/-- There is an object. -/
def Alive (m : Threads bits H) (p : WeakPtr) : Prop := (m.object p).isSome

/-- The data of the clean blocks are in their slots, those of the detached objects, too, unless
the number has got other data since. -/
structure Sound (m : Threads bits H) : Prop where
  stored : m.store.Stored
  full : m.store.Full
  detached : ∀ p b, m.detached.find p = some b → p ∉ m.superseded → ¬m.store.dirty p.num ∧
    ∀ x, b.data = some x → m.store.storage.read p.num = some x
  handles : ∀ fh fi n fb, m.handles fh = some fi → fi.blocks n = some fb → fb.Pointed
  writes : ∀ i x, m.writes.find i = some x → x.Ok m.Alive

variable {m : Threads bits H}

section

omit [DecidableEq H]

theorem alive_iff {p : WeakPtr} :
    m.Alive p ↔ m.store.stamp p.num = some p.uid ∨ (m.detached.find p).isSome := by
  rw [Alive, object, Option.isSome_or, Bool.or_eq_true, Store.lock_isSome]

/-- An object is the one in the cache or a detached one. -/
theorem object_eq_some {p : WeakPtr} {b : StorageBlock bits H} (h : m.object p = some b) :
    b.ptr = p ∧ (m.store.lock (some p) = some b ∨
      m.store.lock (some p) = none ∧ m.detached.find p = some b) := by
  rw [object, Option.or_eq_some_iff] at h
  rcases h with h | ⟨hnone, h⟩
  · exact ⟨(Option.some.inj (Store.lock_eq_some.mp h).1).symm, .inl h⟩
  · exact ⟨KeyedTable.key_of_find h, .inr ⟨hnone, h⟩⟩

theorem lock_eq_some {w : Option WeakPtr} {b : StorageBlock bits H} (h : m.lock w = some b) :
    w = some b.ptr ∧ m.object b.ptr = some b := by
  rw [lock, Option.or_eq_some_iff] at h
  rcases h with h | ⟨hnone, h⟩
  · have hw := (Store.lock_eq_some.mp h).1
    exact ⟨hw, by rw [object, ← hw, h]; rfl⟩
  · obtain ⟨p, rfl, hp⟩ := Option.bind_eq_some_iff.mp h
    split at hp
    · obtain rfl : b.ptr = p := KeyedTable.key_of_find hp
      exact ⟨rfl, by rw [object, hnone, hp]; rfl⟩
    · cases hp

/-- An object that is erased is detached. -/
theorem Alive.erase {p : WeakPtr} (h : m.Alive p) (n k : ℕ) :
    Alive { m with
      store := m.store.eraseBlock n
      erased := k
      detached := ((m.store.blocks.find n).map m.detached.replace).getD m.detached } p := by
  rw [alive_iff] at h ⊢
  show (m.store.eraseBlock n).stamp p.num = _ ∨
    ((((m.store.blocks.find n).map m.detached.replace).getD m.detached).find p).isSome
  rw [Store.stamp, Store.find_eraseBlock]
  cases hfind : m.store.blocks.find n with
  | none =>
    refine h.imp_left fun hstamp => ?_
    rw [if_neg]
    · exact hstamp
    · intro hn
      rw [hn, Store.stamp, hfind] at hstamp
      cases hstamp
  | some c =>
    show _ ∨ ((m.detached.replace c).find p).isSome
    rw [KeyedTable.find_replace]
    by_cases hpc : p = c.ptr
    · rw [if_pos hpc]
      exact .inr rfl
    · rw [if_neg hpc]
      refine h.imp_left fun hstamp => ?_
      rw [if_neg]
      · exact hstamp
      · intro hn
        rw [hn, Store.stamp, hfind] at hstamp
        have hnum : c.storageBlockNum = n := KeyedTable.key_of_find hfind
        refine hpc ?_
        rw [StorageBlock.ptr, hnum, ← hn, Option.some.inj hstamp]

end

namespace Sound

section

omit [DecidableEq H]

theorem calm (h : m.Sound) {s : Store bits H} (hs : m.store.Calm s) :
    Sound { m with store := s } where
  stored := hs.stored h.stored
  full := hs.full h.full
  detached p b hp hnew := by
    obtain ⟨hclean, hread⟩ := h.detached p b hp hnew
    exact ⟨fun hd => hclean (hs.dirty hd), fun x hx => by rw [hs.storage, hread x hx]⟩
  handles := h.handles
  writes i x hx := by
    refine (h.writes i x hx).mono fun p hp => ?_
    rw [alive_iff] at hp ⊢
    exact hp.imp_left (hs.stamp _ _)

theorem setBlock (h : m.Sound) {fh : ℕ} {fi : FileInfo H} (opened : m.handles fh = some fi)
    {fb : BlockInfo H} (hfb : fb.Pointed) :
    Sound { m with handles := Writers.setBlock m.handles fh fi fb } where
  stored := h.stored
  full := h.full
  detached := h.detached
  handles fh' fi' n fb' hfi hn := by
    dsimp only at hfi
    rw [Writers.setBlock, Function.update_apply] at hfi
    split at hfi
    · cases hfi
      rw [FileInfo.setBlock_blocks, Function.update_apply] at hn
      split at hn
      · cases hn
        exact hfb
      · exact h.handles fh fi n fb' opened hn
    · exact h.handles fh' fi' n fb' hfi hn
  writes := h.writes

theorem setWrite (h : m.Sound) {x : PartWrite bits H} (hx : x.Ok m.Alive) :
    (m.setWrite x).Sound where
  stored := h.stored
  full := h.full
  detached := h.detached
  handles := h.handles
  writes i y hy := by
    have hfind := KeyedTable.find_replace m.writes x i
    rw [show (m.writes.replace x).find i = some y from hy] at hfind
    split at hfind
    · cases hfind
      exact hx
    · exact h.writes i y hfind.symm

theorem deleteWrite (h : m.Sound) (i : ℕ × ℕ) :
    Sound { m with writes := m.writes.deleteKey i } where
  stored := h.stored
  full := h.full
  detached := h.detached
  handles := h.handles
  writes j y hy := by
    have hfind := KeyedTable.find_deleteKey m.writes i j
    rw [show (m.writes.deleteKey i).find j = some y from hy] at hfind
    split at hfind
    · cases hfind
    · exact h.writes j y hfind.symm

/-- An object is changed in place, but for its mark and its data. -/
theorem putObject (h : m.Sound) {p : WeakPtr} {b : StorageBlock bits H}
    (hb : m.object p = some b) (b' : StorageBlock bits H) (hptr : b'.ptr = b.ptr)
    (hdirty : b'.dirty = b.dirty)
    (hkept : ∀ x, b.data = some x → b'.data = some x)
    (hsame : b'.data.or (m.store.storage.read b.storageBlockNum) =
      b.data.or (m.store.storage.read b.storageBlockNum)) :
    (m.putObject b').Sound ∧ m.store.Calm (m.putObject b').store := by
  obtain ⟨rfl, hwhere⟩ := object_eq_some hb
  obtain ⟨hnum, huid⟩ := WeakPtr.mk.inj hptr
  unfold Threads.putObject
  rw [hptr]
  rcases hwhere with hl | ⟨hnone, hfind⟩
  · rw [if_pos (by rw [hl]; rfl)]
    have hfind := Store.find_of_lock hl
    have hcalm : m.store.Calm (m.store.put b') := by
      refine ⟨.put b' (hnum.symm ▸ hfind) hdirty hkept, fun k => ?_, fun k u hk => ?_⟩
      · rw [Store.content_put, hnum]
        split
        · rename_i hk
          rw [hk, hsame, Store.content, hfind]
          rfl
        · rfl
      · rw [Store.stamp_put, hnum]
        split
        · rename_i hkb
          rw [hkb, Store.stamp, hfind, Option.map_some] at hk
          rw [huid, hk]
        · exact hk
    exact ⟨h.calm hcalm, hcalm⟩
  · rw [if_neg (by rw [hnone]; exact Bool.false_ne_true)]
    refine ⟨⟨h.stored, h.full, fun p b₀ hp hnew => ?_, h.handles, fun i x hx => ?_⟩, .refl _⟩
    · have hfound := KeyedTable.find_replace m.detached b' p
      rw [show (m.detached.replace b').find p = some b₀ from hp, hptr] at hfound
      split at hfound
      · rename_i hpb
        cases hfound
        obtain ⟨hclean, hread⟩ := h.detached _ b hfind (hpb ▸ hnew)
        rw [hpb]
        refine ⟨hclean, fun x hx => ?_⟩
        rw [hx] at hsame
        rcases Option.or_eq_some_iff.mp hsame.symm with hdata | ⟨-, hslot⟩
        · exact hread x hdata
        · exact hslot
      · exact h.detached p b₀ hfound.symm hnew
    · refine (h.writes i x hx).mono fun p hp => ?_
      rw [alive_iff] at hp ⊢
      refine hp.imp_right fun hsome => ?_
      have hfound := KeyedTable.find_replace m.detached b' p
      show ((m.detached.replace b').find p).isSome
      rw [hfound]
      split
      · rfl
      · exact hsome

/-- What an object contains is what its number contains, unless that has got other data since. -/
theorem content_of_object (h : m.Sound) {p : WeakPtr} {b : StorageBlock bits H}
    (hb : m.object p = some b) (hnew : p ∉ m.superseded) {x : Block bits}
    (hx : b.data.or (m.store.storage.read b.storageBlockNum) = some x) :
    m.store.content b.storageBlockNum = some x := by
  obtain ⟨rfl, hl | ⟨-, hfind⟩⟩ := object_eq_some hb
  · rw [content_of_lock hl, hx]
  · obtain ⟨hclean, hdata⟩ := h.detached _ b hfind hnew
    have hread : m.store.storage.read b.storageBlockNum = some x := by
      rcases Option.or_eq_some_iff.mp hx with hy | ⟨-, hslot⟩
      · exact hdata x hy
      · exact hslot
    rw [Store.content, Option.or_eq_some_iff, Option.bind_eq_some_iff]
    cases hcached : m.store.blocks.find b.storageBlockNum with
    | none => exact .inr ⟨rfl, hread⟩
    | some c =>
      cases hc : c.data with
      | none => exact .inr ⟨hc, hread⟩
      | some y =>
        rw [h.stored _ c y hcached (Store.clean_of_not_dirty hclean hcached) hc] at hread
        exact .inl ⟨c, rfl, hread ▸ hc⟩

end

/-! ### The parts of a write -/

/-- The handle keeps or reads a `block_info` that points to its number. -/
theorem fileBlock_pointed (h : m.Sound) (cfg : Config bits H) {fh : ℕ} {fi : FileInfo H}
    (opened : m.handles fh = some fi) (n : ℕ) : (fileBlock cfg m.store fi n).1.Pointed := by
  unfold fileBlock
  cases hfb : fi.blocks n with
  | some item => exact h.handles fh fi n item opened hfb
  | none =>
    dsimp only
    have hl := loadFileBlock_loads cfg m.store.db fi n
    generalize loadFileBlock cfg m.store.db fi (.new n) = r at hl ⊢
    intro p hp
    cases hl <;> cases hp

theorem locate (h : m.Sound) (cfg : Config bits H) {fh : ℕ} {fi : FileInfo H}
    (opened : m.handles fh = some fi) (n : ℕ) :
    m.store.Calm (m.locate cfg fi n).store ∧ (m.locate cfg fi n).fblock.Pointed := by
  have hitem := h.fileBlock_pointed cfg opened n
  unfold Threads.locate
  dsimp only
  split
  · exact ⟨.refl _, hitem⟩
  · refine ⟨.getLockedFileBlock cfg m.store fi n, ?_⟩
    have hl := getLockedFileBlock_locates cfg m.store fi n
    generalize getLockedFileBlock cfg m.store fi n = l at hl ⊢
    cases hl with
    | kept => exact hitem
    | reloaded filled dead =>
      intro p hp
      cases hp
      exact (ensureLoaded_views m.store _ _).2.2.2.2.2.2.1

/-- The bytes outside the range of a chunk are the old ones. -/
theorem keeps_data (c : Chunk) (buf : List UInt8) {before old : Block bits}
    (hold : c.len < blockSize bits → old = before) : c.Keeps before (c.data buf old) := by
  intro hlen i hi
  rw [Chunk.data, overlay, if_neg hi, hold hlen]

omit [DecidableEq H] in
/-- **The copy of the old data** is what the old block contains. -/
theorem oldData (h : m.Sound) {x : PartWrite bits H} {first : Option WeakPtr}
    (hx : x.Ok m.Alive) (hphase : x.phase = .taken first)
    (hnew : ∀ p, x.Partial → first = some p → p ∉ m.superseded) {m' : Threads bits H}
    {old : Block bits} (hold : m.oldData first x.chunk.len = .ok (m', old)) :
    m'.Sound ∧ m.store.Calm m'.store ∧
      (x.Partial → old = m.store.oldBlock x.fblock.storageBlockNum) := by
  unfold Threads.oldData at hold
  cases first with
  | none =>
    cases hold
    refine ⟨h, .refl _, fun hpart => ?_⟩
    rw [Store.oldBlock, if_pos (hx.bare hphase hpart)]
  | some p =>
    obtain ⟨hnum, halive⟩ := hx.first p hphase
    obtain ⟨b, hb⟩ := Option.isSome_iff_exists.mp halive
    have hptr := (object_eq_some hb).1
    have hbnum : b.storageBlockNum = x.fblock.storageBlockNum := by rw [← hnum, ← hptr]; rfl
    rw [Option.bind_some, hb] at hold
    dsimp only at hold
    split at hold
    · rename_i hpart
      obtain ⟨hne, hlen⟩ := hpart
      cases hpop : populateStorageBlock m.store.storage { b with atime := m.store.now } with
      | error e => simp [hpop] at hold
      | ok b' =>
        rw [hpop] at hold
        cases hold
        have hcontent := fun y => h.content_of_object hb (hnew p hlen rfl) (x := y)
        rcases populateStorageBlock_ok hpop with ⟨hkeep, rfl⟩ | ⟨hdata, -, y, hy, rfl⟩
        · obtain ⟨y, hy⟩ := Option.isSome_iff_exists.mp (hkeep.resolve_right hne)
          have hy' : b.data = some y := hy
          obtain ⟨hsound, hcalm⟩ := h.putObject hb { b with atime := m.store.now } rfl rfl
            (fun _ hx => hx) rfl
          refine ⟨hsound, hcalm, fun _ => ?_⟩
          rw [Store.oldBlock, ← hbnum, if_neg hne, hcontent y (by rw [hy']; rfl), hy]
        · have hdata' : b.data = none := hdata
          have hy' : m.store.storage.read b.storageBlockNum = some y := hy
          obtain ⟨hsound, hcalm⟩ := h.putObject hb
            { b with atime := m.store.now, data := some y } rfl rfl
            (fun z hz => by rw [hdata'] at hz; cases hz) (by rw [hdata', hy']; rfl)
          refine ⟨hsound, hcalm, fun _ => ?_⟩
          rw [Store.oldBlock, ← hbnum, if_neg hne, hcontent y (by rw [hdata', hy']; rfl)]
    · rename_i hwhole
      cases hold
      obtain ⟨hsound, hcalm⟩ := h.putObject hb { b with atime := m.store.now } rfl rfl
        (fun _ hx => hx) rfl
      refine ⟨hsound, hcalm, fun hpart => ?_⟩
      rw [Store.oldBlock, if_pos]
      by_contra hne
      exact hwhole ⟨hbnum ▸ hne, hpart⟩

/-- The transaction changes the locked object's use count only. -/
theorem replaced (h : m.Sound) {ino : ℕ} {fb : BlockInfo H} {hash : H} {r : Replaced bits H}
    (hfb : fb.Pointed) (hr : Replaces m.store.db ino fb (m.lock fb.storageBlock) hash r) :
    ((r.sblock.map m.putObject).getD m).Sound ∧
      m.store.Calm ((r.sblock.map m.putObject).getD m).store ∧ r.fblock.Pointed := by
  have hput : ∀ sblock, sblock = m.lock fb.storageBlock ∨
      sblock = (m.lock fb.storageBlock).map StorageBlock.release →
      ((sblock.map m.putObject).getD m).Sound ∧
        m.store.Calm ((sblock.map m.putObject).getD m).store := by
    intro sblock hs
    cases hl : m.lock fb.storageBlock with
    | none =>
      rw [hl] at hs
      obtain rfl : sblock = none := by simpa using hs
      exact ⟨h, .refl _⟩
    | some b =>
      rw [hl] at hs
      have hobj := (lock_eq_some hl).2
      rcases hs with rfl | rfl
      · exact h.putObject hobj b rfl rfl (fun _ hx => hx) rfl
      · exact h.putObject hobj b.release rfl rfl (fun _ hx => hx) rfl
  refine ⟨(hput _ hr.sblock_eq).1, (hput _ hr.sblock_eq).2, ?_⟩
  cases hr with
  | hit row sel => exact fun p hp => by cases hp
  | inPlace b locked one sel => exact hfb
  | fresh shared sel => exact fun p hp => by cases hp

omit [DecidableEq H] in
/-- New data for a number: its detached objects are out of date. -/
theorem place (h : m.Sound) (n : ℕ) (data : Block bits) (hash : H) :
    Sound { m with
      store := m.store.place n data hash
      superseded := m.superseded ++ m.detachedOf n } where
  stored k b x hb hd hx := by
    rw [find_place] at hb
    split at hb
    · cases hb
      cases hd
    · exact h.stored k b x hb hd hx
  full k b hb hd := by
    rw [find_place] at hb
    split at hb
    · cases hb
      rfl
    · exact h.full k b hb hd
  detached p b hp hnew := by
    obtain ⟨hold, hother⟩ := not_or.mp (mt List.mem_append.mpr hnew)
    have hne : p.num ≠ n := by
      intro hn
      have hmem := List.mem_map_of_mem (f := StorageBlock.ptr) (KeyedTable.mem_of_find hp)
      rw [show b.ptr = p from KeyedTable.key_of_find hp] at hmem
      exact hother (List.mem_filter.mpr ⟨hmem, by simpa using hn⟩)
    obtain ⟨hclean, hread⟩ := h.detached p b hp hold
    refine ⟨?_, hread⟩
    rintro ⟨c, hc, hd⟩
    rw [find_place, if_neg hne] at hc
    exact hclean ⟨c, hc, hd⟩
  handles := h.handles
  writes i x hx := by
    refine (h.writes i x hx).mono fun p hp => ?_
    rw [alive_iff] at hp ⊢
    refine hp.imp_left fun hstamp => ?_
    rw [stamp_place]
    split
    · rename_i hn
      rw [← hn, hstamp]
      rfl
    · exact hstamp

/-! ### The parts of the writer -/

omit [DecidableEq H] in
theorem flushBlock (h : m.Sound) (n : ℕ) :
    Sound { m with store := m.store.flushBlock n } where
  stored := h.stored.flush _
  full k b hb hd := by
    obtain ⟨b₀, hb₀, hdata, -, -, ⟨rfl, -⟩ | ⟨hclean, -⟩⟩ := Store.of_find_flush hb
    · exact h.full k b hb₀ hd
    · rw [hclean] at hd
      cases hd
  detached p b hp hnew := by
    obtain ⟨hclean, hread⟩ := h.detached p b hp hnew
    exact ⟨fun hd => hclean (Store.dirty_flushBlock hd).1, fun x hx =>
      Store.flushBlock_read (hread x hx) fun _ c hc => Store.clean_of_not_dirty hclean hc⟩
  handles := h.handles
  writes i x hx := by
    refine (h.writes i x hx).mono fun p hp => ?_
    rw [alive_iff] at hp ⊢
    exact hp.imp_left (Store.stamp_flush p.num).trans

omit [DecidableEq H] in
/-- **A clean block can be erased**: it is then detached, with the data of its slot. -/
theorem eraseBlock (h : m.Sound) {n : ℕ} (hclean : ¬m.store.dirty n) (k : ℕ) :
    Sound { m with
      store := m.store.eraseBlock n
      erased := k
      detached := ((m.store.blocks.find n).map m.detached.replace).getD m.detached } where
  stored j b x hb hd hx := by
    rw [Store.find_eraseBlock] at hb
    split at hb
    · cases hb
    · exact h.stored j b x hb hd hx
  full j b hb hd := by
    rw [Store.find_eraseBlock] at hb
    split at hb
    · cases hb
    · exact h.full j b hb hd
  detached p b hp hnew := by
    cases hfind : m.store.blocks.find n with
    | none =>
      rw [hfind] at hp
      obtain ⟨hd, hread⟩ := h.detached p b hp hnew
      exact ⟨mt Store.dirty_eraseBlock hd, hread⟩
    | some c =>
      rw [hfind] at hp
      have hfound := KeyedTable.find_replace m.detached c p
      rw [show (m.detached.replace c).find p = some b from hp] at hfound
      split at hfound
      · rename_i hpc
        cases hfound
        have hbn : b.storageBlockNum = n := KeyedTable.key_of_find hfind
        have hnum : p.num = n := by rw [hpc, ← hbn]; rfl
        rw [hnum]
        exact ⟨fun hd => hclean (Store.dirty_eraseBlock hd), fun x hx =>
          h.stored n b x hfind (Store.clean_of_not_dirty hclean hfind) hx⟩
      · obtain ⟨hd, hread⟩ := h.detached p b hfound.symm hnew
        exact ⟨mt Store.dirty_eraseBlock hd, hread⟩
  handles := h.handles
  writes i x hx := (h.writes i x hx).mono fun _ hp => hp.erase n k

end Sound

end Threads

section

omit [DecidableEq H]

theorem Store.Shows.place {s : Store bits H} {blocks : ℕ → Option (Block bits)}
    (h : s.Shows blocks) (n : ℕ) (data : Block bits) (hash : H) :
    (s.place n data hash).Shows (Function.update blocks n (some data)) := by
  intro k x hx
  rw [content_place]
  rw [Function.update_apply] at hx
  split
  · rename_i hk
    rwa [if_pos hk] at hx
  · rename_i hk
    rw [if_neg hk] at hx
    exact h k x hx

theorem Store.Shows.flushBlock {s : Store bits H} {blocks : ℕ → Option (Block bits)}
    (h : s.Shows blocks) (n : ℕ) : (s.flushBlock n).Shows blocks :=
  fun k x hx => Store.content_flush (h k x hx)

theorem Store.Shows.eraseBlock {s : Store bits H} {blocks : ℕ → Option (Block bits)}
    (h : s.Shows blocks) (hs : s.Stored) {n : ℕ} (hclean : ¬s.dirty n) :
    (s.eraseBlock n).Shows blocks := by
  intro k x hx
  have hcontent := h k x hx
  rw [Store.content, Store.find_eraseBlock]
  split
  · rename_i hk
    rw [Store.content, Option.or_eq_some_iff] at hcontent
    rcases hcontent with hcached | ⟨-, hread⟩
    · obtain ⟨b, hb, hdata⟩ := Option.bind_eq_some_iff.mp hcached
      exact hs k b x hb (Store.clean_of_not_dirty hclean (hk ▸ hb)) hdata
    · exact hread
  · exact hcontent

end

/-! ### Steps and runs -/

namespace Threads

variable {m m' : Threads bits H}

/-- The invariant, a cache that follows the writes that were completed, and each of these has kept
what it does not write. -/
def Kept (blocks : ℕ → Option (Block bits)) (m : Threads bits H) (ws : List (Finished bits)) :
    Prop :=
  m.Sound ∧ m.store.Shows (ws.foldl Finished.apply blocks) ∧ ∀ w ∈ ws, w.chunk.Keeps w.before w.data

section parts

variable {cfg : Config bits H} {ws : List (Finished bits)} {blocks : ℕ → Option (Block bits)}
  {fh n : ℕ} {buf : List UInt8} {c : Chunk}

theorem Sound.locate_kept (h : m.Sound) (hshows : m.store.Shows blocks)
    (hstep : m.step cfg (.locate fh buf c) = .ok (m', ws)) : m'.Kept blocks ws := by
  simp only [Threads.step] at hstep
  split at hstep
  · cases hstep
  · rename_i fi opened
    split at hstep
    · cases hstep
    · cases hstep
      obtain ⟨hcalm, hpointed⟩ := h.locate cfg opened c.block
      refine ⟨?_, hcalm.shows hshows, fun w hw => by cases hw⟩
      exact ((h.calm hcalm).setBlock opened hpointed).setWrite (.located hpointed)

/-- The old block is taken: an orderly write of a part does not take nothing for one. -/
theorem Sound.take_kept (h : m.Sound) (hshows : m.store.Shows blocks)
    (hok : m.Orderly (.take fh n)) (hstep : m.step cfg (.take fh n) = .ok (m', ws)) :
    m'.Kept blocks ws := by
  simp only [Threads.step] at hstep
  split at hstep
  · rename_i fh' buf c fblock hx
    cases hstep
    have hw := h.writes _ _ hx
    refine ⟨h.setWrite (.taken hw.pointed (fun p hp => ?_) fun hnone hpart => ?_), hshows,
      fun w hw => by cases hw⟩
    · obtain ⟨b, hl, rfl⟩ := Option.map_eq_some_iff.mp hp
      obtain ⟨hptr, hobj⟩ := lock_eq_some hl
      exact ⟨hw.pointed b.ptr hptr, by rw [Alive, hobj]; rfl⟩
    · by_contra hne
      have hsome := hok _ hx hpart hne
      rw [Option.map_eq_none_iff.mp hnone] at hsome
      cases hsome
  · cases hstep

theorem Sound.copy_kept (h : m.Sound) (hshows : m.store.Shows blocks)
    (hok : m.Orderly (.copy fh n)) (hstep : m.step cfg (.copy fh n) = .ok (m', ws)) :
    m'.Kept blocks ws := by
  simp only [Threads.step] at hstep
  split at hstep
  · rename_i fh' buf c fblock first hx
    cases hold : m.oldData first c.len with
    | error e => simp [hold] at hstep
    | ok q =>
      obtain ⟨m₁, old⟩ := q
      rw [hold] at hstep
      cases hstep
      have hw := h.writes _ _ hx
      obtain ⟨hsound, hcalm, hkept⟩ := h.oldData hw rfl
        (fun p hpart hp => hok _ p hx hpart (congrArg Phase.taken hp)) hold
      exact ⟨hsound.setWrite (.copies hw.pointed (keeps_data c buf hkept)),
        hcalm.shows hshows, fun w hw => by cases hw⟩
  · cases hstep

theorem Sound.commit_kept (h : m.Sound) (hshows : m.store.Shows blocks)
    (hstep : m.step cfg (.commit fh n) = .ok (m', ws)) : m'.Kept blocks ws := by
  simp only [Threads.step] at hstep
  split at hstep
  · rename_i fi fh' buf c fblock first before data opened hx
    cases hstep
    have hw := h.writes _ _ hx
    obtain ⟨hsound, hcalm, hpointed⟩ := h.replaced hw.pointed
      (replaceStorageBlock_replaces m.store.db fi.stIno fblock (m.lock fblock.storageBlock)
        (cfg.murmur data))
    generalize replaceStorageBlock m.store.db fi.stIno fblock (m.lock fblock.storageBlock)
      (cfg.murmur data) = r at hsound hcalm hpointed ⊢
    have hhandles : ((r.sblock.map m.putObject).getD m).handles = m.handles := by
      cases r.sblock with
      | none => rfl
      | some b => exact putObject_handles b
    refine ⟨?_, hcalm.shows hshows, fun w hw => by cases hw⟩
    have hset := (hsound.calm (.setDb _ r.db)).setBlock (hhandles.symm ▸ opened) hpointed
    rw [hhandles] at hset
    exact hset.setWrite (.commits hpointed (hw.copied _ _ _ rfl))
  · cases hstep

/-- The write ends, and the cache shows it. -/
theorem Sound.update_kept (h : m.Sound) (hshows : m.store.Shows blocks)
    (hstep : m.step cfg (.update fh n) = .ok (m', ws)) : m'.Kept blocks ws := by
  simp only [Threads.step] at hstep
  split at hstep
  · rename_i fi fh' buf c fblock first before data present opened hx
    cases hstep
    have hw := h.writes _ _ hx
    have hkept : ∀ w ∈ [(⟨fblock.storageBlockNum, c, before, data, present⟩ : Finished bits)],
        w.chunk.Keeps w.before w.data := by
      intro w hmem
      rw [List.mem_singleton.mp hmem]
      exact hw.committed _ _ _ _ rfl
    cases present with
    | true =>
      have hcalm := Store.Calm.adjust m.store fblock.storageBlockNum 1
      rw [updateCache_hit]
      exact ⟨((h.calm hcalm).setBlock opened hw.pointed).deleteWrite (fh, n),
        hcalm.shows hshows, hkept⟩
    | false =>
      rw [updateCache_new]
      have hplaced := h.place fblock.storageBlockNum data (cfg.murmur data)
      refine ⟨(hplaced.setBlock opened ?_).deleteWrite (fh, n), hshows.place _ _ _, hkept⟩
      intro p hp
      cases hp
      rfl
  · cases hstep

theorem Sound.flush_kept (h : m.Sound) (hshows : m.store.Shows blocks)
    (hstep : m.step cfg (.flush n) = .ok (m', ws)) : m'.Kept blocks ws := by
  simp only [Threads.step] at hstep
  split at hstep
  · cases hstep
  · cases hstep
    exact ⟨h.flushBlock n, hshows.flushBlock n, fun w hw => by cases hw⟩

theorem Sound.select_kept (h : m.Sound) (hshows : m.store.Shows blocks)
    (hstep : m.step cfg (.select n) = .ok (m', ws)) : m'.Kept blocks ws := by
  simp only [Threads.step] at hstep
  split at hstep
  · cases hstep
  · split at hstep
    · cases hstep
    · cases hstep
      have hflushed := h.flushBlock n
      exact ⟨⟨hflushed.stored, hflushed.full, hflushed.detached, h.handles, hflushed.writes⟩,
        hshows.flushBlock n, fun w hw => by cases hw⟩

/-- A victim is erased, clean. -/
theorem Sound.erase_kept (h : m.Sound) (hshows : m.store.Shows blocks)
    (hok : m.Orderly .erase) (hstep : m.step cfg .erase = .ok (m', ws)) : m'.Kept blocks ws := by
  simp only [Threads.step] at hstep
  split at hstep
  · cases hstep
  · rename_i p hp
    cases hstep
    exact ⟨h.eraseBlock (hok p hp) _, hshows.eraseBlock h.stored (hok p hp),
      fun w hw => by cases hw⟩

theorem Sound.drop_kept (h : m.Sound) (hshows : m.store.Shows blocks)
    (hstep : m.step cfg .drop = .ok (m', ws)) : m'.Kept blocks ws := by
  simp only [Threads.step] at hstep
  split at hstep
  · cases hstep
    exact ⟨⟨h.stored, h.full, h.detached, h.handles, h.writes⟩, hshows, fun w hw => by cases hw⟩
  · cases hstep

end parts

/-- **One orderly step**: the invariant holds again, the cache follows the completed writes, and
a completed write has kept what it does not write. -/
theorem Sound.step {cfg : Config bits H} {a : Part} {ws : List (Finished bits)}
    {blocks : ℕ → Option (Block bits)} (h : m.Sound) (hshows : m.store.Shows blocks)
    (hok : m.Orderly a) (hstep : m.step cfg a = .ok (m', ws)) : m'.Kept blocks ws := by
  cases a with
  | locate fh buf c => exact h.locate_kept hshows hstep
  | take fh n => exact h.take_kept hshows hok hstep
  | copy fh n => exact h.copy_kept hshows hok hstep
  | commit fh n => exact h.commit_kept hshows hstep
  | update fh n => exact h.update_kept hshows hstep
  | flush n => exact h.flush_kept hshows hstep
  | select n => exact h.select_kept hshows hstep
  | erase => exact h.erase_kept hshows hok hstep
  | drop => exact h.drop_kept hshows hstep

omit [DecidableEq H] in
theorem of_sound {cfg : Config bits H} {fs : Fs bits H} (h : fs.Coherent cfg) : (of fs).Sound where
  stored := h.1.stored
  full k b hb hd := (h.1.sound k b hb).full hd
  detached p b hp := by cases hp
  handles fh fi n fb hfi hfb := (h.2 fh fi hfi n fb hfb).2.ptr
  writes i x hx := by cases hx

end Threads

open Threads in
/-- **Eviction loses no write** in runs of orderly steps, from any state that requests lead to:
every storage block contains the data of the last completed write to it, or what it contained at
first, and a partial write has kept the bytes of the old block outside its range. -/
theorem run_writes_kept (cfg : Config bits H) (fs : Fs bits H) (m : Threads bits H)
    (steps : List Part) (outs : List (List (Finished bits)))
    (hfs : Reachable (Fs.step cfg) (Fs.init bits H) fs)
    (hok : Meets (step cfg) Orderly (.of fs) steps)
    (hrun : run (step cfg) (.of fs) steps = .ok (m, outs)) :
    (∀ n x, outs.flatten.foldl Finished.apply fs.store.content n = some x →
      m.store.content n = some x) ∧
    ∀ w ∈ outs.flatten, w.chunk.Keeps w.before w.data := by
  have hinv := run_history
    (I := fun outs m => m.Sound ∧
      m.store.Shows (outs.flatten.foldl Finished.apply fs.store.content) ∧
      ∀ w ∈ outs.flatten, w.chunk.Keeps w.before w.data)
    (fun outs m a m' ws ⟨hm, hshows, hkept⟩ hok hstep => by
      obtain ⟨hm', hshows', hkept'⟩ := hm.step hshows hok hstep
      rw [List.flatten_append, List.flatten_singleton, List.foldl_append]
      refine ⟨hm', hshows', fun w hw => ?_⟩
      exact (List.mem_append.mp hw).elim (hkept w) (hkept' w))
    [] ⟨of_sound (Fs.reachable_coherent hfs), fun n x hx => hx, fun w hw => by cases hw⟩ hok hrun
  exact hinv.2

/-- The state after some requests, with nothing under way. -/
def Threads.after (bits : ℕ) (ops : List Op) : Threads bits (List UInt8) :=
  .of (Fs.after (plainConfig bits) ops)

open Threads in
/-- A victim that is erased, and not yet destroyed, still gives its old data to a write. -/
theorem run_writes_kept_detached :
    ∃ m w, run (step (plainConfig 1)) (.after 1 [.create ['/', 'f'] sIfreg, .write 0 [7, 9] 0])
        [.flush 1, .locate 0 [8] ⟨0, 0, 1, 0⟩, .take 0 0, .select 1, .erase, .copy 0 0, .drop,
          .commit 0 0, .update 0 0, .flush 1] =
        .ok (m, [[], [], [], [], [], [], [], [], [w], []]) ∧
      m.store.content 1 = some w.data ∧ w.data ⟨1, by decide⟩ = w.before ⟨1, by decide⟩ := by
  have hkept := run_writes_kept (plainConfig 1)
    (Fs.after (plainConfig 1) [.create ['/', 'f'] sIfreg, .write 0 [7, 9] 0]) _
    [.flush 1, .locate 0 [8] ⟨0, 0, 1, 0⟩, .take 0 0, .select 1, .erase, .copy 0 0, .drop,
      .commit 0 0, .update 0 0, .flush 1] _ (Fs.after_reachable _ _) ?_ rfl
  · exact ⟨_, _, rfl, hkept.1 1 _ rfl,
      hkept.2 _ (List.mem_singleton.mpr rfl) (by decide) ⟨1, by decide⟩ (by decide)⟩
  · refine .cons trivial rfl (.cons trivial rfl (.cons ?_ rfl (.cons trivial rfl (.cons ?_ rfl
      (.cons ?_ rfl (.cons trivial rfl (.cons trivial rfl (.cons trivial rfl
        (.cons trivial rfl trivial)))))))))
    · intro x hx _ _
      cases hx
      rfl
    · intro p hp hdirty
      cases hp
      obtain ⟨b, hb, hd⟩ := hdirty
      cases hb
      cases hd
    · intro x p _ _ _ hp
      cases hp

open Threads in
/-- **Eviction loses writes.**  A victim is written again between its flush and its erasing: the
new data are gone.  A partial write whose block is erased and destroyed before it takes the weak
pointer puts zeros for the rest; one that holds the erased block while another handle writes
the rest brings the old rest back. -/
theorem eviction_loses_writes :
    (¬∀ (fs : Fs 0 (List UInt8)) (m : Threads 0 (List UInt8)) (steps : List Part)
        (outs : List (List (Finished 0))),
      Reachable (Fs.step (plainConfig 0)) (Fs.init 0 (List UInt8)) fs →
      run (step (plainConfig 0)) (.of fs) steps = .ok (m, outs) →
      m.writes.rows = [] → m.toDelete = [] →
      ∀ n x, outs.flatten.foldl Finished.apply fs.store.content n = some x →
        m.store.content n = some x) ∧
    (∃ m w, run (step (plainConfig 1)) (.after 1 [.create ['/', 'f'] sIfreg, .write 0 [7, 9] 0])
        [.locate 0 [8] ⟨0, 0, 1, 0⟩, .select 1, .erase, .drop, .take 0 0, .copy 0 0,
          .commit 0 0, .update 0 0] = .ok (m, [[], [], [], [], [], [], [], [w]]) ∧
      m.writes.rows = [] ∧ List.ofFn w.before = [7, 9] ∧ List.ofFn w.data = [8, 0]) ∧
    ∃ m w w', run (step (plainConfig 1))
        (.after 1 [.create ['/', 'f'] sIfreg, .write 0 [7, 9] 0, .openFile ['/', 'f']])
        [.locate 0 [8] ⟨0, 0, 1, 0⟩, .take 0 0, .select 1, .erase, .drop,
          .locate 1 [5] ⟨0, 1, 1, 0⟩, .take 1 0, .copy 1 0, .commit 1 0, .update 1 0,
          .copy 0 0, .commit 0 0, .update 0 0] =
        .ok (m, [[], [], [], [], [], [], [], [], [], [w], [], [], [w']]) ∧
      m.writes.rows = [] ∧ List.ofFn w'.before = [7, 5] ∧ List.ofFn w'.data = [8, 9] := by
  refine ⟨fun hall => ?_, ⟨_, _, rfl, rfl, rfl, rfl⟩, _, _, _, rfl, rfl, rfl, rfl⟩
  have hlost := hall (Fs.after (plainConfig 0) [.create ['/', 'f'] sIfreg, .write 0 [7] 0]) _
    [.select 1, .locate 0 [8] ⟨0, 0, 1, 0⟩, .take 0 0, .copy 0 0, .commit 0 0, .update 0 0, .erase,
      .drop] _ (Fs.after_reachable _ _) rfl rfl rfl 1 _ rfl
  exact absurd (congrFun (Option.some.inj hlost) ⟨0, by decide⟩) (by decide)

end Wwdedup
