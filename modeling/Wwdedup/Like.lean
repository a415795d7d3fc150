import Wwdedup.Types

/-!
# LIKE

SQLite's LIKE without an escape character.  It reads the bytes of pattern and string as UTF-8:
`_` stands for one character, of however many bytes, and `%` begins and ends between characters.
(`string::length()`, by which `rename` cuts a path, counts bytes.)

What the patterns of directories need is that a slash is one byte and never a part of another
character (`utf8Chars_slash`, `count_utf8Chars`): a pattern with a slash in it is one in two parts.
-/

namespace Wwdedup

/-! ### Characters -/

/-- A byte that goes on with the character before it. -/
def isContinuation (b : Char) : Bool := 0x80 ≤ b.toNat && b.toNat < 0xC0

/-- What the first byte of a character of several bytes gives to it. -/
def leadBits (lead : ℕ) : ℕ :=
  if lead < 0xE0 then lead - 0xC0
  else if lead < 0xF0 then lead - 0xE0
  else if lead < 0xF8 then lead - 0xF0
  else if lead < 0xFC then lead - 0xF8
  else if lead < 0xFE then lead - 0xFC
  else 0

/-- A character of several bytes, in 32 bits; a short one that is spelled long, a surrogate and
U+FFFE read as U+FFFD. -/
def codePoint (lead : Char) (rest : Path) : ℕ :=
  let c := rest.foldl (fun c b => (c * 64 + b.toNat % 64) % 2 ^ 32) (leadBits lead.toNat)
  if c < 0x80 || c / 0x800 = 0x1B || c / 2 = 0x7FFF then 0xFFFD else c

/-- The characters of a string; `within` if it begins behind the first byte of one, which has taken
the bytes that go on with it. -/
def utf8Chars (within : Bool) : Path → List ℕ
  | [] => []
  | b :: p =>
    if within && isContinuation b then utf8Chars true p
    else if b.toNat < 0xC0 then b.toNat :: utf8Chars false p
    else codePoint b (p.takeWhile isContinuation) :: utf8Chars true p

/-- ASCII letters match in either case. -/
def lower (c : ℕ) : ℕ := if 65 ≤ c ∧ c ≤ 90 then c + 32 else c

/-- The match of a pattern, character by character: `%` stands for any characters, `_` for any one
of them. -/
def likeChars : List ℕ → List ℕ → Bool
  | [], s => s.isEmpty
  | c :: p, s =>
    if c = '%'.toNat then s.tails.any (likeChars p)
    else
      match s with
      | [] => false
      | d :: s => (c = '_'.toNat || lower c = lower d) && likeChars p s

/-- `s LIKE p`. -/
def like (p s : Path) : Bool := likeChars (utf8Chars false p) (utf8Chars false s)

/-- `_` is one character of two bytes. -/
example : like ['_', '/', '%'] [.ofNat 0xC3, .ofNat 0xA9, '/', 'x'] = true := by decide

/-! ### A slash is a character -/

theorem utf8Chars_cons (within : Bool) (b : Char) (p : Path) :
    utf8Chars within (b :: p) =
      if within && isContinuation b then utf8Chars true p
      else if b.toNat < 0xC0 then b.toNat :: utf8Chars false p
      else codePoint b (p.takeWhile isContinuation) :: utf8Chars true p := rfl

theorem takeWhile_slash (p q : Path) :
    (p ++ '/' :: q).takeWhile isContinuation = p.takeWhile isContinuation := by
  induction p with
  | nil => rfl
  | cons b p ih => rw [List.cons_append, List.takeWhile_cons, List.takeWhile_cons, ih]

theorem utf8Chars_slash (within : Bool) (p q : Path) :
    utf8Chars within (p ++ '/' :: q) =
      utf8Chars within p ++ '/'.toNat :: utf8Chars false q := by
  induction p generalizing within with
  | nil => cases within <;> rfl
  | cons b p ih =>
    rw [List.cons_append, utf8Chars_cons, utf8Chars_cons, takeWhile_slash, ih, ih]
    split
    · rfl
    · split
      · rfl
      · rfl

theorem codePoint_ge (lead : Char) (rest : Path) : 0x80 ≤ codePoint lead rest := by
  unfold codePoint
  dsimp only
  split
  · omega
  · rename_i h
    simp only [Bool.or_eq_true, decide_eq_true_eq, not_or] at h
    omega

/-- No character of several bytes is a slash, and none has a slash in it. -/
theorem count_utf8Chars (within : Bool) (p : Path) :
    (utf8Chars within p).count '/'.toNat = p.count '/' := by
  have hslash : '/'.toNat = 47 := rfl
  induction p generalizing within with
  | nil => rfl
  | cons b p ih =>
    have hbyte : b.toNat = '/'.toNat ↔ b = '/' := Char.toNat_inj
    rw [utf8Chars_cons]
    split
    · rename_i hcont
      have hne : b ≠ '/' := by
        rintro rfl
        cases within <;> cases hcont
      rw [ih, List.count_cons_of_ne hne]
    · split
      · rw [List.count_cons, List.count_cons, ih]
        simp only [beq_iff_eq, hbyte]
      · rename_i hlead
        have hne : b ≠ '/' := by
          rintro rfl
          exact hlead (by decide)
        have hchar : codePoint b (p.takeWhile isContinuation) ≠ '/'.toNat := by
          have hge := codePoint_ge b (p.takeWhile isContinuation)
          omega
        rw [List.count_cons_of_ne hchar, List.count_cons_of_ne hne, ih]

/-! ### Patterns in two parts -/

theorem likeChars_percent (p s : List ℕ) :
    likeChars ('%'.toNat :: p) s = s.tails.any (likeChars p) := by
  cases s <;> simp [likeChars]

theorem likeChars_cons {c : ℕ} (h : c ≠ '%'.toNat) (p : List ℕ) (d : ℕ) (s : List ℕ) :
    likeChars (c :: p) (d :: s) = ((c = '_'.toNat || lower c = lower d) && likeChars p s) := by
  simp only [likeChars, if_neg h]

theorem likeChars_nil {c : ℕ} (h : c ≠ '%'.toNat) (p : List ℕ) : likeChars (c :: p) [] = false := by
  simp only [likeChars, if_neg h]

/-- A string matches a pattern in two parts when it has two parts that match them. -/
theorem likeChars_append (p q s : List ℕ) : likeChars (p ++ q) s = true ↔
    ∃ x y, s = x ++ y ∧ likeChars p x = true ∧ likeChars q y = true := by
  induction p generalizing s with
  | nil =>
    constructor
    · intro h
      exact ⟨[], s, rfl, rfl, h⟩
    · rintro ⟨x, y, rfl, hx, hy⟩
      have hnil : x = [] := List.isEmpty_iff.mp hx
      rw [hnil]
      exact hy
  | cons c p ih =>
    by_cases hc : c = '%'.toNat
    · simp only [hc, List.cons_append, likeChars_percent, List.any_eq_true, List.mem_tails]
      constructor
      · rintro ⟨t, ⟨u, rfl⟩, ht⟩
        obtain ⟨x, y, rfl, hx, hy⟩ := (ih t).mp ht
        exact ⟨u ++ x, y, (List.append_assoc ..).symm, ⟨x, List.suffix_append .., hx⟩, hy⟩
      · rintro ⟨x, y, rfl, ⟨t, ⟨u, rfl⟩, ht⟩, hy⟩
        refine ⟨t ++ y, ⟨u, (List.append_assoc ..).symm⟩, ?_⟩
        exact (ih _).mpr ⟨t, y, rfl, ht, hy⟩
    · cases s with
      | nil =>
        rw [List.cons_append, likeChars_nil hc]
        constructor
        · intro h
          cases h
        · rintro ⟨x, y, hxy, hx, -⟩
          obtain ⟨rfl, -⟩ := List.append_eq_nil_iff.mp hxy.symm
          rw [likeChars_nil hc] at hx
          cases hx
      | cons d s =>
        rw [List.cons_append, likeChars_cons hc, Bool.and_eq_true, ih]
        constructor
        · rintro ⟨hd, x, y, rfl, hx, hy⟩
          exact ⟨d :: x, y, rfl, by rw [likeChars_cons hc, hd, hx]; rfl, hy⟩
        · rintro ⟨x, y, hxy, hx, hy⟩
          cases x with
          | nil =>
            rw [likeChars_nil hc] at hx
            cases hx
          | cons e x =>
            obtain ⟨rfl, rfl⟩ := List.cons.inj hxy
            rw [likeChars_cons hc, Bool.and_eq_true] at hx
            exact ⟨hx.1, x, y, rfl, hx.2, hy⟩

/-- Any characters match `%`. -/
theorem likeChars_any (s : List ℕ) : likeChars ['%'.toNat] s = true := by
  rw [likeChars_percent, List.any_eq_true]
  exact ⟨[], (List.mem_tails ..).mpr List.nil_suffix, rfl⟩

/-- A pattern matches itself, whatever is in it. -/
theorem likeChars_self (p : List ℕ) : likeChars p p = true := by
  induction p with
  | nil => rfl
  | cons c p ih =>
    by_cases hc : c = '%'.toNat
    · -- `%` stands for itself
      rw [hc, likeChars_percent, List.any_eq_true]
      exact ⟨p, (List.mem_tails ..).mpr (List.suffix_cons ..), ih⟩
    · rw [likeChars_cons hc, ih]
      simp

theorem lower_eq_slash {c : ℕ} (h : lower '/'.toNat = lower c) : c = '/'.toNat := by
  have hslash : lower '/'.toNat = 47 := rfl
  rw [hslash] at h
  unfold lower at h
  show c = 47
  split at h
  · omega
  · omega

/-- A slash of the pattern stands for a slash. -/
theorem count_slash_le {p s : List ℕ} (h : likeChars p s = true) :
    p.count '/'.toNat ≤ s.count '/'.toNat := by
  induction p generalizing s with
  | nil => exact Nat.zero_le _
  | cons c p ih =>
    by_cases hc : c = '%'.toNat
    · rw [hc, likeChars_percent, List.any_eq_true] at h
      obtain ⟨t, ht, hlike⟩ := h
      rw [hc, List.count_cons_of_ne (by decide)]
      exact le_trans (ih hlike) (((List.mem_tails ..).mp ht).sublist.count_le _)
    · cases s with
      | nil =>
        rw [likeChars_nil hc] at h
        cases h
      | cons d s =>
        rw [likeChars_cons hc, Bool.and_eq_true] at h
        have hrest := ih h.2
        by_cases hslash : c = '/'.toNat
        · rw [hslash] at h ⊢
          have hd : d = '/'.toNat := by
            refine lower_eq_slash ?_
            have hmatch := h.1
            rw [Bool.or_eq_true, decide_eq_true_eq, decide_eq_true_eq] at hmatch
            exact hmatch.resolve_left (by decide)
          rw [hd, List.count_cons_self, List.count_cons_self]
          omega
        · rw [List.count_cons_of_ne hslash]
          exact le_trans hrest (List.count_le_count_cons ..)

/-- A name as a pattern matches itself, and then what is below it. -/
theorem like_append (d rest : Path) : like (d ++ ['/', '%']) (d ++ '/' :: rest) = true := by
  unfold like
  rw [utf8Chars_slash, utf8Chars_slash, likeChars_append]
  refine ⟨_, _, rfl, likeChars_self _, ?_⟩
  show likeChars (['/'.toNat] ++ ['%'.toNat]) (['/'.toNat] ++ utf8Chars false rest) = true
  rw [likeChars_append]
  exact ⟨_, _, rfl, rfl, likeChars_any _⟩

/-- What is before the last of the characters. -/
theorem before_last_eq {c : ℕ} {x y s t : List ℕ} (hs : c ∉ s) (ht : c ∉ t)
    (h : x ++ c :: s = y ++ c :: t) : x = y := by
  rcases List.append_eq_append_iff.mp h with ⟨a, rfl, ha⟩ | ⟨a, rfl, ha⟩
  · cases a with
    | nil => exact (List.append_nil x).symm
    | cons d a =>
      rw [List.cons_append] at ha
      exact absurd (by rw [(List.cons.inj ha).2]; simp) hs
  · cases a with
    | nil => exact List.append_nil y
    | cons d a =>
      rw [List.cons_append] at ha
      exact absurd (by rw [(List.cons.inj ha).2]; simp) ht

/-- Of the strings with one slash more than the name has, the pattern matches those whose part
before the last slash matches the name. -/
theorem like_slash_iff {d x z : Path} (hz : '/' ∉ z) (hcount : d.count '/' = x.count '/') :
    like (d ++ ['/', '%']) (x ++ '/' :: z) = true ↔ like d x = true := by
  unfold like
  rw [utf8Chars_slash, utf8Chars_slash, likeChars_append]
  constructor
  · rintro ⟨x', y, hxy, hx, hy⟩
    obtain ⟨z', rfl⟩ : ∃ z', y = '/'.toNat :: z' := by
      cases y with
      | nil => cases hy
      | cons c z' =>
        rw [likeChars_cons (by decide), Bool.and_eq_true, Bool.or_eq_true, decide_eq_true_eq,
          decide_eq_true_eq] at hy
        exact ⟨z', by rw [lower_eq_slash (hy.1.resolve_left (by decide))]⟩
    -- all slashes but one are taken by those of the name
    have hle := count_slash_le hx
    have hall := congrArg (List.count '/'.toNat) hxy
    rw [List.count_append, List.count_append, List.count_cons_self, List.count_cons_self,
      count_utf8Chars, count_utf8Chars, List.count_eq_zero.mpr hz] at hall
    rw [count_utf8Chars, hcount] at hle
    have hnone : '/'.toNat ∉ utf8Chars false z := by
      rw [← List.count_eq_zero, count_utf8Chars, List.count_eq_zero.mpr hz]
    have hnone' : '/'.toNat ∉ z' := List.count_eq_zero.mp (by omega)
    rw [before_last_eq hnone hnone' hxy]
    exact hx
  · intro h
    refine ⟨_, _, rfl, h, ?_⟩
    show likeChars (['/'.toNat] ++ ['%'.toNat]) (['/'.toNat] ++ utf8Chars false z) = true
    rw [likeChars_append]
    exact ⟨_, _, rfl, rfl, likeChars_any _⟩

end Wwdedup
