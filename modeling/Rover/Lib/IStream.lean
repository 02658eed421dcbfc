import Mathlib.Data.List.TakeWhile
import Mathlib.Tactic.Linarith

/-!
# Formatted extraction from a character stream

The extraction operators of `std::istream` for words and decimal integers, in
the "C" locale.  An extraction that does not get past the sentry leaves its
target untouched, one that finds no number stores 0, and one that overflows
stores the nearest representable value; all three set `failbit`.
-/

/-- The characters not read yet and the state bits. -/
structure IStream where
  rest : List (BitVec 8)
  eof : Bool := false
  fail : Bool := false
  deriving DecidableEq, Repr

namespace IStream

def isSpace (c : BitVec 8) : Bool := c.toNat == 32 || (9 ≤ c.toNat && c.toNat ≤ 13)

def isDigit (c : BitVec 8) : Bool := 48 ≤ c.toNat && c.toNat ≤ 57

def good (s : IStream) : Bool := !s.eof && !s.fail

/-- The sentry skips white space; it fails on a stream that is not good and on
one that ends there. -/
def sentry (s : IStream) : Bool × IStream :=
  if s.good then
    let rest := s.rest.dropWhile isSpace
    if rest.isEmpty then (false, { rest := [], eof := true, fail := true })
    else (true, { s with rest := rest })
  else (false, { s with fail := true })

/-- `operator>>` for a string; `none` when the target is left untouched. -/
def word (s : IStream) : Option (List (BitVec 8)) × IStream :=
  match sentry s with
  | (false, s) => (none, s)
  | (true, s) =>
      let rest := s.rest.dropWhile (!isSpace ·)
      (some (s.rest.takeWhile (!isSpace ·)), { s with rest := rest, eof := rest.isEmpty })

structure Numeral where
  negative : Bool
  digits : List (BitVec 8)
  rest : List (BitVec 8)
  deriving DecidableEq, Repr

def unsigned (negative : Bool) (r : List (BitVec 8)) : Numeral :=
  ⟨negative, r.takeWhile isDigit, r.dropWhile isDigit⟩

def scan : List (BitVec 8) → Numeral
  | [] => unsigned false []
  | c :: r =>
      if c = 0x2d then unsigned true r
      else if c = 0x2b then unsigned false r
      else unsigned false (c :: r)

namespace Numeral

def value (n : Numeral) : ℕ := n.digits.foldl (fun v c ↦ 10 * v + (c.toNat - 48)) 0

def limit (w : ℕ) (signed : Bool) (n : Numeral) : ℕ :=
  if signed then (if n.negative then 2 ^ (w - 1) else 2 ^ (w - 1) - 1) else 2 ^ w - 1

def Fits (w : ℕ) (signed : Bool) (n : Numeral) : Prop := n.digits ≠ [] ∧ n.value ≤ n.limit w signed

instance (w : ℕ) (signed : Bool) (n : Numeral) : Decidable (n.Fits w signed) :=
  inferInstanceAs (Decidable (_ ∧ _))

/-- The value stored; a negative number wraps around in an unsigned type. -/
def result (w : ℕ) (signed : Bool) (n : Numeral) : BitVec w :=
  if n.digits.isEmpty then 0
  else if n.limit w signed < n.value then BitVec.ofNat w (n.limit w signed)
  else if n.negative then -BitVec.ofNat w n.value
  else BitVec.ofNat w n.value

end Numeral

/-- `operator>>` for an integer type of `w` bits. -/
def num (w : ℕ) (signed : Bool) (s : IStream) : Option (BitVec w) × IStream :=
  match sentry s with
  | (false, s) => (none, s)
  | (true, s) =>
      let n := scan s.rest
      (some (n.result w signed),
        { rest := n.rest, eof := n.rest.isEmpty, fail := !decide (n.Fits w signed) })

/-- What `std::getline` takes from a file, line by line. -/
def getlines : List (BitVec 8) → List (List (BitVec 8))
  | [] => []
  | c :: s =>
      if c = 0x0a then [] :: getlines s
      else
        match getlines s with
        | [] => [[c]]
        | line :: lines => (c :: line) :: lines

/-! ## Streams without a failure -/

def clean (r : List (BitVec 8)) : IStream := ⟨r, r.isEmpty, false⟩

def blank (r : List (BitVec 8)) : Bool := (r.dropWhile isSpace).isEmpty

theorem sentry_clean (r : List (BitVec 8)) :
    sentry (clean r) = if blank r then (false, { rest := [], eof := true, fail := true })
      else (true, { rest := r.dropWhile isSpace }) := by
  cases r with
  | nil => rfl
  | cons c r => rfl

theorem sentry_start (r : List (BitVec 8)) : sentry { rest := r } = sentry (clean r) := by
  cases r with
  | nil => rfl
  | cons c r => rfl

theorem num_clean_of_blank {r : List (BitVec 8)} (h : blank r = true) (w : ℕ) (signed : Bool) :
    num w signed (clean r) = (none, { rest := [], eof := true, fail := true }) := by
  simp [num, sentry_clean, h]

theorem num_clean {r : List (BitVec 8)} (h : blank r = false) (w : ℕ) (signed : Bool) :
    num w signed (clean r) =
      (some ((scan (r.dropWhile isSpace)).result w signed),
        { rest := (scan (r.dropWhile isSpace)).rest
          eof := (scan (r.dropWhile isSpace)).rest.isEmpty
          fail := !decide ((scan (r.dropWhile isSpace)).Fits w signed) }) := by
  simp [num, sentry_clean, h]

theorem scan_nil : scan [] = ⟨false, [], []⟩ := rfl

theorem blank_eq_false_of_fits {r : List (BitVec 8)} {w : ℕ} {signed : Bool}
    (h : (scan (r.dropWhile isSpace)).Fits w signed) : blank r = false := by
  cases hb : r.dropWhile isSpace with
  | nil =>
      rw [hb, scan_nil] at h
      exact absurd rfl h.1
  | cons c r' => simp [blank, hb]

theorem num_clean_of_fits {r : List (BitVec 8)} {w : ℕ} {signed : Bool}
    (h : (scan (r.dropWhile isSpace)).Fits w signed) :
    num w signed (clean r) = (some ((scan (r.dropWhile isSpace)).result w signed),
      clean (scan (r.dropWhile isSpace)).rest) := by
  rw [num_clean (blank_eq_false_of_fits h)]
  simp [h, clean]

/-! ## The first word -/

def firstWord (r : List (BitVec 8)) : List (BitVec 8) :=
  (r.dropWhile isSpace).takeWhile (!isSpace ·)

def afterWord (r : List (BitVec 8)) : List (BitVec 8) :=
  (r.dropWhile isSpace).dropWhile (!isSpace ·)

theorem word_start (r : List (BitVec 8)) :
    (word { rest := r }).1.getD [] = firstWord r ∧
      (firstWord r ≠ [] → (word { rest := r }).2 = clean (afterWord r)) := by
  rw [word, sentry_start, sentry_clean]
  cases hb : blank r with
  | true =>
      have hnil : r.dropWhile isSpace = [] := List.isEmpty_iff.mp hb
      have hword : firstWord r = [] := by rw [firstWord, hnil, List.takeWhile_nil]
      simp [hword]
  | false => exact ⟨rfl, fun _ ↦ rfl⟩

/-! ## What more characters can change -/

theorem dropWhile_append_of_ne_nil {p : BitVec 8 → Bool} {r : List (BitVec 8)}
    (h : r.dropWhile p ≠ []) (more : List (BitVec 8)) :
    (r ++ more).dropWhile p = r.dropWhile p ++ more := by
  rw [List.dropWhile_append, if_neg (by simpa using h)]

theorem takeWhile_append_of_ne_nil {p : BitVec 8 → Bool} {r : List (BitVec 8)}
    (h : r.dropWhile p ≠ []) (more : List (BitVec 8)) :
    (r ++ more).takeWhile p = r.takeWhile p := by
  rw [List.takeWhile_append, if_neg]
  intro hlen
  have hsplit := congrArg List.length (List.takeWhile_append_dropWhile (p := p) (l := r))
  rw [List.length_append, hlen] at hsplit
  exact h (List.length_eq_zero_iff.mp (by omega))

theorem append_of_dropWhile_eq_nil {p : BitVec 8 → Bool} {r : List (BitVec 8)}
    (h : r.dropWhile p = []) (more : List (BitVec 8)) :
    (r ++ more).takeWhile p = r ++ more.takeWhile p ∧
      (r ++ more).dropWhile p = more.dropWhile p ∧ r.takeWhile p = r := by
  have hall : r.takeWhile p = r := by
    have hsplit := List.takeWhile_append_dropWhile (p := p) (l := r)
    rwa [h, List.append_nil] at hsplit
  refine ⟨?_, ?_, hall⟩
  · rw [List.takeWhile_append, if_pos (by rw [hall])]
  · rw [List.dropWhile_append, if_pos (by simp [h])]

theorem word_append_of_after {r : List (BitVec 8)} (h : afterWord r ≠ [])
    (more : List (BitVec 8)) :
    firstWord (r ++ more) = firstWord r ∧ afterWord (r ++ more) = afterWord r ++ more := by
  have hne : r.dropWhile isSpace ≠ [] := by
    intro hnil
    rw [afterWord, hnil] at h
    exact h rfl
  rw [firstWord, afterWord, dropWhile_append_of_ne_nil hne]
  exact ⟨takeWhile_append_of_ne_nil h more, dropWhile_append_of_ne_nil h more⟩

theorem word_append_of_end {r : List (BitVec 8)} (hne : firstWord r ≠ []) (h : afterWord r = [])
    (more : List (BitVec 8)) :
    firstWord (r ++ more) = firstWord r ++ more.takeWhile (!isSpace ·) ∧
      afterWord (r ++ more) = more.dropWhile (!isSpace ·) := by
  have hspace : r.dropWhile isSpace ≠ [] := by
    intro hnil
    rw [firstWord, hnil] at hne
    exact hne rfl
  obtain ⟨htake, hdrop, hall⟩ := append_of_dropWhile_eq_nil (p := (!isSpace ·)) h more
  rw [firstWord, afterWord, firstWord, dropWhile_append_of_ne_nil hspace, hall]
  exact ⟨htake, hdrop⟩

theorem word_append_of_blank {r : List (BitVec 8)} (h : blank r = true) (more : List (BitVec 8)) :
    firstWord (r ++ more) = firstWord more ∧ afterWord (r ++ more) = afterWord more := by
  obtain ⟨-, hdrop, -⟩ := append_of_dropWhile_eq_nil (List.isEmpty_iff.mp h) more
  rw [firstWord, afterWord, hdrop]
  exact ⟨rfl, rfl⟩

theorem blank_of_firstWord {r : List (BitVec 8)} (h : firstWord r = []) : blank r = true := by
  cases hr : r.dropWhile isSpace with
  | nil => rw [blank, hr, List.isEmpty_nil]
  | cons c rest =>
      have hhead : isSpace c = false := by
        have hnot := List.head?_dropWhile_not isSpace r
        rw [hr] at hnot
        simpa using hnot
      rw [firstWord, hr, List.takeWhile_cons, hhead] at h
      simp at h

theorem exists_unsigned {r : List (BitVec 8)} (hne : r ≠ []) :
    ∃ negative body, ∀ more, scan (r ++ more) = unsigned negative (body ++ more) := by
  cases r with
  | nil => exact absurd rfl hne
  | cons c r =>
      by_cases hminus : c = 0x2d
      · exact ⟨true, r, fun more ↦ by simp only [List.cons_append, scan, hminus, if_true]⟩
      by_cases hplus : c = 0x2b
      · refine ⟨false, r, fun more ↦ ?_⟩
        simp only [List.cons_append, scan, hplus, if_true]
        rfl
      · exact ⟨false, c :: r, fun more ↦ by
          simp only [List.cons_append, scan, hminus, hplus, if_false]⟩

theorem scan_append_of_rest {r : List (BitVec 8)} (h : (scan r).rest ≠ [])
    (more : List (BitVec 8)) :
    scan (r ++ more) = ⟨(scan r).negative, (scan r).digits, (scan r).rest ++ more⟩ := by
  have hne : r ≠ [] := by
    rintro rfl
    exact h rfl
  obtain ⟨negative, body, hscan⟩ := exists_unsigned hne
  have hr : scan r = unsigned negative body := by simpa using hscan []
  rw [hr] at h ⊢
  have hrest : body.dropWhile isDigit ≠ [] := h
  rw [hscan]
  simp only [unsigned, takeWhile_append_of_ne_nil hrest, dropWhile_append_of_ne_nil hrest]

theorem scan_append_of_end {r : List (BitVec 8)} (hne : r ≠ []) (h : (scan r).rest = [])
    (more : List (BitVec 8)) :
    scan (r ++ more) = ⟨(scan r).negative, (scan r).digits ++ more.takeWhile isDigit,
      more.dropWhile isDigit⟩ := by
  obtain ⟨negative, body, hscan⟩ := exists_unsigned hne
  have hr : scan r = unsigned negative body := by simpa using hscan []
  rw [hr] at h ⊢
  have hrest : body.dropWhile isDigit = [] := h
  obtain ⟨htake, hdrop, hall⟩ := append_of_dropWhile_eq_nil hrest more
  rw [hscan]
  simp only [unsigned, htake, hdrop, hall]

namespace Numeral

variable {w : ℕ}

/-- More digits cannot change the value stored in an unsigned type any more. -/
def Saturated (w : ℕ) (n : Numeral) : Prop :=
  2 ^ w - 1 < n.value ∨ n.negative = false ∧ 2 ^ w - 1 = n.value

instance (w : ℕ) (n : Numeral) : Decidable (n.Saturated w) :=
  inferInstanceAs (Decidable (_ ∨ _))

theorem value_le_append (negative : Bool) (digits more rest rest' : List (BitVec 8)) :
    (⟨negative, digits, rest⟩ : Numeral).value ≤
      (⟨negative, digits ++ more, rest'⟩ : Numeral).value := by
  simp only [value, List.foldl_append]
  generalize digits.foldl (fun v c ↦ 10 * v + (c.toNat - 48)) 0 = v
  induction more generalizing v with
  | nil => exact le_rfl
  | cons c more ih =>
      refine le_trans ?_ (ih (10 * v + (c.toNat - 48)))
      omega

theorem digits_ne_nil {n : Numeral} (h : 0 < n.value) : n.digits ≠ [] := by
  intro hnil
  rw [value, hnil] at h
  exact absurd h (by simp)

theorem result_of_saturated (hw : 0 < w) {n : Numeral} (h : n.Saturated w) :
    n.result w false = BitVec.ofNat w (2 ^ w - 1) := by
  have htwo : 2 ≤ 2 ^ w := by
    calc 2 = 2 ^ 1 := rfl
      _ ≤ 2 ^ w := Nat.pow_le_pow_right (by decide) hw
  have hlimit : n.limit w false = 2 ^ w - 1 := rfl
  have hge : 2 ^ w - 1 ≤ n.value := by
    rcases h with h | ⟨-, h⟩ <;> omega
  have hdigits : n.digits.isEmpty = false := by
    simpa using digits_ne_nil (n := n) (by omega)
  rw [result, hdigits, hlimit, if_neg Bool.false_ne_true]
  rcases h with hover | ⟨hneg, hval⟩
  · rw [if_pos hover]
  · rw [if_neg (by omega), hneg, if_neg Bool.false_ne_true, ← hval]

theorem Saturated.append {n : Numeral} (h : n.Saturated w)
    (more rest : List (BitVec 8)) :
    (⟨n.negative, n.digits ++ more, rest⟩ : Numeral).Saturated w := by
  have hle : n.value ≤ _ := value_le_append n.negative n.digits more n.rest rest
  rcases h with h | ⟨hneg, h⟩
  · exact Or.inl (h.trans_le hle)
  · rcases Nat.lt_or_eq_of_le hle with hlt | heq
    · exact Or.inl (h.trans_lt hlt)
    · exact Or.inr ⟨hneg, h.trans heq⟩

theorem ofNat_ne {x y : ℕ} (hx : x < 2 ^ w) (hy : y < 2 ^ w) (h : x ≠ y) :
    BitVec.ofNat w x ≠ BitVec.ofNat w y := by
  intro heq
  have hnat := congrArg BitVec.toNat heq
  rw [BitVec.toNat_ofNat, BitVec.toNat_ofNat, Nat.mod_eq_of_lt hx, Nat.mod_eq_of_lt hy] at hnat
  exact h hnat

theorem ofNat_max_eq (hw : 0 < w) : BitVec.ofNat w (2 ^ w - 1) = -BitVec.ofNat w 1 := by
  have h1 : 1 % 2 ^ w = 1 := Nat.mod_eq_of_lt (Nat.one_lt_two_pow hw.ne')
  apply BitVec.eq_of_toNat_eq
  rw [BitVec.toNat_neg, BitVec.toNat_ofNat, BitVec.toNat_ofNat, h1]

theorem value_snoc (negative : Bool) (digits : List (BitVec 8)) (c : BitVec 8)
    (rest rest' : List (BitVec 8)) :
    (⟨negative, digits ++ [c], rest⟩ : Numeral).value =
      10 * (⟨negative, digits, rest'⟩ : Numeral).value + (c.toNat - 48) := by
  simp [value]

/-- As long as a numeral is not saturated, one more digit changes the value
stored. -/
theorem result_ne_of_not_saturated (hw : 4 ≤ w) {n : Numeral} (h : ¬ n.Saturated w)
    (rest : List (BitVec 8)) :
    n.result w false ≠ (⟨n.negative, n.digits ++ [0x31], rest⟩ : Numeral).result w false := by
  obtain ⟨negative, digits, rest₀⟩ := n
  have hpow : 16 ≤ 2 ^ w := by
    calc 16 = 2 ^ 4 := rfl
      _ ≤ 2 ^ w := Nat.pow_le_pow_right (by decide) hw
  have hnext : (⟨negative, digits ++ [0x31], rest⟩ : Numeral).value =
      10 * (⟨negative, digits, rest₀⟩ : Numeral).value + 1 := value_snoc negative digits _ _ _
  have hmore : (digits ++ [0x31]).isEmpty = false := by simp
  have hone : BitVec.ofNat w (2 ^ w - 1) = -BitVec.ofNat w 1 := ofNat_max_eq (by omega)
  have hlimit (ds rest : List (BitVec 8)) :
      (⟨negative, ds, rest⟩ : Numeral).limit w false = 2 ^ w - 1 := rfl
  rw [Saturated, not_or, not_and] at h
  obtain ⟨hle, hlt⟩ := h
  rw [result, result, hlimit, hlimit, hnext, hmore, if_neg Bool.false_ne_true]
  dsimp only at hlt ⊢
  generalize hv : (⟨negative, digits, rest₀⟩ : Numeral).value = v at hle hlt ⊢
  rw [if_neg hle]
  by_cases hd : digits.isEmpty = true
  · have hzero : v = 0 := by
      rw [← hv, List.isEmpty_iff.mp hd]
      rfl
    rw [if_pos hd, hzero, if_neg (by omega)]
    change BitVec.ofNat w 0 ≠ _
    cases negative with
    | false => exact ofNat_ne (by omega) (by omega) (by omega)
    | true =>
        rw [if_pos rfl, ← hone]
        exact ofNat_ne (by omega) (by omega) (by omega)
  rw [if_neg hd]
  by_cases hover : 2 ^ w - 1 < 10 * v + 1
  · rw [if_pos hover]
    cases negative with
    | false =>
        have hne := hlt rfl
        exact ofNat_ne (by omega) (by omega) (by omega)
    | true =>
        -- the value stored on overflow is that of -1
        rw [if_pos rfl, hone, ne_eq, BitVec.neg_inj]
        exact ofNat_ne (by omega) (by omega) (by omega)
  · rw [if_neg hover]
    cases negative with
    | false => exact ofNat_ne (by omega) (by omega) (by omega)
    | true =>
        rw [if_pos rfl, if_pos rfl, ne_eq, BitVec.neg_inj]
        exact ofNat_ne (by omega) (by omega) (by omega)

end Numeral

end IStream
