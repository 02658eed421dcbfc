import Mathlib.Data.Int.Log
import Mathlib.Data.List.DropRight
import Mathlib.Data.Rat.Floor
import Mathlib.Tactic.FieldSimp
import Mathlib.Tactic.Linarith
import Rover.Lib.Decimal
import Rover.Lib.Rounding
import Rover.Lib.StrTo

/-!
# Numbers as text with six digits

The text that a stream makes of a `double` by default, which is that of `%g`,
and what `parseFloat` reads from it.
-/

namespace GFormat

open IStream Decimal Rounding StrTo

def pad : ℕ → ℕ → List (BitVec 8)
  | 0, _ => []
  | k + 1, n => pad k (n / 10) ++ [BitVec.ofNat 8 (48 + n % 10)]

/-- `n / 10 ^ d`, without zeros at the end. -/
def decimal (d n : ℕ) : List (BitVec 8) :=
  let fracs := (pad d (n % 10 ^ d)).rdropWhile fun c ↦ c = 0x30
  digits (n / 10 ^ d) ++ if fracs = [] then [] else 0x2e :: fracs

/-- The exponent has at least two digits. -/
def exponentText (e : ℤ) : List (BitVec 8) :=
  (if e < 0 then 0x2d else 0x2b) ::
    if e.natAbs < 10 then 0x30 :: digits e.natAbs else digits e.natAbs

/-- Six digits `n` and an exponent `e`, for `n * 10 ^ (e - 5)`. -/
def significant (x : ℚ) : ℕ × ℤ :=
  let e := Int.log 10 x
  let n := roundEven (x / 10 ^ (e - 5))
  if n = 10 ^ 6 then (10 ^ 5, e + 1) else (n, e)

def unsignedText (x : ℚ) : List (BitVec 8) :=
  let (n, e) := significant x
  if -4 ≤ e ∧ e < 6 then decimal (5 - e).toNat n else decimal 5 n ++ 0x65 :: exponentText e

def general (x : ℚ) : List (BitVec 8) :=
  if x = 0 then [0x30] else if x < 0 then 0x2d :: unsignedText (-x) else unsignedText x

/-- Nothing is `NaN`. -/
def parseFloat (str : List (BitVec 8)) : Option ℚ :=
  let (negative, r) := sign (str.dropWhile isSpace)
  (number 10 isDigit 0x65 10 r).map fun q ↦ if negative then -q else q

/-! ## Digits -/

def value (ds : List (BitVec 8)) : ℕ := ds.foldl (fun v c ↦ 10 * v + digitValue c) 0

theorem foldl_value (ds : List (BitVec 8)) (v : ℕ) :
    ds.foldl (fun v c ↦ 10 * v + digitValue c) v = v * 10 ^ ds.length + value ds := by
  induction ds generalizing v with
  | nil => simp [value]
  | cons c ds ih =>
      rw [value, List.foldl_cons, List.foldl_cons, ih, ih (10 * 0 + digitValue c), List.length_cons]
      ring

theorem value_append (xs ys : List (BitVec 8)) :
    value (xs ++ ys) = value xs * 10 ^ ys.length + value ys := by
  rw [value, List.foldl_append, foldl_value]
  rfl

theorem isDigit_digit {d : ℕ} (h : d < 10) : isDigit (BitVec.ofNat 8 (48 + d)) = true := by
  rw [isDigit, toNat_digit h, Bool.and_eq_true, decide_eq_true_eq, decide_eq_true_eq]
  omega

theorem digitValue_of_isDigit {c : BitVec 8} (h : isDigit c = true) :
    digitValue c = c.toNat - 48 := by
  rw [digitValue, if_pos h]

theorem value_digits (n : ℕ) : value (digits n) = n := by
  obtain ⟨-, hall, hvalue⟩ := digits_spec n
  refine Eq.trans ?_ hvalue
  exact List.foldl_ext _ _ 0 fun v c hc ↦ by rw [digitValue_of_isDigit (hall c hc)]

theorem pad_spec (d n : ℕ) :
    (pad d n).length = d ∧ (∀ c ∈ pad d n, isDigit c = true) ∧ value (pad d n) = n % 10 ^ d := by
  induction d generalizing n with
  | zero => exact ⟨rfl, fun c hc ↦ absurd hc List.not_mem_nil, (Nat.mod_one n).symm⟩
  | succ d ih =>
      obtain ⟨hlen, hall, hvalue⟩ := ih (n / 10)
      have hlt : n % 10 < 10 := Nat.mod_lt n (by decide)
      refine ⟨?_, fun c hc ↦ ?_, ?_⟩
      · rw [pad, List.length_append, hlen]
        rfl
      · rcases List.mem_append.mp hc with hc | hc
        · exact hall c hc
        · rw [List.mem_singleton.mp hc]
          exact isDigit_digit hlt
      · have hlast : value [BitVec.ofNat 8 (48 + n % 10)] = n % 10 := by
          rw [value, List.foldl_cons, List.foldl_nil, digitValue_of_isDigit (isDigit_digit hlt),
            toNat_digit hlt]
          omega
        rw [pad, value_append, hvalue, hlast, List.length_singleton, pow_one, Nat.pow_succ',
          Nat.mod_mul]
        ring

theorem value_zeros (k : ℕ) : value (List.replicate k 0x30) = 0 := by
  induction k with
  | zero => rfl
  | succ k ih =>
      rw [List.replicate_succ', value_append, ih]
      rfl

/-- What is dropped at the end are zeros. -/
theorem value_rdropWhile (ds : List (BitVec 8)) :
    (ds.rdropWhile fun c ↦ c = 0x30).length ≤ ds.length ∧
      value ds = value (ds.rdropWhile fun c ↦ c = 0x30) *
        10 ^ (ds.length - (ds.rdropWhile fun c ↦ c = 0x30).length) := by
  have hsplit := List.rdropWhile_append_rtakeWhile (p := fun c : BitVec 8 ↦ c = 0x30) (l := ds)
  have hzeros : ds.rtakeWhile (fun c ↦ c = 0x30) =
      List.replicate (ds.rtakeWhile fun c ↦ c = 0x30).length 0x30 :=
    List.eq_replicate_of_mem fun c hc ↦ by simpa using List.mem_rtakeWhile_imp hc
  have hlen := congrArg List.length hsplit
  rw [List.length_append] at hlen
  refine ⟨by omega, ?_⟩
  have hvalue := congrArg value hsplit
  rw [value_append, hzeros, value_zeros, List.length_replicate, Nat.add_zero] at hvalue
  rw [← hvalue, show ds.length - (ds.rdropWhile fun c ↦ c = 0x30).length =
    (ds.rtakeWhile fun c ↦ c = 0x30).length by omega]

/-! ## Reading a decimal -/

/-- What follows does not go on with a digit or a point. -/
def Cut (rest : List (BitVec 8)) : Prop :=
  ∀ c, rest.head? = some c → isDigit c = false ∧ c ≠ 0x2e

theorem Cut.ends {rest : List (BitVec 8)} (h : Cut rest) : Ends rest := fun c hc ↦ (h c hc).1

theorem takeWhile_digits {ds rest : List (BitVec 8)} (hall : ∀ c ∈ ds, isDigit c = true)
    (h : Ends rest) :
    (ds ++ rest).takeWhile isDigit = ds ∧ (ds ++ rest).dropWhile isDigit = rest := by
  rw [List.takeWhile_append_of_pos hall, List.dropWhile_append_of_pos hall]
  cases rest with
  | nil => simp
  | cons c rest => simp [h c rfl]

def fraction (d n : ℕ) : List (BitVec 8) := (pad d (n % 10 ^ d)).rdropWhile fun c ↦ c = 0x30

theorem isDigit_fraction (d n : ℕ) : ∀ c ∈ fraction d n, isDigit c = true :=
  fun c hc ↦ (pad_spec d _).2.1 c ((List.rdropWhile_prefix _ _).subset hc)

theorem mantissa_decimal (d n : ℕ) {rest : List (BitVec 8)} (h : Cut rest) :
    mantissa isDigit (decimal d n ++ rest) = ⟨digits (n / 10 ^ d), fraction d n, rest⟩ := by
  obtain ⟨-, hall, -⟩ := digits_spec (n / 10 ^ d)
  by_cases hnone : fraction d n = []
  · have htext : decimal d n = digits (n / 10 ^ d) := by
      rw [decimal, ← fraction, if_pos hnone, List.append_nil]
    obtain ⟨htake, hdrop⟩ := takeWhile_digits hall h.ends
    rw [htext, mantissa, htake, hdrop, hnone]
    cases rest with
    | nil => rfl
    | cons c rest => exact if_neg (h c rfl).2
  · have htext : decimal d n ++ rest =
        digits (n / 10 ^ d) ++ 0x2e :: (fraction d n ++ rest) := by
      rw [decimal, ← fraction, if_neg hnone, List.append_assoc, List.cons_append]
    have hpoint : Ends (0x2e :: (fraction d n ++ rest)) := by
      intro c hc
      obtain rfl : 0x2e = c := Option.some.inj hc
      decide
    obtain ⟨htake, hdrop⟩ := takeWhile_digits hall hpoint
    obtain ⟨htake', hdrop'⟩ := takeWhile_digits (isDigit_fraction d n) h.ends
    rw [htext, mantissa, htake, hdrop]
    dsimp only
    rw [if_pos rfl, htake', hdrop']

/-- The fraction stands for the digits after the point. -/
theorem value_fraction (d n : ℕ) :
    (value (fraction d n) : ℚ) / 10 ^ (fraction d n).length = (n % 10 ^ d : ℕ) / 10 ^ d := by
  obtain ⟨hlen, -, hvalue⟩ := pad_spec d (n % 10 ^ d)
  obtain ⟨hle, hdropped⟩ := value_rdropWhile (pad d (n % 10 ^ d))
  rw [← fraction, hlen] at hle hdropped
  rw [hvalue, Nat.mod_mod] at hdropped
  have hpow : (10 : ℚ) ^ d = 10 ^ (fraction d n).length * 10 ^ (d - (fraction d n).length) := by
    rw [← pow_add, Nat.add_sub_cancel' hle]
  rw [hdropped, hpow]
  push_cast
  field_simp

theorem number_decimal (d n : ℕ) {rest : List (BitVec 8)} (h : Cut rest) :
    number 10 isDigit 0x65 10 (decimal d n ++ rest) =
      some ((n : ℚ) / 10 ^ d * 10 ^ exponent 0x65 rest) := by
  have hne : digits (n / 10 ^ d) ++ fraction d n ≠ [] := by
    obtain ⟨hne, -, -⟩ := digits_spec (n / 10 ^ d)
    simp [hne]
  have hvalue : (value (digits (n / 10 ^ d) ++ fraction d n) : ℚ) / 10 ^ (fraction d n).length =
      n / 10 ^ d := by
    have hdiv : (n : ℚ) = (n / 10 ^ d : ℕ) * 10 ^ d + (n % 10 ^ d : ℕ) := by
      exact_mod_cast (Nat.div_add_mod' n (10 ^ d)).symm
    rw [value_append, value_digits]
    push_cast
    rw [add_div, value_fraction, mul_div_cancel_right₀ _ (by positivity), hdiv, add_div,
      mul_div_cancel_right₀ _ (by positivity)]
  rw [number, mantissa_decimal d n h]
  dsimp only
  rw [if_neg hne, ← hvalue]
  congr 1
  change (value (digits (n / 10 ^ d) ++ fraction d n) : ℚ) * _ / ((10 : ℕ) : ℚ) ^ _ = _
  push_cast
  ring

theorem numeral_value {negative : Bool} {ds rest : List (BitVec 8)}
    (hall : ∀ c ∈ ds, isDigit c = true) :
    (⟨negative, ds, rest⟩ : Numeral).value = value ds :=
  List.foldl_ext _ _ 0 fun v c hc ↦ by rw [digitValue_of_isDigit (hall c hc)]

/-- The digits of the exponent. -/
theorem exists_exponentText (e : ℤ) :
    ∃ ds, exponentText e = (if e < 0 then 0x2d else 0x2b) :: ds ∧
      (∀ c ∈ ds, isDigit c = true) ∧ value ds = e.natAbs := by
  obtain ⟨-, hall, -⟩ := digits_spec e.natAbs
  have hvalue := value_digits e.natAbs
  by_cases hsmall : e.natAbs < 10
  · refine ⟨0x30 :: digits e.natAbs, by rw [exponentText, if_pos hsmall], fun c hc ↦ ?_, hvalue⟩
    rcases List.mem_cons.mp hc with rfl | hc
    · decide
    · exact hall c hc
  · exact ⟨digits e.natAbs, by rw [exponentText, if_neg hsmall], hall, hvalue⟩

theorem exponent_exponentText (e : ℤ) {rest : List (BitVec 8)} (h : Ends rest) :
    exponent 0x65 (0x65 :: (exponentText e ++ rest)) = e := by
  obtain ⟨ds, htext, hall, hvalue⟩ := exists_exponentText e
  obtain ⟨htake, hdrop⟩ := takeWhile_digits hall h
  have hscan : scan (exponentText e ++ rest) = ⟨decide (e < 0), ds, rest⟩ := by
    rw [htext, List.cons_append]
    by_cases he : e < 0
    · rw [if_pos he, scan, if_pos rfl, unsigned, htake, hdrop, decide_eq_true he]
    · rw [if_neg he, scan, if_neg (by decide), if_pos rfl, unsigned, htake, hdrop,
        decide_eq_false he]
  have hletter : lower 0x65 = 0x65 := by decide
  rw [exponent, if_pos hletter, hscan]
  simp only [numeral_value hall, hvalue, decide_eq_true_eq]
  split <;> omega

/-! ## Six digits -/

/-- The digits are right up to half a unit of the last one. -/
theorem significant_spec {x : ℚ} (h : 0 < x) :
    |((significant x).1 : ℚ) * 10 ^ ((significant x).2 - 5) - x| ≤ 5 / 10 ^ 6 * x := by
  have hlog : (10 : ℚ) ^ Int.log 10 x ≤ x := by exact_mod_cast Int.zpow_log_le_self (by decide) h
  have hunit : (0 : ℚ) < 10 ^ (Int.log 10 x - 5) := zpow_pos (by norm_num) _
  have hvalue : ((significant x).1 : ℚ) * 10 ^ ((significant x).2 - 5) =
      roundEven (x / 10 ^ (Int.log 10 x - 5)) * 10 ^ (Int.log 10 x - 5) := by
    rw [significant]
    split_ifs with hcarry
    · rw [hcarry, show Int.log 10 x + 1 - 5 = Int.log 10 x - 5 + 1 by ring,
        zpow_add_one₀ (by norm_num)]
      push_cast
      ring
    · rfl
  have hround := abs_roundEven_sub (div_nonneg h.le hunit.le)
  have hscale : (10 : ℚ) ^ (Int.log 10 x - 5) = 10 ^ Int.log 10 x / 10 ^ 5 := by
    rw [zpow_sub₀ (by norm_num)]
    norm_num
  rw [hvalue]
  calc |(roundEven (x / 10 ^ (Int.log 10 x - 5)) : ℚ) * 10 ^ (Int.log 10 x - 5) - x|
      = |(roundEven (x / 10 ^ (Int.log 10 x - 5)) : ℚ) - x / 10 ^ (Int.log 10 x - 5)| *
          10 ^ (Int.log 10 x - 5) := by
        rw [← abs_of_pos hunit, ← abs_mul, abs_of_pos hunit, sub_mul,
          div_mul_cancel₀ _ hunit.ne']
    _ ≤ 1 / 2 * 10 ^ (Int.log 10 x - 5) := mul_le_mul_of_nonneg_right hround hunit.le
    _ = 5 / 10 ^ 6 * 10 ^ Int.log 10 x := by
        rw [hscale]
        ring
    _ ≤ 5 / 10 ^ 6 * x := mul_le_mul_of_nonneg_left hlog (by norm_num)

theorem number_unsignedText (x : ℚ) {rest : List (BitVec 8)} (h : Cut rest)
    (hexp : exponent 0x65 rest = 0) :
    number 10 isDigit 0x65 10 (unsignedText x ++ rest) =
      some ((significant x).1 * (10 : ℚ) ^ ((significant x).2 - 5)) := by
  rw [unsignedText]
  dsimp only
  split_ifs with hfixed
  · rw [number_decimal _ _ h, hexp, zpow_zero, mul_one]
    have hpow : (10 : ℚ) ^ ((significant x).2 - 5) = (10 ^ (5 - (significant x).2).toNat)⁻¹ := by
      rw [← zpow_natCast, ← zpow_neg, Int.toNat_of_nonneg (by omega), neg_sub]
    rw [hpow, div_eq_mul_inv]
  · have hletter : Cut (0x65 :: (exponentText (significant x).2 ++ rest)) := by
      intro c hc
      obtain rfl : 0x65 = c := Option.some.inj hc
      decide
    rw [List.append_assoc, List.cons_append, number_decimal _ _ hletter,
      exponent_exponentText _ h.ends, zpow_sub₀ (by norm_num : (10 : ℚ) ≠ 0)]
    congr 1
    norm_num
    ring

/-! ## The whole text -/

/-- The characters of a number. -/
def isNumberChar (c : BitVec 8) : Bool :=
  isDigit c || c == 0x2e || c == 0x65 || c == 0x2d || c == 0x2b

theorem isNumberChar_decimal (d n : ℕ) : ∀ c ∈ decimal d n, isNumberChar c = true := by
  have hdigit {c : BitVec 8} (h : isDigit c = true) : isNumberChar c = true := by
    simp [isNumberChar, h]
  intro c hc
  rw [decimal, ← fraction] at hc
  rcases List.mem_append.mp hc with hc | hc
  · exact hdigit ((digits_spec _).2.1 c hc)
  · split_ifs at hc
    · exact absurd hc List.not_mem_nil
    · rcases List.mem_cons.mp hc with rfl | hc
      · decide
      · exact hdigit (isDigit_fraction d n c hc)

theorem isNumberChar_exponentText (e : ℤ) : ∀ c ∈ exponentText e, isNumberChar c = true := by
  obtain ⟨ds, htext, hall, -⟩ := exists_exponentText e
  intro c hc
  rw [htext] at hc
  rcases List.mem_cons.mp hc with rfl | hc
  · split_ifs <;> decide
  · simp [isNumberChar, hall c hc]

theorem isNumberChar_unsignedText (x : ℚ) : ∀ c ∈ unsignedText x, isNumberChar c = true := by
  intro c hc
  rw [unsignedText] at hc
  dsimp only at hc
  split_ifs at hc
  · exact isNumberChar_decimal _ _ c hc
  · rcases List.mem_append.mp hc with hc | hc
    · exact isNumberChar_decimal _ _ c hc
    · rcases List.mem_cons.mp hc with rfl | hc
      · decide
      · exact isNumberChar_exponentText _ c hc

theorem isNumberChar_general (x : ℚ) : ∀ c ∈ general x, isNumberChar c = true := by
  intro c hc
  rw [general] at hc
  split_ifs at hc
  · rw [List.mem_singleton.mp hc]
    decide
  · rcases List.mem_cons.mp hc with rfl | hc
    · decide
    · exact isNumberChar_unsignedText _ c hc
  · exact isNumberChar_unsignedText _ c hc

theorem decimal_begins (d n : ℕ) : ∃ c r, decimal d n = c :: r ∧ isDigit c = true := by
  obtain ⟨hne, hall, -⟩ := digits_spec (n / 10 ^ d)
  obtain ⟨c, ds, hds⟩ := List.exists_cons_of_ne_nil hne
  refine ⟨c, _, by rw [decimal, hds, List.cons_append], hall c ?_⟩
  rw [hds]
  exact List.mem_cons_self

theorem unsignedText_begins (x : ℚ) : ∃ c r, unsignedText x = c :: r ∧ isDigit c = true := by
  rw [unsignedText]
  dsimp only
  split_ifs
  · exact decimal_begins _ _
  · obtain ⟨c, r, htext, hc⟩ := decimal_begins 5 (significant x).1
    exact ⟨c, _, by rw [htext, List.cons_append], hc⟩

theorem parseFloat_unsignedText {x : ℚ} (h : 0 < x) :
    (∃ q, parseFloat (unsignedText x) = some q ∧ |q - x| ≤ 5 / 10 ^ 6 * x) ∧
      ∃ q, parseFloat (0x2d :: unsignedText x) = some q ∧ |q - -x| ≤ 5 / 10 ^ 6 * x := by
  obtain ⟨c, r, htext, hc⟩ := unsignedText_begins x
  have hcut : Cut [] := fun c hc ↦ by simp at hc
  obtain ⟨q, hnumber, hspec⟩ : ∃ q, number 10 isDigit 0x65 10 (unsignedText x ++ []) = some q ∧
      |q - x| ≤ 5 / 10 ^ 6 * x := ⟨_, number_unsignedText x hcut rfl, significant_spec h⟩
  rw [List.append_nil] at hnumber
  have hspace := not_isSpace_of_isDigit hc
  have hsign : sign (unsignedText x) = (false, unsignedText x) := by
    have hminus : c ≠ 0x2d := by
      rintro rfl
      exact absurd hc (by decide)
    have hplus : c ≠ 0x2b := by
      rintro rfl
      exact absurd hc (by decide)
    rw [htext, sign_cons_of_not hminus hplus]
  have hdrop : (unsignedText x).dropWhile isSpace = unsignedText x := by
    rw [htext, List.dropWhile_cons_of_neg (by simp [hspace])]
  have hdrop' : (0x2d :: unsignedText x).dropWhile isSpace = 0x2d :: unsignedText x := rfl
  refine ⟨⟨q, ?_, hspec⟩, -q, ?_, ?_⟩
  · rw [parseFloat, hdrop, hsign]
    simp only [hnumber, Option.map_some, Bool.false_eq_true, if_false]
  · have hminus : sign (0x2d :: unsignedText x) = (true, unsignedText x) := rfl
    rw [parseFloat, hdrop', hminus]
    simp only [hnumber, Option.map_some, if_true]
  · rwa [neg_sub_neg, abs_sub_comm]

/-- What is read is right in six digits. -/
theorem parseFloat_general (x : ℚ) :
    ∃ q, parseFloat (general x) = some q ∧ |q - x| ≤ 5 / 10 ^ 6 * |x| := by
  rcases lt_trichotomy x 0 with hneg | rfl | hpos
  · have htext : general x = 0x2d :: unsignedText (-x) := by
      rw [general, if_neg hneg.ne, if_pos hneg]
    obtain ⟨q, hq, hbound⟩ := (parseFloat_unsignedText (neg_pos.mpr hneg)).2
    rw [neg_neg] at hbound
    rw [htext, abs_of_neg hneg]
    exact ⟨q, hq, hbound⟩
  · exact ⟨0, by decide +kernel, by simp⟩
  · have htext : general x = unsignedText x := by
      rw [general, if_neg hpos.ne', if_neg hpos.not_gt]
    rw [htext, abs_of_pos hpos]
    exact (parseFloat_unsignedText hpos).1

example : general (123456789 / 1000) = text "123457" := by decide +kernel

example : general (-41 / 8) = text "-5.125" := by decide +kernel

example : general (1 / 100000) = text "1e-05" := by decide +kernel

end GFormat
