import Rover.Lib.IStream

/-!
# Integers as text

The decimal text of an integer, and its extraction from a stream.
-/

namespace Decimal

open IStream

def text (s : String) : List (BitVec 8) := s.toList.map fun c ↦ BitVec.ofNat 8 c.toNat

theorem text_append (s t : String) : text (s ++ t) = text s ++ text t := by
  simp [text]

def digits (n : ℕ) : List (BitVec 8) := text (toString n)

theorem digits_eq (n : ℕ) :
    digits n =
      if n < 10 then [BitVec.ofNat 8 (48 + n)]
      else digits (n / 10) ++ [BitVec.ofNat 8 (48 + n % 10)] := by
  have hchar : ∀ d < 10, BitVec.ofNat 8 d.digitChar.toNat = BitVec.ofNat 8 (48 + d) := by decide
  have hdigits (m : ℕ) : digits m =
      (Nat.toDigits 10 m).map fun c ↦ BitVec.ofNat 8 c.toNat := by
    rw [digits, text, Nat.toString_eq_ofList_toDigits, String.toList_ofList]
  rw [hdigits, hdigits, Nat.toDigits_eq_if (by decide)]
  split
  · next h => simp [hchar n h]
  · simp [hchar (n % 10) (Nat.mod_lt n (by decide))]

theorem toNat_digit {d : ℕ} (h : d < 10) : (BitVec.ofNat 8 (48 + d)).toNat = 48 + d := by
  rw [BitVec.toNat_ofNat]
  omega

/-- The digits are digits, and stand for the number. -/
theorem digits_spec (n : ℕ) :
    digits n ≠ [] ∧ (∀ c ∈ digits n, isDigit c = true) ∧
      (digits n).foldl (fun v c ↦ 10 * v + (c.toNat - 48)) 0 = n := by
  induction n using Nat.strong_induction_on with
  | h n ih =>
      rw [digits_eq]
      split
      · next h =>
          have hd := toNat_digit h
          refine ⟨by simp, ?_, ?_⟩
          · simp only [List.mem_singleton, forall_eq, isDigit, hd, Bool.and_eq_true,
              decide_eq_true_eq]
            omega
          · simp only [List.foldl_cons, List.foldl_nil, hd]
            omega
      · next h =>
          obtain ⟨-, hall, hvalue⟩ := ih (n / 10) (by omega)
          have hd := toNat_digit (Nat.mod_lt n (by decide : 10 > 0))
          refine ⟨by simp, ?_, ?_⟩
          · intro c hc
            rcases List.mem_append.mp hc with hc | hc
            · exact hall c hc
            · rw [List.mem_singleton.mp hc]
              simp only [isDigit, hd, Bool.and_eq_true, decide_eq_true_eq]
              omega
          · simp only [List.foldl_append, hvalue, List.foldl_cons, List.foldl_nil, hd]
            omega

def intText (l : ℤ) : List (BitVec 8) := text (toString l)

theorem intText_eq (l : ℤ) :
    intText l = if l < 0 then 0x2d :: digits l.natAbs else digits l.natAbs := by
  cases l with
  | ofNat n => rfl
  | negSucc n =>
      rw [if_pos (Int.negSucc_lt_zero n)]
      change text ("-" ++ toString (n + 1)) = _
      rw [text_append]
      rfl

/-- What follows a numeral does not go on with a digit. -/
def Ends (rest : List (BitVec 8)) : Prop := ∀ c, rest.head? = some c → isDigit c = false

theorem unsigned_digits (negative : Bool) (n : ℕ) {rest : List (BitVec 8)} (h : Ends rest) :
    unsigned negative (digits n ++ rest) = ⟨negative, digits n, rest⟩ := by
  obtain ⟨-, hall, -⟩ := digits_spec n
  have hrest : rest.takeWhile isDigit = [] ∧ rest.dropWhile isDigit = rest := by
    cases rest with
    | nil => exact ⟨rfl, rfl⟩
    | cons c rest => simp [h c rfl]
  rw [unsigned, List.takeWhile_append_of_pos hall, List.dropWhile_append_of_pos hall, hrest.1,
    hrest.2, List.append_nil]

theorem scan_digits (n : ℕ) {rest : List (BitVec 8)} (h : Ends rest) :
    scan (digits n ++ rest) = ⟨false, digits n, rest⟩ := by
  rw [← unsigned_digits false n h]
  obtain ⟨hne, hall, -⟩ := digits_spec n
  obtain ⟨c, ds, hds⟩ := List.exists_cons_of_ne_nil hne
  have hc : isDigit c = true := hall c (by simp [hds])
  have hminus : c ≠ 0x2d := by
    rintro rfl
    exact absurd hc (by decide)
  have hplus : c ≠ 0x2b := by
    rintro rfl
    exact absurd hc (by decide)
  rw [hds, List.cons_append, scan, if_neg hminus, if_neg hplus]

theorem scan_intText (l : ℤ) {rest : List (BitVec 8)} (h : Ends rest) :
    scan (intText l ++ rest) = ⟨decide (l < 0), digits l.natAbs, rest⟩ := by
  rw [intText_eq]
  by_cases hl : l < 0
  · rw [if_pos hl, List.cons_append, scan, if_pos rfl, unsigned_digits true _ h]
    simp [hl]
  · rw [if_neg hl, scan_digits _ h]
    simp [hl]

theorem not_isSpace_of_isDigit {c : BitVec 8} (h : isDigit c = true) : isSpace c = false := by
  simp only [isDigit, Bool.and_eq_true, decide_eq_true_eq] at h
  simp only [isSpace, Bool.or_eq_false_iff, beq_eq_false_iff_ne, Bool.and_eq_false_iff,
    decide_eq_false_iff_not]
  omega

theorem dropWhile_digits (n : ℕ) (rest : List (BitVec 8)) :
    (0x20 :: (digits n ++ rest)).dropWhile isSpace = digits n ++ rest := by
  obtain ⟨hne, hall, -⟩ := digits_spec n
  obtain ⟨c, ds, hds⟩ := List.exists_cons_of_ne_nil hne
  have hc := not_isSpace_of_isDigit (hall c (by simp [hds]))
  have hblank : isSpace 0x20 = true := by decide
  rw [List.dropWhile_cons, if_pos hblank, hds, List.cons_append, List.dropWhile_cons, hc]
  rfl

theorem dropWhile_intText (l : ℤ) (rest : List (BitVec 8)) :
    (0x20 :: (intText l ++ rest)).dropWhile isSpace = intText l ++ rest := by
  rw [intText_eq]
  split
  · rfl
  · exact dropWhile_digits _ _

/-- Extraction of an `int`. -/
theorem num_intText {l : ℤ} (hl : -2 ^ 31 ≤ l) (hu : l < 2 ^ 31) {rest : List (BitVec 8)}
    (h : Ends rest) :
    num 32 true (clean (0x20 :: (intText l ++ rest))) = (some (BitVec.ofInt 32 l), clean rest) := by
  obtain ⟨hne, -, hvalue⟩ := digits_spec l.natAbs
  have hscan := scan_intText l h
  have hfits : (scan ((0x20 :: (intText l ++ rest)).dropWhile isSpace)).Fits 32 true := by
    rw [dropWhile_intText, hscan]
    refine ⟨hne, ?_⟩
    simp only [Numeral.value, hvalue, Numeral.limit, if_true, decide_eq_true_eq]
    split <;> omega
  rw [num_clean_of_fits hfits, dropWhile_intText, hscan]
  have hlimit := hfits.2
  rw [dropWhile_intText, hscan] at hlimit
  rw [Numeral.result, if_neg (by simpa using hne), if_neg (by omega)]
  simp only [Numeral.value, hvalue, decide_eq_true_eq]
  congr 2
  split
  · next hneg =>
      have hcast : l = -(l.natAbs : ℤ) := by omega
      conv_rhs => rw [hcast]
      rw [BitVec.ofInt_neg]
      rfl
  · next hneg =>
      have hcast : l = (l.natAbs : ℤ) := by omega
      conv_rhs => rw [hcast]
      rfl

/-- Extraction of an unsigned number. -/
theorem num_digits {w n : ℕ} (hn : n < 2 ^ w) {rest : List (BitVec 8)} (h : Ends rest) :
    num w false (clean (0x20 :: (digits n ++ rest))) = (some (BitVec.ofNat w n), clean rest) := by
  obtain ⟨hne, -, hvalue⟩ := digits_spec n
  have hscan := scan_digits n h
  have hfits : (scan ((0x20 :: (digits n ++ rest)).dropWhile isSpace)).Fits w false := by
    rw [dropWhile_digits, hscan]
    refine ⟨hne, ?_⟩
    simp only [Numeral.value, hvalue, Numeral.limit, Bool.false_eq_true, if_false]
    omega
  rw [num_clean_of_fits hfits, dropWhile_digits, hscan]
  have hlimit := hfits.2
  rw [dropWhile_digits, hscan] at hlimit
  rw [Numeral.result, if_neg (by simpa using hne), if_neg (by omega)]
  simp only [Numeral.value, hvalue, Bool.false_eq_true, if_false]

theorem ends_nil : Ends [] := fun c hc ↦ by simp at hc

theorem ends_space (r : List (BitVec 8)) : Ends (0x20 :: r) := by
  intro c hc
  obtain rfl : 0x20 = c := Option.some.inj hc
  decide

end Decimal
