import Mathlib.Algebra.Order.Field.Power
import Mathlib.Data.Int.Log
import Mathlib.Data.Rat.Floor
import Mathlib.Tactic.FieldSimp
import Mathlib.Tactic.Linarith

/-!
# Rounding to binary digits

The neighbour with `p` significant binary digits that the arithmetic of
floating-point numbers gives, away from the ends of the range of exponents.
-/

namespace Rounding

/-- Halves go to the even neighbour. -/
def roundEven (x : ℚ) : ℕ :=
  let n := ⌊x⌋₊
  if x - n < 1 / 2 ∨ x - n = 1 / 2 ∧ n % 2 = 0 then n else n + 1

theorem abs_roundEven_sub {x : ℚ} (h : 0 ≤ x) : |(roundEven x : ℚ) - x| ≤ 1 / 2 := by
  have hle := Nat.floor_le h
  have hlt := Nat.lt_floor_add_one x
  rw [roundEven]
  split_ifs with hdown
  · have hhalf : x - ⌊x⌋₊ ≤ 1 / 2 := hdown.elim le_of_lt fun h ↦ h.1.le
    rw [abs_le]
    constructor <;> linarith
  · have hhalf : 1 / 2 ≤ x - ⌊x⌋₊ := not_lt.mp (not_or.mp hdown).1
    push_cast
    rw [abs_le]
    constructor <;> linarith

theorem roundEven_natCast (n : ℕ) : roundEven n = n := by
  unfold roundEven
  simp

/-- The distance of the numbers with `p` digits around `x`. -/
def ulp (p : ℕ) (x : ℚ) : ℚ := 2 ^ (Int.log 2 x - (p - 1))

def magnitude (p : ℕ) (x : ℚ) : ℚ := roundEven (x / ulp p x) * ulp p x

def nearest (p : ℕ) (x : ℚ) : ℚ := if x < 0 then -magnitude p (-x) else magnitude p x

theorem ulp_pos (p : ℕ) (x : ℚ) : 0 < ulp p x := by
  unfold ulp
  positivity

theorem magnitude_nonneg (p : ℕ) (x : ℚ) : 0 ≤ magnitude p x :=
  mul_nonneg (Nat.cast_nonneg _) (ulp_pos p x).le

theorem ulp_eq (p : ℕ) (x : ℚ) : ulp p x = 2 * 2 ^ Int.log 2 x / 2 ^ p := by
  rw [ulp, zpow_sub₀ two_ne_zero, zpow_sub₀ two_ne_zero, zpow_one, zpow_natCast]
  field_simp

theorem abs_magnitude_sub_le (p : ℕ) {x : ℚ} (hx : 0 < x) :
    |magnitude p x - x| ≤ x / 2 ^ p := by
  have hu := ulp_pos p x
  have hhalf := abs_roundEven_sub (div_nonneg hx.le hu.le)
  have hscale : magnitude p x - x = (roundEven (x / ulp p x) - x / ulp p x) * ulp p x := by
    rw [magnitude, sub_mul, div_mul_cancel₀ _ hu.ne']
  have hlog : (2 : ℚ) ^ Int.log 2 x ≤ x := by
    exact_mod_cast Int.zpow_log_le_self (by norm_num : 1 < 2) hx
  calc |magnitude p x - x|
      = |roundEven (x / ulp p x) - x / ulp p x| * ulp p x := by
        rw [hscale, abs_mul, abs_of_pos hu]
    _ ≤ 1 / 2 * ulp p x := mul_le_mul_of_nonneg_right hhalf hu.le
    _ = 2 ^ Int.log 2 x / 2 ^ p := by rw [ulp_eq]; ring
    _ ≤ x / 2 ^ p := div_le_div_of_nonneg_right hlog (by positivity)

theorem magnitude_zero (p : ℕ) : magnitude p 0 = 0 := by
  have h := roundEven_natCast 0
  rw [Nat.cast_zero] at h
  rw [magnitude, zero_div, h, Nat.cast_zero, zero_mul]

/-- A number that has at most `p` digits already stays as it is. -/
theorem magnitude_mul_zpow {p m : ℕ} (hp : 0 < p) (hm : m ≤ 2 ^ p) (e : ℤ) :
    magnitude p (m * 2 ^ e) = m * 2 ^ e := by
  rcases Nat.eq_zero_or_pos m with rfl | hpos
  · rw [Nat.cast_zero, zero_mul, magnitude_zero]
  have hx : (0 : ℚ) < m * 2 ^ e := by positivity
  -- it is a multiple of the distance: that is at most `2 ^ e`, or `m` is `2 ^ p`
  obtain ⟨n, hn⟩ : ∃ n : ℕ, (m : ℚ) * 2 ^ e / ulp p (m * 2 ^ e) = n := by
    rcases hm.lt_or_eq with hlt | rfl
    · have hlog : Int.log 2 ((m : ℚ) * 2 ^ e) < p + e := by
        apply (Int.lt_zpow_iff_log_lt (by norm_num : 1 < 2) hx).mp
        rw [zpow_add₀ (by norm_num), zpow_natCast]
        have : (m : ℚ) < 2 ^ p := by exact_mod_cast hlt
        push_cast
        exact mul_lt_mul_of_pos_right this (by positivity)
      obtain ⟨k, hk⟩ := Int.le.dest (show Int.log 2 ((m : ℚ) * 2 ^ e) - (p - 1) ≤ e by omega)
      refine ⟨m * 2 ^ k, ?_⟩
      have hpow : (2 : ℚ) ^ e = ulp p (m * 2 ^ e) * 2 ^ k := by
        rw [ulp, ← zpow_natCast, ← zpow_add₀ two_ne_zero, hk]
      rw [div_eq_iff (ulp_pos p _).ne']
      push_cast
      rw [mul_assoc, mul_comm (2 ^ k), ← hpow]
    · refine ⟨2 ^ (p - 1), ?_⟩
      have hlog : Int.log 2 (((2 ^ p : ℕ) : ℚ) * 2 ^ e) = p + e := by
        have h := Int.log_zpow (R := ℚ) (by norm_num : 1 < 2) (p + e)
        rw [zpow_add₀ (by norm_num), zpow_natCast] at h
        push_cast at h ⊢
        exact h
      rw [div_eq_iff (ulp_pos p _).ne', ulp, hlog]
      push_cast
      rw [← zpow_natCast, ← zpow_natCast, ← zpow_add₀ two_ne_zero, ← zpow_add₀ two_ne_zero]
      congr 1
      omega
  rw [magnitude, hn, roundEven_natCast, ← hn, div_mul_cancel₀ _ (ulp_pos p _).ne']

theorem nearest_of_nonneg (p : ℕ) {x : ℚ} (hx : 0 ≤ x) : nearest p x = magnitude p x :=
  if_neg (not_lt.mpr hx)

theorem nearest_nonneg (p : ℕ) {x : ℚ} (hx : 0 ≤ x) : 0 ≤ nearest p x := by
  rw [nearest_of_nonneg p hx]
  exact magnitude_nonneg p x

theorem nearest_zero (p : ℕ) : nearest p 0 = 0 := by
  rw [nearest_of_nonneg p le_rfl, magnitude_zero]

theorem nearest_neg (p : ℕ) (x : ℚ) : nearest p (-x) = -nearest p x := by
  rcases lt_trichotomy x 0 with hx | rfl | hx
  · rw [nearest_of_nonneg p (neg_nonneg.mpr hx.le), nearest, if_pos hx, neg_neg]
  · rw [neg_zero, nearest_zero, neg_zero]
  · rw [nearest_of_nonneg p hx.le, nearest, if_pos (neg_neg_iff_pos.mpr hx), neg_neg]

theorem abs_nearest (p : ℕ) (x : ℚ) : |nearest p x| = nearest p |x| := by
  rcases le_total 0 x with hx | hx
  · rw [abs_of_nonneg hx, abs_of_nonneg (nearest_nonneg p hx)]
  · rw [abs_of_nonpos hx, nearest_neg, abs_of_nonpos]
    have h := nearest_nonneg p (neg_nonneg.mpr hx)
    rw [nearest_neg] at h
    exact neg_nonneg.mp h

/-- The relative error is at most that of a half of the last digit. -/
theorem abs_nearest_sub_le (p : ℕ) (x : ℚ) : |nearest p x - x| ≤ |x| / 2 ^ p := by
  rcases lt_trichotomy x 0 with hx | rfl | hx
  · have h := abs_magnitude_sub_le p (neg_pos.mpr hx)
    rw [nearest, if_pos hx, abs_of_neg hx, ← neg_add', abs_neg, ← sub_neg_eq_add]
    exact h
  · simp [nearest_zero]
  · rw [nearest_of_nonneg p hx.le, abs_of_pos hx]
    exact abs_magnitude_sub_le p hx

theorem nearest_mul_zpow {p m : ℕ} (hp : 0 < p) (hm : m ≤ 2 ^ p) (e : ℤ) :
    nearest p (m * 2 ^ e) = m * 2 ^ e := by
  rw [nearest_of_nonneg p (by positivity), magnitude_mul_zpow hp hm]

theorem roundEven_div_ulp_le (p : ℕ) {x : ℚ} (hx : 0 ≤ x) :
    roundEven (x / ulp p x) ≤ 2 ^ p := by
  have hlog : x < 2 ^ (Int.log 2 x + 1) := by
    exact_mod_cast Int.lt_zpow_succ_log_self (by norm_num : 1 < 2) x
  have hlt : x / ulp p x < 2 ^ p := by
    rw [div_lt_iff₀ (ulp_pos p x), ulp, ← zpow_natCast, ← zpow_add₀ two_ne_zero]
    have hexp : (p : ℤ) + (Int.log 2 x - (p - 1)) = Int.log 2 x + 1 := by ring
    rwa [hexp]
  have hfloor : ⌊x / ulp p x⌋₊ < 2 ^ p := by
    rw [Nat.floor_lt (div_nonneg hx (ulp_pos p x).le)]
    exact_mod_cast hlt
  unfold roundEven
  dsimp only
  split_ifs <;> omega

theorem nearest_nearest {p : ℕ} (hp : 0 < p) (x : ℚ) : nearest p (nearest p x) = nearest p x := by
  have hpos {y : ℚ} (hy : 0 ≤ y) : nearest p (nearest p y) = nearest p y := by
    rw [nearest_of_nonneg p hy, magnitude, ulp]
    exact nearest_mul_zpow hp (roundEven_div_ulp_le p hy) _
  rcases le_total 0 x with hx | hx
  · exact hpos hx
  · have h := hpos (neg_nonneg.mpr hx)
    rwa [nearest_neg, nearest_neg, neg_inj] at h

end Rounding
