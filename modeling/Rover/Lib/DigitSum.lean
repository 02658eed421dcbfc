import Mathlib.Algebra.BigOperators.Intervals
import Mathlib.Algebra.BigOperators.Ring.Finset
import Mathlib.Tactic.Ring

/-!
# Loops over digits as weighted sums

A loop that takes digits one after the other and multiplies what it has so far
computes a sum in which every digit has the product of the factors from its own
step on as its weight.  With the base as the factor before each step this is
the number written; with the power of the digit's own place as the factor after
each step the exponents add up to triangular numbers.
-/

namespace DigitSum

open Finset

variable {R : Type*} [CommSemiring R]

theorem foldl_add_mul (d b : ℕ → R) (n : ℕ) :
    (List.range n).foldl (fun acc i ↦ (acc + d i) * b i) 0 =
      ∑ i ∈ range n, d i * ∏ j ∈ Ico i n, b j := by
  induction n with
  | zero => rfl
  | succ n ih =>
      have hlast : ∏ j ∈ Ico n (n + 1), b j = b n := by simp
      have hfirst : ∑ i ∈ range n, d i * ∏ j ∈ Ico i (n + 1), b j =
          (∑ i ∈ range n, d i * ∏ j ∈ Ico i n, b j) * b n := by
        rw [sum_mul]
        apply sum_congr rfl
        intro i hi
        rw [prod_Ico_succ_top (mem_range.mp hi).le, mul_assoc]
      rw [List.range_succ, List.foldl_append, ih, sum_range_succ, hfirst, hlast]
      exact add_mul _ _ _

theorem foldl_mul_add (b : R) (d : ℕ → R) (n : ℕ) :
    (List.range n).foldl (fun acc i ↦ b * acc + d i) 0 =
      ∑ i ∈ range n, d i * b ^ (n - 1 - i) := by
  induction n with
  | zero => rfl
  | succ n ih =>
      have hfirst : ∑ i ∈ range n, d i * b ^ (n + 1 - 1 - i) =
          b * ∑ i ∈ range n, d i * b ^ (n - 1 - i) := by
        rw [mul_sum]
        apply sum_congr rfl
        intro i hi
        have hlt := mem_range.mp hi
        have hexp : n + 1 - 1 - i = (n - 1 - i) + 1 := by omega
        rw [hexp, pow_succ]
        ring
      rw [List.range_succ, List.foldl_append, ih, sum_range_succ, hfirst]
      simp

/-- The powers from place `i` on, for `n` places in all. -/
theorem prod_Ico_pow (b : R) {i n : ℕ} (h : i ≤ n) :
    ∏ j ∈ Ico i n, b ^ (n - j - 1) = b ^ ((n - 1 - i) * (n - i) / 2) := by
  have hplaces : ∑ j ∈ Ico i n, (n - j - 1) = ∑ k ∈ range (n - i), (n - i - 1 - k) := by
    rw [sum_Ico_eq_sum_range]
    apply sum_congr rfl
    intro k hk
    omega
  rw [prod_pow_eq_pow_sum, hplaces, sum_range_reflect (fun k ↦ k), sum_range_id, Nat.mul_comm]
  congr 3
  omega

theorem le_triangle (k : ℕ) : k ≤ k * (k + 1) / 2 := by
  rw [Nat.le_div_iff_mul_le Nat.two_pos]
  rcases Nat.eq_zero_or_pos k with rfl | hk
  · rfl
  · exact Nat.mul_le_mul_left k (by omega)

end DigitSum
