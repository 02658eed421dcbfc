import Mathlib.Algebra.Order.Field.Basic
import Mathlib.Tactic.Linarith

/-!
# A leaking reservoir

Each step adds an inflow to what is stored and then loses the share `k` of the
sum.  An inflow of at most `m` never brings the sum above `m / k`.
-/

namespace Leak

variable {𝕜 : Type*} [Field 𝕜]

def leak (k h x : 𝕜) : 𝕜 := h + x - k * (h + x)

theorem leak_eq (k h x : 𝕜) : leak k h x = (1 - k) * (h + x) := by
  rw [leak, sub_mul, one_mul]

/-- What an inflow of at most `m` can leave in store. -/
def bound (k m : 𝕜) : 𝕜 := m / k - m

variable [LinearOrder 𝕜] [IsStrictOrderedRing 𝕜] {k m h h' x x' : 𝕜}

theorem leak_nonneg (hk : k ≤ 1) (hh : 0 ≤ h) (hx : 0 ≤ x) : 0 ≤ leak k h x := by
  rw [leak_eq]
  exact mul_nonneg (sub_nonneg.mpr hk) (add_nonneg hh hx)

theorem leak_le_leak (hk : k ≤ 1) (hh : h ≤ h') (hx : x ≤ x') : leak k h x ≤ leak k h' x' := by
  rw [leak_eq, leak_eq]
  exact mul_le_mul_of_nonneg_left (add_le_add hh hx) (sub_nonneg.mpr hk)

theorem bound_nonneg (hk : 0 < k) (hk' : k ≤ 1) (hm : 0 ≤ m) : 0 ≤ bound k m :=
  sub_nonneg.mpr (le_div_self hm hk hk')

theorem add_le_of_le_bound (hh : h ≤ bound k m) (hx : x ≤ m) : h + x ≤ m / k := by
  rw [bound] at hh
  linarith

theorem leak_le_bound (hk : 0 < k) (hk' : k ≤ 1) (hh : h ≤ bound k m) (hx : x ≤ m) :
    leak k h x ≤ bound k m := by
  calc leak k h x = (1 - k) * (h + x) := leak_eq k h x
    _ ≤ (1 - k) * (m / k) :=
        mul_le_mul_of_nonneg_left (add_le_of_le_bound hh hx) (sub_nonneg.mpr hk')
    _ = bound k m := by rw [bound, sub_mul, one_mul, mul_div_cancel₀ m hk.ne']

end Leak
