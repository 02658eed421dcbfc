import Mathlib.Data.Nat.Bitwise

/-!
# Contiguous bit fields of a machine word

A field is given by its width `n` and its shift `s`; its mask holds the bits
`s, ..., s + n - 1`.  Writing clears the mask and joins the shifted value,
reading masks and shifts back.  A value below `2 ^ n` is read back as it was
written and leaves every field on other bits alone.
-/

namespace BitField

variable {w v : ℕ}

/-- The bits `s, ..., s + n - 1` of a word of width `w`. -/
def mask (w n s : ℕ) : BitVec w := BitVec.ofNat w (2 ^ n - 1) <<< s

def put (n s : ℕ) (value : BitVec v) (field : BitVec w) : BitVec w :=
  (field &&& ~~~(mask w n s)) ||| (value.setWidth w <<< s)

def get (n s : ℕ) (field : BitVec w) : BitVec w :=
  (field &&& mask w n s) >>> s

theorem getLsbD_mask (n s i : ℕ) :
    (mask w n s).getLsbD i = (decide (i < w) && decide (s ≤ i) && decide (i < s + n)) := by
  have hpow : (2 ^ n - 1).testBit (i - s) = decide (i - s < n) := Nat.testBit_two_pow_sub_one n _
  rw [mask, BitVec.getLsbD_shiftLeft, BitVec.getLsbD_ofNat, hpow]
  by_cases hs : s ≤ i
  · have hlt : ¬ i < s := by omega
    have hiw : i < w → i - s < w := by omega
    have hin : (i - s < n) = (i < s + n) := by
      rw [eq_iff_iff]
      omega
    by_cases hw : i < w <;> simp [hw, hs, hlt, hiw, hin]
  · have hlt : i < s := by omega
    simp [hs, hlt]

theorem getLsbD_get (n s : ℕ) (field : BitVec w) (i : ℕ) :
    (get n s field).getLsbD i = (field.getLsbD (s + i) && decide (i < n)) := by
  rw [get, BitVec.getLsbD_ushiftRight, BitVec.getLsbD_and, getLsbD_mask]
  by_cases hw : s + i < w
  · simp [hw]
  · simp [BitVec.getLsbD_of_ge field (s + i) (by omega)]

theorem getLsbD_put (n s : ℕ) (value : BitVec v) (field : BitVec w) (i : ℕ) :
    (put n s value field).getLsbD i =
      ((field.getLsbD i && !(decide (s ≤ i) && decide (i < s + n))) ||
        (decide (i < w) && (decide (s ≤ i) && value.getLsbD (i - s)))) := by
  rw [put, BitVec.getLsbD_or, BitVec.getLsbD_and, BitVec.getLsbD_not, getLsbD_mask,
    BitVec.getLsbD_shiftLeft, BitVec.getLsbD_setWidth]
  by_cases hw : i < w
  · have hiw : i - s < w := by omega
    by_cases hs : s ≤ i
    · have hlt : ¬ i < s := by omega
      simp [hw, hs, hiw, hlt]
    · have hlt : i < s := by omega
      simp [hw, hs, hlt]
  · simp [hw, BitVec.getLsbD_of_ge field i (by omega)]

theorem getLsbD_of_lt_two_pow {n : ℕ} {value : BitVec v} (h : value.toNat < 2 ^ n) {i : ℕ}
    (hi : n ≤ i) : value.getLsbD i = false :=
  Nat.testBit_lt_two_pow (h.trans_le (Nat.pow_le_pow_right (by omega) hi))

theorem get_put_self {n s : ℕ} {value : BitVec v} (field : BitVec w)
    (hfit : s + n ≤ w) (h : value.toNat < 2 ^ n) :
    (get n s (put n s value field)).setWidth v = value := by
  apply BitVec.eq_of_getLsbD_eq
  intro i hi
  rw [BitVec.getLsbD_setWidth, getLsbD_get, getLsbD_put]
  by_cases hn : i < n
  · have hw : s + i < w := by omega
    simp [hi, hn, hw]
  · simp [hn, getLsbD_of_lt_two_pow h (Nat.le_of_not_lt hn)]

theorem get_put_of_disjoint {n s m t : ℕ} {value : BitVec v} (field : BitVec w)
    (h : value.toNat < 2 ^ n) (hdisj : s + n ≤ t ∨ t + m ≤ s) :
    get m t (put n s value field) = get m t field := by
  apply BitVec.eq_of_getLsbD_eq
  intro i _hi
  rw [getLsbD_get, getLsbD_get, getLsbD_put]
  by_cases hm : i < m
  · rcases hdisj with hlow | hhigh
    · have hout : ¬ t + i < s + n := by omega
      have hbit : value.getLsbD (t + i - s) = false := getLsbD_of_lt_two_pow h (by omega)
      simp [hout, hbit]
    · have hout : ¬ s ≤ t + i := by omega
      simp [hout]
  · simp [hm]

end BitField
