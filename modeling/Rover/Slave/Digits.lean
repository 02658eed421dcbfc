import Mathlib.Algebra.Order.BigOperators.Group.Finset
import Mathlib.Data.Nat.ModEq
import Rover.Lib.DigitSum
import Rover.Slave.Board

/-!
# Decimal parameters of any length

`get_str_param_n` multiplies all that it has so far by the power of the current
place.  A digit with `k` digits after it is therefore counted with the power
`0 + 1 + ... + k` of ten instead of `k`, which is the same for the last two
digits only.
-/

namespace Rover.Slave

open Finset Messages

def digitOf (c : Byte) : ℕ := c.toNat - 48

def IsDigits (s : ℕ → Byte) (n : ℕ) : Prop := ∀ i < n, 48 ≤ (s i).toNat ∧ (s i).toNat ≤ 57

instance (s : ℕ → Byte) (n : ℕ) : Decidable (IsDigits s n) :=
  inferInstanceAs (Decidable (∀ i < n, _))

/-- The number that the `n` digits are read as. -/
def decimalValue (s : ℕ → Byte) (n : ℕ) : ℕ :=
  (List.range n).foldl (fun v i ↦ 10 * v + digitOf (s i)) 0

/-- What a digit with `k` digits after it counts too much. -/
def excess (k : ℕ) : ℕ := 10 ^ (k * (k + 1) / 2) - 10 ^ k

variable {s : ℕ → Byte} {n : ℕ}

theorem decimalValue_eq (s : ℕ → Byte) (n : ℕ) :
    decimalValue s n = ∑ i ∈ range n, digitOf (s i) * 10 ^ (n - 1 - i) :=
  DigitSum.foldl_mul_add 10 (fun i ↦ digitOf (s i)) n

theorem digit_mul_le_decimalValue (s : ℕ → Byte) {i n : ℕ} (h : i < n) :
    digitOf (s i) * 10 ^ (n - 1 - i) ≤ decimalValue s n := by
  rw [decimalValue_eq]
  exact single_le_sum_of_canonicallyOrdered (f := fun i ↦ digitOf (s i) * 10 ^ (n - 1 - i))
    (mem_range.mpr h)

theorem toNat_step (w : ℕ) (rval : BitVec w) {c : Byte} (h : 48 ≤ c.toNat) (k : ℕ) :
    (BitVec.ofNat w ((BitVec.ofInt w (rval.toNat + ((c.toNat : ℤ) - 48))).toNat * k)).toNat =
      (rval.toNat + digitOf c) * k % 2 ^ w := by
  have hsum : (rval.toNat : ℤ) + ((c.toNat : ℤ) - 48) = ((rval.toNat + digitOf c : ℕ) : ℤ) := by
    rw [digitOf]
    omega
  rw [hsum, BitVec.ofInt_natCast, BitVec.toNat_ofNat, BitVec.toNat_ofNat, Nat.mod_mul_mod]

/-- The loop computes modulo `2 ^ w`. -/
theorem getStrParamN_eq_mod (w : ℕ) {size : Byte} (h : IsDigits s size.toNat) :
    (getStrParamN w s size).toNat =
      (List.range size.toNat).foldl
        (fun v i ↦ (v + digitOf (s i)) * 10 ^ (size.toNat - i - 1)) 0 % 2 ^ w := by
  rw [getStrParamN]
  generalize size.toNat = n at h
  have hprefix (m : ℕ) (hm : m ≤ n) :
      ((List.range m).foldl (fun (rval : BitVec w) i ↦
        BitVec.ofNat w ((BitVec.ofInt w (rval.toNat + (((s i).toNat : ℤ) - 48))).toNat *
          10 ^ (n - i - 1))) 0).toNat =
      (List.range m).foldl (fun v i ↦ (v + digitOf (s i)) * 10 ^ (n - i - 1)) 0 % 2 ^ w := by
    induction m with
    | zero => simp
    | succ m ih =>
        rw [List.range_succ, List.foldl_append, List.foldl_append]
        simp only [List.foldl_cons, List.foldl_nil]
        rw [toNat_step w _ (h m (by omega)).1, ih (by omega)]
        exact Nat.ModEq.mul_right _ (Nat.ModEq.add_right _ (Nat.mod_modEq _ _))
  exact hprefix n le_rfl

/-- A digit counts its place and the excess of its place. -/
theorem loop_eq (s : ℕ → Byte) (n : ℕ) :
    (List.range n).foldl (fun v i ↦ (v + digitOf (s i)) * 10 ^ (n - i - 1)) 0 =
      decimalValue s n + ∑ i ∈ range n, digitOf (s i) * excess (n - 1 - i) := by
  rw [DigitSum.foldl_add_mul (fun i ↦ digitOf (s i)) (fun i ↦ 10 ^ (n - i - 1)), decimalValue_eq,
    ← sum_add_distrib]
  apply sum_congr rfl
  intro i hi
  have hlt := mem_range.mp hi
  have hplaces : n - i = n - 1 - i + 1 := by omega
  have hle : 10 ^ (n - 1 - i) ≤ 10 ^ ((n - 1 - i) * (n - 1 - i + 1) / 2) :=
    Nat.pow_le_pow_right (by decide) (DigitSum.le_triangle _)
  rw [DigitSum.prod_Ico_pow 10 hlt.le, ← Nat.mul_add, hplaces, excess, Nat.add_sub_cancel' hle]

/-- The number is read exactly when the excesses cancel modulo `2 ^ w`. -/
theorem getStrParamN_eq_iff (w : ℕ) {size : Byte} (h : IsDigits s size.toNat)
    (hfit : decimalValue s size.toNat < 2 ^ w) :
    (getStrParamN w s size).toNat = decimalValue s size.toNat ↔
      2 ^ w ∣ ∑ i ∈ range size.toNat, digitOf (s i) * excess (size.toNat - 1 - i) := by
  rw [getStrParamN_eq_mod w h, loop_eq]
  generalize size.toNat = n at hfit ⊢
  constructor
  · intro heq
    have hmod : decimalValue s n + 0 ≡
        decimalValue s n + ∑ i ∈ range n, digitOf (s i) * excess (n - 1 - i) [MOD 2 ^ w] :=
      (Nat.mod_eq_of_lt hfit).trans heq.symm
    exact Nat.modEq_zero_iff_dvd.mp (Nat.ModEq.add_left_cancel' _ hmod).symm
  · rintro ⟨q, hq⟩
    rw [hq, Nat.add_mul_mod_self_left, Nat.mod_eq_of_lt hfit]

/-! ## In a byte -/

theorem digit_eq_zero_of_lt {i : ℕ} (hfit : decimalValue s n < 2 ^ 8) (hi : i + 3 < n) :
    digitOf (s i) = 0 := by
  by_contra hne
  have hplace : 10 ^ 3 ≤ 10 ^ (n - 1 - i) := Nat.pow_le_pow_right (by decide) (by omega)
  have hle : 1 * 10 ^ 3 ≤ digitOf (s i) * 10 ^ (n - 1 - i) :=
    Nat.mul_le_mul (Nat.pos_of_ne_zero hne) hplace
  have hvalue := digit_mul_le_decimalValue s (show i < n by omega)
  omega

theorem sum_excess_eq (hfit : decimalValue s (n + 3) < 2 ^ 8) :
    ∑ i ∈ range (n + 3), digitOf (s i) * excess (n + 3 - 1 - i) = digitOf (s n) * 900 := by
  have hsmall : ∑ i ∈ range n, digitOf (s i) * excess (n + 3 - 1 - i) = 0 := by
    apply sum_eq_zero
    intro i hi
    rw [digit_eq_zero_of_lt hfit (Nat.add_lt_add_right (mem_range.mp hi) 3), Nat.zero_mul]
  have htwo : n + 3 - 1 - n = 2 := by omega
  have hone : n + 3 - 1 - (n + 1) = 1 := by omega
  have hzero : n + 3 - 1 - (n + 2) = 0 := by omega
  rw [sum_range_succ, sum_range_succ, sum_range_succ, hsmall, htwo, hone, hzero]
  simp [excess]

/-- In a byte a hundreds digit is always counted wrong. -/
theorem getStrParamN_byte_iff {size : Byte} (h : IsDigits s size.toNat)
    (hfit : decimalValue s size.toNat < 2 ^ 8) :
    (getStrParamN 8 s size).toNat = decimalValue s size.toNat ↔
      ∀ i, i + 2 < size.toNat → digitOf (s i) = 0 := by
  rw [getStrParamN_eq_iff 8 h hfit]
  clear h
  generalize size.toNat = n at hfit ⊢
  rcases Nat.lt_or_ge n 3 with hshort | hlong
  · have hsum : ∑ i ∈ range n, digitOf (s i) * excess (n - 1 - i) = 0 := by
      apply sum_eq_zero
      intro i hi
      have hplace : n - 1 - i = 0 ∨ n - 1 - i = 1 := by omega
      rcases hplace with hplace | hplace <;> rw [hplace] <;> simp [excess]
    rw [hsum]
    refine iff_of_true (dvd_zero _) fun i hi ↦ ?_
    omega
  · obtain ⟨m, rfl⟩ := Nat.exists_eq_add_of_le' hlong
    rw [sum_excess_eq hfit]
    constructor
    · intro hdvd i hi
      rcases Nat.lt_or_ge i m with hlt | hge
      · exact digit_eq_zero_of_lt hfit (Nat.add_lt_add_right hlt 3)
      · obtain rfl : i = m := by omega
        have hvalue := digit_mul_le_decimalValue s (show i < i + 3 by omega)
        have hplace : i + 3 - 1 - i = 2 := by omega
        rw [hplace] at hvalue
        omega
    · intro hall
      rw [hall m (by omega), Nat.zero_mul]
      exact dvd_zero _

theorem digit_eq_zero_iff {c : Byte} (h : 48 ≤ c.toNat) : digitOf c = 0 ↔ c = 48 := by
  rw [digitOf, ← BitVec.toNat_inj]
  have h48 : (48 : Byte).toNat = 48 := rfl
  omega

/-! ## The command `G` -/

theorem processTextMessage_G {π : Type} (hal : Hal π) {d : Buffer} (h : d 0 = 71) (b : Board π) :
    (processTextMessage hal d b).ops = b.ops ++ [.pwmDuty (getStrParamN 8 (cdata d 1) 1)
      (getStrParamN 8 (cdata d 2) 1) (getStrParamN 8 (cdata d 3) 3)] := by
  have hletter : (d 0).toNat = 71 := by
    rw [h]
    rfl
  unfold processTextMessage
  simp only [hletter]
  rfl

/-- For every type that the number fits, it is read exactly when the excesses of
the places cancel modulo `2 ^ w`; in a byte that is when all digits before the
last two are 0.  So it is for the duty of `G`. -/
theorem getStrParamN_decimal_iff (size : Byte) (s : ℕ → Byte) (h : IsDigits s size.toNat) :
    (∀ w, decimalValue s size.toNat < 2 ^ w →
      ((getStrParamN w s size).toNat = decimalValue s size.toNat ↔
        2 ^ w ∣ ∑ i ∈ range size.toNat, digitOf (s i) *
          (10 ^ ((size.toNat - 1 - i) * (size.toNat - 1 - i + 1) / 2) -
            10 ^ (size.toNat - 1 - i)))) ∧
    (decimalValue s size.toNat < 2 ^ 8 →
      ((getStrParamN 8 s size).toNat = decimalValue s size.toNat ↔
        ∀ i, i + 2 < size.toNat → s i = 48)) ∧
    ∀ {π : Type} (hal : Hal π) (d : Buffer) (b : Board π), d 0 = 71 → size = 3 → s = cdata d 3 →
      decimalValue s size.toNat < 2 ^ 8 → ∃ timer channel duty,
        (processTextMessage hal d b).ops = b.ops ++ [.pwmDuty timer channel duty] ∧
        (duty.toNat = decimalValue s size.toNat ↔ d 3 = 48) := by
  have hbyte (hfit : decimalValue s size.toNat < 2 ^ 8) :
      (getStrParamN 8 s size).toNat = decimalValue s size.toNat ↔
        ∀ i, i + 2 < size.toNat → s i = 48 := by
    rw [getStrParamN_byte_iff h hfit]
    apply forall_congr'
    intro i
    exact imp_congr_right fun hi ↦ digit_eq_zero_iff (h i (by omega)).1
  refine ⟨fun w hfit ↦ getStrParamN_eq_iff w h hfit, hbyte, ?_⟩
  rintro π hal d b hletter rfl rfl hfit
  have hsize : (3 : Byte).toNat = 3 := rfl
  refine ⟨_, _, _, processTextMessage_G hal hletter b, ?_⟩
  rw [hbyte hfit, hsize]
  constructor
  · intro hall
    exact hall 0 (by decide)
  · intro hfirst i hi
    obtain rfl : i = 0 := by omega
    exact hfirst

/-- The duties `063` and `163`; the first is read as written. -/
theorem getStrParamN_decimal_iff_duty :
    (getStrParamN 8 (fun i ↦ (ascii "063").getD i 0) 3).toNat = 63 ∧
      (getStrParamN 8 (fun i ↦ (ascii "163").getD i 0) 3).toNat ≠ 163 := by
  constructor
  · refine ((getStrParamN_decimal_iff 3 _ (by decide)).2.1 (by decide)).mpr fun i hi ↦ ?_
    change i + 2 < 3 at hi
    obtain rfl : i = 0 := by omega
    rfl
  · intro heq
    have hfirst := ((getStrParamN_decimal_iff 3 _ (by decide)).2.1 (by decide)).mp heq 0
      (by decide)
    exact absurd hfirst (by decide)

/-- The duty `100` is read as 232. -/
theorem getStrParamN_hundred :
    ¬ ∀ (w : ℕ) (size : Byte) (s : ℕ → Byte), IsDigits s size.toNat →
      decimalValue s size.toNat < 2 ^ w →
        (getStrParamN w s size).toNat = decimalValue s size.toNat := by
  intro h
  have heq := h 8 3 (fun i ↦ (ascii "100").getD i 0) (by decide) (by decide)
  exact absurd heq (by decide)

end Rover.Slave
