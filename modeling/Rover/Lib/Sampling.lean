import Mathlib.Data.List.Induction
import Mathlib.Data.Nat.ModEq

/-!
# Sampling

A counter of `w` bits that is incremented with every input.  An input that
finds it at the interval or above is due, and when it is accepted as well it is
taken and the counter starts again from 0.
-/

namespace Sampling

variable {ι σ : Type*} {w : ℕ}

def step (interval : BitVec w) (ok : ι → Bool) (update : σ → ι → σ) (s : BitVec w × σ) (i : ι) :
    BitVec w × σ :=
  if interval ≤ s.1 + 1 ∧ ok i = true then (0, update s.2 i) else (s.1 + 1, s.2)

section

variable {interval : BitVec w} {ok : ι → Bool} {update : σ → ι → σ} {s : BitVec w × σ} {i : ι}

theorem step_taken (hdue : interval ≤ s.1 + 1) (hok : ok i = true) :
    step interval ok update s i = (0, update s.2 i) := if_pos ⟨hdue, hok⟩

theorem step_of_not_due (h : ¬ interval ≤ s.1 + 1) :
    step interval ok update s i = (s.1 + 1, s.2) := if_neg fun hand ↦ h hand.1

theorem step_of_refused (h : ok i ≠ true) :
    step interval ok update s i = (s.1 + 1, s.2) := if_neg fun hand ↦ h hand.2

end

section

variable (interval : BitVec w) (ok : ι → Bool)

/-- Whether an input is due that is the `n`-th one after the last one taken. -/
def Due (n : ℕ) : Prop := interval.toNat ≤ n % 2 ^ w

instance (n : ℕ) : Decidable (Due interval n) := inferInstanceAs (Decidable (_ ≤ _))

/-- The inputs taken and the number of inputs after the last of them. -/
def taken (is : List ι) : List ι × ℕ :=
  is.foldl
    (fun s i ↦ if Due interval (s.2 + 1) ∧ ok i = true then (s.1 ++ [i], 0) else (s.1, s.2 + 1))
    ([], 0)

variable {interval ok}

theorem le_succ_iff (n : ℕ) : interval ≤ BitVec.ofNat w n + 1 ↔ Due interval (n + 1) := by
  have hone : (1 : BitVec w).toNat = 1 % 2 ^ w := BitVec.toNat_ofNat 1 w
  rw [Due, BitVec.le_def, BitVec.toNat_add, BitVec.toNat_ofNat, hone, ← Nat.add_mod]

theorem taken_concat (is : List ι) (i : ι) :
    taken interval ok (is ++ [i]) =
      if Due interval ((taken interval ok is).2 + 1) ∧ ok i = true then
        ((taken interval ok is).1 ++ [i], 0)
      else ((taken interval ok is).1, (taken interval ok is).2 + 1) := by
  rw [taken, List.foldl_append]
  rfl

/-- Two inputs taken are at least an interval apart. -/
theorem mul_length_taken_le (is : List ι) :
    interval.toNat * (taken interval ok is).1.length + (taken interval ok is).2 ≤ is.length := by
  induction is using List.reverseRecOn with
  | nil => exact le_rfl
  | append_singleton is i ih =>
      rw [taken_concat, List.length_append, List.length_singleton]
      split_ifs with htake
      · have hdue : interval.toNat ≤ (taken interval ok is).2 + 1 :=
          htake.1.trans (Nat.mod_le _ _)
        rw [List.length_append, List.length_singleton, Nat.mul_succ]
        omega
      · exact Nat.succ_le_succ ih

theorem taken_congr {ok' : ι → Bool} {is : List ι} (h : ∀ i ∈ is, ok i = ok' i) :
    taken interval ok is = taken interval ok' is := by
  induction is using List.reverseRecOn with
  | nil => rfl
  | append_singleton is i ih =>
      rw [taken_concat, taken_concat, ih fun j hj ↦ h j (List.mem_append_left [i] hj),
        h i (by simp)]

/-- The state is that of the inputs taken, one after the other. -/
theorem foldl_step (update : σ → ι → σ) (s : σ) (is : List ι) :
    is.foldl (step interval ok update) (0, s) =
      (BitVec.ofNat w (taken interval ok is).2, (taken interval ok is).1.foldl update s) := by
  induction is using List.reverseRecOn with
  | nil => rfl
  | append_singleton is i ih =>
      rw [List.foldl_append, ih, taken_concat]
      simp only [List.foldl_cons, List.foldl_nil, step, le_succ_iff]
      split_ifs
      · rw [List.foldl_append]
        rfl
      · rw [BitVec.ofNat_add]
        rfl

end

/-! ## Inputs that are always accepted -/

/-- The inputs number `n`, `2 * n` and so on. -/
def multiples (n : ℕ) (is : List ι) : List ι :=
  (is.zipIdx 1).filterMap fun x ↦ if n ∣ x.2 then some x.1 else none

theorem multiples_concat (n : ℕ) (is : List ι) (i : ι) :
    multiples n (is ++ [i]) = multiples n is ++ if n ∣ is.length + 1 then [i] else [] := by
  rw [multiples, List.zipIdx_append, List.filterMap_append, Nat.add_comm is.length 1]
  congr 1
  rw [List.zipIdx_singleton, List.filterMap_cons]
  split_ifs <;> rfl

theorem length_multiples (n : ℕ) (is : List ι) :
    (multiples n is).length = is.length / n := by
  induction is using List.reverseRecOn with
  | nil => exact (Nat.zero_div n).symm
  | append_singleton is i ih =>
      rw [multiples_concat, List.length_append, List.length_append, ih, List.length_singleton,
        Nat.succ_div]
      split_ifs <;> rfl

theorem getElem?_multiples {n : ℕ} (hn : 0 < n) (is : List ι) {k : ℕ} (hk : k < is.length / n) :
    (multiples n is)[k]? = is[n * (k + 1) - 1]? := by
  induction is using List.reverseRecOn with
  | nil => simp at hk
  | append_singleton is i ih =>
      have hlen := length_multiples n is
      have hmul := Nat.div_add_mod is.length n
      have hmod := Nat.mod_lt is.length hn
      rw [List.length_append, List.length_singleton, Nat.succ_div] at hk
      rw [multiples_concat]
      by_cases hold : k < is.length / n
      · have hle : n * (k + 1) ≤ n * (is.length / n) := Nat.mul_le_mul_left n hold
        have hpos : 0 < n * (k + 1) := Nat.mul_pos hn (Nat.succ_pos k)
        rw [List.getElem?_append_left (hold.trans_eq hlen.symm), ih hold,
          List.getElem?_append_left (by omega)]
      · -- the input just read is the one asked for
        have hdvd : n ∣ is.length + 1 := by
          by_contra hno
          rw [if_neg hno] at hk
          exact hold hk
        rw [if_pos hdvd] at hk ⊢
        obtain rfl : k = is.length / n := Nat.le_antisymm (Nat.le_of_lt_succ hk) (not_lt.mp hold)
        have hplace : n * (is.length / n + 1) = is.length + 1 := by
          rw [← Nat.mul_div_cancel' hdvd, Nat.succ_div, if_pos hdvd]
        rw [List.getElem?_append_right hlen.le, hlen, Nat.sub_self, hplace, Nat.add_sub_cancel,
          List.getElem?_append_right le_rfl, Nat.sub_self]

/-- The last input whose number is a multiple of `n`. -/
def latest (n : ℕ) (is : List ι) : Option ι :=
  if n ≤ is.length then is[n * (is.length / n) - 1]? else none

theorem getLast?_multiples {n : ℕ} (hn : 0 < n) (is : List ι) :
    (multiples n is).getLast? = latest n is := by
  rw [List.getLast?_eq_getElem?, length_multiples n, latest]
  split_ifs with hle
  · have hpos : 0 < is.length / n := Nat.div_pos hle hn
    rw [getElem?_multiples hn is (Nat.sub_one_lt hpos.ne'), Nat.sub_add_cancel hpos]
  · rw [Nat.div_eq_of_lt (not_le.mp hle), List.getElem?_eq_none_iff, length_multiples n]
    exact (Nat.div_eq_of_lt (not_le.mp hle)).le

section

variable {interval : BitVec w}

theorem due_iff_dvd (h0 : 0 < interval.toNat) (n : ℕ) :
    Due interval (n % interval.toNat + 1) ↔ interval.toNat ∣ n + 1 := by
  have hlt := interval.isLt
  have hmod := Nat.mod_lt n h0
  have hdvd : interval.toNat ∣ n + 1 ↔ interval.toNat ∣ n % interval.toNat + 1 := by
    conv_lhs => rw [← Nat.mod_add_div n interval.toNat, Nat.add_right_comm]
    exact (Nat.dvd_add_iff_left (Nat.dvd_mul_right _ _)).symm
  rw [Due, Nat.mod_eq_of_lt (by omega), hdvd]
  constructor
  · intro hle
    rw [show n % interval.toNat + 1 = interval.toNat by omega]
  · intro hdvd
    exact Nat.le_of_dvd (Nat.succ_pos _) hdvd

theorem succ_mod_of_not_dvd {n k : ℕ} (h : ¬ k ∣ n + 1) : (n + 1) % k = n % k + 1 := by
  rcases Nat.eq_zero_or_pos k with rfl | hk
  · rw [Nat.mod_zero, Nat.mod_zero]
  · have hmod := Nat.mod_lt n hk
    have hne : n % k + 1 ≠ k := by
      intro hlast
      apply h
      rw [← Nat.mod_add_div n k, Nat.add_right_comm, hlast]
      exact Nat.dvd_add (Nat.dvd_refl k) (Nat.dvd_mul_right k _)
    conv_lhs => rw [← Nat.mod_add_div n k]
    rw [Nat.add_right_comm, Nat.add_mul_mod_self_left, Nat.mod_eq_of_lt (by omega)]

theorem taken_of_accepting (h0 : 0 < interval.toNat) (is : List ι) :
    taken interval (fun _ ↦ true) is =
      (multiples interval.toNat is, is.length % interval.toNat) := by
  induction is using List.reverseRecOn with
  | nil => exact Prod.ext rfl (Nat.zero_mod _).symm
  | append_singleton is i ih =>
      rw [taken_concat, ih, multiples_concat, List.length_append, List.length_singleton]
      simp only [and_true, due_iff_dvd h0]
      split_ifs with hdvd
      · rw [Nat.mod_eq_zero_of_dvd hdvd]
      · rw [List.append_nil, succ_mod_of_not_dvd hdvd]

end

/-! ## Values that are overwritten -/

theorem foldl_getD (f : ι → Option σ) (s : σ) (is : List ι) :
    is.foldl (fun s i ↦ (f i).getD s) s = (is.filterMap f).getLast?.getD s := by
  induction is using List.reverseRecOn with
  | nil => rfl
  | append_singleton is i ih =>
      rw [List.foldl_append, ih, List.filterMap_append]
      cases hi : f i with
      | none => simp [hi]
      | some x => simp [hi]

theorem foldl_prod {τ : Type*} (f : σ → ι → σ) (g : τ → ι → τ) (s : σ) (t : τ) (is : List ι) :
    is.foldl (fun s i ↦ (f s.1 i, g s.2 i)) (s, t) = (is.foldl f s, is.foldl g t) := by
  induction is generalizing s t with
  | nil => rfl
  | cons i is ih => exact ih (f s i) (g t i)

end Sampling
