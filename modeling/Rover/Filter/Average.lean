import Mathlib.Algebra.Order.BigOperators.Group.List
import Rover.Filter

/-!
# The moving average

The ring of inputs is summed in the order of its slots.  Read from the slot
that is written next it is the window of the last inputs, in which the first
input stands for those before it.
-/

namespace Rover.Dsp.AveragingFilter

/-- The inputs that call `k` averages, counted from 0, the latest one first.
The subtraction stops at 0: the first input also stands for those before it. -/
def window (n : ℕ) (inputs : List ℚ) (k : ℕ) : List ℚ :=
  (List.range n).map fun j ↦ inputs.getD (k - j) 0

def mean (xs : List ℚ) : ℚ := xs.sum / xs.length

theorem length_window (n : ℕ) (inputs : List ℚ) (k : ℕ) : (window n inputs k).length = n := by
  rw [window, List.length_map, List.length_range]

/-! ## The ring of inputs -/

section

variable {n : BitVec 32} {x : ℚ} {xs ys : List ℚ} {f : AveragingFilter ℚ}

theorem After.samples_feed (hn : 0 < n.toNat) (h : After n x ys f) (hlen : ys.length = xs.length)
    (hxs : Cyclic.Holds n.toNat (fun _ ↦ x) xs (f.samples.getD · 0)) (input : ℚ) :
    Cyclic.Holds n.toNat (fun _ ↦ x) (xs ++ [input]) ((f.feed input).2.samples.getD · 0) := by
  have hself : f.prime input = f := prime_eq_self (by rwa [h.samples_length]) input
  simp only [AveragingFilter.feed, hself]
  rw [h.samplesIdx_eq, hlen]
  exact hxs.set h.samples_length hn input

theorem After.samples_feedAll (hn : 0 < n.toNat) (inputs : List ℚ) (h : After n x ys f)
    (hlen : ys.length = xs.length)
    (hxs : Cyclic.Holds n.toNat (fun _ ↦ x) xs (f.samples.getD · 0)) :
    Cyclic.Holds n.toNat (fun _ ↦ x) (xs ++ inputs)
      ((AveragingFilter.feedAll inputs f).2.samples.getD · 0) := by
  induction inputs generalizing xs ys f with
  | nil => simpa [AveragingFilter.feedAll] using hxs
  | cons input inputs ih =>
      have hnext := ih (h.feed hn input) (by simp [hlen]) (h.samples_feed hn hlen hxs input)
      rwa [List.append_assoc] at hnext

theorem holds_samples (hn : 0 < n.toNat) (x : ℚ) (inputs : List ℚ) :
    Cyclic.Holds n.toNat (fun _ ↦ x) (x :: inputs)
      ((feedAll (x :: inputs) (ofSize n)).2.samples.getD · 0) := by
  have hprime := after_prime n x
  have hnil : Cyclic.Holds n.toNat (fun _ ↦ x) [] (((ofSize n).prime x).samples.getD · 0) :=
    Cyclic.holds_nil fun _ hi ↦ List.getD_replicate _ hi
  have hfirst := hprime.samples_feedAll hn (x :: inputs) rfl hnil
  simp only [feedAll, feed_prime hn] at hfirst
  exact hfirst

end

/-! ## The window -/

/-- The last `n` values of a list that starts with `n` times its first value. -/
theorem reverse_window (n : ℕ) (x : ℚ) (inputs : List ℚ) :
    (window n (x :: inputs) inputs.length).reverse =
      (List.replicate n x ++ x :: inputs).drop (x :: inputs).length := by
  refine List.ext_getElem (by simp [window]) fun j hj hj' ↦ ?_
  rw [List.length_reverse, length_window] at hj
  rw [List.getElem_reverse, List.getElem_drop]
  simp only [window, List.getElem_map, List.getElem_range, List.length_map, List.length_range]
  rcases Nat.lt_or_ge ((x :: inputs).length + j) n with hfirst | hlater
  · rw [List.getElem_append_left (by rwa [List.length_replicate]), List.getElem_replicate]
    rw [List.length_cons] at hfirst
    rw [show inputs.length - (n - 1 - j) = 0 by omega]
    rfl
  · rw [List.getElem_append_right (by rwa [List.length_replicate]),
      List.getD_eq_getElem _ _ (by simp only [List.length_cons] at hlater ⊢; omega)]
    congr 1
    simp only [List.length_cons, List.length_replicate] at hlater ⊢
    omega

theorem mean_samples {n : BitVec 32} (hn : 0 < n.toNat) (x : ℚ) (inputs : List ℚ) :
    mean (feedAll (x :: inputs) (ofSize n)).2.samples =
      mean (window n.toNat (x :: inputs) inputs.length) := by
  have hlen := (after_feedAll hn x inputs).samples_length
  have hrotate := (holds_samples hn x inputs).rotate_eq hlen
  rw [← reverse_window] at hrotate
  have hperm : ((feedAll (x :: inputs) (ofSize n)).2.samples).Perm
      (window n.toNat (x :: inputs) inputs.length) :=
    (List.rotate_perm _ _).symm.trans (hrotate ▸ List.reverse_perm _)
  rw [mean, mean, hperm.sum_eq, hperm.length_eq]

theorem window_take (n : ℕ) {inputs : List ℚ} {k : ℕ} (hk : k < inputs.length) :
    window n (inputs.take (k + 1)) k = window n inputs k := by
  unfold window
  refine List.map_congr_left fun j _ ↦ ?_
  rw [List.getD_eq_getElem _ _ (by rw [List.length_take]; omega), List.getElem_take,
    List.getD_eq_getElem _ _ (by omega)]

theorem getD_feedAll_length (xs : List ℚ) (input : ℚ) (ys : List ℚ) (f : AveragingFilter ℚ) :
    (feedAll (xs ++ input :: ys) f).1.getD xs.length 0 =
      mean (feedAll (xs ++ [input]) f).2.samples := by
  rw [feedAll_append, feedAll_append,
    List.getD_append_right _ _ _ _ (by rw [length_feedAll]), length_feedAll, Nat.sub_self]
  rfl

theorem getD_feedAll {n : BitVec 32} (hn : 0 < n.toNat) {inputs : List ℚ} {k : ℕ}
    (hk : k < inputs.length) :
    (feedAll inputs (ofSize n)).1.getD k 0 = mean (window n.toNat inputs k) := by
  obtain ⟨x, before, hbefore⟩ : ∃ x before, inputs.take (k + 1) = x :: before :=
    List.exists_cons_of_ne_nil (by
      rw [← List.length_pos_iff, List.length_take]
      omega)
  have hlen : before.length = k := by
    have htake := congrArg List.length hbefore
    rw [List.length_take, List.length_cons] at htake
    omega
  have hsplit : inputs = inputs.take k ++ inputs[k] :: inputs.drop (k + 1) := by
    rw [← List.drop_eq_getElem_cons hk, List.take_append_drop]
  have hlast := getD_feedAll_length (inputs.take k) inputs[k] (inputs.drop (k + 1)) (ofSize n)
  rw [← hsplit, List.length_take_of_le hk.le, List.take_append_getElem, hbefore,
    mean_samples hn, hlen, ← hbefore, window_take _ hk] at hlast
  exact hlast

/-! ## The range of the average -/

theorem mean_bounds {xs : List ℚ} (hne : xs ≠ []) {lo hi : ℚ} (h : ∀ x ∈ xs, lo ≤ x ∧ x ≤ hi) :
    lo ≤ mean xs ∧ mean xs ≤ hi := by
  have hpos : (0 : ℚ) < xs.length := by exact_mod_cast List.length_pos_iff.mpr hne
  have hlo := List.card_nsmul_le_sum xs lo fun x hx ↦ (h x hx).1
  have hhi := List.sum_le_card_nsmul xs hi fun x hx ↦ (h x hx).2
  rw [nsmul_eq_mul, mul_comm] at hlo hhi
  exact ⟨(le_div_iff₀ hpos).mpr hlo, (div_le_iff₀ hpos).mpr hhi⟩

theorem exists_of_mem_window {n : ℕ} {inputs : List ℚ} {k : ℕ} {x : ℚ}
    (hx : x ∈ window n inputs k) : ∃ j ≤ k, k < j + n ∧ x = inputs.getD j 0 := by
  obtain ⟨j, hj, rfl⟩ := List.mem_map.mp hx
  have hjn : j < n := List.mem_range.mp hj
  exact ⟨k - j, by omega, by omega, rfl⟩

/-- A call returns the mean of the last `n` inputs, in which the first input
stands for those before it, and so a value in their range. -/
theorem feedAll_moving_average {n : BitVec 32} (hn : 0 < n.toNat) {inputs : List ℚ} {k : ℕ}
    (hk : k < inputs.length) :
    (feedAll inputs (ofSize n)).1.getD k 0 = mean (window n.toNat inputs k) ∧
      ∀ lo hi : ℚ, (∀ j ≤ k, k < j + n.toNat → lo ≤ inputs.getD j 0 ∧ inputs.getD j 0 ≤ hi) →
        lo ≤ (feedAll inputs (ofSize n)).1.getD k 0 ∧
          (feedAll inputs (ofSize n)).1.getD k 0 ≤ hi := by
  have hmean := getD_feedAll hn hk
  refine ⟨hmean, fun lo hi hrange ↦ ?_⟩
  rw [hmean]
  apply mean_bounds
  · rw [← List.length_pos_iff, length_window]
    exact hn
  · intro x hx
    obtain ⟨j, hj, hnear, rfl⟩ := exists_of_mem_window hx
    exact hrange j hj hnear

/-- The third and the sixth value of a filter of size 4. -/
theorem feedAll_moving_average_ramp :
    (feedAll [1, 2, 4, 8, 16, (32 : ℚ)] (ofSize 4)).1.getD 2 0 = (4 + 2 + 1 + 1) / 4 ∧
      (feedAll [1, 2, 4, 8, 16, (32 : ℚ)] (ofSize 4)).1.getD 5 0 = (32 + 16 + 8 + 4) / 4 := by
  constructor
  · rw [(feedAll_moving_average (n := 4) (by decide) (by decide)).1]
    decide +kernel
  · rw [(feedAll_moving_average (n := 4) (by decide) (by decide)).1]
    decide +kernel

end Rover.Dsp.AveragingFilter
