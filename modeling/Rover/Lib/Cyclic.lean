import Mathlib.Data.List.GetD
import Mathlib.Data.List.Rotate

/-!
# Cyclic buffers

A buffer of `n` slots that is written slot after slot, and from the first slot
again after the last.
-/

namespace Cyclic

variable {α : Type*}

/-- The latest of the writes `0, …, m - 1` that went to slot `i`. -/
def latest (n m i : ℕ) : ℕ := i + n * ((m - 1 - i) / n)

theorem latest_eq {n m i j : ℕ} (hj : j < m) (hn : m ≤ j + n) (hi : j % n = i) :
    latest n m i = j := by
  subst hi
  have hdiv : j / n = (m - 1 - j % n) / n := by
    have hdecomp := Nat.mod_add_div j n
    have hpos : 0 < n := by omega
    symm
    apply Nat.div_eq_of_lt_le
    · rw [Nat.mul_comm]
      omega
    · rw [Nat.add_mul, Nat.mul_comm]
      omega
  rw [latest, ← hdiv, Nat.mod_add_div]

theorem latest_spec {n m i : ℕ} (hi : i < n) (him : i < m) :
    latest n m i < m ∧ m ≤ latest n m i + n ∧ latest n m i % n = i := by
  have hmod := Nat.mod_add_div (m - 1 - i) n
  have hlt : (m - 1 - i) % n < n := Nat.mod_lt _ (by omega)
  refine ⟨?_, ?_, ?_⟩
  · unfold latest
    omega
  · unfold latest
    omega
  · rw [latest, Nat.add_mul_mod_self_left, Nat.mod_eq_of_lt hi]

/-- The values `ys` have been written, in this order, to `n` slots that held
`start`. -/
def Holds (n : ℕ) (start : ℕ → α) (ys : List α) (slot : ℕ → α) : Prop :=
  ∀ i < n, slot i =
    if i < ys.length then ys.getD (latest n ys.length i) (start i) else start i

theorem holds_nil {n : ℕ} {start slot : ℕ → α} (h : ∀ i < n, slot i = start i) :
    Holds n start [] slot := by
  intro i hi
  rw [h i hi]
  exact (if_neg (Nat.not_lt_zero i)).symm

theorem Holds.write {n : ℕ} {start slot slot' : ℕ → α} {ys : List α} (h : Holds n start ys slot)
    {y : α} (hslot : ∀ i < n, slot' i = if i = ys.length % n then y else slot i) :
    Holds n start (ys ++ [y]) slot' := by
  intro i hi
  have hmod : ys.length % n < n := Nat.mod_lt _ (by omega)
  rw [hslot i hi, List.length_append, List.length_singleton]
  by_cases hhere : i = ys.length % n
  · have hle := Nat.mod_le ys.length n
    rw [if_pos hhere, if_pos (by omega), latest_eq (Nat.lt_succ_self _) (by omega) hhere.symm,
      List.getD_append_right _ _ _ _ (Nat.le_refl _), Nat.sub_self, List.getD_cons_zero]
  · rw [if_neg hhere, h i hi]
    by_cases hwritten : i < ys.length
    · obtain ⟨hlt, hnear, hof⟩ := latest_spec hi hwritten
      -- the next write to slot `i` is still to come
      have hnear' : ys.length < latest n ys.length i + n := by
        refine Nat.lt_of_le_of_ne hnear fun hend ↦ ?_
        apply hhere
        rw [hend, Nat.add_mod_right]
        exact hof.symm
      rw [if_pos hwritten, if_pos (by omega), latest_eq (by omega) hnear' hof,
        List.getD_append _ _ _ _ hlt]
    · have hne : i ≠ ys.length := by
        rintro rfl
        exact hhere (Nat.mod_eq_of_lt hi).symm
      rw [if_neg hwritten, if_neg (by omega)]

/-! ## Buffers as lists -/

section

variable {n : ℕ} {start : ℕ → α} {ys l : List α} {z : α}

theorem Holds.set (h : Holds n start ys (l.getD · z)) (hl : l.length = n) (hn : 0 < n) (y : α) :
    Holds n start (ys ++ [y]) ((l.set (ys.length % n) y).getD · z) := by
  refine h.write fun i _ ↦ ?_
  split_ifs with hhere
  · have hlt : i < l.length := by
      rw [hhere, hl]
      exact Nat.mod_lt _ hn
    rw [← hhere, List.getD_eq_getElem?_getD, List.getElem?_set_self hlt]
    rfl
  · rw [List.getD_eq_getElem?_getD, List.getElem?_set_ne (Ne.symm hhere),
      List.getD_eq_getElem?_getD]

/-- Read from the slot that is written next, a buffer that was filled with `x`
holds the last `n` values in their order. -/
theorem Holds.rotate_eq {x : α} (h : Holds n (fun _ ↦ x) ys (l.getD · z)) (hl : l.length = n) :
    l.rotate ys.length = (List.replicate n x ++ ys).drop ys.length := by
  refine List.ext_getElem (by simp [hl]) fun j hj hj' ↦ ?_
  rw [List.length_rotate, hl] at hj
  have hn : 0 < n := Nat.zero_lt_of_lt hj
  have hlt : (j + ys.length) % n < n := Nat.mod_lt _ hn
  have hread := h _ hlt
  dsimp only at hread
  rw [List.getD_eq_getElem l z (by rwa [hl])] at hread
  rw [List.getElem_rotate, List.getElem_drop]
  simp only [hl]
  refine hread.trans ?_
  rcases Nat.lt_or_ge (ys.length + j) n with hfirst | hlater
  · rw [List.getElem_append_left (by rwa [List.length_replicate]), List.getElem_replicate,
      Nat.mod_eq_of_lt (by omega), if_neg (by omega)]
  · have hlatest : latest n ys.length ((j + ys.length) % n) = ys.length + j - n := by
      apply latest_eq (by omega) (by omega)
      rw [← Nat.mod_eq_sub_mod hlater, Nat.add_comm]
    have hslot : (j + ys.length) % n < ys.length := by
      have := Nat.mod_eq_sub_mod (by omega : n ≤ j + ys.length)
      have := Nat.mod_le (j + ys.length - n) n
      omega
    rw [if_pos hslot, hlatest, List.getElem_append_right (by rwa [List.length_replicate]),
      List.getD_eq_getElem _ _ (by omega)]
    simp only [List.length_replicate]

end

end Cyclic
