import Mathlib.Data.List.Flatten
import Rover.Lib.Decimal

/-!
# Numbers between fixed texts

What `sprintf` makes of a format with `%u` can be taken apart again: what is no
digit shows the format, and the runs of digits are the arguments, provided that
the format has no digits and something between two numbers.
-/

namespace Printf

open IStream Decimal

/-- Each number is followed by a fixed text. -/
def render (first : List (BitVec 8)) (fields : List (ℕ × List (BitVec 8))) : List (BitVec 8) :=
  first ++ fields.flatMap fun x ↦ digits x.1 ++ x.2

def skeleton (str : List (BitVec 8)) : List (BitVec 8) := str.filter fun c ↦ !isDigit c

def digitRuns (str : List (BitVec 8)) : List (List (BitVec 8)) :=
  (str.splitOnP fun c ↦ !isDigit c).filter fun ds ↦ ds ≠ []

def numbers (str : List (BitVec 8)) : List ℕ :=
  (digitRuns str).map fun ds ↦ ds.foldl (fun v c ↦ 10 * v + (c.toNat - 48)) 0

def NoDigits (str : List (BitVec 8)) : Prop := ∀ c ∈ str, isDigit c = false

instance (str : List (BitVec 8)) : Decidable (NoDigits str) :=
  inferInstanceAs (Decidable (∀ c ∈ str, _))

theorem skeleton_append (xs ys : List (BitVec 8)) :
    skeleton (xs ++ ys) = skeleton xs ++ skeleton ys := List.filter_append xs ys

theorem skeleton_of_noDigits {str : List (BitVec 8)} (h : NoDigits str) : skeleton str = str :=
  List.filter_eq_self.mpr fun c hc ↦ by rw [h c hc, Bool.not_false]

theorem skeleton_digits (n : ℕ) : skeleton (digits n) = [] := by
  refine List.filter_eq_nil_iff.mpr fun c hc ↦ ?_
  rw [(digits_spec n).2.1 c hc]
  decide

/-- What is no digit ends a run. -/
theorem digitRuns_append_cons {c : BitVec 8} (hc : isDigit c = false) (xs ys : List (BitVec 8)) :
    digitRuns (xs ++ c :: ys) = digitRuns xs ++ digitRuns ys := by
  have hsep : (!isDigit c) = true := by rw [hc, Bool.not_false]
  rw [digitRuns, List.splitOnP_append_cons (p := fun c ↦ !isDigit c) xs ys hsep, List.filter_append]
  rfl

theorem digitRuns_append {xs : List (BitVec 8)} (h : NoDigits xs) (ys : List (BitVec 8)) :
    digitRuns (xs ++ ys) = digitRuns ys := by
  induction xs with
  | nil => rfl
  | cons c xs ih =>
      have hnil : digitRuns [] = [] := by decide
      have hstep := digitRuns_append_cons (h c List.mem_cons_self) [] (xs ++ ys)
      rw [List.nil_append, hnil, List.nil_append] at hstep
      exact hstep.trans (ih fun d hd ↦ h d (List.mem_cons_of_mem c hd))

theorem digitRuns_digits (n : ℕ) : digitRuns (digits n) = [digits n] := by
  obtain ⟨hne, hall, -⟩ := digits_spec n
  rw [digitRuns, List.splitOnP_eq_singleton fun c hc ↦ by rw [hall c hc, Bool.not_true]]
  simp [hne]

section

variable {first : List (BitVec 8)} {fields : List (ℕ × List (BitVec 8))}

theorem skeleton_render (hfirst : NoDigits first) (hfields : ∀ x ∈ fields, NoDigits x.2) :
    skeleton (render first fields) = first ++ fields.flatMap Prod.snd := by
  rw [render, skeleton_append, skeleton_of_noDigits hfirst]
  congr 1
  induction fields with
  | nil => rfl
  | cons x fields ih =>
      have hrest := ih fun y hy ↦ hfields y (List.mem_cons_of_mem x hy)
      rw [List.flatMap_cons, List.flatMap_cons, skeleton_append, skeleton_append, skeleton_digits,
        skeleton_of_noDigits (hfields x List.mem_cons_self), hrest, List.nil_append]

theorem numbers_render (hfirst : NoDigits first)
    (hfields : ∀ x ∈ fields, x.2 ≠ [] ∧ NoDigits x.2) :
    numbers (render first fields) = fields.map Prod.fst := by
  rw [numbers, render, digitRuns_append hfirst]
  induction fields with
  | nil => rfl
  | cons x fields ih =>
      obtain ⟨n, piece⟩ := x
      obtain ⟨hne, hpiece⟩ := hfields (n, piece) List.mem_cons_self
      obtain ⟨c, piece, rfl⟩ := List.exists_cons_of_ne_nil hne
      have hrest := ih fun y hy ↦ hfields y (List.mem_cons_of_mem _ hy)
      rw [List.flatMap_cons, List.append_assoc, List.cons_append,
        digitRuns_append_cons (hpiece c List.mem_cons_self), digitRuns_digits,
        digitRuns_append fun d hd ↦ hpiece d (List.mem_cons_of_mem c hd), List.map_append, hrest,
        List.map_singleton, (digits_spec n).2.2]
      rfl

theorem notMem_render {c : BitVec 8} (hc : isDigit c = false) (hfirst : c ∉ first)
    (hfields : ∀ x ∈ fields, c ∉ x.2) : c ∉ render first fields := by
  intro hmem
  rcases List.mem_append.mp hmem with h | h
  · exact hfirst h
  · obtain ⟨x, hx, h⟩ := List.mem_flatMap.mp h
    rcases List.mem_append.mp h with h | h
    · exact Bool.false_ne_true (hc.symm.trans ((digits_spec x.1).2.1 c h))
    · exact hfields x hx h

end

end Printf
