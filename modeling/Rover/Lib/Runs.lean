import Mathlib.Data.List.Induction

/-!
# Runs of a step function

A run applies a step function to a list of events.  `Along P` says that every
step of a run starts in a state that satisfies `P` with the event it takes.
-/

namespace Runs

variable {σ ε : Type*} {step : σ → ε → σ} {P : σ → ε → Prop}

/-- Every step of the run satisfies `P`. -/
def Along (step : σ → ε → σ) (P : σ → ε → Prop) : σ → List ε → Prop
  | _, [] => True
  | s, e :: es => P s e ∧ Along step P (step s e) es

@[simp] theorem along_nil (s : σ) : Along step P s [] := trivial

@[simp] theorem along_cons (s : σ) (e : ε) (es : List ε) :
    Along step P s (e :: es) ↔ P s e ∧ Along step P (step s e) es := Iff.rfl

theorem along_append (s : σ) (xs ys : List ε) :
    Along step P s (xs ++ ys) ↔ Along step P s xs ∧ Along step P (xs.foldl step s) ys := by
  induction xs generalizing s with
  | nil => simp
  | cons e xs ih =>
      rw [List.cons_append, along_cons, along_cons, ih, List.foldl_cons, and_assoc]

theorem Along.invariant {I : σ → Prop} (hstep : ∀ s e, I s → P s e → I (step s e)) {s : σ}
    {es : List ε} (hs : I s) (hall : Along step P s es) : I (es.foldl step s) := by
  induction es generalizing s with
  | nil => exact hs
  | cons e es ih => exact ih (hstep s e hs hall.1) hall.2

/-- When a step keeps `ok` exactly under `P`, a run keeps it exactly when all
its steps satisfy `P`. -/
theorem ok_foldl_iff_along (ok : σ → Prop) (hstep : ∀ s e, ok (step s e) ↔ ok s ∧ P s e) (s : σ)
    (es : List ε) : ok (es.foldl step s) ↔ ok s ∧ Along step P s es := by
  induction es generalizing s with
  | nil => simp
  | cons e es ih => rw [List.foldl_cons, ih, hstep, along_cons, and_assoc]

/-- `R` holds after every history of a run if and only if every step meets the
condition `Q`, when `I` is an invariant of the steps that meet it, and a step
that does not loses `R`. -/
theorem forall_prefix_iff {R I : List ε → Prop} {Q : List ε → ε → Prop} (hI : ∀ es, I es → R es)
    (hnil : I []) (hkeep : ∀ es e, I es → Q es e → I (es ++ [e]))
    (hneed : ∀ es e, I es → R (es ++ [e]) → Q es e) (es : List ε) :
    (∀ pre, pre <+: es → R pre) ↔ ∀ pre e post, es = pre ++ e :: post → Q pre e := by
  constructor
  · intro hall
    have hinv : ∀ pre, pre <+: es → I pre := by
      intro pre
      induction pre using List.reverseRecOn with
      | nil => exact fun _ ↦ hnil
      | append_singleton pre e ih =>
          intro hpre
          have hbefore : I pre := ih ((List.prefix_append _ _).trans hpre)
          exact hkeep pre e hbefore (hneed pre e hbefore (hall _ hpre))
    rintro pre e post rfl
    exact hneed pre e (hinv pre (List.prefix_append _ _)) (hall (pre ++ [e]) ⟨post, by simp⟩)
  · intro hall pre hpre
    apply hI pre
    induction pre using List.reverseRecOn with
    | nil => exact hnil
    | append_singleton pre e ih =>
        obtain ⟨post, rfl⟩ := hpre
        have hbefore : I pre := ih ⟨e :: post, by simp⟩
        exact hkeep pre e hbefore (hall pre e post (by simp))

/-! ## Runs that come to rest -/

/-- No step is possible. -/
def Halted (P : σ → ε → Prop) (s : σ) : Prop := ∀ e, ¬ P s e

/-- If every possible step takes some work off, a run is no longer than the
work at its start. -/
theorem Along.length_add_work_le {work : σ → ℕ} (h : ∀ s e, P s e → work (step s e) < work s)
    {s : σ} {es : List ε} (hall : Along step P s es) :
    es.length + work (es.foldl step s) ≤ work s := by
  induction es generalizing s with
  | nil => simp
  | cons e es ih =>
      have hless := h s e hall.1
      have hrest := ih hall.2
      rw [List.foldl_cons, List.length_cons]
      omega

theorem exists_along_halted {work : σ → ℕ} (h : ∀ s e, P s e → work (step s e) < work s) (s : σ) :
    ∃ es, Along step P s es ∧ Halted P (es.foldl step s) := by
  induction hn : work s using Nat.strongRecOn generalizing s with
  | ind n ih =>
      by_cases hrest : Halted P s
      · exact ⟨[], trivial, hrest⟩
      · obtain ⟨e, hpossible⟩ := not_forall_not.mp hrest
        obtain ⟨es, hall, hend⟩ := ih _ (hn ▸ h s e hpossible) (step s e) rfl
        exact ⟨e :: es, ⟨hpossible, hall⟩, hend⟩

end Runs
