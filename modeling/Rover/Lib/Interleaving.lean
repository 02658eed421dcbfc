import Mathlib.Data.List.Basic
import Mathlib.Data.List.Induction

/-!
# Interleavings

A log of what several threads did, and the part of it that one thread did.
-/

namespace Interleaving

variable {τ α σ ν : Type*} [DecidableEq τ]

/-- What the thread `t` did. -/
def project (t : τ) (log : List (τ × α)) : List α :=
  log.filterMap fun x ↦ if x.1 = t then some x.2 else none

section

variable (t : τ) (log : List (τ × α))

@[simp] theorem project_nil : project t ([] : List (τ × α)) = [] := rfl

theorem project_append (more : List (τ × α)) :
    project t (log ++ more) = project t log ++ project t more := List.filterMap_append

theorem project_cons_self (x : α) : project t ((t, x) :: log) = x :: project t log := by
  rw [project, List.filterMap_cons, if_pos rfl]
  rfl

theorem project_cons_of_ne {u : τ} (h : u ≠ t) (x : α) :
    project t ((u, x) :: log) = project t log := by
  rw [project, List.filterMap_cons, if_neg h]
  rfl

theorem mem_project {x : α} : x ∈ project t log ↔ (t, x) ∈ log := by
  rw [project, List.mem_filterMap]
  constructor
  · rintro ⟨⟨u, y⟩, hmem, hy⟩
    split_ifs at hy with hu
    obtain rfl : u = t := hu
    exact Option.some.inj hy ▸ hmem
  · intro hmem
    exact ⟨(t, x), hmem, if_pos rfl⟩

end

/-- What the other threads do cannot be seen, so a run looks like the run of the
one thread. -/
theorem view_foldl (t : τ) (f : σ → α → σ) (g : ν → α → ν) (view : σ → ν)
    {log : List (τ × α)} (hself : ∀ x, (t, x) ∈ log → ∀ s, view (f s x) = g (view s) x)
    (hother : ∀ u x, (u, x) ∈ log → u ≠ t → ∀ s, view (f s x) = view s) (s : σ) :
    view (log.foldl (fun s y ↦ f s y.2) s) = (project t log).foldl g (view s) := by
  induction log generalizing s with
  | nil => rfl
  | cons y log ih =>
      obtain ⟨u, x⟩ := y
      have hrest := ih (fun x hx ↦ hself x (List.mem_cons_of_mem _ hx))
        (fun u x hx ↦ hother u x (List.mem_cons_of_mem _ hx)) (f s x)
      rw [List.foldl_cons]
      by_cases hu : u = t
      · subst hu
        rw [project_cons_self, List.foldl_cons, ← hself x List.mem_cons_self]
        exact hrest
      · rw [project_cons_of_ne t log hu, ← hother u x List.mem_cons_self hu s]
        exact hrest

end Interleaving
