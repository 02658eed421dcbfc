import Mathlib.Data.List.Basic
import Mathlib.Data.List.Induction
import Mathlib.Order.Basic
import Mathlib.Tactic.Common

/-!
# The dead man's switch

A command is held until the next one, but only for a limited number of ticks.
-/

namespace DeadMan

/-- Before the first command nothing is known of the output. -/
inductive Held (γ : Type*)
  | unset
  | command (c : γ)
  | released
  deriving DecidableEq

inductive Input (γ : Type*)
  | command (c : γ)
  | tick
  | other

structure Switch (γ : Type*) where
  held : Held γ := .unset
  idle : ℕ := 0

variable {γ : Type*} (limit : ℕ)

def Switch.step (s : Switch γ) : Input γ → Switch γ
  | .command c => { held := .command c, idle := 0 }
  | .tick => { held := if limit ≤ s.idle + 1 then .released else s.held, idle := s.idle + 1 }
  | .other => s

def after (inputs : List (Input γ)) : Switch γ := inputs.foldl (Switch.step limit) {}

/-- The last command. -/
def latest (inputs : List (Input γ)) : Option γ :=
  inputs.foldl (fun c x ↦ match x with | .command d => some d | _ => c) none

variable (inputs : List (Input γ))

theorem after_concat (x : Input γ) : after limit (inputs ++ [x]) = (after limit inputs).step limit x :=
  List.foldl_concat ..

theorem latest_concat (x : Input γ) :
    latest (inputs ++ [x]) = match x with | .command d => some d | _ => latest inputs :=
  List.foldl_concat ..

/-- What is held is determined by the last command and the ticks since then. -/
theorem held_after (h : 0 < limit) :
    (after limit inputs).held =
      if limit ≤ (after limit inputs).idle then .released
      else match latest inputs with
        | some c => .command c
        | none => .unset := by
  induction inputs using List.reverseRecOn with
  | nil => exact (if_neg (Nat.not_le.mpr h)).symm
  | append_singleton inputs x ih =>
      rw [after_concat, latest_concat]
      cases x with
      | command d => exact (if_neg (Nat.not_le.mpr h)).symm
      | other => exact ih
      | tick =>
          change (if limit ≤ (after limit inputs).idle + 1 then Held.released
            else (after limit inputs).held) = _
          by_cases hlimit : limit ≤ (after limit inputs).idle + 1
          · rw [if_pos hlimit]
            exact (if_pos hlimit).symm
          · rw [if_neg hlimit, ih, if_neg fun hle ↦ hlimit (Nat.le_succ_of_le hle)]
            exact (if_neg hlimit).symm

end DeadMan
