import Rover.App.Recorded
import Rover.Lib.DeadMan

/-!
# What the motors do

The main loop is a dead man's switch for the motors: they follow the last
joystick message until 500 timer messages have come without one.
-/

namespace Rover.App

open Arduino DeadMan

/-- The duties of the four inputs of the H-bridge. -/
structure Motors where
  a : ℕ
  b : ℕ
  c : ℕ
  d : ℕ
  deriving DecidableEq

def motors (regs : Slave.Regs) : Motors :=
  ⟨regs.ocr2b.toNat, regs.ocr0b.toNat, regs.ocr0a.toNat, regs.ocr1a.toNat⟩

def Motors.stopped : Motors := ⟨0, 0, 0, 0⟩

/-- What a joystick message asks for.  A duty has one byte. -/
def Motors.ofJs (c : Config) (js : JsData) : Motors :=
  let left := power c js.leftY % 256
  let right := power c js.rightY % 256
  let leftIsFwd := decide (0 < js.leftY.toInt)
  let rightIsFwd := decide (0 < js.rightY.toInt)
  { a := if leftIsFwd then left else 0
    b := if leftIsFwd then 0 else left
    c := if rightIsFwd then 0 else right
    d := if rightIsFwd then right else 0 }

/-- What the switch asks for, where `before` is what the motors did at the start. -/
def Motors.ofHeld (c : Config) (before : Motors) : Held JsData → Motors
  | .unset => before
  | .command js => .ofJs c js
  | .released => .stopped

def QueueMsg.input : QueueMsg → Input JsData
  | .js data => .command data
  | .tty => .other
  | .timer _ => .tick

/-- The switch that the main loop stands for. -/
def switch (msgs : List (QueueMsg × Readings)) : Switch JsData :=
  DeadMan.after 500 (msgs.map fun x ↦ x.1.input)

theorem switch_concat (msgs : List (QueueMsg × Readings)) (m : QueueMsg) (r : Readings) :
    switch (msgs ++ [(m, r)]) = (switch msgs).step 500 m.input := by
  rw [switch, List.map_append, List.map_singleton, DeadMan.after_concat]
  rfl

theorem idle_switch (msgs : List (QueueMsg × Readings)) : (switch msgs).idle = timersSince msgs := by
  induction msgs using List.reverseRecOn with
  | nil => rfl
  | append_singleton msgs x ih =>
      obtain ⟨m, r⟩ := x
      rw [switch_concat, timersSince_concat, ← ih]
      cases m <;> rfl

theorem motors_stop (regs : Slave.Regs) : motors (effect stop regs) = .stopped := by
  obtain ⟨ha, hb, hc, hd⟩ := stopped_effect_stop regs
  rw [motors, ha, hb, hc, hd]
  rfl

theorem motors_js (leftIsFwd rightIsFwd : Bool) (left right : BitVec 32) (regs : Slave.Regs) :
    motors (effect (leftCommands leftIsFwd left ++ rightCommands rightIsFwd right) regs) =
      { a := if leftIsFwd then left.toNat % 256 else 0
        b := if leftIsFwd then 0 else left.toNat % 256
        c := if rightIsFwd then 0 else right.toNat % 256
        d := if rightIsFwd then right.toNat % 256 else 0 } := by
  have hwide (x : BitVec 32) : ((x.setWidth 8).setWidth 16).toNat = x.toNat % 256 := by
    rw [BitVec.toNat_setWidth, BitVec.toNat_setWidth]
    omega
  cases leftIsFwd <;> cases rightIsFwd <;>
    simp [motors, effect, leftCommands, rightCommands, duty, takeEffect, Slave.pwmDuty, hwide]

section

variable (c : Config) (vbat vbatSlope : ℚ)

theorem motors_handleJs (msgs : List (QueueMsg × Readings)) (js : JsData) (regs : Slave.Regs) :
    motors (effect (handleJs js (run msgs (initial c vbat vbatSlope)).1).2 regs) =
      .ofJs c js := by
  obtain ⟨hleft, hright⟩ := handleJs_powers_run c vbat vbatSlope msgs js
  refine (motors_js (decide (0 < js.leftY.toInt)) (decide (0 < js.rightY.toInt))
    (handleJs js (run msgs (initial c vbat vbatSlope)).1).1.leftPwm
    (handleJs js (run msgs (initial c vbat vbatSlope)).1).1.rightPwm regs).trans ?_
  rw [hleft, hright]
  rfl

/-- The main loop refines the switch. -/
theorem motors_run (msgs : List (QueueMsg × Readings)) (regs : Slave.Regs) :
    motors (effect (run msgs (initial c vbat vbatSlope)).2 regs) =
      .ofHeld c (motors regs) (switch msgs).held := by
  induction msgs using List.reverseRecOn with
  | nil => rfl
  | append_singleton msgs x ih =>
      obtain ⟨m, r⟩ := x
      rw [run_append, run_cons, run_nil, List.append_nil, effect_append, switch_concat]
      cases m with
      | js data => exact motors_handleJs c vbat vbatSlope msgs data _
      | tty => exact ih
      | timer time =>
          have hstop := (handleTimerWdt_spec (timerCxWdt_run c vbat vbatSlope msgs)).2
          have hheld : ((switch msgs).step 500 (QueueMsg.timer time).input).held =
              if 500 ≤ timersSince msgs + 1 then .released else (switch msgs).held := by
            rw [← idle_switch]
            rfl
          rw [hheld]
          simp only [handle]
          rw [effect_handleTimer, hstop]
          by_cases hdvd : 500 ∣ timersSince msgs + 1
          · have hle : 500 ≤ timersSince msgs + 1 := Nat.le_of_dvd (Nat.succ_pos _) hdvd
            rw [if_pos hdvd, if_pos hle, motors_stop]
            rfl
          · rw [if_neg hdvd]
            refine ih.trans ?_
            by_cases hle : 500 ≤ timersSince msgs + 1
            · -- the switch has been released before
              rw [if_pos hle, switch, DeadMan.held_after 500 _ (by decide)]
              have hidle := idle_switch msgs
              rw [switch] at hidle
              rw [hidle, if_pos (by omega)]
            · rw [if_neg hle]

end

end Rover.App
