import Mathlib.Data.List.Induction
import Rover.App.Handlers
import Rover.Slave.Board

/-!
# The watchdog

`timer_cx_wdt` counts the timer messages since the last joystick message, and
starts again from 0 when it has reached its interval and the motors have been
stopped.  So it is that number modulo the interval, in every reachable state.
-/

namespace Rover.App

open Arduino

/-! ## What the requests do to the outputs -/

def isDuty : Request → Bool
  | .pwmDuty .. => true
  | _ => false

/-- A `pwmDuty` request that takes effect; the other requests of the handlers
are samples. -/
def takeEffect (regs : Slave.Regs) : Request → Slave.Regs
  | .pwmDuty timer channel duty => Slave.pwmDuty timer channel duty regs
  | _ => regs

def effect (qs : List Request) (regs : Slave.Regs) : Slave.Regs := qs.foldl takeEffect regs

theorem effect_append (xs ys : List Request) (regs : Slave.Regs) :
    effect (xs ++ ys) regs = effect ys (effect xs regs) := List.foldl_append

/-- Both motors are off: the outputs A, B, C and D in this order. -/
def Stopped (regs : Slave.Regs) : Prop :=
  regs.ocr2b = 0 ∧ regs.ocr0b = 0 ∧ regs.ocr0a = 0 ∧ regs.ocr1a = 0

theorem stopped_effect_stop (regs : Slave.Regs) : Stopped (effect stop regs) := by
  refine ⟨?_, ?_, ?_, ?_⟩ <;> rfl

/-! ## The counters do not mix -/

def MainApp.control (a : MainApp) : Config × ℚ × BitVec 32 := (a.config, a.thrLimit, a.timerCxWdt)

theorem MainApp.eq_of_control {a b : MainApp} (h : a.control = b.control) :
    a.config = b.config ∧ a.thrLimit = b.thrLimit ∧ a.timerCxWdt = b.timerCxWdt :=
  ⟨congrArg (fun x ↦ x.1) h, congrArg (fun x ↦ x.2.1) h, congrArg (fun x ↦ x.2.2) h⟩

/-- The state without what the fan, the battery, the link statistics and the
wireless table write. -/
def MainApp.core (a : MainApp) : MainApp :=
  { initial a.config 0 0 with
    timerCxWdt := a.timerCxWdt
    timerCxThr := a.timerCxThr
    timerCxThrPrnt := a.timerCxThrPrnt
    leftPwm := a.leftPwm
    rightPwm := a.rightPwm
    ledPwm := a.ledPwm
    heat := a.heat
    thrLimit := a.thrLimit
    ambient := a.ambient
    motTemp := a.motTemp }

theorem MainApp.control_core (a : MainApp) : a.core.control = a.control := rfl

theorem handleTimerFan_core (r : Readings) (a : MainApp) : (handleTimerFan r a).core = a.core := by
  unfold handleTimerFan
  dsimp only
  split_ifs <;> rfl

theorem handleTimerBatt_core (r : Readings) (a : MainApp) :
    (handleTimerBatt r a).1.core = a.core := by
  unfold handleTimerBatt
  dsimp only
  split_ifs <;> rfl

theorem handleTimerSlaveTrx_core (r : Readings) (a : MainApp) :
    (handleTimerSlaveTrx r a).core = a.core := by
  unfold handleTimerSlaveTrx
  dsimp only
  split_ifs <;> rfl

theorem handleTimerWlan_core (r : Readings) (a : MainApp) :
    (handleTimerWlan r a).core = a.core := by
  unfold handleTimerWlan
  dsimp only
  split_ifs
  · cases r.wireless <;> rfl
  · rfl

/-- Only the watchdog and the thermal model write the core. -/
theorem handleTimer_core (r : Readings) (a : MainApp) :
    (handleTimer r a).1.core = (handleTimerThr (handleTimerWdt a).1).core := by
  unfold handleTimer
  dsimp only
  rw [handleTimerWlan_core, handleTimerSlaveTrx_core, handleTimerBatt_core, handleTimerFan_core]

theorem handleTimerThr_control (a : MainApp) : (handleTimerThr a).control = a.control := by
  unfold handleTimerThr handleTimerThrTraced
  dsimp only
  split_ifs <;> rfl

theorem handleTimer_control (r : Readings) (a : MainApp) :
    (handleTimer r a).1.control = (handleTimerWdt a).1.control := by
  rw [← MainApp.control_core, handleTimer_core, MainApp.control_core, handleTimerThr_control]

theorem handleTimerBatt_requests (r : Readings) (a : MainApp) :
    (handleTimerBatt r a).2 = [] ∨ (handleTimerBatt r a).2 = [.analogRead pinBatt] := by
  unfold handleTimerBatt
  dsimp only
  split_ifs <;> simp

theorem handleTimer_requests (r : Readings) (a : MainApp) :
    (handleTimer r a).2 = (handleTimerWdt a).2 ∨
      (handleTimer r a).2 = (handleTimerWdt a).2 ++ [.analogRead pinBatt] := by
  unfold handleTimer
  dsimp only
  rcases handleTimerBatt_requests r (handleTimerFan r (handleTimerThr (handleTimerWdt a).1)) with
    h | h
  · exact Or.inl (by rw [h, List.append_nil])
  · exact Or.inr (by rw [h])

theorem effect_handleTimer (r : Readings) (a : MainApp) (regs : Slave.Regs) :
    effect (handleTimer r a).2 regs = effect (handleTimerWdt a).2 regs := by
  rcases handleTimer_requests r a with h | h
  · rw [h]
  · rw [h, effect_append]
    rfl

/-! ## The count since the last joystick message -/

def sinceJs (n : ℕ) : QueueMsg → ℕ
  | .js _ => 0
  | .tty => n
  | .timer _ => n + 1

/-- The timer messages since the last joystick message, or since the start. -/
def timersSince (msgs : List (QueueMsg × Readings)) : ℕ :=
  msgs.foldl (fun n x ↦ sinceJs n x.1) 0

theorem timersSince_concat (msgs : List (QueueMsg × Readings)) (m : QueueMsg) (r : Readings) :
    timersSince (msgs ++ [(m, r)]) = sinceJs (timersSince msgs) m := by
  simp [timersSince]

theorem handleTimerWdt_spec {a : MainApp} {n : ℕ} (h : a.timerCxWdt.toNat = n % 500) :
    (handleTimerWdt a).1.timerCxWdt.toNat = (n + 1) % 500 ∧
      (handleTimerWdt a).2 = if 500 ∣ n + 1 then stop else [] := by
  have hlt : n % 500 < 500 := Nat.mod_lt n (by decide)
  have hinc : (a.timerCxWdt + 1).toNat = n % 500 + 1 := by
    rw [BitVec.toNat_add, h]
    change (n % 500 + 1) % 2 ^ 32 = _
    omega
  have hle : timerCiWdt ≤ a.timerCxWdt + 1 ↔ 500 ∣ n + 1 := by
    rw [BitVec.le_def, hinc]
    change 500 ≤ n % 500 + 1 ↔ _
    omega
  unfold handleTimerWdt
  dsimp only
  by_cases hdvd : 500 ∣ n + 1
  · rw [if_pos (hle.mpr hdvd), if_pos hdvd]
    exact ⟨by simp; omega, rfl⟩
  · rw [if_neg (mt hle.mp hdvd), if_neg hdvd]
    exact ⟨by rw [hinc]; omega, rfl⟩

theorem handleTimerWdt_control (a : MainApp) :
    (handleTimerWdt a).1.config = a.config ∧ (handleTimerWdt a).1.thrLimit = a.thrLimit := by
  unfold handleTimerWdt
  dsimp only
  split_ifs <;> exact ⟨rfl, rfl⟩

section

variable (c : Config) (vbat vbatSlope : ℚ)

theorem timerCxWdt_run (msgs : List (QueueMsg × Readings)) :
    (run msgs (initial c vbat vbatSlope)).1.timerCxWdt.toNat = timersSince msgs % 500 := by
  induction msgs using List.reverseRecOn with
  | nil => rfl
  | append_singleton msgs x ih =>
      obtain ⟨m, r⟩ := x
      rw [timersSince_concat, run_append, run_cons]
      cases m with
      | js data => rfl
      | tty => exact ih
      | timer time =>
          obtain ⟨-, -, hcx⟩ := MainApp.eq_of_control
            (handleTimer_control r (run msgs (initial c vbat vbatSlope)).1)
          simp only [handle, run_nil]
          rw [hcx]
          exact (handleTimerWdt_spec ih).1

theorem commands_timer (msgs : List (QueueMsg × Readings)) (r : Readings) :
    (handleTimer r (run msgs (initial c vbat vbatSlope)).1).2.filter isDuty =
      if 500 ∣ timersSince msgs + 1 then stop else [] := by
  have hstop := (handleTimerWdt_spec (timerCxWdt_run c vbat vbatSlope msgs)).2
  rcases handleTimer_requests r (run msgs (initial c vbat vbatSlope)).1 with h | h
  · rw [h, hstop]
    split <;> rfl
  · rw [h, hstop]
    split <;> rfl

theorem stopped_run (msgs : List (QueueMsg × Readings)) (regs : Slave.Regs)
    (h : 500 ≤ timersSince msgs) :
    Stopped (effect (run msgs (initial c vbat vbatSlope)).2 regs) := by
  induction msgs using List.reverseRecOn with
  | nil => exact absurd h (by decide)
  | append_singleton msgs x ih =>
      obtain ⟨m, r⟩ := x
      rw [timersSince_concat] at h
      rw [run_append, run_cons, effect_append]
      cases m with
      | js data => exact absurd h (by simp [sinceJs])
      | tty => exact ih h
      | timer time =>
          have hstop := (handleTimerWdt_spec (timerCxWdt_run c vbat vbatSlope msgs)).2
          simp only [handle, run_nil, List.append_nil]
          rw [effect_handleTimer, hstop]
          have hcount : 500 ≤ timersSince msgs + 1 := h
          split
          · exact stopped_effect_stop _
          next hdvd => exact ih (by omega)

end

/-- The watchdog stops the motors at exactly the timer messages whose number
since the last joystick message is a multiple of 500. -/
theorem watchdog_stops_exactly (c : Config) (vbat vbatSlope : ℚ)
    (msgs : List (QueueMsg × Readings)) (regs : Slave.Regs) :
    (∀ pre time r post, msgs = pre ++ (.timer time, r) :: post →
        (handleTimer r (run pre (initial c vbat vbatSlope)).1).2.filter isDuty =
          if 500 ∣ timersSince (pre ++ [(.timer time, r)]) then stop else []) ∧
      (∀ pre, pre <+: msgs → 500 ≤ timersSince pre →
        Stopped (effect (run pre (initial c vbat vbatSlope)).2 regs)) ∧
      ((∀ pre, pre <+: msgs → timersSince pre < 500) →
        ∀ pre time r post, msgs = pre ++ (.timer time, r) :: post →
          (handleTimer r (run pre (initial c vbat vbatSlope)).1).2.filter isDuty = []) := by
  refine ⟨fun pre time r post _ ↦ ?_, fun pre _ h ↦ stopped_run c vbat vbatSlope pre regs h, ?_⟩
  · rw [commands_timer, timersSince_concat]
    rfl
  · intro hfew pre time r post hsplit
    have hlt := hfew (pre ++ [(.timer time, r)]) ⟨post, by simp [hsplit]⟩
    rw [timersSince_concat] at hlt
    have hlt' : timersSince pre + 1 < 500 := hlt
    rw [commands_timer, if_neg (by omega)]

end Rover.App
