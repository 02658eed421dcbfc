import Rover.App.Bridge
import Rover.Lib.Runs

/-!
# The recorded power

`left_pwm` and `right_pwm` are written by `handle_js` only.  The thermal model
and the statistics take them for the power of the motors, which the watchdog
also commands.
-/

namespace Rover.App

open Arduino

/-- What is commanded on an output after one more request. -/
def commanded (timer channel duty : Byte) : Request → Byte
  | .pwmDuty t c d => if t = timer ∧ c = channel then d else duty
  | _ => duty

/-- The duty last commanded on an output. -/
def lastDuty (timer channel : Byte) (qs : List Request) : Byte :=
  qs.foldl (commanded timer channel) 0

theorem lastDuty_append (timer channel : Byte) (xs ys : List Request) :
    lastDuty timer channel (xs ++ ys) =
      ys.foldl (commanded timer channel) (lastDuty timer channel xs) := List.foldl_append

/-- The recorded power of each motor is the larger duty of its two outputs. -/
structure Recorded (s : MainApp × List Request) : Prop where
  left : s.1.leftPwm.toNat = max (lastDuty 2 1 s.2).toNat (lastDuty 0 1 s.2).toNat
  right : s.1.rightPwm.toNat = max (lastDuty 0 0 s.2).toNat (lastDuty 1 0 s.2).toNat

/-- The power of a stick position, as it is stored. -/
def power (c : Config) (y : BitVec 32) : ℕ := y.toInt.natAbs * c.pwmRange.toNat / 500 % 2 ^ 32

theorem toNat_stickPwm {a : MainApp} (h : a.thrLimit = 1) (y : BitVec 32) :
    (stickPwm a y).toNat = power a.config y := by
  rw [stickPwm_eq h, BitVec.toNat_ofNat, power]

theorem handleJs_powers {a : MainApp} (h : a.thrLimit = 1) (js : JsData) :
    (handleJs js a).1.leftPwm.toNat = power a.config js.leftY ∧
      (handleJs js a).1.rightPwm.toNat = power a.config js.rightY := by
  have hstick := toNat_stickPwm (a := { a with timerCxWdt := 0 }) h
  exact ⟨hstick js.leftY, hstick js.rightY⟩

/-! ## Who writes the power -/

def MainApp.powers (a : MainApp) : BitVec 32 × BitVec 32 := (a.leftPwm, a.rightPwm)

theorem MainApp.powers_core (a : MainApp) : a.core.powers = a.powers := rfl

theorem handleTimerWdt_powers (a : MainApp) : (handleTimerWdt a).1.powers = a.powers := by
  unfold handleTimerWdt
  dsimp only
  split_ifs <;> rfl

theorem handleTimerThr_powers (a : MainApp) : (handleTimerThr a).powers = a.powers := by
  unfold handleTimerThr handleTimerThrTraced
  dsimp only
  split_ifs <;> rfl

theorem handleTimer_powers (r : Readings) (a : MainApp) :
    (handleTimer r a).1.powers = a.powers := by
  rw [← MainApp.powers_core, handleTimer_core, MainApp.powers_core, handleTimerThr_powers,
    handleTimerWdt_powers]

/-- The last joystick message; before the first one the sticks are at rest. -/
def lastJs (msgs : List (QueueMsg × Readings)) : JsData :=
  msgs.foldl (fun js x ↦ match x.1 with | .js data => data | _ => js) {}

theorem lastJs_concat (msgs : List (QueueMsg × Readings)) (m : QueueMsg) (r : Readings) :
    lastJs (msgs ++ [(m, r)]) = match m with | .js data => data | _ => lastJs msgs := by
  rw [lastJs, List.foldl_append]
  rfl

section

variable (c : Config) (vbat vbatSlope : ℚ)

theorem run_config (msgs : List (QueueMsg × Readings)) (a : MainApp) :
    (run msgs a).1.config = a.config ∧ (run msgs a).1.thrLimit = a.thrLimit := by
  induction msgs generalizing a with
  | nil => exact ⟨rfl, rfl⟩
  | cons x msgs ih =>
      obtain ⟨m, r⟩ := x
      obtain ⟨hconfig, hthr⟩ := ih (handle m r a).1
      obtain ⟨hconfig', hthr'⟩ := handle_config m r a
      exact ⟨hconfig.trans hconfig', hthr.trans hthr'⟩

theorem handleJs_powers_run (msgs : List (QueueMsg × Readings)) (js : JsData) :
    (handleJs js (run msgs (initial c vbat vbatSlope)).1).1.leftPwm.toNat = power c js.leftY ∧
      (handleJs js (run msgs (initial c vbat vbatSlope)).1).1.rightPwm.toNat =
        power c js.rightY := by
  obtain ⟨hconfig, hthr⟩ := run_config msgs (initial c vbat vbatSlope)
  have hpowers := handleJs_powers hthr js
  rw [hconfig] at hpowers
  exact hpowers

theorem powers_run (msgs : List (QueueMsg × Readings)) :
    (run msgs (initial c vbat vbatSlope)).1.leftPwm.toNat = power c (lastJs msgs).leftY ∧
      (run msgs (initial c vbat vbatSlope)).1.rightPwm.toNat = power c (lastJs msgs).rightY := by
  induction msgs using List.reverseRecOn with
  | nil => simp [power, lastJs, initial]
  | append_singleton msgs x ih =>
      obtain ⟨m, r⟩ := x
      rw [lastJs_concat, run_append, run_cons]
      cases m with
      | js data => exact handleJs_powers_run c vbat vbatSlope msgs data
      | tty => exact ih
      | timer time =>
          have hkeep := handleTimer_powers r (run msgs (initial c vbat vbatSlope)).1
          have hleft := congrArg Prod.fst hkeep
          have hright := congrArg Prod.snd hkeep
          simp only [MainApp.powers] at hleft hright
          simp only [handle, run_nil, hleft, hright]
          exact ih

end

/-! ## What a message does to the record -/

theorem toNat_setWidth_eq_iff (x : BitVec 32) : x.toNat = (x.setWidth 8).toNat ↔ x.toNat < 256 := by
  rw [BitVec.toNat_setWidth]
  omega

section

variable (qs : List Request) (leftIsFwd rightIsFwd : Bool) (leftPwm rightPwm : BitVec 32)

theorem max_lastDuty_left :
    max (lastDuty 2 1 (qs ++ (leftCommands leftIsFwd leftPwm ++
        rightCommands rightIsFwd rightPwm))).toNat
      (lastDuty 0 1 (qs ++ (leftCommands leftIsFwd leftPwm ++
        rightCommands rightIsFwd rightPwm))).toNat = (leftPwm.setWidth 8).toNat := by
  rw [lastDuty_append, lastDuty_append]
  cases leftIsFwd with
  | true => cases rightIsFwd <;> exact Nat.max_zero _
  | false => cases rightIsFwd <;> exact Nat.zero_max _

theorem max_lastDuty_right :
    max (lastDuty 0 0 (qs ++ (leftCommands leftIsFwd leftPwm ++
        rightCommands rightIsFwd rightPwm))).toNat
      (lastDuty 1 0 (qs ++ (leftCommands leftIsFwd leftPwm ++
        rightCommands rightIsFwd rightPwm))).toNat = (rightPwm.setWidth 8).toNat := by
  rw [lastDuty_append, lastDuty_append]
  cases rightIsFwd with
  | true => cases leftIsFwd <;> exact Nat.zero_max _
  | false => cases leftIsFwd <;> exact Nat.max_zero _

end

theorem recorded_handleJs (js : JsData) (a : MainApp) (qs : List Request) :
    Recorded ((handleJs js a).1, qs ++ (handleJs js a).2) ↔
      (handleJs js a).1.leftPwm.toNat < 256 ∧ (handleJs js a).1.rightPwm.toNat < 256 := by
  have hleft := max_lastDuty_left qs (decide (0 < js.leftY.toInt)) (decide (0 < js.rightY.toInt))
    (handleJs js a).1.leftPwm (handleJs js a).1.rightPwm
  have hright := max_lastDuty_right qs (decide (0 < js.leftY.toInt)) (decide (0 < js.rightY.toInt))
    (handleJs js a).1.leftPwm (handleJs js a).1.rightPwm
  rw [← toNat_setWidth_eq_iff, ← toNat_setWidth_eq_iff]
  constructor
  · intro h
    exact ⟨h.left.trans hleft, h.right.trans hright⟩
  · rintro ⟨h, h'⟩
    exact ⟨h.trans hleft.symm, h'.trans hright.symm⟩

/-- After the watchdog has stopped the motors nothing is commanded. -/
theorem recorded_stop (a : MainApp) (qs : List Request) :
    Recorded (a, qs ++ stop) ↔ a.leftPwm.toNat = 0 ∧ a.rightPwm.toNat = 0 := by
  have hoff : lastDuty 2 1 (qs ++ stop) = 0 ∧ lastDuty 0 1 (qs ++ stop) = 0 ∧
      lastDuty 0 0 (qs ++ stop) = 0 ∧ lastDuty 1 0 (qs ++ stop) = 0 := by
    simp only [lastDuty_append]
    exact ⟨rfl, rfl, rfl, rfl⟩
  obtain ⟨hA, hB, hC, hD⟩ := hoff
  constructor
  · intro h
    have hleft := h.left
    have hright := h.right
    simp only [hA, hB, hC, hD] at hleft hright
    exact ⟨hleft, hright⟩
  · rintro ⟨hleft, hright⟩
    refine ⟨?_, ?_⟩
    · simp only [hA, hB]
      exact hleft
    · simp only [hC, hD]
      exact hright

theorem recorded_sample (a : MainApp) (qs : List Request) (pin : Byte) :
    Recorded (a, qs ++ [.analogRead pin]) ↔ Recorded (a, qs) := by
  have hsame : ∀ timer channel,
      lastDuty timer channel (qs ++ [.analogRead pin]) = lastDuty timer channel qs := by
    intro timer channel
    rw [lastDuty_append]
    rfl
  constructor
  · rintro ⟨hleft, hright⟩
    simp only [hsame] at hleft hright
    exact ⟨hleft, hright⟩
  · rintro ⟨hleft, hright⟩
    refine ⟨?_, ?_⟩
    · simpa only [hsame] using hleft
    · simpa only [hsame] using hright

theorem recorded_congr {a b : MainApp} (h : a.powers = b.powers) (qs : List Request) :
    Recorded (a, qs) ↔ Recorded (b, qs) := by
  obtain ⟨hleft, hright⟩ := Prod.mk.inj h
  constructor
  · rintro ⟨h, h'⟩
    exact ⟨hleft ▸ h, hright ▸ h'⟩
  · rintro ⟨h, h'⟩
    exact ⟨hleft ▸ h, hright ▸ h'⟩

/-- The watchdog does not write the record. -/
theorem recorded_handleTimer (r : Readings) (a : MainApp) (qs : List Request) :
    Recorded ((handleTimer r a).1, qs ++ (handleTimer r a).2) ↔
      Recorded (a, qs ++ (handleTimerWdt a).2) := by
  rw [recorded_congr (handleTimer_powers r a)]
  rcases handleTimer_requests r a with h | h
  · rw [h]
  · rw [h, ← List.append_assoc, recorded_sample]

/-! ## Whole runs -/

/-- A message after `msgs` that keeps the record right. -/
def KeepsRecord (c : Config) (msgs : List (QueueMsg × Readings)) : QueueMsg → Prop
  | .js js => power c js.leftY < 256 ∧ power c js.rightY < 256
  | .tty => True
  | .timer _ => 500 ∣ timersSince msgs + 1 →
      power c (lastJs msgs).leftY = 0 ∧ power c (lastJs msgs).rightY = 0

theorem recorded_of_fires (c : Config) (vbat vbatSlope : ℚ) {msgs : List (QueueMsg × Readings)}
    (h : 500 ∣ timersSince msgs + 1) (time : BitVec 64) (r : Readings) :
    Recorded (run (msgs ++ [(.timer time, r)]) (initial c vbat vbatSlope)) ↔
      power c (lastJs msgs).leftY = 0 ∧ power c (lastJs msgs).rightY = 0 := by
  have hstop := (handleTimerWdt_spec (timerCxWdt_run c vbat vbatSlope msgs)).2
  obtain ⟨hleft, hright⟩ := powers_run c vbat vbatSlope msgs
  rw [run_append, run_cons, run_nil, List.append_nil]
  simp only [handle]
  rw [recorded_handleTimer, hstop, if_pos h, recorded_stop, hleft, hright]

theorem recorded_concat (c : Config) (vbat vbatSlope : ℚ) (msgs : List (QueueMsg × Readings))
    (m : QueueMsg) (r : Readings) (h : Recorded (run msgs (initial c vbat vbatSlope))) :
    Recorded (run (msgs ++ [(m, r)]) (initial c vbat vbatSlope)) ↔ KeepsRecord c msgs m := by
  cases m with
  | js data =>
      rw [run_append, run_cons, run_nil, List.append_nil]
      simp only [handle, KeepsRecord]
      obtain ⟨hleft, hright⟩ := handleJs_powers_run c vbat vbatSlope msgs data
      rw [recorded_handleJs, hleft, hright]
  | tty =>
      rw [run_append, run_cons, run_nil, List.append_nil]
      simp only [handle, KeepsRecord, List.append_nil]
      exact iff_true_intro h
  | timer time =>
      simp only [KeepsRecord]
      by_cases hfires : 500 ∣ timersSince msgs + 1
      · rw [recorded_of_fires c vbat vbatSlope hfires, imp_iff_right hfires]
      · have hstop := (handleTimerWdt_spec (timerCxWdt_run c vbat vbatSlope msgs)).2
        rw [run_append, run_cons, run_nil, List.append_nil]
        simp only [handle]
        rw [recorded_handleTimer, hstop, if_neg hfires, List.append_nil]
        exact iff_of_true h fun hdvd ↦ absurd hdvd hfires

/-- The recorded power is the commanded one in every state of a run if and only
if every joystick message asks for less than 256, and the watchdog never fires
after a joystick message that asked for power. -/
theorem recorded_iff (c : Config) (vbat vbatSlope : ℚ) (msgs : List (QueueMsg × Readings)) :
    (∀ pre, pre <+: msgs → Recorded (run pre (initial c vbat vbatSlope))) ↔
      (∀ pre js r post, msgs = pre ++ (.js js, r) :: post →
        power c js.leftY < 256 ∧ power c js.rightY < 256) ∧
      (∀ pre time r post, msgs = pre ++ (.timer time, r) :: post →
        500 ∣ timersSince (pre ++ [(.timer time, r)]) →
          power c (lastJs pre).leftY = 0 ∧ power c (lastJs pre).rightY = 0) := by
  have hstart : Recorded (run [] (initial c vbat vbatSlope)) := ⟨rfl, rfl⟩
  rw [Runs.forall_prefix_iff (Q := fun pre x ↦ KeepsRecord c pre x.1) (fun _ h ↦ h) hstart
    (fun pre x hpre ↦ (recorded_concat c vbat vbatSlope pre x.1 x.2 hpre).mpr)
    fun pre x hpre ↦ (recorded_concat c vbat vbatSlope pre x.1 x.2 hpre).mp]
  constructor
  · intro hall
    refine ⟨fun pre js r post hsplit ↦ hall pre _ post hsplit, ?_⟩
    intro pre time r post hsplit hdvd
    rw [timersSince_concat] at hdvd
    exact hall pre _ post hsplit hdvd
  · rintro ⟨hjs, htimer⟩ pre ⟨m, r⟩ post hsplit
    cases m with
    | js data => exact hjs pre data r post hsplit
    | tty => trivial
    | timer time =>
        intro hdvd
        apply htimer pre time r post hsplit
        rw [timersSince_concat]
        exact hdvd

/-- The left stick forward, and then silence. -/
def driveAndRelease (timers : ℕ) : List (QueueMsg × Readings) :=
  (.js { leftY := 500 }, {}) :: List.replicate timers (.timer 0, {})

/-- After half a second the watchdog has stopped the motors, and the record
still says 255. -/
theorem driveAndRelease_not_recorded :
    ¬ Recorded (run (driveAndRelease 500) (initial {} 0 0)) := by
  have hsplit : driveAndRelease (499 + 1) =
      driveAndRelease 499 ++ [((.timer 0 : QueueMsg), ({} : Readings))] := by
    rw [driveAndRelease, driveAndRelease, List.replicate_succ', List.cons_append]
  have hfires : 500 ∣ timersSince (driveAndRelease 499) + 1 := by decide +kernel
  have hpower : power {} (lastJs (driveAndRelease 499)).leftY = 255 := by decide +kernel
  rw [show driveAndRelease 500 = _ from hsplit, recorded_of_fires {} 0 0 hfires, hpower]
  exact fun h ↦ absurd h.1 (by decide)

end Rover.App
