import Mathlib.Data.Rat.Floor
import Mathlib.Tactic.IntervalCases
import Rover.App.Watchdog
import Rover.Lib.Rounding

/-!
# The inputs of the H-bridge

The outputs A and B drive the left motor, C and D the right one, and both
inputs of a motor must never be on at once.  Two branches of `handle_js` switch
one input on before they switch the other off.  Whether a power is zero as a
`uint8_t` can depend on the rounding of `double`, which is therefore kept here.
-/

namespace Rover.App

open Arduino Rounding

/-- At most one of A, B and at most one of C, D is on. -/
def Exclusive (regs : Slave.Regs) : Prop :=
  (regs.ocr2b = 0 ∨ regs.ocr0b = 0) ∧ (regs.ocr0a = 0 ∨ regs.ocr1a = 0)

instance (regs : Slave.Regs) : Decidable (Exclusive regs) := inferInstanceAs (Decidable (_ ∧ _))

/-- The inputs are exclusive before and after every single command. -/
def AlwaysExclusive (qs : List Request) (regs : Slave.Regs) : Prop :=
  ∀ p, p <+: qs → Exclusive (effect p regs)

theorem alwaysExclusive_nil (regs : Slave.Regs) : AlwaysExclusive [] regs ↔ Exclusive regs := by
  constructor
  · intro h
    exact h [] List.prefix_rfl
  · intro h p hp
    rw [List.prefix_nil.mp hp]
    exact h

theorem alwaysExclusive_cons (q : Request) (qs : List Request) (regs : Slave.Regs) :
    AlwaysExclusive (q :: qs) regs ↔ Exclusive regs ∧ AlwaysExclusive qs (takeEffect regs q) := by
  constructor
  · intro h
    exact ⟨h [] List.nil_prefix, fun p hp ↦ h (q :: p) (List.cons_prefix_cons.mpr ⟨rfl, hp⟩)⟩
  · rintro ⟨h, hrest⟩ p hp
    cases p with
    | nil => exact h
    | cons q' p =>
        obtain ⟨rfl, hp'⟩ := List.cons_prefix_cons.mp hp
        exact hrest p hp'

theorem alwaysExclusive_append (xs ys : List Request) (regs : Slave.Regs) :
    AlwaysExclusive (xs ++ ys) regs ↔
      AlwaysExclusive xs regs ∧ AlwaysExclusive ys (effect xs regs) := by
  induction xs generalizing regs with
  | nil =>
      have hend : AlwaysExclusive ys regs → AlwaysExclusive [] regs := fun h ↦
        (alwaysExclusive_nil regs).mpr (h [] List.nil_prefix)
      exact ⟨fun h ↦ ⟨hend h, h⟩, fun h ↦ h.2⟩
  | cons q xs ih =>
      rw [List.cons_append, alwaysExclusive_cons, alwaysExclusive_cons, ih, and_assoc]
      rfl

theorem AlwaysExclusive.end {qs : List Request} {regs : Slave.Regs} (h : AlwaysExclusive qs regs) :
    Exclusive (effect qs regs) := h qs List.prefix_rfl

theorem exclusive_off {regs : Slave.Regs} (h : Exclusive regs) (timer channel : Byte) :
    Exclusive (takeEffect regs (duty timer channel 0)) := by
  obtain ⟨hleft, hright⟩ := h
  simp only [takeEffect, duty, Slave.pwmDuty]
  split_ifs
  · exact ⟨hleft, Or.inl rfl⟩
  · exact ⟨Or.inr rfl, hright⟩
  · exact ⟨hleft, Or.inr rfl⟩
  · exact ⟨hleft, hright⟩
  · exact ⟨hleft, hright⟩
  · exact ⟨Or.inl rfl, hright⟩
  · exact ⟨hleft, hright⟩

/-! ## The commands of one message -/

theorem alwaysExclusive_stop {regs : Slave.Regs} (h : Exclusive regs) :
    AlwaysExclusive stop regs := by
  simp only [stop, alwaysExclusive_cons, alwaysExclusive_nil]
  have hA := exclusive_off h 2 1
  have hB := exclusive_off hA 0 1
  have hC := exclusive_off hB 0 0
  exact ⟨h, hA, hB, hC, exclusive_off hC 1 0⟩

theorem alwaysExclusive_handleTimer {regs : Slave.Regs} (h : Exclusive regs) (r : Readings)
    (a : MainApp) : AlwaysExclusive (handleTimer r a).2 regs := by
  have hwdt : AlwaysExclusive (handleTimerWdt a).2 regs := by
    unfold handleTimerWdt
    dsimp only
    split_ifs
    · exact alwaysExclusive_stop h
    · exact (alwaysExclusive_nil regs).mpr h
  rcases handleTimer_requests r a with heq | heq
  · rwa [heq]
  · rw [heq, alwaysExclusive_append, alwaysExclusive_cons, alwaysExclusive_nil]
    exact ⟨hwdt, hwdt.end, hwdt.end⟩

/-! ## The powers -/

theorem stickPwm_eq {a : MainApp} (h : a.thrLimit = 1) (y : BitVec 32) :
    stickPwm a y = BitVec.ofNat 32 (y.toInt.natAbs * a.config.pwmRange.toNat / 500) := by
  have hx : |(y.toInt : ℚ) / 500| * a.config.pwmRange.toNat * a.thrLimit =
      ((y.toInt.natAbs * a.config.pwmRange.toNat : ℕ) : ℚ) / (500 : ℕ) := by
    rw [h, abs_div]
    push_cast [Nat.cast_natAbs]
    rw [abs_of_pos (by norm_num : (0 : ℚ) < 500)]
    ring
  have hfloor : trunc (((y.toInt.natAbs * a.config.pwmRange.toNat : ℕ) : ℚ) / (500 : ℕ)) =
      ((y.toInt.natAbs * a.config.pwmRange.toNat / 500 : ℕ) : ℤ) := by
    rw [trunc, if_pos (by positivity)]
    exact Rat.floor_natCast_div_natCast _ _
  rw [stickPwm, hx, hfloor]
  rfl

/-- `stickPwm` with every result rounded; the conversions to `double` and the
absolute value are exact. -/
def stickPwmDouble (a : MainApp) (y : BitVec 32) : BitVec 32 :=
  BitVec.ofInt 32 (trunc
    (double (double (|double ((y.toInt : ℚ) / 500)| * a.config.pwmRange.toNat) * a.thrLimit)))

/-- `abs(left_y) * PWM_RANGE` for a stick at `n` or `-n`. -/
def scaled (pwmRange : BitVec 32) (n : ℕ) : ℚ :=
  double (double ((n : ℚ) / 500) * pwmRange.toNat)

theorem scaled_nonneg (pwmRange : BitVec 32) (n : ℕ) : 0 ≤ scaled pwmRange n :=
  nearest_nonneg 53 (mul_nonneg (nearest_nonneg 53 (by positivity)) (Nat.cast_nonneg _))

/-- The factor `thr_limit` is 1 and changes nothing. -/
theorem stickPwmDouble_eq {a : MainApp} (h : a.thrLimit = 1) (y : BitVec 32) :
    stickPwmDouble a y = BitVec.ofNat 32 ⌊scaled a.config.pwmRange y.toInt.natAbs⌋₊ := by
  have hquot : |double ((y.toInt : ℚ) / 500)| = double ((y.toInt.natAbs : ℚ) / 500) := by
    rw [double, double, abs_nearest, abs_div, Nat.cast_natAbs, Int.cast_abs,
      abs_of_pos (by norm_num : (0 : ℚ) < 500)]
  have hvalue : double (double (|double ((y.toInt : ℚ) / 500)| * a.config.pwmRange.toNat) *
      a.thrLimit) = scaled a.config.pwmRange y.toInt.natAbs := by
    rw [h, mul_one, hquot]
    exact nearest_nearest (by norm_num) _
  rw [stickPwmDouble, hvalue, trunc, if_pos (scaled_nonneg _ _)]
  change BitVec.ofInt 32 ⌊scaled a.config.pwmRange y.toInt.natAbs⌋ = _
  rw [← Int.natCast_floor_eq_floor (scaled_nonneg _ _)]
  rfl

/-- The power is not zero as a `uint8_t`. -/
def Drives (c : Config) (y : BitVec 32) : Prop := ¬ 256 ∣ ⌊scaled c.pwmRange y.toInt.natAbs⌋₊

instance (c : Config) (y : BitVec 32) : Decidable (Drives c y) := inferInstanceAs (Decidable (¬ _))

theorem duty_eq_zero_iff {a : MainApp} (h : a.thrLimit = 1) (y : BitVec 32) :
    (stickPwmDouble a y).setWidth 8 = 0 ↔ ¬ Drives a.config y := by
  have hzero : (0 : BitVec 8).toNat = 0 := rfl
  rw [stickPwmDouble_eq h, Drives, not_not, Nat.dvd_iff_mod_eq_zero, ← BitVec.toNat_inj, hzero]
  simp only [BitVec.toNat_setWidth, BitVec.toNat_ofNat]
  omega

/-! With the range of 255 the rounding changes no power: it is exact where the
exact power is an integer, and elsewhere smaller than the distance to the next. -/

theorem abs_scaled_sub_le {n : ℕ} (hn : n ≤ 500) : |scaled 255 n - 255 * n / 500| ≤ 1 / 1000 := by
  have hle : (n : ℚ) ≤ 500 := by exact_mod_cast hn
  have hpos : (0 : ℚ) ≤ n / 500 := by positivity
  have hpos' : 0 ≤ double ((n : ℚ) / 500) := nearest_nonneg 53 hpos
  have hquot : |double ((n : ℚ) / 500) - n / 500| ≤ n / 500 / 2 ^ 53 := by
    have h := abs_nearest_sub_le 53 ((n : ℚ) / 500)
    rwa [abs_of_nonneg hpos] at h
  have hprod : |scaled 255 n - double ((n : ℚ) / 500) * 255| ≤
      double ((n : ℚ) / 500) * 255 / 2 ^ 53 := by
    have h := abs_nearest_sub_le 53 (double ((n : ℚ) / 500) * 255)
    rwa [abs_of_nonneg (mul_nonneg hpos' (by norm_num))] at h
  rw [abs_le] at hquot hprod ⊢
  norm_num at hquot hprod
  constructor <;> linarith

theorem floor_scaled_default {n : ℕ} (hn : n ≤ 500) : ⌊scaled 255 n⌋₊ = n * 255 / 500 := by
  by_cases hexact : n % 100 = 0
  · obtain ⟨k, rfl⟩ := Nat.dvd_of_mod_eq_zero hexact
    have hall : ∀ k < 6, ⌊scaled 255 (100 * k)⌋₊ = 100 * k * 255 / 500 := by decide +kernel
    exact hall k (by omega)
  · have herr := abs_le.mp (abs_scaled_sub_le hn)
    have hdiv := Nat.div_add_mod (n * 51) 100
    have hmod : 1 ≤ n * 51 % 100 ∧ n * 51 % 100 ≤ 99 := by omega
    have hquot : n * 255 / 500 = n * 51 / 100 := by omega
    have hdivQ : (100 : ℚ) * (n * 51 / 100 : ℕ) + (n * 51 % 100 : ℕ) = n * 51 := by
      exact_mod_cast hdiv
    have hmodQ : (1 : ℚ) ≤ (n * 51 % 100 : ℕ) ∧ ((n * 51 % 100 : ℕ) : ℚ) ≤ 99 := by
      exact_mod_cast hmod
    rw [hquot, Nat.floor_eq_iff (scaled_nonneg 255 n)]
    constructor <;> linarith

/-- The stick drives its motor from the second of its 500 steps on. -/
theorem drives_default_iff {c : Config} (hc : c.pwmRange = 255) {y : BitVec 32}
    (hy : y.toInt.natAbs ≤ 500) : Drives c y ↔ 2 ≤ y.toInt.natAbs := by
  rw [Drives, hc, floor_scaled_default hy]
  generalize y.toInt.natAbs = n at hy ⊢
  have hlt : n * 255 / 500 < 256 := by omega
  rw [Nat.dvd_iff_mod_eq_zero, Nat.mod_eq_of_lt hlt]
  omega

theorem stickPwmDouble_default {a : MainApp} (hc : a.config.pwmRange = 255) (h : a.thrLimit = 1)
    {y : BitVec 32} (hy : y.toInt.natAbs ≤ 500) : stickPwmDouble a y = stickPwm a y := by
  rw [stickPwmDouble_eq h, stickPwm_eq h, hc, floor_scaled_default hy]
  rfl

/-! ## The overlap -/

/-- A joystick message that switches an input on while the other one of the
same motor is on: the left motor forward, or the right motor backward. -/
def Overlaps (c : Config) (js : JsData) (regs : Slave.Regs) : Prop :=
  (0 < js.leftY.toInt ∧ Drives c js.leftY ∧ regs.ocr0b ≠ 0) ∨
    (js.rightY.toInt < 0 ∧ Drives c js.rightY ∧ regs.ocr1a ≠ 0)

instance (c : Config) (js : JsData) (regs : Slave.Regs) : Decidable (Overlaps c js regs) :=
  inferInstanceAs (Decidable (_ ∨ _))

theorem alwaysExclusive_left {regs : Slave.Regs} (h : Exclusive regs) (fwd : Bool)
    (pwm : BitVec 32) :
    AlwaysExclusive (leftCommands fwd pwm) regs ↔
      ¬ (fwd = true ∧ pwm.setWidth 8 ≠ 0 ∧ regs.ocr0b ≠ 0) := by
  cases fwd with
  | true =>
      change AlwaysExclusive [_, _] regs ↔ _
      rw [alwaysExclusive_cons, alwaysExclusive_cons, alwaysExclusive_nil]
      constructor
      · rintro ⟨-, hon, -⟩ ⟨-, hpwm, hb⟩
        exact hon.1.elim hpwm hb
      · intro hno
        have hon : pwm.setWidth 8 = 0 ∨ regs.ocr0b = 0 := by
          by_contra hor
          exact hno ⟨rfl, not_or.mp hor⟩
        have hfirst : Exclusive (takeEffect regs (duty 2 1 pwm)) := ⟨hon, h.2⟩
        exact ⟨h, hfirst, exclusive_off hfirst 0 1⟩
  | false =>
      change AlwaysExclusive [_, _] regs ↔ _
      rw [alwaysExclusive_cons, alwaysExclusive_cons, alwaysExclusive_nil]
      refine ⟨fun _ hfwd ↦ Bool.false_ne_true hfwd.1, fun _ ↦ ⟨h, exclusive_off h 2 1, ?_⟩⟩
      exact ⟨Or.inl rfl, h.2⟩

theorem alwaysExclusive_right {regs : Slave.Regs} (h : Exclusive regs) (fwd : Bool)
    (pwm : BitVec 32) :
    AlwaysExclusive (rightCommands fwd pwm) regs ↔
      ¬ (fwd = false ∧ pwm.setWidth 8 ≠ 0 ∧ regs.ocr1a ≠ 0) := by
  cases fwd with
  | true =>
      change AlwaysExclusive [_, _] regs ↔ _
      rw [alwaysExclusive_cons, alwaysExclusive_cons, alwaysExclusive_nil]
      refine ⟨fun _ hfwd ↦ Bool.noConfusion hfwd.1, fun _ ↦ ⟨h, exclusive_off h 0 0, ?_⟩⟩
      exact ⟨h.1, Or.inl rfl⟩
  | false =>
      change AlwaysExclusive [_, _] regs ↔ _
      rw [alwaysExclusive_cons, alwaysExclusive_cons, alwaysExclusive_nil]
      constructor
      · rintro ⟨-, hon, -⟩ ⟨-, hpwm, hd⟩
        exact hon.2.elim hpwm hd
      · intro hno
        have hon : pwm.setWidth 8 = 0 ∨ regs.ocr1a = 0 := by
          by_contra hor
          exact hno ⟨rfl, not_or.mp hor⟩
        have hfirst : Exclusive (takeEffect regs (duty 0 0 pwm)) := ⟨h.1, hon⟩
        exact ⟨h, hfirst, exclusive_off hfirst 1 0⟩

theorem ocr1a_effect_left (fwd : Bool) (pwm : BitVec 32) (regs : Slave.Regs) :
    (effect (leftCommands fwd pwm) regs).ocr1a = regs.ocr1a := by
  cases fwd <;> rfl

theorem alwaysExclusive_handleJs {a : MainApp} {regs : Slave.Regs} (hthr : a.thrLimit = 1)
    (h : Exclusive regs) (js : JsData) :
    AlwaysExclusive (handleJsWith stickPwmDouble js a).2 regs ↔ ¬ Overlaps a.config js regs := by
  have hleft := duty_eq_zero_iff hthr js.leftY
  have hright := duty_eq_zero_iff hthr js.rightY
  -- a stick at rest drives nothing, so "not forward" may be read as "backward"
  have hrest : Drives a.config js.rightY → js.rightY.toInt ≠ 0 := by
    intro hdrives hzero
    apply hdrives
    rw [hzero, Int.natAbs_zero, scaled, Nat.cast_zero, zero_div, double, double, nearest_zero,
      zero_mul, nearest_zero, Nat.floor_zero]
    exact dvd_zero 256
  change AlwaysExclusive (leftCommands (decide (0 < js.leftY.toInt)) (stickPwmDouble a js.leftY) ++
    rightCommands (decide (0 < js.rightY.toInt)) (stickPwmDouble a js.rightY)) regs ↔ _
  have hfirst : AlwaysExclusive
      (leftCommands (decide (0 < js.leftY.toInt)) (stickPwmDouble a js.leftY)) regs ↔
        ¬ (0 < js.leftY.toInt ∧ Drives a.config js.leftY ∧ regs.ocr0b ≠ 0) := by
    rw [alwaysExclusive_left h, ne_eq, hleft, not_not, decide_eq_true_eq]
  rw [alwaysExclusive_append, Overlaps, not_or, ← hfirst]
  refine and_congr_right fun hdone ↦ ?_
  rw [alwaysExclusive_right hdone.end, ocr1a_effect_left, ne_eq, hright, not_not,
    decide_eq_false_iff_not]
  refine not_congr (and_congr_left fun ⟨hdrives, _⟩ ↦ ?_)
  have hne := hrest hdrives
  omega

/-! ## Whole runs -/

theorem handleTimer_config (r : Readings) (a : MainApp) :
    (handleTimer r a).1.config = a.config ∧ (handleTimer r a).1.thrLimit = a.thrLimit := by
  obtain ⟨hconfig, hthr, -⟩ := MainApp.eq_of_control (handleTimer_control r a)
  obtain ⟨hconfig', hthr'⟩ := handleTimerWdt_control a
  exact ⟨hconfig.trans hconfig', hthr.trans hthr'⟩

theorem handle_config (m : QueueMsg) (r : Readings) (a : MainApp) :
    (handle m r a).1.config = a.config ∧ (handle m r a).1.thrLimit = a.thrLimit := by
  cases m with
  | js data => exact ⟨rfl, rfl⟩
  | tty => exact ⟨rfl, rfl⟩
  | timer time =>
      simp only [handle]
      exact handleTimer_config r a

/-- `handle` with the arithmetic of the powers. -/
def handleWith (pwm : MainApp → BitVec 32 → BitVec 32) (m : QueueMsg) (r : Readings)
    (a : MainApp) : MainApp × List Request :=
  match m with
  | .js data => handleJsWith pwm data a
  | .tty => (a, [])
  | .timer _ => handleTimer r a

def runWith (pwm : MainApp → BitVec 32 → BitVec 32) :
    List (QueueMsg × Readings) → MainApp → MainApp × List Request
  | [], a => (a, [])
  | (m, r) :: rest, a =>
      let (a, requests) := handleWith pwm m r a
      let (a, later) := runWith pwm rest a
      (a, requests ++ later)

section

variable (pwm : MainApp → BitVec 32 → BitVec 32)

theorem runWith_nil (a : MainApp) : runWith pwm [] a = (a, []) := rfl

theorem runWith_cons (m : QueueMsg) (r : Readings) (rest : List (QueueMsg × Readings))
    (a : MainApp) :
    runWith pwm ((m, r) :: rest) a =
      ((runWith pwm rest (handleWith pwm m r a).1).1,
        (handleWith pwm m r a).2 ++ (runWith pwm rest (handleWith pwm m r a).1).2) := rfl

theorem handleWith_config (m : QueueMsg) (r : Readings) (a : MainApp) :
    (handleWith pwm m r a).1.config = a.config ∧
      (handleWith pwm m r a).1.thrLimit = a.thrLimit := by
  cases m with
  | js data => exact ⟨rfl, rfl⟩
  | tty => exact ⟨rfl, rfl⟩
  | timer time =>
      simp only [handleWith]
      exact handleTimer_config r a

end

/-- With the default range a run in `double` is the run in exact arithmetic. -/
theorem runWith_double_default {c : Config} (hc : c.pwmRange = 255) {a : MainApp}
    (ha : a.config = c ∧ a.thrLimit = 1) {msgs : List (QueueMsg × Readings)}
    (hy : ∀ js r, (QueueMsg.js js, r) ∈ msgs →
      js.leftY.toInt.natAbs ≤ 500 ∧ js.rightY.toInt.natAbs ≤ 500) :
    runWith stickPwmDouble msgs a = run msgs a := by
  induction msgs generalizing a with
  | nil => rfl
  | cons x msgs ih =>
      obtain ⟨m, r⟩ := x
      have hstep : handleWith stickPwmDouble m r a = handle m r a := by
        cases m with
        | js data =>
            obtain ⟨hleft, hright⟩ := hy data r List.mem_cons_self
            have hrange : a.config.pwmRange = 255 := by rw [ha.1, hc]
            have hpowers (y : BitVec 32) (h : y.toInt.natAbs ≤ 500) :
                stickPwmDouble { a with timerCxWdt := 0 } y =
                  stickPwm { a with timerCxWdt := 0 } y := stickPwmDouble_default hrange ha.2 h
            simp only [handleWith, handle, handleJs, handleJsWith, hpowers _ hleft,
              hpowers _ hright]
        | tty => rfl
        | timer time => rfl
      obtain ⟨hconfig, hthr⟩ := handle_config m r a
      have hnext := ih ⟨hconfig.trans ha.1, hthr.trans ha.2⟩ fun js r' h ↦
        hy js r' (List.mem_cons_of_mem _ h)
      rw [runWith_cons, hstep, hnext]
      rfl

def MsgOverlaps (c : Config) (m : QueueMsg) (regs : Slave.Regs) : Prop :=
  ∃ js, m = .js js ∧ Overlaps c js regs

theorem alwaysExclusive_handle {a : MainApp} {regs : Slave.Regs} (hthr : a.thrLimit = 1)
    (h : Exclusive regs) (m : QueueMsg) (r : Readings) :
    AlwaysExclusive (handleWith stickPwmDouble m r a).2 regs ↔ ¬ MsgOverlaps a.config m regs := by
  cases m with
  | js data => simpa [handleWith, MsgOverlaps] using alwaysExclusive_handleJs hthr h data
  | tty => simpa [handleWith, MsgOverlaps] using (alwaysExclusive_nil regs).mpr h
  | timer time => simpa [handleWith, MsgOverlaps] using alwaysExclusive_handleTimer h r a

theorem alwaysExclusive_run {a : MainApp} (hthr : a.thrLimit = 1) {regs : Slave.Regs}
    (h : Exclusive regs) (msgs : List (QueueMsg × Readings)) :
    AlwaysExclusive (runWith stickPwmDouble msgs a).2 regs ↔
      ∀ pre m r post, msgs = pre ++ (m, r) :: post →
        ¬ MsgOverlaps a.config m (effect (runWith stickPwmDouble pre a).2 regs) := by
  induction msgs generalizing a regs with
  | nil => simpa [runWith_nil] using (alwaysExclusive_nil regs).mpr h
  | cons x msgs ih =>
      obtain ⟨m, r⟩ := x
      obtain ⟨hconfig, hthr'⟩ := handleWith_config stickPwmDouble m r a
      rw [runWith_cons, alwaysExclusive_append, alwaysExclusive_handle hthr h]
      constructor
      · rintro ⟨hfirst, hrest⟩ pre m' r' post hsplit
        cases pre with
        | nil =>
            obtain ⟨heq, -⟩ := List.cons.inj hsplit
            obtain ⟨rfl, rfl⟩ := Prod.mk.inj heq
            exact hfirst
        | cons y pre =>
            obtain ⟨rfl, hsplit'⟩ := List.cons.inj hsplit
            have hmid := ((alwaysExclusive_handle hthr h m r).mpr hfirst).end
            have hlater := (ih (hthr'.trans hthr) hmid).mp hrest pre m' r' post hsplit'
            rwa [hconfig, ← effect_append] at hlater
      · intro hall
        have hfirst := hall [] m r msgs rfl
        have hmid := ((alwaysExclusive_handle hthr h m r).mpr hfirst).end
        refine ⟨hfirst, (ih (hthr'.trans hthr) hmid).mpr fun pre m' r' post hsplit ↦ ?_⟩
        have hlater := hall ((m, r) :: pre) m' r' post (by rw [hsplit]; rfl)
        rwa [runWith_cons, effect_append, ← hconfig] at hlater

/-- From the start on, the inputs are exclusive after every single command if
and only if they are at the start and no joystick message overlaps. -/
theorem exclusive_iff_no_overlap (c : Config) (vbat vbatSlope : ℚ)
    (msgs : List (QueueMsg × Readings)) (regs : Slave.Regs) :
    (∀ p, p <+: (runWith stickPwmDouble msgs (initial c vbat vbatSlope)).2 →
      Exclusive (effect p regs)) ↔
      Exclusive regs ∧ ∀ pre js r post, msgs = pre ++ (.js js, r) :: post →
        ¬ Overlaps c js
          (effect (runWith stickPwmDouble pre (initial c vbat vbatSlope)).2 regs) := by
  constructor
  · intro hall
    have hstart : Exclusive regs := hall [] List.nil_prefix
    refine ⟨hstart, fun pre js r post hsplit hover ↦ ?_⟩
    exact (alwaysExclusive_run rfl hstart msgs).mp hall pre _ r post hsplit ⟨js, rfl, hover⟩
  · rintro ⟨hstart, hsafe⟩
    refine (alwaysExclusive_run rfl hstart msgs).mpr ?_
    rintro pre m r post hsplit ⟨js, rfl, hover⟩
    exact hsafe pre js r post hsplit hover

def reversal : List (QueueMsg × Readings) :=
  [(.js { leftY := -500, rightY := 0 }, {}), (.js { leftY := 500, rightY := 0 }, {})]

/-- After the fifth command both inputs of the left motor are on. -/
theorem reversal_not_exclusive :
    ¬ ∀ p, p <+: (runWith stickPwmDouble reversal (initial {} 0 0)).2 →
      Exclusive (effect p Slave.clearedRegs) := by
  intro h
  have hfive : (runWith stickPwmDouble reversal (initial {} 0 0)).2.take 5 <+:
      (runWith stickPwmDouble reversal (initial {} 0 0)).2 := List.take_prefix 5 _
  exact absurd (h _ hfive) (by decide +kernel)

end Rover.App
