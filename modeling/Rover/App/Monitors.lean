import Mathlib.Data.Rat.Floor
import Mathlib.Tactic.Positivity
import Mathlib.Tactic.Ring
import Rover.App.Inputs
import Rover.Lib.Sampling

/-!
# The monitors of the timer

Besides the watchdog and the thermal model, `handle_timer` drives four parts
that each have a counter and variables of their own: the fan, the battery, the
statistics of the link and the wireless table.  They run side by side, and each
is a sampler of the readings of the timer messages.
-/

namespace Rover.App

open Arduino Dsp Rounding Sampling

structure Battery where
  vbat : ℚ
  vbatSlope : ℚ
  vbatS0 : ℤ := 0
  vbatCsv : List (ℤ × ℚ × ℚ) := []
  vbatfb : AveragingFilter ℚ := .ofSize vbatFilterSize
  vbatfb2 : AveragingFilter ℚ := .ofSize (vbatFilterSize * 50)

/-- The counter of each part with the variables that it writes. -/
structure Monitors where
  fan : BitVec 32 × ℚ × BitVec 32
  batt : BitVec 32 × Battery
  slaveTrx : BitVec 32 × BitVec 32 × BitVec 32
  wlan : BitVec 32 × ℤ × ℤ

def MainApp.monitors (a : MainApp) : Monitors where
  fan := (a.timerCxFan, a.socTemp, a.fanPwm)
  batt := (a.timerCxBatt, ⟨a.vbat, a.vbatSlope, a.vbatS0, a.vbatCsv, a.vbatfb, a.vbatfb2⟩)
  slaveTrx := (a.timerCxSlaveTrx, a.slaveTrx)
  wlan := (a.timerCxWlan, a.wifiQuality, a.wifiSignal)

/-! ## What each part does with a sample -/

def socTempOf (r : Readings) : ℚ := float (r.tempRaw.toInt / 1000)

def fanPwmOf (temp : ℚ) : BitVec 32 :=
  let pwm := trunc ((round temp - 40) * (5 / 2))
  let pwm := if 0 < pwm then pwm else 0
  let pwm := if pwm < 100 then pwm else 100
  BitVec.ofInt 32 pwm

/-- The fan is only set when the temperature is above zero. -/
def fanSetting (r : Readings) : Option (BitVec 32) :=
  if 0 < socTempOf r then some (fanPwmOf (socTempOf r)) else none

def voltage (rawBatt : BitVec 16) : ℚ :=
  (rBattBot + rBattTop) / rBattBot * vRef * rawBatt.toNat / 1024

def answered (r : Readings) : Bool := r.rawBatt ≠ 0xffff

/-- A row is written when the second is another one than that of the row before. -/
def Battery.log (b : Battery) (r : Readings) : List (ℤ × ℚ × ℚ) :=
  if b.vbatS0 ≠ r.sEpoch then
    b.vbatCsv ++ [(r.sEpoch, voltage r.rawBatt, (b.vbatfb2.feed (voltage r.rawBatt)).1)]
  else b.vbatCsv

def Battery.sample (b : Battery) (r : Readings) : Battery :=
  let vbatfb := b.vbatfb.feed (voltage r.rawBatt)
  let vbatfb2 := b.vbatfb2.feed (voltage r.rawBatt)
  { vbat := vbatfb.1
    vbatSlope := 1000 * (vbatfb2.2.last 0 - vbatfb2.2.last (-60)) / 10
    vbatS0 := r.sEpoch
    vbatCsv := b.log r
    vbatfb := vbatfb.2
    vbatfb2 := vbatfb2.2 }

namespace Monitors

def stepFan : BitVec 32 × ℚ × BitVec 32 → Readings → BitVec 32 × ℚ × BitVec 32 :=
  step timerCiFan (fun _ ↦ true) fun s r ↦ (socTempOf r, (fanSetting r).getD s.2)

def stepBatt : BitVec 32 × Battery → Readings → BitVec 32 × Battery :=
  step timerCiBatt answered Battery.sample

def stepSlaveTrx :
    BitVec 32 × BitVec 32 × BitVec 32 → Readings → BitVec 32 × BitVec 32 × BitVec 32 :=
  step timerCiSlaveTrx (fun _ ↦ true) fun _ r ↦ r.trx

def stepWlan : BitVec 32 × ℤ × ℤ → Readings → BitVec 32 × ℤ × ℤ :=
  step timerCiWlan (fun _ ↦ true) fun s r ↦ r.wireless.getD s

def tick (m : Monitors) (r : Readings) : Monitors where
  fan := stepFan m.fan r
  batt := stepBatt m.batt r
  slaveTrx := stepSlaveTrx m.slaveTrx r
  wlan := stepWlan m.wlan r

theorem foldl_tick (m : Monitors) (rs : List Readings) :
    rs.foldl tick m =
      ⟨rs.foldl stepFan m.fan, rs.foldl stepBatt m.batt, rs.foldl stepSlaveTrx m.slaveTrx,
        rs.foldl stepWlan m.wlan⟩ := by
  induction rs generalizing m with
  | nil => rfl
  | cons r rs ih => exact ih (m.tick r)

end Monitors

/-! ## The parts do not mix -/

section

variable (r : Readings) (a : MainApp)

theorem handleTimerWdt_monitors : (handleTimerWdt a).1.monitors = a.monitors := by
  unfold handleTimerWdt
  dsimp only
  split_ifs <;> rfl

theorem handleTimerThr_monitors : (handleTimerThr a).monitors = a.monitors := by
  unfold handleTimerThr handleTimerThrTraced
  dsimp only
  split_ifs <;> rfl

theorem handleTimerFan_monitors :
    (handleTimerFan r a).monitors =
      { a.monitors with fan := Monitors.stepFan a.monitors.fan r } := by
  unfold handleTimerFan
  dsimp only
  by_cases hdue : timerCiFan ≤ a.timerCxFan + 1
  · have hstep : Monitors.stepFan a.monitors.fan r = _ := step_taken hdue rfl
    rw [if_pos hdue, hstep]
    by_cases hwarm : 0 < float ((r.tempRaw.toInt : ℚ) / 1000)
    · rw [if_pos hwarm, show fanSetting r = _ from if_pos hwarm]
      rfl
    · rw [if_neg hwarm, show fanSetting r = _ from if_neg hwarm]
      rfl
  · have hstep : Monitors.stepFan a.monitors.fan r = _ := step_of_not_due hdue
    rw [if_neg hdue, hstep]
    rfl

theorem handleTimerBatt_monitors :
    (handleTimerBatt r a).1.monitors =
      { a.monitors with batt := Monitors.stepBatt a.monitors.batt r } := by
  unfold handleTimerBatt
  dsimp only
  split_ifs with hdue hanswer hsecond
  · have hstep : Monitors.stepBatt a.monitors.batt r = _ :=
      step_taken hdue (decide_eq_true hanswer)
    have hlog : a.monitors.batt.2.log r = _ := if_pos hsecond
    rw [hstep, Battery.sample, hlog]
    rfl
  · have hstep : Monitors.stepBatt a.monitors.batt r = _ :=
      step_taken hdue (decide_eq_true hanswer)
    have hlog : a.monitors.batt.2.log r = _ := if_neg hsecond
    rw [hstep, Battery.sample, hlog, ← not_not.mp hsecond]
    rfl
  · have hstep : Monitors.stepBatt a.monitors.batt r = _ :=
      step_of_refused fun hok ↦ hanswer (of_decide_eq_true hok)
    rw [hstep]
    rfl
  · have hstep : Monitors.stepBatt a.monitors.batt r = _ := step_of_not_due hdue
    rw [hstep]
    rfl

theorem handleTimerSlaveTrx_monitors :
    (handleTimerSlaveTrx r a).monitors =
      { a.monitors with slaveTrx := Monitors.stepSlaveTrx a.monitors.slaveTrx r } := by
  unfold handleTimerSlaveTrx
  dsimp only
  split_ifs with hdue
  · have hstep : Monitors.stepSlaveTrx a.monitors.slaveTrx r = _ := step_taken hdue rfl
    rw [hstep]
    rfl
  · have hstep : Monitors.stepSlaveTrx a.monitors.slaveTrx r = _ := step_of_not_due hdue
    rw [hstep]
    rfl

theorem handleTimerWlan_monitors :
    (handleTimerWlan r a).monitors =
      { a.monitors with wlan := Monitors.stepWlan a.monitors.wlan r } := by
  unfold handleTimerWlan
  dsimp only
  split_ifs with hdue
  · have hstep : Monitors.stepWlan a.monitors.wlan r = _ := step_taken hdue rfl
    rw [hstep]
    cases r.wireless <;> rfl
  · have hstep : Monitors.stepWlan a.monitors.wlan r = _ := step_of_not_due hdue
    rw [hstep]
    rfl

theorem handleTimer_monitors : (handleTimer r a).1.monitors = a.monitors.tick r := by
  unfold handleTimer
  dsimp only
  rw [handleTimerWlan_monitors, handleTimerSlaveTrx_monitors, handleTimerBatt_monitors,
    handleTimerFan_monitors, handleTimerThr_monitors, handleTimerWdt_monitors]
  rfl

end

/-! ## Whole runs -/

/-- The readings of the timer messages. -/
def readings (msgs : List (QueueMsg × Readings)) : List Readings :=
  msgs.filterMap fun x ↦ match x.1 with | .timer _ => some x.2 | _ => none

theorem monitors_run (msgs : List (QueueMsg × Readings)) (a : MainApp) :
    (run msgs a).1.monitors = (readings msgs).foldl Monitors.tick a.monitors := by
  induction msgs generalizing a with
  | nil => rfl
  | cons x msgs ih =>
      obtain ⟨m, r⟩ := x
      rw [run_cons]
      cases m with
      | js data => exact ih _
      | tty => exact ih _
      | timer time =>
          have hrest := ih (handleTimer r a).1
          rw [handleTimer_monitors] at hrest
          simp only [handle]
          exact hrest

/-- The readings whose battery sample was taken. -/
def battSamples (msgs : List (QueueMsg × Readings)) : List Readings :=
  (taken timerCiBatt answered (readings msgs)).1

section

variable (c : Config) (vbat vbatSlope : ℚ) (msgs : List (QueueMsg × Readings))

/-- Where the four parts are after a run. -/
theorem monitors_run_initial :
    (run msgs (initial c vbat vbatSlope)).1.monitors =
      { fan := (BitVec.ofNat 32 ((readings msgs).length % 1000),
          ((multiples 1000 (readings msgs)).map socTempOf).getLast?.getD 0,
          ((multiples 1000 (readings msgs)).filterMap fanSetting).getLast?.getD 0)
        batt := (BitVec.ofNat 32 (taken timerCiBatt answered (readings msgs)).2,
          (battSamples msgs).foldl Battery.sample { vbat := vbat, vbatSlope := vbatSlope })
        slaveTrx := (BitVec.ofNat 32 ((readings msgs).length % 1000),
          ((multiples 1000 (readings msgs)).map Readings.trx).getLast?.getD (0, 0))
        wlan := (BitVec.ofNat 32 ((readings msgs).length % 100),
          ((multiples 100 (readings msgs)).filterMap Readings.wireless).getLast?.getD (0, 0)) } := by
  have hsoc := foldl_getD (fun r : Readings ↦ some (socTempOf r)) 0 (multiples 1000 (readings msgs))
  have htrx := foldl_getD (fun r : Readings ↦ some r.trx) (0, 0) (multiples 1000 (readings msgs))
  rw [List.filterMap_eq_map'] at hsoc htrx
  rw [monitors_run, Monitors.foldl_tick, ← hsoc, ← htrx, ← foldl_getD fanSetting,
    ← foldl_getD Readings.wireless, ← foldl_prod]
  congr 1
  · refine (foldl_step _ _ _).trans ?_
    rw [taken_of_accepting (by decide)]
    rfl
  · exact foldl_step _ _ _
  · refine (foldl_step _ _ _).trans ?_
    rw [taken_of_accepting (by decide)]
    rfl
  · refine (foldl_step _ _ _).trans ?_
    rw [taken_of_accepting (by decide)]
    rfl

end

/-! ## The fan -/

/-- The duty of the fan at `t` thousandths of a degree: none up to 40 degrees,
and 5 for every 2 degrees above. -/
def fanLevel (t : ℤ) : ℕ := min 100 (5 * ((t + 500) / 1000 - 40).toNat / 2)

theorem abs_float_sub_le {x : ℚ} (hx : 0 ≤ x) : |float x - x| ≤ x / 2 ^ 23 := by
  have hpos : 0 ≤ double x := nearest_nonneg 53 hx
  have hdouble : |double x - x| ≤ x / 2 ^ 53 := by
    have h := abs_nearest_sub_le 53 x
    rwa [abs_of_nonneg hx] at h
  have hfloat : |float x - double x| ≤ double x / 2 ^ 24 := by
    have h := abs_nearest_sub_le 24 (double x)
    rwa [abs_of_nonneg hpos] at h
  rw [abs_le] at hdouble hfloat ⊢
  norm_num at hdouble hfloat ⊢
  constructor <;> linarith

theorem float_pos_iff (t : ℤ) : 0 < float ((t : ℚ) / 1000) ↔ 0 < t := by
  rcases lt_trichotomy t 0 with ht | rfl | ht
  · have hneg : (0 : ℚ) ≤ -((t : ℚ) / 1000) := by
      have : (t : ℚ) < 0 := by exact_mod_cast ht
      linarith
    have h := nearest_nonneg 24 (nearest_nonneg 53 hneg)
    rw [nearest_neg, nearest_neg] at h
    exact iff_of_false (not_lt.mpr (neg_nonneg.mp h)) ht.not_gt
  · simp [float, double, nearest_zero]
  · have hx : (0 : ℚ) < (t : ℚ) / 1000 := by
      have : (0 : ℚ) < t := by exact_mod_cast ht
      linarith
    have h := (abs_le.mp (abs_float_sub_le hx.le)).1
    refine iff_of_true ?_ ht
    norm_num at h
    linarith

/-- Up to 100 degrees the `float` is rounded as the exact temperature: between
two halves it is off by less than a thousandth, and the halves are exact. -/
theorem round_float {t : ℤ} (ht : 0 < t) (hle : t ≤ 100000) :
    round (float ((t : ℚ) / 1000)) = (t + 500) / 1000 := by
  have hpos : (0 : ℚ) < (t : ℚ) / 1000 := by
    have : (0 : ℚ) < t := by exact_mod_cast ht
    linarith
  have hwarm : 0 ≤ float ((t : ℚ) / 1000) := ((float_pos_iff t).mpr ht).le
  have hdiv : (1000 : ℚ) * ((t + 500) / 1000 : ℤ) + ((t + 500) % 1000 : ℤ) = t + 500 := by
    exact_mod_cast Int.mul_ediv_add_emod (t + 500) 1000
  rw [round, if_pos hwarm]
  change ⌊float ((t : ℚ) / 1000) + 1 / 2⌋ = _
  apply Int.floor_eq_iff.mpr
  by_cases hhalf : (t + 500) % 1000 = 0
  · obtain ⟨m, hm⟩ : ∃ m : ℕ, t = 1000 * m + 500 := ⟨((t - 500) / 1000).toNat, by omega⟩
    have hexact : float ((t : ℚ) / 1000) = t / 1000 := by
      have hdigits : (t : ℚ) / 1000 = ((2 * m + 1 : ℕ) : ℚ) * 2 ^ (-1 : ℤ) := by
        rw [hm]
        push_cast
        norm_num
        ring
      have hsmall : 2 * m + 1 ≤ 2 ^ 24 := by omega
      rw [float, double, hdigits, nearest_mul_zpow (by norm_num) (hsmall.trans (by norm_num)),
        nearest_mul_zpow (by norm_num) hsmall]
    rw [hhalf] at hdiv
    push_cast at hdiv
    rw [hexact]
    constructor <;> linarith
  · have hrem : (1 : ℚ) ≤ ((t + 500) % 1000 : ℤ) ∧ (((t + 500) % 1000 : ℤ) : ℚ) ≤ 999 := by
      have : 1 ≤ (t + 500) % 1000 ∧ (t + 500) % 1000 ≤ 999 := by omega
      exact_mod_cast this
    have hlimit : (t : ℚ) ≤ 100000 := by exact_mod_cast hle
    have herr := abs_le.mp (abs_float_sub_le hpos.le)
    norm_num at herr
    constructor <;> linarith

theorem toNat_clamp (p : ℤ) :
    (BitVec.ofInt 32 (if (if 0 < p then p else 0) < 100 then (if 0 < p then p else 0)
      else 100)).toNat = min 100 p.toNat := by
  rw [BitVec.toNat_ofInt]
  split_ifs <;> omega

theorem toNat_trunc_duty (d : ℤ) : (trunc ((d : ℚ) * (5 / 2))).toNat = 5 * d.toNat / 2 := by
  by_cases hwarm : 0 ≤ d
  · have hge : (0 : ℚ) ≤ d := by exact_mod_cast hwarm
    have hquot : (d : ℚ) * (5 / 2) = ((5 * d : ℤ) : ℚ) / (2 : ℕ) := by
      push_cast
      ring
    have hfloor : trunc ((d : ℚ) * (5 / 2)) = 5 * d / 2 := by
      rw [trunc, if_pos (by positivity), hquot]
      exact Rat.floor_intCast_div_natCast _ _
    rw [hfloor]
    omega
  · have hneg : (d : ℚ) < 0 := by exact_mod_cast not_le.mp hwarm
    have hprod : (d : ℚ) * (5 / 2) < 0 := mul_neg_of_neg_of_pos hneg (by norm_num)
    have hceil : trunc ((d : ℚ) * (5 / 2)) ≤ 0 := by
      rw [trunc, if_neg (not_le.mpr hprod)]
      apply Rat.ceil_le_iff.mpr
      exact hprod.le
    omega

theorem toNat_fanPwmOf (temp : ℚ) :
    (fanPwmOf temp).toNat = min 100 (5 * (round temp - 40).toNat / 2) := by
  have hsub : ((round temp : ℤ) : ℚ) - 40 = ((round temp - 40 : ℤ) : ℚ) := by
    push_cast
    rfl
  rw [fanPwmOf, hsub, ← toNat_trunc_duty]
  exact toNat_clamp _

theorem toNat_fanPwmOf_float {t : ℤ} (ht : 0 < t) :
    (fanPwmOf (float ((t : ℚ) / 1000))).toNat = fanLevel t := by
  rw [toNat_fanPwmOf, fanLevel]
  by_cases hle : t ≤ 100000
  · rw [round_float ht hle]
  · -- above 80 degrees the duty is at its limit
    have hlt : (100000 : ℚ) < t := by exact_mod_cast not_le.mp hle
    have herr := abs_le.mp (abs_float_sub_le (show (0 : ℚ) ≤ (t : ℚ) / 1000 by linarith))
    norm_num at herr
    have hround : 80 ≤ round (float ((t : ℚ) / 1000)) := by
      rw [round, if_pos (by linarith)]
      change 80 ≤ ⌊float ((t : ℚ) / 1000) + 1 / 2⌋
      apply Int.le_floor.mpr
      push_cast
      linarith
    omega

/-- The settings of the fan are those for the temperatures above zero. -/
theorem map_filterMap_fanSetting (rs : List Readings) :
    (rs.filterMap fanSetting).map BitVec.toNat =
      (rs.filter fun r ↦ 0 < r.tempRaw.toInt).map fun r ↦ fanLevel r.tempRaw.toInt := by
  induction rs with
  | nil => rfl
  | cons r rs ih =>
      have hwarm : 0 < socTempOf r ↔ 0 < r.tempRaw.toInt := float_pos_iff r.tempRaw.toInt
      by_cases ht : 0 < r.tempRaw.toInt
      · have hset : fanSetting r = some (fanPwmOf (socTempOf r)) := if_pos (hwarm.mpr ht)
        rw [List.filterMap_cons, hset, List.filter_cons_of_pos (by simpa using ht)]
        simp only [List.map_cons, ih]
        rw [socTempOf, toNat_fanPwmOf_float ht]
      · have hset : fanSetting r = none := if_neg (mt hwarm.mp ht)
        rw [List.filterMap_cons, hset, List.filter_cons_of_neg (by simpa using ht)]
        exact ih

/-! ## The statistics -/

/-- What `stats` reports after any run: the temperature, as a `float`, and the
counts of the link as they were read at the last timer message whose number is a multiple of
1000, the fan as it was set at the last such message with a temperature above
zero, and the wireless values as they were read at the last message whose
number is a multiple of 100 and that found them. -/
theorem stats_report_latest (c : Config) (vbat vbatSlope : ℚ) (msgs : List (QueueMsg × Readings)) :
    let s := stats (run msgs (initial c vbat vbatSlope)).1
    let rs := readings msgs
    s.socTemp = ((latest 1000 rs).map socTempOf).getD 0 ∧
      (s.slaveRx, s.slaveTx) = ((latest 1000 rs).map Readings.trx).getD (0, 0) ∧
      s.fanPwm.toNat = (((multiples 1000 rs).filter fun r ↦ 0 < r.tempRaw.toInt).getLast?.map
        fun r ↦ fanLevel r.tempRaw.toInt).getD 0 ∧
      (s.wifiQuality, s.wifiSignal) =
        ((multiples 100 rs).filterMap Readings.wireless).getLast?.getD (0, 0) := by
  have hrun := monitors_run_initial c vbat vbatSlope msgs
  simp only [MainApp.monitors, Monitors.mk.injEq, Prod.mk.injEq] at hrun
  obtain ⟨⟨-, hsoc, hfan⟩, -, ⟨-, htrx⟩, -, hwlan⟩ := hrun
  refine ⟨?_, ?_, ?_, ?_⟩
  · rw [← getLast?_multiples (by decide), ← List.getLast?_map]
    exact hsoc
  · rw [← getLast?_multiples (by decide), ← List.getLast?_map]
    exact htrx
  · rw [← List.getLast?_map, ← map_filterMap_fanSetting, List.getLast?_map]
    refine (congrArg BitVec.toNat hfan).trans ?_
    cases ((multiples 1000 (readings msgs)).filterMap fanSetting).getLast? <;> rfl
  · exact hwlan

end Rover.App
