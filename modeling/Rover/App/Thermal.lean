import Rover.App.Recorded
import Rover.Lib.Leak

/-!
# The thermal model

Each thermal step adds the heat of `TIMER_CI_THR` timer periods.  The counter
that should space the steps is compared with its interval and never reset, so
from the tenth timer message on every one of them takes a step.
-/

namespace Rover.App

open Leak

/-- The time that a thermal step stands for, in seconds. -/
def thermalDt : ℚ := (timerCiThr * (timerPeriodUs / 1000)).toNat / 1000

/-- The heat that a step adds. -/
def MainApp.heatIn (a : MainApp) : ℚ :=
  thermalDt *
    (a.config.pwmPower * (a.leftPwm + a.rightPwm).toNat / (2 * a.config.pwmRange).toNat)

/-- Whether `handle_timer` takes a thermal step in this state. -/
def MainApp.thermalDue (a : MainApp) : Bool := decide (timerCiThr ≤ a.timerCxThr + 1)

/-- The share of the heat that is given off in a step. -/
def Config.loss (c : Config) : ℚ := c.heatTransferKa / (c.specificHeat * c.mass)

/-- What the thermal part does to the fields it reads again. -/
theorem handleTimerThr_eq (a : MainApp) :
    ∃ prnt, handleTimerThr a =
      if a.thermalDue then
        { a with
          timerCxThr := a.timerCxThr + 1
          timerCxThrPrnt := prnt
          heat := leak a.config.loss a.heat a.heatIn
          motTemp := a.ambient + (a.heat + a.heatIn) / (a.config.specificHeat * a.config.mass) }
      else { a with timerCxThr := a.timerCxThr + 1 } := by
  have hleak : leak a.config.loss a.heat a.heatIn =
      a.heat + a.heatIn - a.config.heatTransferKa *
        (a.ambient + (a.heat + a.heatIn) / (a.config.specificHeat * a.config.mass) -
          a.ambient) := by
    rw [leak, Config.loss, add_sub_cancel_left, mul_div_assoc', div_mul_eq_mul_div]
  rw [hleak]
  unfold handleTimerThr handleTimerThrTraced MainApp.thermalDue MainApp.heatIn thermalDt
  by_cases h : timerCiThr ≤ a.timerCxThr + 1
  · simp only [h, decide_true, if_true]
    split_ifs
    · exact ⟨_, rfl⟩
    · exact ⟨_, rfl⟩
  · simp only [h, decide_false, if_false, Bool.false_eq_true, exists_const]

/-- One timer message, as the thermal model sees it. -/
structure ThermalStep (a b : MainApp) : Prop where
  counter : b.timerCxThr = a.timerCxThr + 1
  heat : b.heat = if a.thermalDue then leak a.config.loss a.heat a.heatIn else a.heat
  motTemp : b.motTemp =
    if a.thermalDue then
      a.ambient + (a.heat + a.heatIn) / (a.config.specificHeat * a.config.mass)
    else a.motTemp
  ambient : b.ambient = a.ambient

theorem ThermalStep.of_core {a b b' : MainApp} (h : ThermalStep a b) (hcore : b'.core = b.core) :
    ThermalStep a b' where
  counter := (congrArg MainApp.timerCxThr hcore).trans h.counter
  heat := (congrArg MainApp.heat hcore).trans h.heat
  motTemp := (congrArg MainApp.motTemp hcore).trans h.motTemp
  ambient := (congrArg MainApp.ambient hcore).trans h.ambient

theorem thermalStep_handleTimerThr (a : MainApp) : ThermalStep a (handleTimerThr a) := by
  obtain ⟨prnt, h⟩ := handleTimerThr_eq a
  rw [h]
  cases hdue : a.thermalDue with
  | true => exact ⟨rfl, by simp only [hdue, if_true], by simp only [hdue, if_true], rfl⟩
  | false =>
      simp only [Bool.false_eq_true, if_false]
      exact ⟨rfl, by rw [hdue]; rfl, by rw [hdue]; rfl, rfl⟩

theorem handleTimerWdt_eq (a : MainApp) :
    ∃ cx, (handleTimerWdt a).1 = { a with timerCxWdt := cx } := by
  unfold handleTimerWdt
  dsimp only
  split_ifs
  · exact ⟨_, rfl⟩
  · exact ⟨_, rfl⟩

theorem thermalStep_handleTimer (r : Readings) (a : MainApp) :
    ThermalStep a (handleTimer r a).1 := by
  obtain ⟨cx, hwdt⟩ := handleTimerWdt_eq a
  have hthr := thermalStep_handleTimerThr { a with timerCxWdt := cx }
  have hcore := handleTimer_core r a
  rw [hwdt] at hcore
  exact ThermalStep.of_core ⟨hthr.counter, hthr.heat, hthr.motTemp, hthr.ambient⟩ hcore

/-! ## The number of steps -/

def isTimer : QueueMsg → Bool
  | .timer _ => true
  | _ => false

def timerCount (msgs : List (QueueMsg × Readings)) : ℕ := msgs.countP fun x ↦ isTimer x.1

/-- The duration and the heat of each thermal step of a run. -/
def thermalTrace : List (QueueMsg × Readings) → MainApp → List (ℚ × ℚ)
  | [], _ => []
  | (m, r) :: rest, a =>
      (if isTimer m then (handleTimerThrTraced (handleTimerWdt a).1).2 else []) ++
        thermalTrace rest (handle m r a).1

/-- The number of thermal steps of a run. -/
def thermalSteps (msgs : List (QueueMsg × Readings)) (a : MainApp) : ℕ :=
  (thermalTrace msgs a).length

theorem trace_handleTimerThr (a : MainApp) :
    (handleTimerThrTraced (handleTimerWdt a).1).2 =
      if a.thermalDue then [(thermalDt, a.heatIn)] else [] := by
  obtain ⟨cx, hwdt⟩ := handleTimerWdt_eq a
  rw [hwdt]
  unfold handleTimerThrTraced MainApp.thermalDue MainApp.heatIn thermalDt
  by_cases h : timerCiThr ≤ a.timerCxThr + 1
  · simp only [h, decide_true, if_true, mul_div_assoc]
  · simp only [h, decide_false, if_false, Bool.false_eq_true]

theorem timerCount_concat (msgs : List (QueueMsg × Readings)) (m : QueueMsg) (r : Readings) :
    timerCount (msgs ++ [(m, r)]) = timerCount msgs + if isTimer m then 1 else 0 := by
  rw [timerCount, List.countP_append, List.countP_singleton]
  rfl

theorem thermalTrace_concat (msgs : List (QueueMsg × Readings)) (m : QueueMsg) (r : Readings)
    (a : MainApp) :
    thermalTrace (msgs ++ [(m, r)]) a =
      thermalTrace msgs a ++
        if isTimer m && (run msgs a).1.thermalDue then [(thermalDt, (run msgs a).1.heatIn)]
        else [] := by
  induction msgs generalizing a with
  | nil =>
      rw [List.nil_append, thermalTrace, thermalTrace, thermalTrace, List.append_nil,
        trace_handleTimerThr, run_nil, List.nil_append]
      cases isTimer m <;> rfl
  | cons x msgs ih =>
      obtain ⟨m', r'⟩ := x
      rw [List.cons_append, thermalTrace, thermalTrace, ih, run_cons, List.append_assoc]

theorem thermalSteps_concat (msgs : List (QueueMsg × Readings)) (m : QueueMsg) (r : Readings)
    (a : MainApp) :
    thermalSteps (msgs ++ [(m, r)]) a =
      thermalSteps msgs a + if isTimer m && (run msgs a).1.thermalDue then 1 else 0 := by
  rw [thermalSteps, thermalTrace_concat, List.length_append, thermalSteps]
  split_ifs <;> rfl

section

variable (c : Config) (vbat vbatSlope : ℚ) (msgs : List (QueueMsg × Readings))

theorem timerCxThr_run :
    (run msgs (initial c vbat vbatSlope)).1.timerCxThr = BitVec.ofNat 32 (timerCount msgs) := by
  induction msgs using List.reverseRecOn with
  | nil => rfl
  | append_singleton msgs x ih =>
      obtain ⟨m, r⟩ := x
      rw [timerCount_concat, run_append, run_cons, run_nil]
      cases m with
      | js data => exact ih
      | tty => exact ih
      | timer time =>
          simp only [handle]
          rw [(thermalStep_handleTimer r _).counter, ih, isTimer, if_pos rfl, BitVec.ofNat_add]
          rfl

/-- The counter is still small enough for its first wrap-around. -/
theorem thermalDue_run (h : timerCount msgs + 1 < 2 ^ 32) :
    (run msgs (initial c vbat vbatSlope)).1.thermalDue = decide (10 ≤ timerCount msgs + 1) := by
  rw [MainApp.thermalDue, timerCxThr_run, decide_eq_decide, BitVec.le_def, BitVec.toNat_add,
    BitVec.toNat_ofNat]
  change 10 ≤ (timerCount msgs % 2 ^ 32 + 1) % 2 ^ 32 ↔ _
  omega

/-- The first nine timer messages take no step, and every later one does. -/
theorem thermalSteps_run (h : timerCount msgs < 2 ^ 32) :
    thermalSteps msgs (initial c vbat vbatSlope) = timerCount msgs - 9 := by
  induction msgs using List.reverseRecOn with
  | nil => rfl
  | append_singleton msgs x ih =>
      obtain ⟨m, r⟩ := x
      rw [timerCount_concat] at h
      have hbefore := ih (by omega)
      rw [thermalSteps_concat, timerCount_concat, hbefore]
      cases hm : isTimer m with
      | false => rfl
      | true =>
          rw [hm, if_pos rfl] at h
          rw [thermalDue_run c vbat vbatSlope msgs h, Bool.true_and, if_pos rfl]
          by_cases hdue : 10 ≤ timerCount msgs + 1
          · rw [decide_eq_true hdue, if_pos rfl]
            omega
          · rw [decide_eq_false hdue, if_neg (by decide)]
            omega

theorem durations_run (h : timerCount msgs < 2 ^ 32) :
    (thermalTrace msgs (initial c vbat vbatSlope)).map Prod.fst =
      List.replicate (timerCount msgs - 9) thermalDt := by
  have hlen : (thermalTrace msgs (initial c vbat vbatSlope)).length = timerCount msgs - 9 :=
    thermalSteps_run c vbat vbatSlope msgs h
  refine List.eq_replicate_iff.mpr ⟨(List.length_map _).trans hlen, ?_⟩
  rw [List.forall_mem_map]
  clear h hlen
  induction msgs using List.reverseRecOn with
  | nil => exact fun x hx ↦ absurd hx List.not_mem_nil
  | append_singleton msgs x ih =>
      obtain ⟨m, r⟩ := x
      rw [thermalTrace_concat]
      intro y hy
      rcases List.mem_append.mp hy with hy | hy
      · exact ih y hy
      · split_ifs at hy
        · rw [List.mem_singleton.mp hy]
        · exact absurd hy List.not_mem_nil

theorem heat_run :
    (run msgs (initial c vbat vbatSlope)).1.heat =
      ((thermalTrace msgs (initial c vbat vbatSlope)).map Prod.snd).foldl (leak c.loss) 0 := by
  induction msgs using List.reverseRecOn with
  | nil => rfl
  | append_singleton msgs x ih =>
      obtain ⟨m, r⟩ := x
      rw [thermalTrace_concat, List.map_append, List.foldl_append, ← ih, run_append, run_cons,
        run_nil]
      cases m with
      | js data => rfl
      | tty => rfl
      | timer time =>
          have hconfig : (run msgs (initial c vbat vbatSlope)).1.config = c :=
            (run_config msgs _).1
          simp only [handle]
          rw [(thermalStep_handleTimer r _).heat, hconfig, isTimer, Bool.true_and]
          split_ifs <;> rfl

end

theorem thermalDt_eq : thermalDt = 1 / 100 := by
  have hinterval : (timerCiThr * (timerPeriodUs / 1000)).toNat = 10 := by decide
  rw [thermalDt, hinterval]
  norm_num

/-- The thermal model keeps the time of `n` timer periods with steps of these
durations: there is one for each interval, and together they are never a step
ahead or behind. -/
def KeepsTime (durations : List ℚ) (n : ℕ) : Prop :=
  durations.length = n / timerCiThr.toNat ∧
    |durations.sum - n * (timerPeriodUs.toNat / 1000000)| < thermalDt

theorem keepsTime_iff (n : ℕ) : KeepsTime (List.replicate (n - 9) thermalDt) n ↔ n ≤ 10 := by
  have hinterval : timerCiThr.toNat = 10 := rfl
  have hperiod : timerPeriodUs.toNat = 1000 := rfl
  rw [KeepsTime, hinterval, hperiod, thermalDt_eq, List.length_replicate, List.sum_replicate,
    nsmul_eq_mul]
  constructor
  · rintro ⟨hsteps, -⟩
    omega
  · intro hle
    have hsteps : n - 9 = n / 10 := by omega
    refine ⟨hsteps, ?_⟩
    have hdiv : ((n / 10 : ℕ) : ℚ) * 10 + (n % 10 : ℕ) = n := mod_cast Nat.div_add_mod' n 10
    have hmod : ((n % 10 : ℕ) : ℚ) < 10 := mod_cast Nat.mod_lt n (by decide)
    have hmod' : (0 : ℚ) ≤ ((n % 10 : ℕ) : ℚ) := Nat.cast_nonneg _
    rw [hsteps, abs_lt]
    constructor
    · push_cast
      linarith
    · push_cast
      linarith

/-- The heat of a run is what its thermal steps make of no heat, and these
steps keep time for exactly the runs of at most ten timer messages. -/
theorem thermal_time_iff (c : Config) (vbat vbatSlope : ℚ) (msgs : List (QueueMsg × Readings))
    (h : timerCount msgs < 2 ^ 32) :
    let steps := thermalTrace msgs (initial c vbat vbatSlope)
    (run msgs (initial c vbat vbatSlope)).1.heat =
        (steps.map Prod.snd).foldl (leak c.loss) 0 ∧
      (KeepsTime (steps.map Prod.fst) (timerCount msgs) ↔ timerCount msgs ≤ 10) := by
  intro steps
  refine ⟨heat_run c vbat vbatSlope msgs, ?_⟩
  rw [durations_run c vbat vbatSlope msgs h]
  exact keepsTime_iff _

def ticks (n : ℕ) : List (QueueMsg × Readings) := List.replicate n (.timer 0, {})

theorem timerCount_ticks (n : ℕ) : timerCount (ticks n) = n := by
  rw [timerCount, ticks, List.countP_replicate]
  rfl

theorem thermal_time_iff_ten :
    KeepsTime ((thermalTrace (ticks 10) (initial {} 0 0)).map Prod.fst) 10 := by
  have h := (thermal_time_iff {} 0 0 (ticks 10) (by rw [timerCount_ticks]; decide)).2
  rw [timerCount_ticks] at h
  exact h.mpr le_rfl

/-- The eleventh timer message takes the second step. -/
theorem eleven_ticks_gain_time :
    ¬∀ c vbat vbatSlope msgs, timerCount msgs < 2 ^ 32 →
      KeepsTime ((thermalTrace msgs (initial c vbat vbatSlope)).map Prod.fst)
        (timerCount msgs) := by
  intro h
  have hkeeps := h {} 0 0 (ticks 11) (by rw [timerCount_ticks]; decide)
  rw [durations_run {} 0 0 (ticks 11) (by rw [timerCount_ticks]; decide),
    timerCount_ticks, keepsTime_iff] at hkeeps
  exact absurd hkeeps (by decide)

end Rover.App
