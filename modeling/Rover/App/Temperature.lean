import Rover.App.Thermal

/-!
# Bounds of the thermal estimate

The heat is a leaking reservoir whose inflow is the power of the last joystick
message.  The inflow is at most that of full power, which bounds the heat, and
less power never gives more heat.
-/

namespace Rover.App

open Leak

structure Config.Physical (c : Config) : Prop where
  power_nonneg : 0 ≤ c.pwmPower
  capacity_pos : 0 < c.specificHeat * c.mass
  transfer_pos : 0 < c.heatTransferKa
  transfer_le : c.heatTransferKa ≤ c.specificHeat * c.mass
  range_eq : c.pwmRange = 255

theorem physical_default : Config.Physical {} := by
  constructor <;> norm_num

namespace Config.Physical

variable {c : Config} (hc : c.Physical)

include hc

theorem loss_pos : 0 < c.loss := div_pos hc.transfer_pos hc.capacity_pos

theorem loss_le : c.loss ≤ 1 := (div_le_one hc.capacity_pos).mpr hc.transfer_le

theorem fullHeat_nonneg : 0 ≤ thermalDt * c.pwmPower := by
  rw [thermalDt_eq]
  exact mul_nonneg (by norm_num) hc.power_nonneg

/-- The temperature of the most heat that a step can find. -/
theorem fullHeat_div : thermalDt * c.pwmPower / c.loss / (c.specificHeat * c.mass) =
    thermalDt * c.pwmPower / c.heatTransferKa := by
  have hcapacity : c.specificHeat * c.mass ≠ 0 := hc.capacity_pos.ne'
  rw [Config.loss, div_div, div_mul_cancel₀ _ hcapacity]

end Config.Physical

/-! ## The power of a stick -/

def InRange : QueueMsg → Prop
  | .js data => data.leftY.toInt.natAbs ≤ 500 ∧ data.rightY.toInt.natAbs ≤ 500
  | _ => True

section

variable {c : Config} (hrange : c.pwmRange = 255) {y y' : BitVec 32}

include hrange

theorem power_eq (h : y.toInt.natAbs ≤ 500) : power c y = y.toInt.natAbs * 255 / 500 := by
  have hpwm : c.pwmRange.toNat = 255 := by rw [hrange]; rfl
  rw [power, hpwm]
  omega

theorem power_le (h : y.toInt.natAbs ≤ 500) : power c y ≤ 255 := by
  rw [power_eq hrange h]
  omega

theorem power_le_power (h : y.toInt.natAbs ≤ y'.toInt.natAbs) (h' : y'.toInt.natAbs ≤ 500) :
    power c y ≤ power c y' := by
  rw [power_eq hrange (h.trans h'), power_eq hrange h']
  exact Nat.div_le_div_right (Nat.mul_le_mul_right 255 h)

end

/-! ## One run -/

structure Bounded (c : Config) (a : MainApp) : Prop where
  config_eq : a.config = c
  thrLimit_eq : a.thrLimit = 1
  left_le : a.leftPwm.toNat ≤ 255
  right_le : a.rightPwm.toNat ≤ 255
  heat_nonneg : 0 ≤ a.heat
  heat_le : a.heat ≤ bound c.loss (thermalDt * c.pwmPower)

/-- Between the ambient temperature and what full power can hold. -/
def Plausible (c : Config) (a : MainApp) : Prop :=
  a.ambient ≤ a.motTemp ∧ a.motTemp ≤ a.ambient + thermalDt * c.pwmPower / c.heatTransferKa

theorem bounded_initial {c : Config} (hc : c.Physical) (vbat vbatSlope : ℚ) :
    Bounded c (initial c vbat vbatSlope) where
  config_eq := rfl
  thrLimit_eq := rfl
  left_le := Nat.zero_le _
  right_le := Nat.zero_le _
  heat_nonneg := le_refl (0 : ℚ)
  heat_le := bound_nonneg hc.loss_pos hc.loss_le hc.fullHeat_nonneg

namespace Bounded

variable {c : Config} (hc : c.Physical) {a : MainApp} (h : Bounded c a)

include hc h

theorem heatIn_eq : a.heatIn =
    thermalDt * (c.pwmPower * (a.leftPwm.toNat + a.rightPwm.toNat) / 510) := by
  have hsum : (a.leftPwm + a.rightPwm).toNat = a.leftPwm.toNat + a.rightPwm.toNat := by
    have hleft := h.left_le
    have hright := h.right_le
    rw [BitVec.toNat_add]
    omega
  have hrange : (2 * a.config.pwmRange).toNat = 510 := by
    rw [h.config_eq, hc.range_eq]
    rfl
  rw [MainApp.heatIn, hsum, hrange, h.config_eq]
  norm_num

theorem heatIn_nonneg : 0 ≤ a.heatIn := by
  rw [h.heatIn_eq hc, thermalDt_eq]
  have hpower := hc.power_nonneg
  positivity

theorem heatIn_le : a.heatIn ≤ thermalDt * c.pwmPower := by
  have hsum : ((a.leftPwm.toNat : ℚ) + a.rightPwm.toNat) / 510 ≤ 1 := by
    have hleft : (a.leftPwm.toNat : ℚ) ≤ 255 := mod_cast h.left_le
    have hright : (a.rightPwm.toNat : ℚ) ≤ 255 := mod_cast h.right_le
    rw [div_le_one (by norm_num)]
    linarith
  rw [h.heatIn_eq hc, mul_div_assoc, ← mul_assoc]
  exact mul_le_of_le_one_right hc.fullHeat_nonneg hsum

omit hc in
theorem powers_handleJs (data : JsData) :
    (App.handleJs data a).1.leftPwm.toNat = power c data.leftY ∧
      (App.handleJs data a).1.rightPwm.toNat = power c data.rightY := by
  rw [← h.config_eq]
  exact handleJs_powers h.thrLimit_eq data

theorem handleJs {data : JsData} (hdata : InRange (.js data)) :
    Bounded c (handleJs data a).1 := by
  obtain ⟨hleft, hright⟩ := h.powers_handleJs data
  refine ⟨h.config_eq, h.thrLimit_eq, ?_, ?_, h.heat_nonneg, h.heat_le⟩
  · rw [hleft]
    exact power_le hc.range_eq hdata.1
  · rw [hright]
    exact power_le hc.range_eq hdata.2

theorem handleTimer (r : Readings) : Bounded c (handleTimer r a).1 := by
  obtain ⟨hconfig, hthr⟩ := handleTimer_config r a
  obtain ⟨hleft, hright⟩ := Prod.mk.inj (handleTimer_powers r a)
  have hheat := (thermalStep_handleTimer r a).heat
  refine ⟨hconfig.trans h.config_eq, hthr.trans h.thrLimit_eq, ?_, ?_, ?_, ?_⟩
  · rw [hleft]
    exact h.left_le
  · rw [hright]
    exact h.right_le
  · rw [hheat, h.config_eq]
    split_ifs
    · exact leak_nonneg hc.loss_le h.heat_nonneg (h.heatIn_nonneg hc)
    · exact h.heat_nonneg
  · rw [hheat, h.config_eq]
    split_ifs
    · exact leak_le_bound hc.loss_pos hc.loss_le h.heat_le (h.heatIn_le hc)
    · exact h.heat_le

theorem handle {m : QueueMsg} (hm : InRange m) (r : Readings) : Bounded c (handle m r a).1 := by
  cases m with
  | js data => exact h.handleJs hc hm
  | tty => exact h
  | timer time => exact h.handleTimer hc r

/-- A thermal step leaves a temperature that full power explains. -/
theorem plausible_of_due (r : Readings) (hdue : a.thermalDue = true) :
    Plausible c (App.handleTimer r a).1 := by
  have hstep := thermalStep_handleTimer r a
  have htemp := hstep.motTemp
  rw [if_pos hdue, h.config_eq] at htemp
  rw [Plausible, htemp, hstep.ambient, ← hc.fullHeat_div]
  constructor
  · have hsum : 0 ≤ a.heat + a.heatIn := add_nonneg h.heat_nonneg (h.heatIn_nonneg hc)
    exact le_add_of_nonneg_right (div_nonneg hsum hc.capacity_pos.le)
  · have hsum : a.heat + a.heatIn ≤ thermalDt * c.pwmPower / c.loss :=
      add_le_of_le_bound h.heat_le (h.heatIn_le hc)
    exact add_le_add_right (div_le_div_of_nonneg_right hsum hc.capacity_pos.le) a.ambient

end Bounded

theorem Plausible.of_not_due {c : Config} {a : MainApp} (h : Plausible c a) (r : Readings)
    (hdue : a.thermalDue = false) : Plausible c (handleTimer r a).1 := by
  have hstep := thermalStep_handleTimer r a
  have htemp := hstep.motTemp
  rw [hdue] at htemp
  rw [Plausible, htemp, hstep.ambient]
  exact h

theorem bounded_run {c : Config} (hc : c.Physical) {a : MainApp} (h : Bounded c a)
    {msgs : List (QueueMsg × Readings)} (hmsgs : ∀ x ∈ msgs, InRange x.1) :
    Bounded c (run msgs a).1 := by
  induction msgs generalizing a with
  | nil => exact h
  | cons x msgs ih =>
      obtain ⟨m, r⟩ := x
      rw [List.forall_mem_cons] at hmsgs
      exact ih (h.handle hc hmsgs.1 r) hmsgs.2

theorem plausible_run {c : Config} (hc : c.Physical) {a : MainApp} (h : Bounded c a)
    {msgs : List (QueueMsg × Readings)} (hmsgs : ∀ x ∈ msgs, InRange x.1)
    (hsteps : 0 < thermalSteps msgs a) : Plausible c (run msgs a).1 := by
  induction msgs using List.reverseRecOn with
  | nil => exact absurd hsteps (lt_irrefl 0)
  | append_singleton msgs x ih =>
      obtain ⟨m, r⟩ := x
      rw [List.forall_mem_append] at hmsgs
      rw [thermalSteps_concat] at hsteps
      rw [run_append, run_cons, run_nil]
      simp only [handle]
      cases m with
      | js data =>
          simp only [isTimer, Bool.false_and, Bool.false_eq_true, if_false, Nat.add_zero] at hsteps
          exact ih hmsgs.1 hsteps
      | tty =>
          simp only [isTimer, Bool.false_and, Bool.false_eq_true, if_false, Nat.add_zero] at hsteps
          exact ih hmsgs.1 hsteps
      | timer time =>
          cases hdue : (run msgs a).1.thermalDue with
          | true => exact (bounded_run hc h hmsgs.1).plausible_of_due hc r hdue
          | false =>
              simp only [hdue, Bool.and_false, Bool.false_eq_true, if_false, Nat.add_zero] at hsteps
              exact (ih hmsgs.1 hsteps).of_not_due r hdue

/-! ## Two runs -/

/-- The messages are of one kind, and the first asks for no more power. -/
def Milder : QueueMsg → QueueMsg → Prop
  | .js data, .js data' =>
      data.leftY.toInt.natAbs ≤ data'.leftY.toInt.natAbs ∧
        data.rightY.toInt.natAbs ≤ data'.rightY.toInt.natAbs
  | .tty, .tty => True
  | .timer _, .timer _ => True
  | _, _ => False

theorem Milder.inRange {m m' : QueueMsg} (h : Milder m m') (hm' : InRange m') : InRange m := by
  cases m with
  | js data =>
      cases m' with
      | js data' => exact ⟨h.1.trans hm'.1, h.2.trans hm'.2⟩
      | tty => exact absurd h id
      | timer time => exact absurd h id
  | tty => trivial
  | timer time => trivial

structure Cooler (a b : MainApp) : Prop where
  left_le : a.leftPwm.toNat ≤ b.leftPwm.toNat
  right_le : a.rightPwm.toNat ≤ b.rightPwm.toNat
  counter_eq : a.timerCxThr = b.timerCxThr
  ambient_eq : a.ambient = b.ambient
  heat_le : a.heat ≤ b.heat
  motTemp_le : a.motTemp ≤ b.motTemp

namespace Cooler

variable {c : Config} (hc : c.Physical) {a b : MainApp} (h : Cooler a b) (ha : Bounded c a)
  (hb : Bounded c b)

include hc h ha hb

theorem heatIn_le : a.heatIn ≤ b.heatIn := by
  have hleft : (a.leftPwm.toNat : ℚ) ≤ b.leftPwm.toNat := mod_cast h.left_le
  have hright : (a.rightPwm.toNat : ℚ) ≤ b.rightPwm.toNat := mod_cast h.right_le
  have hdt : 0 ≤ thermalDt := by
    rw [thermalDt_eq]
    norm_num
  have hpower := hc.power_nonneg
  rw [ha.heatIn_eq hc, hb.heatIn_eq hc]
  gcongr

theorem handleJs {data data' : JsData} (hdata : Milder (.js data) (.js data'))
    (hrange : InRange (.js data')) : Cooler (handleJs data a).1 (handleJs data' b).1 := by
  obtain ⟨hleft, hright⟩ := ha.powers_handleJs data
  obtain ⟨hleft', hright'⟩ := hb.powers_handleJs data'
  refine ⟨?_, ?_, h.counter_eq, h.ambient_eq, h.heat_le, h.motTemp_le⟩
  · rw [hleft, hleft']
    exact power_le_power hc.range_eq hdata.1 hrange.1
  · rw [hright, hright']
    exact power_le_power hc.range_eq hdata.2 hrange.2

theorem handleTimer (r r' : Readings) : Cooler (handleTimer r a).1 (handleTimer r' b).1 := by
  obtain ⟨hleft, hright⟩ := Prod.mk.inj (handleTimer_powers r a)
  obtain ⟨hleft', hright'⟩ := Prod.mk.inj (handleTimer_powers r' b)
  have hstep := thermalStep_handleTimer r a
  have hstep' := thermalStep_handleTimer r' b
  have hdue : a.thermalDue = b.thermalDue := by
    rw [MainApp.thermalDue, MainApp.thermalDue, h.counter_eq]
  have hin := h.heatIn_le hc ha hb
  refine ⟨?_, ?_, ?_, ?_, ?_, ?_⟩
  · rw [hleft, hleft']
    exact h.left_le
  · rw [hright, hright']
    exact h.right_le
  · rw [hstep.counter, hstep'.counter, h.counter_eq]
  · rw [hstep.ambient, hstep'.ambient, h.ambient_eq]
  · rw [hstep.heat, hstep'.heat, ha.config_eq, hb.config_eq, hdue]
    split_ifs
    · exact leak_le_leak hc.loss_le h.heat_le hin
    · exact h.heat_le
  · rw [hstep.motTemp, hstep'.motTemp, ha.config_eq, hb.config_eq, hdue, h.ambient_eq]
    split_ifs
    · have hsum : a.heat + a.heatIn ≤ b.heat + b.heatIn := add_le_add h.heat_le hin
      exact add_le_add_right (div_le_div_of_nonneg_right hsum hc.capacity_pos.le) b.ambient
    · exact h.motTemp_le

theorem handle {m m' : QueueMsg} (hm : Milder m m') (hrange : InRange m') (r r' : Readings) :
    Cooler (handle m r a).1 (handle m' r' b).1 := by
  match m, m' with
  | .js data, .js data' => exact h.handleJs hc ha hb hm hrange
  | .tty, .tty => exact h
  | .timer _, .timer _ => exact h.handleTimer hc ha hb r r'

end Cooler

theorem cooler_run {c : Config} (hc : c.Physical) {xs ys : List (QueueMsg × Readings)}
    (hxy : List.Forall₂ (fun x y ↦ Milder x.1 y.1) xs ys) (hys : ∀ y ∈ ys, InRange y.1)
    {a b : MainApp} (h : Cooler a b) (ha : Bounded c a) (hb : Bounded c b) :
    Cooler (run xs a).1 (run ys b).1 := by
  induction hxy generalizing a b with
  | nil => exact h
  | @cons x y xs ys hm _ ih =>
      obtain ⟨m, r⟩ := x
      obtain ⟨m', r'⟩ := y
      rw [List.forall_mem_cons] at hys
      exact ih hys.2 (h.handle hc ha hb hm hys.1 r r') (ha.handle hc (hm.inRange hys.1) r)
        (hb.handle hc hys.1 r')

/-- The estimate is bounded in every run with the sticks in their range, and no
run that asks for less power at each joystick message is ever hotter. -/
theorem thermal_estimate (c : Config) (hc : c.Physical) (vbat vbatSlope : ℚ)
    (msgs : List (QueueMsg × Readings)) (hmsgs : ∀ x ∈ msgs, InRange x.1) :
    (∀ pre, pre <+: msgs →
      0 ≤ (run pre (initial c vbat vbatSlope)).1.heat ∧
        (0 < thermalSteps pre (initial c vbat vbatSlope) →
          (run pre (initial c vbat vbatSlope)).1.ambient ≤
              (run pre (initial c vbat vbatSlope)).1.motTemp ∧
            (run pre (initial c vbat vbatSlope)).1.motTemp ≤
              (run pre (initial c vbat vbatSlope)).1.ambient +
                1 / 100 * c.pwmPower / c.heatTransferKa)) ∧
      ∀ vbat' vbatSlope' milder, List.Forall₂ (fun x y ↦ Milder x.1 y.1) milder msgs →
        ∀ n, (run (milder.take n) (initial c vbat' vbatSlope')).1.heat ≤
            (run (msgs.take n) (initial c vbat vbatSlope)).1.heat ∧
          (run (milder.take n) (initial c vbat' vbatSlope')).1.motTemp ≤
            (run (msgs.take n) (initial c vbat vbatSlope)).1.motTemp := by
  have hstart (v w : ℚ) : Bounded c (initial c v w) := bounded_initial hc v w
  constructor
  · intro pre hpre
    have hrange : ∀ x ∈ pre, InRange x.1 := fun x hx ↦ hmsgs x (hpre.subset hx)
    refine ⟨(bounded_run hc (hstart _ _) hrange).heat_nonneg, fun hsteps ↦ ?_⟩
    rw [← thermalDt_eq]
    exact plausible_run hc (hstart _ _) hrange hsteps
  · intro vbat' vbatSlope' milder hmilder n
    have hrange : ∀ x ∈ msgs.take n, InRange x.1 := fun x hx ↦ hmsgs x (List.mem_of_mem_take hx)
    have hequal : Cooler (initial c vbat' vbatSlope') (initial c vbat vbatSlope) :=
      ⟨le_rfl, le_rfl, rfl, rfl, le_rfl, le_rfl⟩
    have hcooler := cooler_run hc (List.forall₂_take n hmilder) hrange hequal (hstart _ _)
      (hstart _ _)
    exact ⟨hcooler.heat_le, hcooler.motTemp_le⟩

/-- Both sticks at `y` for ten timer periods. -/
def driveForTen (y : BitVec 32) : List (QueueMsg × Readings) :=
  (.js { leftY := y, rightY := y }, {}) :: ticks 10

theorem timerCount_driveForTen (y : BitVec 32) : timerCount (driveForTen y) = 10 := by
  rw [driveForTen, timerCount, List.countP_cons]
  exact timerCount_ticks 10

theorem thermal_estimate_driveForTen :
    (run (driveForTen 500) (initial {} 0 0)).1.ambient ≤
        (run (driveForTen 500) (initial {} 0 0)).1.motTemp ∧
      (run (driveForTen 500) (initial {} 0 0)).1.motTemp ≤
        (run (driveForTen 500) (initial {} 0 0)).1.ambient + 12 ∧
      (run (driveForTen (-250)) (initial {} 0 0)).1.heat ≤
        (run (driveForTen 500) (initial {} 0 0)).1.heat := by
  have hrange : ∀ x ∈ driveForTen 500, InRange x.1 := by
    intro x hx
    rcases List.mem_cons.mp hx with rfl | hx
    · exact ⟨by decide, by decide⟩
    · rw [List.eq_of_mem_replicate hx]
      trivial
  have hmilder : List.Forall₂ (fun x y ↦ Milder x.1 y.1) (driveForTen (-250)) (driveForTen 500) :=
    .cons ⟨by decide, by decide⟩ (List.forall₂_same.mpr fun x hx ↦ by
      rw [List.eq_of_mem_replicate hx]
      trivial)
  have hsteps : 0 < thermalSteps (driveForTen 500) (initial {} 0 0) := by
    have hcount := timerCount_driveForTen 500
    rw [thermalSteps_run {} 0 0 _ (by rw [hcount]; decide), hcount]
    decide
  obtain ⟨hbounds, hcooler⟩ :=
    thermal_estimate {} physical_default 0 0 (driveForTen 500) hrange
  obtain ⟨hlow, hhigh⟩ := (hbounds _ (List.prefix_refl _)).2 hsteps
  have htwelve : 1 / 100 * ({} : Config).pwmPower / ({} : Config).heatTransferKa = 12 := by
    norm_num
  rw [htwelve] at hhigh
  exact ⟨hlow, hhigh, (hcooler 0 0 _ hmilder 11).1⟩

end Rover.App
