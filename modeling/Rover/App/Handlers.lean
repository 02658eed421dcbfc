import Mathlib.Algebra.Order.Floor.Defs
import Rover.Arduino
import Rover.Filter
import Rover.Lib.Rounding

/-!
# The queue handlers of the application

`main_app::run` takes messages from one queue and gives them to `handle_js` or
`handle_timer`.  A handler changes the state of the application and issues
requests to the slave, listed here in the order of the calls.  What it reads
from outside is in `Readings`.  The arithmetic of `double` is taken as exact
where `double` or `float` does not stand.
-/

namespace Rover.App

open Arduino Dsp Rounding

structure Config where
  pwmRange : BitVec 32 := 255
  pwmPower : ℚ := 12 / 10000
  heatTransferKa : ℚ := 1 / 1000000
  specificHeat : ℚ := 466 / 1000
  mass : ℚ := 6 / 100
  deriving Repr

def timerPeriodUs : BitVec 32 := 1000
def timerCiWdt : BitVec 32 := 500
def timerCiFan : BitVec 32 := 1000
def timerCiThr : BitVec 32 := 10
def timerCiThrPrnt : BitVec 32 := 1000
def timerCiBatt : BitVec 32 := 1000
def timerCiSlaveTrx : BitVec 32 := 1000
def timerCiWlan : BitVec 32 := 100
def vbatFilterSize : BitVec 32 := 5

def pinBatt : Byte := 14
def rBattTop : ℚ := 47000
def rBattBot : ℚ := 10000
def vRef : ℚ := 333 / 100

/-- `vbat` and `vbat_slope` have no initial value. -/
structure MainApp where
  config : Config
  vbat : ℚ
  vbatSlope : ℚ
  timerCxWdt : BitVec 32 := 0
  timerCxFan : BitVec 32 := 0
  timerCxThr : BitVec 32 := 0
  timerCxThrPrnt : BitVec 32 := 0
  timerCxBatt : BitVec 32 := 0
  timerCxSlaveTrx : BitVec 32 := 0
  timerCxWlan : BitVec 32 := 0
  leftPwm : BitVec 32 := 0
  rightPwm : BitVec 32 := 0
  fanPwm : BitVec 32 := 0
  ledPwm : BitVec 32 := 0
  heat : ℚ := 0
  thrLimit : ℚ := 1
  ambient : ℚ := 25
  motTemp : ℚ := 0
  socTemp : ℚ := 0
  wifiQuality : ℤ := 0
  wifiSignal : ℤ := 0
  slaveTrx : BitVec 32 × BitVec 32 := (0, 0)
  vbatS0 : ℤ := 0
  vbatCsv : List (ℤ × ℚ × ℚ) := []
  vbatfb : AveragingFilter ℚ := .ofSize vbatFilterSize
  vbatfb2 : AveragingFilter ℚ := .ofSize (vbatFilterSize * 50)

def initial (c : Config) (vbat vbatSlope : ℚ) : MainApp :=
  { config := c, vbat := vbat, vbatSlope := vbatSlope }

structure JsData where
  leftX : BitVec 32 := 0
  rightX : BitVec 32 := 0
  leftY : BitVec 32 := 0
  rightY : BitVec 32 := 0
  deriving DecidableEq, Repr

/-- A message of the queue; `TTY` messages carry a string that nothing reads. -/
inductive QueueMsg
  | js (data : JsData)
  | tty
  | timer (time : BitVec 64)
  deriving DecidableEq, Repr

/-- What `handle_timer` reads: the thermal zone, the answer to `analogRead`,
the clock, the link statistics, and the third line of the wireless table when
it has all its columns. -/
structure Readings where
  tempRaw : BitVec 32 := 0
  rawBatt : BitVec 16 := 0
  sEpoch : ℤ := 0
  trx : BitVec 32 × BitVec 32 := (0, 0)
  wireless : Option (ℤ × ℤ) := none

/-- The conversion of a `double` to an integer type. -/
def trunc (x : ℚ) : ℤ := if 0 ≤ x then x.floor else x.ceil

def round (x : ℚ) : ℤ := if 0 ≤ x then (x + 1 / 2).floor else (x - 1 / 2).ceil

/-- A result of the arithmetic of `double`. -/
def double (x : ℚ) : ℚ := nearest 53 x

/-- A result of the arithmetic of `double` that is stored in a `float`. -/
def float (x : ℚ) : ℚ := nearest 24 (double x)

/-- The duty for a stick position, as it is stored in `left_pwm` and
`right_pwm`, in exact arithmetic. -/
def stickPwm (a : MainApp) (y : BitVec 32) : BitVec 32 :=
  BitVec.ofInt 32 (trunc (|(y.toInt : ℚ) / 500| * a.config.pwmRange.toNat * a.thrLimit))

/-- A duty is passed on as a `uint8_t`. -/
def duty (timer channel : Byte) (pwm : BitVec 32) : Request :=
  .pwmDuty timer channel (pwm.setWidth 8)

def leftCommands (leftIsFwd : Bool) (leftPwm : BitVec 32) : List Request :=
  if leftIsFwd then [duty 2 1 leftPwm, duty 0 1 0] else [duty 2 1 0, duty 0 1 leftPwm]

def rightCommands (rightIsFwd : Bool) (rightPwm : BitVec 32) : List Request :=
  if rightIsFwd then [duty 0 0 0, duty 1 0 rightPwm] else [duty 0 0 rightPwm, duty 1 0 0]

/-- The body of `handle_js`, with the arithmetic of the powers. -/
def handleJsWith (pwm : MainApp → BitVec 32 → BitVec 32) (js : JsData) (a : MainApp) :
    MainApp × List Request :=
  let a := { a with timerCxWdt := 0 }
  let a := { a with leftPwm := pwm a js.leftY, rightPwm := pwm a js.rightY }
  -- the quotient by 500 has the sign of the stick, also when it is rounded
  let leftIsFwd := decide (0 < js.leftY.toInt)
  let rightIsFwd := decide (0 < js.rightY.toInt)
  (a, leftCommands leftIsFwd a.leftPwm ++ rightCommands rightIsFwd a.rightPwm)

def handleJs : JsData → MainApp → MainApp × List Request := handleJsWith stickPwm

/-! ## The parts of `handle_timer` -/

def stop : List Request := [duty 2 1 0, duty 0 1 0, duty 0 0 0, duty 1 0 0]

def handleTimerWdt (a : MainApp) : MainApp × List Request :=
  let a := { a with timerCxWdt := a.timerCxWdt + 1 }
  if timerCiWdt ≤ a.timerCxWdt then ({ a with timerCxWdt := 0 }, stop) else (a, [])

/-- The thermal part, with the duration and the heat of each step that it
takes.  The counter is not reset when it reaches its interval. -/
def handleTimerThrTraced (a : MainApp) : MainApp × List (ℚ × ℚ) :=
  let a := { a with timerCxThr := a.timerCxThr + 1 }
  if timerCiThr ≤ a.timerCxThr then
    let dt : ℚ := (timerCiThr * (timerPeriodUs / 1000)).toNat / 1000
    let pwmPower : ℚ :=
      a.config.pwmPower * (a.leftPwm + a.rightPwm).toNat / (2 * a.config.pwmRange).toNat
    let heatIn := dt * pwmPower
    let a := { a with heat := a.heat + heatIn }
    let temp := a.ambient + a.heat / (a.config.specificHeat * a.config.mass)
    let a := { a with motTemp := temp }
    let heatOut := a.config.heatTransferKa * (temp - a.ambient)
    let a := { a with heat := a.heat - heatOut }
    let a := if timerCiThrPrnt ≤ a.timerCxThrPrnt then { a with timerCxThrPrnt := 0 } else a
    ({ a with timerCxThrPrnt := a.timerCxThrPrnt + 1 }, [(dt, heatIn)])
  else (a, [])

def handleTimerThr (a : MainApp) : MainApp := (handleTimerThrTraced a).1

def handleTimerFan (r : Readings) (a : MainApp) : MainApp :=
  let a := { a with timerCxFan := a.timerCxFan + 1 }
  if timerCiFan ≤ a.timerCxFan then
    let a := { a with timerCxFan := 0 }
    let temp := float (r.tempRaw.toInt / 1000)
    let a := { a with socTemp := temp }
    if 0 < temp then
      let pwm := trunc ((round temp - 40) * (5 / 2))
      let pwm := if 0 < pwm then pwm else 0
      let pwm := if pwm < 100 then pwm else 100
      { a with fanPwm := BitVec.ofInt 32 pwm }
    else a
  else a

/-- The counter is only reset when the sample succeeds. -/
def handleTimerBatt (r : Readings) (a : MainApp) : MainApp × List Request :=
  let a := { a with timerCxBatt := a.timerCxBatt + 1 }
  if timerCiBatt ≤ a.timerCxBatt then
    (if r.rawBatt ≠ 0xffff then
      let a := { a with timerCxBatt := 0 }
      let vbatRaw : ℚ := (rBattBot + rBattTop) / rBattBot * vRef * r.rawBatt.toNat / 1024
      let (vbatPresmooth, vbatfb) := a.vbatfb.feed vbatRaw
      let (vbatSmooth, vbatfb2) := a.vbatfb2.feed vbatRaw
      let a := { a with
        vbatfb := vbatfb
        vbatfb2 := vbatfb2
        vbat := vbatPresmooth
        vbatSlope := 1000 * (vbatfb2.last 0 - vbatfb2.last (-60)) / 10 }
      if a.vbatS0 ≠ r.sEpoch then
        { a with
          vbatS0 := r.sEpoch
          vbatCsv := a.vbatCsv ++ [(r.sEpoch, vbatRaw, vbatSmooth)] }
      else a
    else a, [.analogRead pinBatt])
  else (a, [])

def handleTimerSlaveTrx (r : Readings) (a : MainApp) : MainApp :=
  let a := { a with timerCxSlaveTrx := a.timerCxSlaveTrx + 1 }
  if timerCiSlaveTrx ≤ a.timerCxSlaveTrx then
    { a with timerCxSlaveTrx := 0, slaveTrx := r.trx }
  else a

def handleTimerWlan (r : Readings) (a : MainApp) : MainApp :=
  let a := { a with timerCxWlan := a.timerCxWlan + 1 }
  if timerCiWlan ≤ a.timerCxWlan then
    let a := { a with timerCxWlan := 0 }
    match r.wireless with
    | some (quality, signal) => { a with wifiQuality := quality, wifiSignal := signal }
    | none => a
  else a

def handleTimer (r : Readings) (a : MainApp) : MainApp × List Request :=
  let (a, stops) := handleTimerWdt a
  let a := handleTimerThr a
  let a := handleTimerFan r a
  let (a, samples) := handleTimerBatt r a
  let a := handleTimerSlaveTrx r a
  (handleTimerWlan r a, stops ++ samples)

def handle (m : QueueMsg) (r : Readings) (a : MainApp) : MainApp × List Request :=
  match m with
  | .js data => handleJs data a
  | .tty => (a, [])
  | .timer _ => handleTimer r a

def run : List (QueueMsg × Readings) → MainApp → MainApp × List Request
  | [], a => (a, [])
  | (m, r) :: rest, a =>
      let (a, requests) := handle m r a
      let (a, later) := run rest a
      (a, requests ++ later)

@[simp] theorem run_nil (a : MainApp) : run [] a = (a, []) := rfl

theorem run_cons (m : QueueMsg) (r : Readings) (rest : List (QueueMsg × Readings)) (a : MainApp) :
    run ((m, r) :: rest) a =
      ((run rest (handle m r a).1).1, (handle m r a).2 ++ (run rest (handle m r a).1).2) := rfl

theorem run_append (xs ys : List (QueueMsg × Readings)) (a : MainApp) :
    run (xs ++ ys) a = ((run ys (run xs a).1).1, (run xs a).2 ++ (run ys (run xs a).1).2) := by
  induction xs generalizing a with
  | nil => simp
  | cons x xs ih =>
      obtain ⟨m, r⟩ := x
      rw [List.cons_append, run_cons, run_cons, ih]
      simp

end Rover.App
