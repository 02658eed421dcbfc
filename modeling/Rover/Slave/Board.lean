import Mathlib.Logic.Function.Basic
import Rover.Messages

/-!
# The slave's hardware and its command handlers

The two PWM routines are written against the timer registers of the
ATmega328P.  The remaining pin functions belong to the Arduino core and enter
through `Hal`; they may touch any register.  Every hardware call is recorded in
`ops`, and every byte given to `Serial.write` in `written`.
-/

namespace Rover.Slave

open Messages

structure Regs where
  tccr0a : Byte
  tccr0b : Byte
  tccr1a : Byte
  tccr1b : Byte
  tccr2a : Byte
  tccr2b : Byte
  ocr0a : Byte
  ocr0b : Byte
  ocr1a : BitVec 16
  ocr1b : BitVec 16
  ocr2a : Byte
  ocr2b : Byte
  deriving DecidableEq, Repr

def clearedRegs : Regs := ⟨0, 0, 0, 0, 0, 0, 0, 0, 0, 0, 0, 0⟩

structure TimerConfig where
  prescale : Byte
  configured : Bool
  deriving DecidableEq, Repr

structure PwmUnit where
  timers : Fin 3 → TimerConfig
  regs : Regs

abbrev timer0 : Fin 3 := 0
abbrev timer1 : Fin 3 := 1
abbrev timer2 : Fin 3 := 2

def bv (bit : ℕ) : Byte := 1 <<< bit

def wgm00 : ℕ := 0
def wgm01 : ℕ := 1
def com0a1 : ℕ := 7
def com0b1 : ℕ := 5
def wgm10 : ℕ := 0
def wgm20 : ℕ := 0
def wgm21 : ℕ := 1
def com2a1 : ℕ := 7
def com2b1 : ℕ := 5

/-- A timer number above 2 selects no branch, so the reference to
`timers[timer_]` is never used there. -/
def initPwm (timer_ channel prescale : Byte) (u : PwmUnit) : PwmUnit :=
  if timer_ = 0 then
    let timer := u.timers 0
    let regs :=
      if !timer.configured then
        { u.regs with tccr0a := bv wgm01 ||| bv wgm00, tccr0b := prescale &&& 0b111 }
      else if timer.prescale ≠ prescale then
        { u.regs with tccr0b := prescale &&& 0b111 }
      else u.regs
    let channelBits := if channel = 0 then bv com0a1 else bv com0b1
    { timers := Function.update u.timers 0 ⟨prescale, true⟩
      regs := { regs with tccr0a := regs.tccr0a ||| channelBits } }
  else if timer_ = 1 then
    let timer := u.timers 1
    let regs :=
      if !timer.configured then
        { u.regs with tccr1a := bv wgm10, tccr1b := bv wgm10 ||| (prescale &&& 0b111) }
      else if timer.prescale ≠ prescale then
        { u.regs with tccr1b := (u.regs.tccr1b &&& 0b11111000) ||| (prescale &&& 0b111) }
      else u.regs
    let channelBits := if channel = 0 then bv com2a1 else bv com2b1
    { timers := Function.update u.timers 1 ⟨prescale, true⟩
      regs := { regs with tccr1a := regs.tccr1a ||| channelBits } }
  else if timer_ = 2 then
    let timer := u.timers 2
    let regs :=
      if !timer.configured then
        { u.regs with tccr2a := bv wgm21 ||| bv wgm20, tccr2b := prescale &&& 0b111 }
      else if timer.prescale ≠ prescale then
        -- the source writes the clock select of timer 0 here
        { u.regs with tccr0b := prescale &&& 0b111 }
      else u.regs
    let channelBits := if channel = 0 then bv com2a1 else bv com2b1
    { timers := Function.update u.timers 2 ⟨prescale, true⟩
      regs := { regs with tccr2a := regs.tccr2a ||| channelBits } }
  else u

/-- The compare registers of timer 1 are 16 bits wide. -/
def pwmDuty (timer channel duty : Byte) (regs : Regs) : Regs :=
  if timer = 0 then
    if channel = 0 then { regs with ocr0a := duty } else { regs with ocr0b := duty }
  else if timer = 1 then
    if channel = 0 then { regs with ocr1a := duty.setWidth 16 }
    else { regs with ocr1b := duty.setWidth 16 }
  else if timer = 2 then
    if channel = 0 then { regs with ocr2a := duty } else { regs with ocr2b := duty }
  else regs

/-- The pin functions of the Arduino core, over the timer registers and the
rest `π` of the hardware. -/
structure Hal (π : Type) where
  pinMode : Byte → Byte → Regs × π → Regs × π
  digitalWrite : Byte → Byte → Regs × π → Regs × π
  digitalRead : Byte → Regs × π → Byte × (Regs × π)
  analogRead : Byte → Regs × π → BitVec 16 × (Regs × π)

/-- Pins that keep their state and always read the same. -/
def fixedHal : Hal Unit where
  pinMode := fun _ _ hw ↦ hw
  digitalWrite := fun _ _ hw ↦ hw
  digitalRead := fun _ hw ↦ (1, hw)
  analogRead := fun pin hw ↦ (0x0200 + pin.setWidth 16, hw)

/-- A hardware call with its arguments and, for the reads, its result. -/
inductive HwOp
  | pinMode (pin mode : Byte)
  | digitalWrite (pin value : Byte)
  | digitalRead (pin value : Byte)
  | analogRead (pin : Byte) (value : BitVec 16)
  | initPwm (timer channel prescale : Byte)
  | pwmDuty (timer channel duty : Byte)
  deriving DecidableEq, Repr

/-- `serialOut` holds the written bytes that have not left the link yet. -/
structure Board (π : Type) where
  pwm : PwmUnit
  pins : π
  ops : List HwOp := []
  written : List Byte := []
  serialOut : List Byte := []

namespace Board

variable {π : Type} (hal : Hal π)

def record (op : HwOp) (b : Board π) : Board π := { b with ops := b.ops ++ [op] }

def setHw (hw : Regs × π) (b : Board π) : Board π :=
  { b with pwm := { b.pwm with regs := hw.1 }, pins := hw.2 }

def hw (b : Board π) : Regs × π := (b.pwm.regs, b.pins)

def sendSerial (data : List Byte) (b : Board π) : Board π :=
  { b with written := b.written ++ data, serialOut := b.serialOut ++ data }

/-- The board without what it has written. -/
def hardware (b : Board π) : Board π := { b with written := [], serialOut := [] }

theorem hardware_sendSerial (data : List Byte) (b : Board π) :
    (b.sendSerial data).hardware = b.hardware := rfl

def pinMode (pin mode : Byte) (b : Board π) : Board π :=
  (b.setHw (hal.pinMode pin mode b.hw)).record (.pinMode pin mode)

def digitalWrite (pin value : Byte) (b : Board π) : Board π :=
  (b.setHw (hal.digitalWrite pin value b.hw)).record (.digitalWrite pin value)

def digitalRead (pin : Byte) (b : Board π) : Byte × Board π :=
  let r := hal.digitalRead pin b.hw
  (r.1, (b.setHw r.2).record (.digitalRead pin r.1))

def analogRead (pin : Byte) (b : Board π) : BitVec 16 × Board π :=
  let r := hal.analogRead pin b.hw
  (r.1, (b.setHw r.2).record (.analogRead pin r.1))

def initPwm (timer channel prescale : Byte) (b : Board π) : Board π :=
  { b with pwm := Slave.initPwm timer channel prescale b.pwm }.record
    (.initPwm timer channel prescale)

def pwmDuty (timer channel duty : Byte) (b : Board π) : Board π :=
  { b with pwm := { b.pwm with regs := Slave.pwmDuty timer channel duty b.pwm.regs } }.record
    (.pwmDuty timer channel duty)

end Board

abbrev Buffer := Byte → Byte

variable {π : Type} (hal : Hal π)

def processMessage (serialData : Buffer) (b : Board π) : Board π :=
  match MsgType.ofByte? (serialData 0) with
  | none => b
  | some .logInfoRequest => b
  | some .pinmodeRequest =>
      let msg : MsgbPinmodeRequest := ⟨serialData 0, serialData 1⟩
      let pin := getParam 8 msg.modePin MsgbPinmodeRequest.maskPin MsgbPinmodeRequest.shiftPin
      let mode := getParam 8 msg.modePin MsgbPinmodeRequest.maskMode MsgbPinmodeRequest.shiftMode
      (b.pinMode hal pin mode).sendSerial (byteResponse 0)
  | some .digitalWriteRequest =>
      let msg : MsgbDigitalWriteRequest := ⟨serialData 0, serialData 1⟩
      let pin := getParam 8 msg.valuePin MsgbDigitalWriteRequest.maskPin
        MsgbDigitalWriteRequest.shiftPin
      let value := getParam 8 msg.valuePin MsgbDigitalWriteRequest.maskValue
        MsgbDigitalWriteRequest.shiftValue
      (b.digitalWrite hal pin value).sendSerial (byteResponse 0)
  | some .digitalReadRequest =>
      let msg : MsgbDigitalReadRequest := ⟨serialData 0, serialData 1⟩
      let r := b.digitalRead hal msg.pin
      r.2.sendSerial (byteResponse r.1)
  | some .analogReadRequest =>
      let msg : MsgbAnalogReadRequest := ⟨serialData 0, serialData 1⟩
      let r := b.analogRead hal msg.pin
      r.2.sendSerial (analogReadResponse r.1)
  | some .pwmInitRequest =>
      let msg : MsgbPwmInitRequest := ⟨serialData 0, serialData 1⟩
      let timer := getParam 8 msg.prescalerTimerChannel MsgbPwmInitRequest.maskTimer
        MsgbPwmInitRequest.shiftTimer
      let channel := getParam 8 msg.prescalerTimerChannel MsgbPwmInitRequest.maskChannel
        MsgbPwmInitRequest.shiftChannel
      let prescale := getParam 8 msg.prescalerTimerChannel MsgbPwmInitRequest.maskPrescaler
        MsgbPwmInitRequest.shiftPrescaler
      (b.initPwm timer channel prescale).sendSerial (byteResponse 0)
  | some .pwmDutyRequest =>
      let msg : MsgbPwmDutyRequest := ⟨serialData 0, serialData 1, serialData 2⟩
      let timer := getParam 8 msg.timerChannel MsgbPwmDutyRequest.maskTimer
        MsgbPwmDutyRequest.shiftTimer
      let channel := getParam 8 msg.timerChannel MsgbPwmDutyRequest.maskChannel
        MsgbPwmDutyRequest.shiftChannel
      (b.pwmDuty timer channel msg.duty).sendSerial (byteResponse 0)

def cdata (serialData : Buffer) (offset i : ℕ) : Byte := serialData (BitVec.ofNat 8 (offset + i))

def decimal {w : ℕ} (n : BitVec w) : String := toString n.toNat

def processTextMessage (serialData : Buffer) (b : Board π) : Board π :=
  let param (offset : ℕ) (size : Byte) : Byte := getStrParamN 8 (cdata serialData offset) size
  match (serialData 0).toNat with
  | 65 => b.sendSerial (ascii ";")
  | 66 =>
      let pin := param 1 2
      let mode := param 3 2
      (b.pinMode hal pin mode).sendSerial
        (ascii ("pinMode(" ++ decimal pin ++ "," ++ decimal mode ++ ");"))
  | 67 =>
      let pin := param 1 2
      let value := param 3 2
      (b.digitalWrite hal pin value).sendSerial
        (ascii ("digitalWrite(" ++ decimal pin ++ "," ++ decimal value ++ ");"))
  | 68 =>
      let pin := param 1 2
      let r := b.digitalRead hal pin
      r.2.sendSerial (ascii (decimal r.1 ++ "=digitalRead(" ++ decimal pin ++ ");"))
  | 69 =>
      let pin := param 1 2
      let r := b.analogRead hal pin
      r.2.sendSerial (ascii (decimal r.1 ++ "=analogRead(" ++ decimal pin ++ ");"))
  | 70 =>
      let timer := param 1 1
      let channel := param 2 1
      let prescale := param 3 1
      (b.initPwm timer channel prescale).sendSerial
        (ascii ("initPwm(" ++ decimal timer ++ "," ++ decimal channel ++ "," ++
          decimal prescale ++ ");"))
  | 71 =>
      let timer := param 1 1
      let channel := param 2 1
      let duty := param 3 3
      (b.pwmDuty timer channel duty).sendSerial
        (ascii ("pwmDuty(" ++ decimal timer ++ "," ++ decimal channel ++ "," ++
          decimal duty ++ ");"))
  | _ => b

/-! ## The records only grow -/

/-- What was done and written from `b` to `b'`; nothing leaves the link meanwhile. -/
def Board.Extends (b b' : Board π) : Prop :=
  ∃ ops new, b'.ops = b.ops ++ ops ∧ b'.written = b.written ++ new ∧
    b'.serialOut = b.serialOut ++ new

namespace Board.Extends

theorem refl (b : Board π) : b.Extends b := ⟨[], [], by simp, by simp, by simp⟩

theorem trans {b₁ b₂ b₃ : Board π} (h : b₁.Extends b₂) (h' : b₂.Extends b₃) : b₁.Extends b₃ := by
  obtain ⟨ops, new, hops, hwritten, hout⟩ := h
  obtain ⟨ops', new', hops', hwritten', hout'⟩ := h'
  exact ⟨ops ++ ops', new ++ new', by simp [hops, hops'], by simp [hwritten, hwritten'],
    by simp [hout, hout']⟩

theorem of_op {b b' : Board π} {op : HwOp} (hops : b'.ops = b.ops ++ [op])
    (hwritten : b'.written = b.written) (hout : b'.serialOut = b.serialOut) (data : List Byte) :
    b.Extends (b'.sendSerial data) :=
  ⟨[op], data, hops, by simp [sendSerial, hwritten], by simp [sendSerial, hout]⟩

theorem sendSerial (b : Board π) (data : List Byte) : b.Extends (b.sendSerial data) :=
  ⟨[], data, by simp [Board.sendSerial], rfl, rfl⟩

end Board.Extends

theorem extends_processMessage (serialData : Buffer) (b : Board π) :
    b.Extends (processMessage hal serialData b) := by
  unfold processMessage
  split
  · exact .refl b
  · exact .refl b
  all_goals exact .of_op (by rfl) (by rfl) (by rfl) _

theorem extends_processTextMessage (serialData : Buffer) (b : Board π) :
    b.Extends (processTextMessage hal serialData b) := by
  unfold processTextMessage
  split
  · exact .sendSerial b _
  all_goals first | exact .refl b | exact .of_op (by rfl) (by rfl) (by rfl) _

end Rover.Slave
