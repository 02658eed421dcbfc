import Rover.App.Handlers
import Rover.Lib.IStream

/-!
# Commands from outside

Commands reach the application as datagrams and as WebSocket messages.  Both
front ends parse with a string stream into variables that have no initial
value; what these hold before is a parameter.
-/

namespace Rover.App

open Arduino Messages

/-- What a front end does: the state, the requests to the slave, and the
messages put into the queue. -/
structure Outcome where
  app : MainApp
  requests : List Request := []
  queued : List QueueMsg := []

def setLed (pwm : BitVec 32) (a : MainApp) : Outcome :=
  let a := { a with ledPwm := pwm }
  { app := a, requests := [duty 1 1 (a.ledPwm * 255 / 100)] }

/-! ## Datagrams -/

/-- `pwm` is what the variable holds before the extraction. -/
def handleCmd (cmdline : List Byte) (pwm : BitVec 32) (a : MainApp) : Outcome :=
  let ss : IStream := { rest := cmdline }
  let (cmd, ss) := ss.word
  if cmd.getD [] = ascii "led" then
    let (value, _) := ss.num 32 false
    setLed (value.getD pwm) a
  else { app := a }

def fourDigits (data : List Byte) (i : ℕ) : BitVec 32 :=
  let digit (k : ℕ) : BitVec 32 := (data.getD (i + k) 0).setWidth 32 - 0x30
  digit 0 * 1000 + digit 1 * 100 + digit 2 * 10 + digit 3

def jsOfDatagram (data : List Byte) : JsData where
  leftX := fourDigits data 0 - 1500
  leftY := fourDigits data 4 - 1500
  rightX := fourDigits data 8 - 1500
  rightY := fourDigits data 12 - 1500

/-- `data` is the memory from the start of the buffer on; a string in it ends
at the first null character. -/
def handleUdp (data : List Byte) (pwm : BitVec 32) (a : MainApp) : Outcome :=
  let first := data.getD 0 0
  if first.toNat < 0x30 || 0x39 < first.toNat then
    handleCmd (data.takeWhile (· ≠ 0)) pwm a
  else { app := a, queued := [.js (jsOfDatagram data)] }

structure UdpStack where
  rcvRawBuffer : List Byte
  beyond : List Byte
  size_eq : rcvRawBuffer.length = 1024

/-- `recvfrom` writes a datagram at the start of the buffer; a call that fails
writes nothing. -/
def UdpStack.recvfrom (received : Option (List Byte)) (s : UdpStack) : UdpStack :=
  match received with
  | none => s
  | some d =>
      { rcvRawBuffer := (d ++ s.rcvRawBuffer.drop d.length).take 1024
        beyond := s.beyond
        size_eq := by
          have := s.size_eq
          simp only [List.length_take, List.length_append, List.length_drop]
          omega }

def UdpStack.after (history : List (Option (List Byte))) (s : UdpStack) : UdpStack :=
  history.foldl (fun s received ↦ s.recvfrom received) s

/-- One round of `run_udp`.  The size that `recvfrom` returns is not used. -/
def runUdp (received : Option (List Byte)) (s : UdpStack) (pwm : BitVec 32) (a : MainApp) :
    Outcome :=
  let s := s.recvfrom received
  handleUdp (s.rcvRawBuffer ++ s.beyond) pwm a

/-! ## WebSocket messages -/

structure Stats where
  socTemp : ℚ
  fanPwm : BitVec 32
  ledPwm : BitVec 32
  motTemp : ℚ
  leftPwm : BitVec 32
  rightPwm : BitVec 32
  vbat : ℚ
  vbatSlope : ℚ
  slaveRx : BitVec 32
  slaveTx : BitVec 32
  wifiQuality : ℤ
  wifiSignal : ℤ

def stats (a : MainApp) : Stats :=
  ⟨a.socTemp, a.fanPwm, a.ledPwm, a.motTemp, a.leftPwm, a.rightPwm, a.vbat, a.vbatSlope,
    a.slaveTrx.1, a.slaveTrx.2, a.wifiQuality, a.wifiSignal⟩

/-- The variables of `handle_ws` that have no initial value. -/
structure WsLocals where
  left : BitVec 32
  right : BitVec 32
  pwm : BitVec 32

def handleWs (locals : WsLocals) (connId : BitVec 32) (str : List Byte) (a : MainApp) :
    Outcome × Option (BitVec 32 × Stats) :=
  let ss : IStream := { rest := str }
  let (cmd, ss) := ss.word
  let cmd := cmd.getD []
  if cmd = ascii "stats" then ({ app := a }, some (connId, stats a))
  else if cmd = ascii "js" then
    let (left, ss) := ss.num 32 true
    let (right, _) := ss.num 32 true
    let js : JsData :=
      { leftX := 0
        leftY := left.getD locals.left * 5
        rightX := 0
        rightY := right.getD locals.right * 5 }
    ({ app := a, queued := [.js js] }, none)
  else if cmd = ascii "led" then
    let (value, _) := ss.num 32 false
    (setLed (value.getD locals.pwm) a, none)
  else ({ app := a }, none)

end Rover.App
