import Rover.Messages

/-!
# The master's driver for the serial link

`ArduinoSlave` sends a request and polls for the reply, up to `max_retry`
times.  The serial port and the sleep between two polls are parameters, so the
same code runs over whatever line is put behind them.
-/

namespace Rover.Arduino

open Messages

/-- The wiringPi functions the driver uses and its 1 ms sleep, over the state
of the port and of everything behind it. -/
structure SerialPort (σ : Type) where
  serialFlush : σ → σ
  serialPutchar : Byte → σ → σ
  serialDataAvail : σ → Bool × σ
  serialGetchar : σ → Byte × σ
  sleep : σ → σ

structure ArduinoSlave (σ : Type) where
  port : σ
  maxRetry : ℕ := 5
  transactionSent : BitVec 32 := 0
  transactionReceived : BitVec 32 := 0

variable {σ : Type} (P : SerialPort σ)

def send (cdata : List Byte) (d : ArduinoSlave σ) : ArduinoSlave σ :=
  { d with
    transactionSent := d.transactionSent + 1
    port := cdata.foldl (fun s c ↦ P.serialPutchar c s) (P.serialFlush d.port) }

/-- The inner loop of `recv`: the number of bytes still awaited, the bytes
stored, and the port.  The port is asked before `size` is tested. -/
def drain : ℕ → List Byte → σ → ℕ × List Byte × σ
  | 0, data, s => (0, data, (P.serialDataAvail s).2)
  | size + 1, data, s =>
      let (avail, s) := P.serialDataAvail s
      if avail then
        let (c, s) := P.serialGetchar s
        drain size (data ++ [c]) s
      else (size + 1, data, s)

/-- The outer loop of `recv`, entered with `size` not zero.  `left` is
`51 - idle_counter`, so `idle_counter > 50` is `left = 0`. -/
def recvLoop : ℕ → ℕ → List Byte → σ → Bool × List Byte × σ
  | left, size, data, s =>
      let (size, data, s) := drain P size data s
      if size = 0 then (true, data, s)
      else
        let s := P.sleep s
        match left with
        | 0 => (false, data, s)
        | left + 1 => recvLoop left size data s

def recv (size : ℕ) (d : ArduinoSlave σ) : Bool × List Byte × ArduinoSlave σ :=
  if size = 0 then (true, [], d)
  else
    let (ok, data, port) := recvLoop P 51 size [] d.port
    (ok, data, { d with
      port := port
      transactionReceived := if ok then d.transactionReceived + 1 else d.transactionReceived })

/-- The retry loop shared by the calls, with the reply of the first successful
attempt.  With `overlay` the reply is received into the request struct. -/
def attempts (overlay : Bool) (size : ℕ) :
    ℕ → List Byte → ArduinoSlave σ → Option (List Byte) × ArduinoSlave σ
  | 0, _, d => (none, d)
  | n + 1, msg, d =>
      let d := send P msg d
      let (ok, data, d) := recv P size d
      if ok then (some data, d)
      else attempts overlay size n (if overlay then data ++ msg.drop data.length else msg) d

def pinModeMsg (pin mode : Byte) : MsgbPinmodeRequest :=
  let msg : MsgbPinmodeRequest := {}
  let msg := { msg with type := MsgType.pinmodeRequest.toByte }
  let msg := { msg with
    modePin := setParam pin msg.modePin MsgbPinmodeRequest.maskPin MsgbPinmodeRequest.shiftPin }
  { msg with
    modePin := setParam mode msg.modePin MsgbPinmodeRequest.maskMode MsgbPinmodeRequest.shiftMode }

def initPwmMsg (timer channel prescale : Byte) : MsgbPwmInitRequest :=
  let msg : MsgbPwmInitRequest := {}
  let msg := { msg with type := MsgType.pwmInitRequest.toByte }
  let msg := { msg with
    prescalerTimerChannel := setParam timer msg.prescalerTimerChannel
      MsgbPwmInitRequest.maskTimer MsgbPwmInitRequest.shiftTimer }
  let msg := { msg with
    prescalerTimerChannel := setParam channel msg.prescalerTimerChannel
      MsgbPwmInitRequest.maskChannel MsgbPwmInitRequest.shiftChannel }
  { msg with
    prescalerTimerChannel := setParam prescale msg.prescalerTimerChannel
      MsgbPwmInitRequest.maskPrescaler MsgbPwmInitRequest.shiftPrescaler }

def pwmDutyMsg (timer channel duty : Byte) : MsgbPwmDutyRequest :=
  let msg : MsgbPwmDutyRequest := {}
  let msg := { msg with type := MsgType.pwmDutyRequest.toByte }
  let msg := { msg with
    timerChannel := setParam timer msg.timerChannel
      MsgbPwmDutyRequest.maskTimer MsgbPwmDutyRequest.shiftTimer }
  let msg := { msg with
    timerChannel := setParam channel msg.timerChannel
      MsgbPwmDutyRequest.maskChannel MsgbPwmDutyRequest.shiftChannel }
  { msg with duty := duty }

def analogReadMsg (pin : Byte) : MsgbAnalogReadRequest :=
  let msg : MsgbAnalogReadRequest := {}
  { msg with type := MsgType.analogReadRequest.toByte, pin := pin }

inductive Request
  | pinMode (pin mode : Byte)
  | initPwm (timer channel prescale : Byte)
  | pwmDuty (timer channel duty : Byte)
  | analogRead (pin : Byte)
  deriving DecidableEq, Repr

namespace Request

def bytes : Request → List Byte
  | pinMode pin mode => (pinModeMsg pin mode).bytes
  | initPwm timer channel prescale => (initPwmMsg timer channel prescale).bytes
  | pwmDuty timer channel duty => (pwmDutyMsg timer channel duty).bytes
  | analogRead pin => (analogReadMsg pin).bytes

def rspSize : Request → ℕ
  | pinMode .. | initPwm .. | pwmDuty .. => 1
  | analogRead _ => 2

/-- Whether the reply is received into `msg` rather than into `rsp`. -/
def overlay : Request → Bool
  | pinMode .. | initPwm .. | pwmDuty .. => true
  | analogRead _ => false

end Request

def perform (q : Request) (d : ArduinoSlave σ) : Option (List Byte) × ArduinoSlave σ :=
  attempts P q.overlay q.rspSize d.maxRetry q.bytes d

def pinMode (pin mode : Byte) (d : ArduinoSlave σ) : ArduinoSlave σ :=
  (perform P (.pinMode pin mode) d).2

def initPwm (timer channel prescale : Byte) (d : ArduinoSlave σ) : ArduinoSlave σ :=
  (perform P (.initPwm timer channel prescale) d).2

def pwmDuty (timer channel duty : Byte) (d : ArduinoSlave σ) : ArduinoSlave σ :=
  (perform P (.pwmDuty timer channel duty) d).2

def analogRead (pin : Byte) (d : ArduinoSlave σ) : BitVec 16 × ArduinoSlave σ :=
  let (rsp, d) := perform P (.analogRead pin) d
  (match rsp with
    | some rsp => analogReadRval rsp
    | none => -1, d)

def call : Request → ArduinoSlave σ → Option (BitVec 16) × ArduinoSlave σ
  | .pinMode pin mode, d => (none, pinMode P pin mode d)
  | .initPwm timer channel prescale, d => (none, initPwm P timer channel prescale d)
  | .pwmDuty timer channel duty, d => (none, pwmDuty P timer channel duty d)
  | .analogRead pin, d =>
      let (value, d) := analogRead P pin d
      (some value, d)

/-- The pair `(rx, tx)`; both counters start again from 0. -/
def getTransactionStats (d : ArduinoSlave σ) : (BitVec 32 × BitVec 32) × ArduinoSlave σ :=
  ((d.transactionReceived, d.transactionSent),
    { d with transactionSent := 0, transactionReceived := 0 })

/-! ## The loops of `recv` -/

theorem drain_length (size : ℕ) (data : List Byte) (s : σ) :
    (drain P size data s).2.1.length + (drain P size data s).1 = data.length + size := by
  induction size generalizing data s with
  | zero => rfl
  | succ size ih =>
      rw [drain]
      by_cases havail : (P.serialDataAvail s).1 = true
      · simp only [havail, if_true]
        rw [ih]
        simp only [List.length_append, List.length_singleton]
        omega
      · simp [havail]

theorem recvLoop_zero (size : ℕ) (data : List Byte) (s : σ) :
    recvLoop P 0 size data s =
      if (drain P size data s).1 = 0 then
        (true, (drain P size data s).2.1, (drain P size data s).2.2)
      else (false, (drain P size data s).2.1, P.sleep (drain P size data s).2.2) := rfl

theorem recvLoop_succ (left size : ℕ) (data : List Byte) (s : σ) :
    recvLoop P (left + 1) size data s =
      if (drain P size data s).1 = 0 then
        (true, (drain P size data s).2.1, (drain P size data s).2.2)
      else recvLoop P left (drain P size data s).1 (drain P size data s).2.1
        (P.sleep (drain P size data s).2.2) := rfl

theorem recvLoop_length (left size : ℕ) (data : List Byte) (s : σ) (hsize : size ≠ 0) :
    if (recvLoop P left size data s).1 then
      (recvLoop P left size data s).2.1.length = data.length + size
    else (recvLoop P left size data s).2.1.length < data.length + size := by
  induction left generalizing size data s with
  | zero =>
      have hlen := drain_length P size data s
      rw [recvLoop_zero]
      by_cases hdone : (drain P size data s).1 = 0
      · rw [if_pos hdone, if_pos rfl, ← hlen, hdone, Nat.add_zero]
      · rw [if_neg hdone, if_neg Bool.false_ne_true, ← hlen]
        exact Nat.lt_add_of_pos_right (Nat.pos_of_ne_zero hdone)
  | succ left ih =>
      have hlen := drain_length P size data s
      rw [recvLoop_succ]
      by_cases hdone : (drain P size data s).1 = 0
      · rw [if_pos hdone, if_pos rfl, ← hlen, hdone, Nat.add_zero]
      · rw [if_neg hdone, ← hlen]
        exact ih _ _ _ hdone

theorem recv_length (size : ℕ) (d : ArduinoSlave σ) :
    if (recv P size d).1 then (recv P size d).2.1.length = size
    else (recv P size d).2.1.length < size := by
  by_cases hsize : size = 0
  · simp [recv, hsize]
  · have h := recvLoop_length P 51 size [] d.port hsize
    simpa [recv, hsize] using h

/-- A failed `recv` of one byte stores nothing, so the request struct that it
points at is sent again unchanged. -/
theorem recv_one_of_failed {d : ArduinoSlave σ} (h : (recv P 1 d).1 = false) :
    (recv P 1 d).2.1 = [] := by
  have hlen := recv_length P 1 d
  rw [h, if_neg Bool.false_ne_true] at hlen
  exact List.length_eq_zero_iff.mp (by omega)

theorem overlay_of_failed (msg : List Byte) {d : ArduinoSlave σ} (h : (recv P 1 d).1 = false) :
    (recv P 1 d).2.1 ++ msg.drop (recv P 1 d).2.1.length = msg := by
  rw [recv_one_of_failed P h, List.length_nil, List.drop_zero, List.nil_append]

theorem attempts_overlay (n : ℕ) (msg : List Byte) (d : ArduinoSlave σ) :
    attempts P true 1 n msg d = attempts P false 1 n msg d := by
  induction n generalizing d with
  | zero => rfl
  | succ n ih =>
      rw [attempts, attempts]
      cases hok : (recv P 1 (send P msg d)).1 with
      | true => simp [hok]
      | false =>
          simp only [hok, overlay_of_failed P msg hok, if_true, if_false, Bool.false_eq_true]
          exact ih _

theorem rspSize_ne_zero (q : Request) : q.rspSize ≠ 0 := by
  cases q <;> simp [Request.rspSize]

theorem perform_eq (q : Request) (d : ArduinoSlave σ) :
    perform P q d = attempts P false q.rspSize d.maxRetry q.bytes d := by
  cases q with
  | analogRead pin => rfl
  | pinMode pin mode => exact attempts_overlay P _ _ _
  | initPwm timer channel prescale => exact attempts_overlay P _ _ _
  | pwmDuty timer channel duty => exact attempts_overlay P _ _ _

theorem attempts_succ (size n : ℕ) (msg : List Byte) (d : ArduinoSlave σ) :
    attempts P false size (n + 1) msg d =
      if (recv P size (send P msg d)).1 then
        (some (recv P size (send P msg d)).2.1, (recv P size (send P msg d)).2.2)
      else attempts P false size n msg (recv P size (send P msg d)).2.2 := rfl

theorem call_snd (q : Request) (d : ArduinoSlave σ) : (call P q d).2 = (perform P q d).2 := by
  cases q <;> rfl

theorem recv_maxRetry (size : ℕ) (d : ArduinoSlave σ) :
    (recv P size d).2.2.maxRetry = d.maxRetry := by
  unfold recv
  split <;> rfl

theorem attempts_maxRetry (size n : ℕ) (msg : List Byte) (d : ArduinoSlave σ) :
    (attempts P false size n msg d).2.maxRetry = d.maxRetry := by
  induction n generalizing d with
  | zero => rfl
  | succ n ih =>
      have hrecv := recv_maxRetry P size (send P msg d)
      rw [attempts_succ]
      split
      · exact hrecv
      · rw [ih, hrecv]
        rfl

theorem call_maxRetry (q : Request) (d : ArduinoSlave σ) :
    (call P q d).2.maxRetry = d.maxRetry := by
  rw [call_snd, perform_eq]
  exact attempts_maxRetry P _ _ _ d

/-! ## What a call preserves -/

/-- Every operation of the port preserves `I`. -/
structure SerialPort.Preserves (I : σ → Prop) : Prop where
  serialFlush : ∀ {s}, I s → I (P.serialFlush s)
  serialPutchar : ∀ c {s}, I s → I (P.serialPutchar c s)
  serialDataAvail : ∀ {s}, I s → I (P.serialDataAvail s).2
  serialGetchar : ∀ {s}, I s → I (P.serialGetchar s).2
  sleep : ∀ {s}, I s → I (P.sleep s)

namespace SerialPort.Preserves

variable {P} {I : σ → Prop} (h : P.Preserves I)

include h

theorem send (msg : List Byte) {d : ArduinoSlave σ} (hd : I d.port) :
    I (Arduino.send P msg d).port :=
  List.foldlRecOn msg _ (h.serialFlush hd) fun _ hs c _ ↦ h.serialPutchar c hs

theorem drain (size : ℕ) (data : List Byte) {s : σ} (hs : I s) :
    I (Arduino.drain P size data s).2.2 := by
  induction size generalizing data s with
  | zero => exact h.serialDataAvail hs
  | succ size ih =>
      have havail := h.serialDataAvail hs
      rw [Arduino.drain]
      dsimp only
      split_ifs
      · exact ih _ (h.serialGetchar havail)
      · exact havail

theorem recvLoop (left size : ℕ) (data : List Byte) {s : σ} (hs : I s) :
    I (Arduino.recvLoop P left size data s).2.2 := by
  induction left generalizing size data s with
  | zero =>
      rw [recvLoop_zero]
      split_ifs
      · exact h.drain size data hs
      · exact h.sleep (h.drain size data hs)
  | succ left ih =>
      rw [recvLoop_succ]
      split_ifs
      · exact h.drain size data hs
      · exact ih _ _ (h.sleep (h.drain size data hs))

theorem recv (size : ℕ) {d : ArduinoSlave σ} (hd : I d.port) :
    I (Arduino.recv P size d).2.2.port := by
  unfold Arduino.recv
  split_ifs
  · exact hd
  · exact h.recvLoop 51 size [] hd

theorem perform (q : Request) {d : ArduinoSlave σ} (hd : I d.port) :
    I (Arduino.perform P q d).2.port := by
  rw [perform_eq]
  induction d.maxRetry generalizing d with
  | zero => exact hd
  | succ n ih =>
      have hattempt := h.recv q.rspSize (h.send q.bytes hd)
      rw [attempts_succ]
      split_ifs
      · exact hattempt
      · exact ih hattempt

end SerialPort.Preserves
end Rover.Arduino
