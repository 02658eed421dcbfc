import Rover.Slave.Board

/-!
# The slave's receive loop

`loop()` reads whatever bytes are available, one at a time, into
`serial_data`, and calls a handler when a message is complete.  The two
handlers do not touch the receiver's own variables, so the receiver is a
machine of its own that answers every byte with at most one handler call.
-/

namespace Rover.Slave

open Messages

inductive SerialState
  | waitBody
  | waitType
  | waitTextBody
  deriving DecidableEq, Repr

def serialTextMsgDelimiter : Byte := 0x3b

structure Receiver where
  serialData : Buffer
  serialDataIdx : Byte
  serialIdleCount : BitVec 32
  serialState : SerialState
  expectedSize : Byte

inductive Call
  | processMessage (serialData : Buffer)
  | processTextMessage (serialData : Buffer)

def Call.run {π : Type} (hal : Hal π) : Call → Board π → Board π
  | .processMessage serialData => Slave.processMessage hal serialData
  | .processTextMessage serialData => Slave.processTextMessage hal serialData

theorem extends_run {π : Type} (hal : Hal π) (c : Call) (b : Board π) :
    b.Extends (c.run hal b) := by
  cases c with
  | processMessage serialData => exact extends_processMessage hal serialData b
  | processTextMessage serialData => exact extends_processTextMessage hal serialData b

namespace Receiver

def store (rb : Byte) (r : Receiver) : Receiver :=
  { r with
    serialData := Function.update r.serialData r.serialDataIdx rb
    serialDataIdx := r.serialDataIdx + 1 }

/-- The body of `while (Serial.available())` for one byte. -/
def readByte (rb : Byte) (r : Receiver) : Receiver × Option Call :=
  let r := { r with serialIdleCount := 0 }.store rb
  match r.serialState with
  | .waitType =>
      if rb.toNat < msgSizeByType.length then
        let r := { r with expectedSize := msgSizeByType.getD rb.toNat 0 - 1 }
        -- header only message
        if r.expectedSize = 0 then
          ({ r with serialDataIdx := 0 }, some (.processMessage r.serialData))
        else ({ r with serialState := .waitBody }, none)
      else ({ r with serialState := .waitTextBody }, none)
  | .waitBody =>
      let r := { r with expectedSize := r.expectedSize - 1 }
      if r.expectedSize = 0 then
        ({ r with serialState := .waitType, serialDataIdx := 0 },
          some (.processMessage r.serialData))
      else (r, none)
  | .waitTextBody =>
      if rb = serialTextMsgDelimiter then
        let r := r.store 0
        ({ r with serialState := .waitType, serialDataIdx := 0 },
          some (.processTextMessage r.serialData))
      else (r, none)

def readAll : List Byte → Receiver → Receiver × List Call
  | [], r => (r, [])
  | rb :: rest, r =>
      let (r, call) := r.readByte rb
      let (r, calls) := readAll rest r
      (r, call.toList ++ calls)

/-- The condition of the idle reset, after the counter has been incremented. -/
def idleFires (r : Receiver) : Bool := decide (274 < r.serialIdleCount + 1)

def idle (r : Receiver) : Receiver :=
  let fires := r.idleFires
  let r := { r with serialIdleCount := r.serialIdleCount + 1 }
  if fires then { r with serialIdleCount := 0, serialState := .waitType, serialDataIdx := 0 }
  else r

def loop (avail : List Byte) (r : Receiver) : Receiver × List Call :=
  let (r, calls) := r.readAll avail
  (r.idle, calls)

def resets (avail : List Byte) (r : Receiver) : Bool := (r.readAll avail).1.idleFires

def run : List (List Byte) → Receiver → Receiver × List Call
  | [], r => (r, [])
  | avail :: rest, r =>
      let (r, calls) := r.loop avail
      let (r, later) := run rest r
      (r, calls ++ later)

/-- `setup()` as far as it concerns the receiver. -/
def setup (r : Receiver) : Receiver :=
  { r with serialDataIdx := 0, serialIdleCount := 0, serialState := .waitType }

@[simp] theorem readAll_nil (r : Receiver) : r.readAll [] = (r, []) := rfl

theorem readAll_cons (rb : Byte) (rest : List Byte) (r : Receiver) :
    r.readAll (rb :: rest) =
      (((r.readByte rb).1.readAll rest).1,
        (r.readByte rb).2.toList ++ ((r.readByte rb).1.readAll rest).2) := rfl

@[simp] theorem run_nil (r : Receiver) : r.run [] = (r, []) := rfl

theorem run_cons (avail : List Byte) (rest : List (List Byte)) (r : Receiver) :
    r.run (avail :: rest) =
      (((r.loop avail).1.run rest).1, (r.loop avail).2 ++ ((r.loop avail).1.run rest).2) := rfl

theorem run_append (xs ys : List (List Byte)) (r : Receiver) :
    r.run (xs ++ ys) =
      (((r.run xs).1.run ys).1, (r.run xs).2 ++ ((r.run xs).1.run ys).2) := by
  induction xs generalizing r with
  | nil => simp
  | cons avail xs ih =>
      rw [List.cons_append, run_cons, run_cons, ih]
      simp

theorem loop_eq (avail : List Byte) (r : Receiver) :
    r.loop avail = ((r.readAll avail).1.idle, (r.readAll avail).2) := rfl

theorem run_concat (cs : List (List Byte)) (c : List Byte) (r : Receiver) :
    r.run (cs ++ [c]) =
      (((r.run cs).1.readAll c).1.idle, (r.run cs).2 ++ ((r.run cs).1.readAll c).2) := by
  rw [run_append, run_cons, loop_eq]
  simp

end Receiver

structure Machine (π : Type) where
  rx : Receiver
  board : Board π

namespace Machine

variable {π : Type} (hal : Hal π)

def setup (s : Machine π) : Machine π :=
  { rx := s.rx.setup
    board :=
      { pwm := { s.board.pwm with timers := fun _ ↦ ⟨0, false⟩ }
        pins := s.board.pins } }

def loop (avail : List Byte) (s : Machine π) : Machine π :=
  let (rx, calls) := s.rx.loop avail
  { rx := rx, board := calls.foldl (fun b c ↦ c.run hal b) s.board }

theorem extends_loop (avail : List Byte) (s : Machine π) :
    s.board.Extends (s.loop hal avail).board := by
  have hcalls (calls : List Call) (b : Board π) :
      b.Extends (calls.foldl (fun b c ↦ c.run hal b) b) := by
    induction calls generalizing b with
    | nil => exact .refl b
    | cons c calls ih => exact (extends_run hal c b).trans (ih _)
  exact hcalls _ _

end Machine
end Rover.Slave
