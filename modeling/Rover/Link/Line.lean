import Rover.Arduino
import Rover.Slave.Loop

/-!
# The serial line between the two

A line carries request bytes one way and reply bytes the other, in order.  The
environment decides when the slave runs `loop()` and how much it finds
available, when reply bytes arrive, and which bytes are lost.  Its actions are
grouped in bursts: one before each flush, one after each byte put on the line,
and one in each sleep of `recv`.
-/

namespace Rover.Link

open Arduino

/-- An action of the environment.  The losses name a position and a count in
the bytes still under way. -/
inductive Event
  | loop (n : ℕ)
  | arrive (n : ℕ)
  | loseRequest (i n : ℕ)
  | loseReply (i n : ℕ)
  deriving DecidableEq, Repr

/-- The two channels with the slave behind them.  The bytes on their way to
the master are the slave's `serialOut`.  What was ever put on the line and read
by the slave is kept in `sent` and `heard`; `cuts` counts the idle resets that
threw a partly received message away. -/
structure Wire (π : Type) where
  toSlave : List Byte := []
  slave : Slave.Machine π
  arrived : List Byte := []
  sent : List Byte := []
  heard : List Byte := []
  cuts : ℕ := 0

namespace Wire

variable {π : Type} (hal : Slave.Hal π)

def out (w : Wire π) : List Byte := w.slave.board.serialOut

def setOut (out : List Byte) (w : Wire π) : Wire π :=
  { w with slave := { w.slave with board := { w.slave.board with serialOut := out } } }

/-- The idle reset fires in this `loop()` and finds an unfinished message. -/
def cutsShort (avail : List Byte) (w : Wire π) : Bool :=
  w.slave.rx.resets avail &&
    decide ((w.slave.rx.readAll avail).1.serialState ≠ Slave.SerialState.waitType)

def step (w : Wire π) : Event → Wire π
  | .loop n =>
      let avail := w.toSlave.take n
      { w with
        toSlave := w.toSlave.drop n
        slave := w.slave.loop hal avail
        heard := w.heard ++ avail
        cuts := if w.cutsShort avail then w.cuts + 1 else w.cuts }
  | .arrive n => { w.setOut (w.out.drop n) with arrived := w.arrived ++ w.out.take n }
  | .loseRequest i n => { w with toSlave := w.toSlave.take i ++ w.toSlave.drop (i + n) }
  | .loseReply i n => w.setOut (w.out.take i ++ w.out.drop (i + n))

def act (burst : List Event) (w : Wire π) : Wire π := burst.foldl (step hal) w

def put (c : Byte) (w : Wire π) : Wire π :=
  { w with toSlave := w.toSlave ++ [c], sent := w.sent ++ [c] }

def read (n : ℕ) (w : Wire π) : Wire π := { w with arrived := w.arrived.drop n }

end Wire

/-- The environment during one attempt: before its flush, and afterwards. -/
structure Plan where
  flush : List Event := []
  bursts : List (List Event) := []
  deriving DecidableEq, Repr

/-- A wire with the plans of the attempts to come and the bursts left of the
current one. -/
structure Line (π : Type) where
  wire : Wire π
  plans : List Plan := []
  bursts : List (List Event) := []

namespace Line

variable {π : Type} (hal : Slave.Hal π)

def sleep (l : Line π) : Line π :=
  { l with wire := l.wire.act hal (l.bursts.headD []), bursts := l.bursts.tail }

def serialPutchar (c : Byte) (l : Line π) : Line π := sleep hal { l with wire := l.wire.put c }

def serialFlush (l : Line π) : Line π :=
  let plan := l.plans.headD {}
  { wire := { l.wire.act hal plan.flush with arrived := [] }
    plans := l.plans.tail
    bursts := plan.bursts }

def serialGetchar (l : Line π) : Byte × Line π :=
  (l.wire.arrived.headD (-1), { l with wire := l.wire.read 1 })

def port : SerialPort (Line π) where
  serialFlush := serialFlush hal
  serialPutchar := serialPutchar hal
  serialDataAvail := fun l ↦ (!l.wire.arrived.isEmpty, l)
  serialGetchar := serialGetchar
  sleep := sleep hal

def putAll (msg : List Byte) (l : Line π) : Line π :=
  msg.foldl (fun l c ↦ serialPutchar hal c l) l

/-- What the line is after a request was sent and `k` sleeps have passed, when
nothing is read. -/
def after (msg : List Byte) (k : ℕ) (l : Line π) : Line π :=
  (sleep hal)^[k] (putAll hal msg (serialFlush hal l))

def read (n : ℕ) (l : Line π) : Line π := { l with wire := l.wire.read n }

end Line

end Rover.Link
