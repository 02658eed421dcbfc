import Rover.App.Drive
import Rover.App.Options
import Rover.Html.Range
import Rover.Lib.Interleaving
import Rover.Slave.Pwm

/-!
# The rover as a whole

The page sends texts over its connection, the WebSocket thread and the UDP
thread take commands from outside, the timer thread and these two fill the
queue, and the main thread empties it.  Three threads call the slave, one call
at a time and in any order.
-/

namespace Rover.System

open App Arduino Interleaving

/-- The threads that call the slave. -/
inductive Thread
  | main
  | ws
  | udp
  deriving DecidableEq, Repr

/-- Who puts messages into the queue. -/
inductive Source
  | ws
  | udp
  | timer
  deriving DecidableEq, Repr

/-- The text of a message; the numbers of the page are integers. -/
def text : Html.Message → List Byte
  | .stats => ascii "stats"
  | .js left right => jsText left.num right.num
  | .led pwm => ledText (BitVec.ofNat 32 pwm.num.toNat)

/-- A call that takes effect at the slave.  The other requests of the program
do not concern the timers. -/
def perform (u : Slave.PwmUnit) : Request → Slave.PwmUnit
  | .initPwm timer channel prescale => Slave.initPwm timer channel prescale u
  | .pwmDuty timer channel duty => { u with regs := Slave.pwmDuty timer channel duty u.regs }
  | _ => u

/-- `pending` holds the calls that a thread has still to make for the message
it handles.  The last three fields are what has happened so far: the messages
of the page that were served, the queue messages that were handled, and the
calls, with whether they took effect. -/
structure State where
  page : Html.Page := {}
  toServer : List Html.Message := []
  app : MainApp
  queue : List (Source × QueueMsg) := []
  pending : Thread → List Request
  pwm : Slave.PwmUnit
  served : List Html.Message := []
  handled : List (Source × QueueMsg × Readings) := []
  calls : List (Thread × Request × Bool) := []

/-- What can happen.  The readings are those of the handler that starts then.  What
is on its way is lost with the connection, which the page does not make again:
later messages are lost by further events of this kind. -/
inductive Event
  | page (e : Html.Event)
  | disconnect
  | ws (locals : WsLocals) (connId : BitVec 32)
  | udp (data : List Byte) (pwm : BitVec 32)
  | timer (time : BitVec 64)
  | main (r : Readings)
  | call (t : Thread) (took : Bool)

namespace State

/-- A thread that handles a message makes its calls afterwards.  Storing the
level of the light and reading it again are one step here; in the code they are
two, without a lock, and differ when both front ends switch it at the same time.
The reply to a page is not part of the state. -/
def accept (source : Source) (t : Thread) (o : Outcome) (s : State) : State :=
  { s with
    app := o.app
    queue := s.queue ++ o.queued.map fun m ↦ (source, m)
    pending := Function.update s.pending t o.requests }

/-- A thread that still has calls to make, or has nothing to take, waits: such
events do not occur.  A call that is lost is lost as a whole, without an effect;
to the outputs a call that loses only bytes is such a call, or one that takes
effect (`outputs_of_lossy_calls`). -/
def step (s : State) : Event → State
  | .page e =>
      { s with
        page := s.page.step e
        toServer := s.toServer ++ (s.page.step e).sent.drop s.page.sent.length }
  | .disconnect => { s with toServer := [] }
  | .ws locals connId =>
      match s.pending .ws, s.toServer with
      | [], m :: rest =>
          { s with toServer := rest, served := s.served ++ [m] }.accept .ws .ws
            (handleWs locals connId (text m) s.app).1
      | _, _ => s
  | .udp data pwm =>
      match s.pending .udp with
      | [] => s.accept .udp .udp (handleUdp data pwm s.app)
      | _ => s
  | .timer time => { s with queue := s.queue ++ [(.timer, .timer time)] }
  | .main r =>
      match s.pending .main, s.queue with
      | [], (source, m) :: rest =>
          { s with
            app := (handle m r s.app).1
            queue := rest
            pending := Function.update s.pending .main (handle m r s.app).2
            handled := s.handled ++ [(source, m, r)] }
      | _, _ => s
  | .call t took =>
      match s.pending t with
      | [] => s
      | q :: rest =>
          { s with
            pending := Function.update s.pending t rest
            pwm := if took then perform s.pwm q else s.pwm
            calls := s.calls ++ [(t, q, took)] }

end State

/-- The threads are started before the constructor sets up the slave. -/
def start (c : Config) (vbat vbatSlope : ℚ) (regs : Slave.Regs) : State where
  app := initial c vbat vbatSlope
  pending t := if t = .main then setupRequests else []
  pwm := .afterSetup regs

def after (c : Config) (vbat vbatSlope : ℚ) (regs : Slave.Regs) (events : List Event) : State :=
  events.foldl State.step (start c vbat vbatSlope regs)

theorem after_concat (c : Config) (vbat vbatSlope : ℚ) (regs : Slave.Regs) (events : List Event)
    (e : Event) :
    after c vbat vbatSlope regs (events ++ [e]) = (after c vbat vbatSlope regs events).step e :=
  List.foldl_concat ..

/-- What happens to the page. -/
def Event.html : Event → Option Html.Event
  | .page e => some e
  | _ => none

theorem page_step (s : State) (e : Event) :
    (s.step e).page = (e.html.toList).foldl Html.Page.step s.page := by
  cases e with
  | page e => rfl
  | disconnect => rfl
  | timer time => rfl
  | ws locals connId =>
      simp only [State.step]
      split <;> rfl
  | udp data pwm =>
      simp only [State.step]
      split <;> rfl
  | main r =>
      simp only [State.step]
      split <;> rfl
  | call t took =>
      simp only [State.step]
      split <;> rfl

/-- The page does not notice the others. -/
theorem page_after (c : Config) (vbat vbatSlope : ℚ) (regs : Slave.Regs) (events : List Event) :
    (after c vbat vbatSlope regs events).page = Html.Page.after (events.filterMap Event.html) := by
  induction events using List.reverseRecOn with
  | nil => rfl
  | append_singleton events e ih =>
      have hlast : [e].filterMap Event.html = e.html.toList := by
        cases h : e.html <;> simp [h]
      rw [after_concat, page_step, ih, List.filterMap_append, Html.Page.after_append, hlast]

end Rover.System
