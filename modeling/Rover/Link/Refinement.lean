import Rover.Link.Service

/-!
# Sequences of calls over a line that delivers

On a line that loses nothing the driver and the slave together are the slave's
hardware with the operations called directly on it.
-/

namespace Rover.Link

open Arduino Slave Line

variable {π : Type} (hal : Hal π)

def callWith (q : Request) (plans : List Plan) (d : ArduinoSlave (Line π)) :
    Option (BitVec 16) × ArduinoSlave (Line π) :=
  call (port hal) q { d with port := { d.port with plans := plans } }

def runCalls : List (Request × List Plan) → ArduinoSlave (Line π) →
    List (Option (BitVec 16)) × ArduinoSlave (Line π)
  | [], d => ([], d)
  | (q, plans) :: rest, d =>
      let (value, d) := callWith hal q plans d
      let (values, d) := runCalls rest d
      (value :: values, d)

/-- `G` holds of every call of the sequence and the driver it starts from. -/
def Each (G : Request → ArduinoSlave (Line π) → Prop) :
    List (Request × List Plan) → ArduinoSlave (Line π) → Prop
  | [], _ => True
  | (q, plans) :: rest, d =>
      G q { d with port := { d.port with plans := plans } } ∧
        Each G rest (callWith hal q plans d).2

def start (s : Machine π) : ArduinoSlave (Line π) := { port := { wire := { slave := s.setup } } }

theorem quiet_start (s : Machine π) : (start s).port.wire.Quiet :=
  ⟨rfl, rfl, Receiver.holding_setup s.rx⟩

/-- During the first attempt nothing is lost, no idle reset hits the request,
and at the last poll the reply has arrived. -/
structure Delivers (q : Request) (l : Line π) : Prop where
  events : ∀ burst ∈ (l.plans.headD {}).bursts, ∀ e ∈ burst, e.Serves true
  uncut : (after hal q.bytes 51 l).wire.cuts = l.wire.cuts
  toSlave : (after hal q.bytes 51 l).wire.toSlave = []
  out : (after hal q.bytes 51 l).wire.out = []

/-! ## One attempt -/

namespace Delivers

variable {hal} {q : Request} {l : Line π}

theorem size_le (hq : q.InRange) (hquiet : l.wire.Quiet) (h : Delivers hal q l) :
    q.rspSize ≤ (after hal q.bytes 51 l).wire.arrived.length := by
  cases serving_after hq hquiet h.events le_rfl h.uncut with
  | receiving p rest hput _ hne hto _ _ _ =>
      rw [h.toSlave] at hto
      rw [← hto, List.append_nil] at hput
      exact absurd hput hne
  | served out _ _ _ hboard harr =>
      have hout : out = [] := by
        rw [← h.out, Wire.out, hboard]
      rw [if_pos rfl, hout, List.append_nil] at harr
      rw [harr, Request.reply_length]

theorem accepted (hq : q.InRange) (hquiet : l.wire.Quiet) (h : Delivers hal q l) {k : ℕ}
    (hk : k ≤ 51) (hsize : q.rspSize ≤ (after hal q.bytes k l).wire.arrived.length) :
    (after hal q.bytes k l).wire.arrived = q.reply hal l.wire.slave.board ∧
      (after hal q.bytes k l).wire.toSlave = [] ∧
      (after hal q.bytes k l).wire.slave.rx.Holding [] ∧
      (after hal q.bytes k l).wire.slave.board =
        { q.exec hal l.wire.slave.board with serialOut := [] } := by
  cases serving_after hq hquiet h.events hk h.uncut with
  | receiving p rest _ _ _ _ _ _ harr =>
      rw [harr] at hsize
      exact absurd (Nat.le_zero.mp hsize) (rspSize_ne_zero q)
  | served out _ hto hold hboard harr =>
      rw [if_pos rfl] at harr
      have hlen := congrArg List.length harr
      rw [List.length_append, Request.reply_length] at hlen
      have hout : out = [] := List.length_eq_zero_iff.mp (by omega)
      subst hout
      rw [List.append_nil] at harr
      exact ⟨harr, hto, hold, hboard⟩

end Delivers

/-! ## One call -/

/-- How a call leaves the driver: the slave has executed the request once, the
driver has taken its reply, and the line is empty. -/
structure Completes (q : Request) (d : ArduinoSlave (Line π)) : Prop where
  reply : (perform (port hal) q d).1 = some (q.reply hal d.port.wire.slave.board)
  board : (perform (port hal) q d).2.port.wire.slave.board =
    { q.exec hal d.port.wire.slave.board with serialOut := [] }
  sent : (perform (port hal) q d).2.port.wire.sent = d.port.wire.sent ++ q.bytes
  toSlave : (perform (port hal) q d).2.port.wire.toSlave = []
  out : (perform (port hal) q d).2.port.wire.out = []
  arrived : (perform (port hal) q d).2.port.wire.arrived = []
  state : (perform (port hal) q d).2.port.wire.slave.rx.serialState = .waitType
  idx : (perform (port hal) q d).2.port.wire.slave.rx.serialDataIdx = 0

theorem Completes.quiet {q : Request} {d : ArduinoSlave (Line π)} (h : Completes hal q d) :
    (perform (port hal) q d).2.port.wire.Quiet :=
  ⟨h.toSlave, h.out, (Receiver.holding_nil_iff _).mpr ⟨h.state, h.idx⟩⟩

theorem completes_of_delivers {q : Request} {d : ArduinoSlave (Line π)} (hq : q.InRange)
    (hretry : d.maxRetry ≠ 0) (hquiet : d.port.wire.Quiet) (h : Delivers hal q d.port) :
    Completes hal q d := by
  have hcall := perform_attempted hal q d
  have hsize := h.size_le hq hquiet
  obtain ⟨data, hdata⟩ : ∃ data, (perform (port hal) q d).1 = some data := by
    refine Option.ne_none_iff_exists'.mp fun hnone ↦ ?_
    have hshort := (hcall.failure hnone).1 0 (Nat.pos_of_ne_zero hretry)
    exact absurd hsize (Nat.not_le.mpr hshort)
  obtain ⟨j, -, k, hk, hbefore, hle, -, htake, hport⟩ := hcall.success data hdata
  -- the first attempt is the one that succeeds
  have hj : j = 0 := by
    by_contra hj
    exact absurd hsize (Nat.not_le.mpr (hbefore 0 (Nat.pos_of_ne_zero hj)))
  subst hj
  simp only [Function.iterate_zero, id_eq] at hle htake hport
  obtain ⟨harr, hto, hold, hboard⟩ := h.accepted hq hquiet hk hle
  obtain ⟨_, _, _, hsince⟩ := since_after hal q.bytes k d.port
  obtain ⟨hstate, hidx⟩ := (Receiver.holding_nil_iff _).mp hold
  have hreply : (after hal q.bytes k d.port).wire.arrived.length = q.rspSize := by
    rw [harr, Request.reply_length]
  constructor
  · rw [hdata, htake, ← hreply, List.take_length, harr]
  all_goals rw [hport]
  · exact hboard
  · exact hsince.sent_eq
  · exact hto
  · change (after hal q.bytes k d.port).wire.slave.board.serialOut = []
    rw [hboard]
  · change (after hal q.bytes k d.port).wire.arrived.drop q.rspSize = []
    rw [← hreply, List.drop_length]
  · exact hstate
  · exact hidx

/-! ## Whole runs -/

def Performs : Request → HwOp → Prop
  | .pinMode pin mode, op => op = .pinMode pin mode
  | .initPwm timer channel prescale, op => op = .initPwm timer channel prescale
  | .pwmDuty timer channel duty, op => op = .pwmDuty timer channel duty
  | .analogRead pin, op => ∃ value, op = .analogRead pin value

/-- What the caller is told about an operation: only samples are passed on. -/
def resultOf : HwOp → Option (BitVec 16)
  | .analogRead _ value => some value
  | _ => none

theorem performs_op (q : Request) (b : Board π) : Performs q (q.op hal b) := by
  cases q with
  | analogRead pin => exact ⟨_, rfl⟩
  | pinMode pin mode => rfl
  | initPwm timer channel prescale => rfl
  | pwmDuty timer channel duty => rfl

theorem hardware_exec (q : Request) (b : Board π) :
    (q.exec hal b).hardware = q.operate hal b.hardware := by
  cases q <;> rfl

theorem call_fst_of_reply {q : Request} {d : ArduinoSlave (Line π)} {b : Board π}
    (h : (perform (port hal) q d).1 = some (q.reply hal b)) :
    (call (port hal) q d).1 = resultOf (q.op hal b) := by
  cases q with
  | analogRead pin =>
      simp only [call, analogRead, h, Request.op, resultOf, Request.reply]
      rw [Messages.analogReadRval_response]
  | pinMode pin mode => rfl
  | initPwm timer channel prescale => rfl
  | pwmDuty timer channel duty => rfl

theorem callWith_snd (q : Request) (plans : List Plan) (d : ArduinoSlave (Line π)) :
    (callWith hal q plans d).2 =
      (perform (port hal) q { d with port := { d.port with plans := plans } }).2 :=
  call_snd (port hal) q _

theorem callWith_maxRetry (q : Request) (plans : List Plan) (d : ArduinoSlave (Line π)) :
    (callWith hal q plans d).2.maxRetry = d.maxRetry :=
  call_maxRetry (port hal) q _

variable {hal} {calls : List (Request × List Plan)} {d : ArduinoSlave (Line π)}

theorem each_completes (hin : ∀ c ∈ calls, c.1.InRange) (hretry : d.maxRetry ≠ 0)
    (hquiet : d.port.wire.Quiet) (h : Each hal (fun q d ↦ Delivers hal q d.port) calls d) :
    Each hal (Completes hal) calls d := by
  induction calls generalizing d with
  | nil => trivial
  | cons c rest ih =>
      obtain ⟨q, plans⟩ := c
      obtain ⟨hfirst, hrest⟩ := h
      have hdone : Completes hal q { d with port := { d.port with plans := plans } } :=
        completes_of_delivers hal (hin (q, plans) (by simp)) hretry hquiet hfirst
      refine ⟨hdone, ih (fun c hc ↦ hin c (by simp [hc])) ?_ ?_ hrest⟩
      · rwa [callWith_maxRetry]
      · rw [callWith_snd]
        exact hdone.quiet

theorem hardware_runCalls (h : Each hal (Completes hal) calls d) :
    (runCalls hal calls d).2.port.wire.slave.board.hardware =
      calls.foldl (fun b c ↦ c.1.operate hal b) d.port.wire.slave.board.hardware := by
  induction calls generalizing d with
  | nil => rfl
  | cons c rest ih =>
      obtain ⟨q, plans⟩ := c
      obtain ⟨hfirst, hrest⟩ := h
      have hboard := hfirst.board
      rw [← callWith_snd] at hboard
      rw [List.foldl_cons, ← hardware_exec hal q]
      refine (ih hrest).trans ?_
      rw [hboard]
      rfl

theorem sent_runCalls (h : Each hal (Completes hal) calls d) :
    (runCalls hal calls d).2.port.wire.sent =
      d.port.wire.sent ++ (calls.map fun c ↦ c.1.bytes).flatten := by
  induction calls generalizing d with
  | nil => simp [runCalls]
  | cons c rest ih =>
      obtain ⟨q, plans⟩ := c
      obtain ⟨hfirst, hrest⟩ := h
      have hsent := hfirst.sent
      rw [← callWith_snd] at hsent
      refine (ih hrest).trans ?_
      rw [hsent]
      simp

theorem ops_runCalls (h : Each hal (Completes hal) calls d) :
    ∃ ops, (runCalls hal calls d).2.port.wire.slave.board.ops =
        d.port.wire.slave.board.ops ++ ops ∧
      List.Forall₂ Performs (calls.map Prod.fst) ops ∧
      (runCalls hal calls d).1 = ops.map resultOf := by
  induction calls generalizing d with
  | nil => exact ⟨[], by simp [runCalls], .nil, rfl⟩
  | cons c rest ih =>
      obtain ⟨q, plans⟩ := c
      obtain ⟨hfirst, hrest⟩ := h
      have hboard := hfirst.board
      rw [← callWith_snd] at hboard
      obtain ⟨ops, hops, hperf, hvals⟩ := ih hrest
      refine ⟨q.op hal d.port.wire.slave.board :: ops, ?_, .cons (performs_op hal q _) hperf, ?_⟩
      · refine hops.trans ?_
        rw [hboard]
        change (q.exec hal d.port.wire.slave.board).ops ++ ops = _
        rw [Request.exec_ops]
        simp
      · change (callWith hal q plans d).1 :: (runCalls hal rest (callWith hal q plans d).2).1 = _
        rw [hvals, List.map_cons]
        congr 1
        exact call_fst_of_reply hal hfirst.reply

/-- From `setup()` on, over a line that delivers everything in time, however
the bytes are spread over the calls of `loop()`. -/
theorem runCalls_refines (hal : Hal π) (s : Machine π) (calls : List (Request × List Plan))
    (hin : ∀ c ∈ calls, c.1.InRange)
    (hlink : Each hal (fun q d ↦ Delivers hal q d.port) calls (start s)) :
    List.Forall₂ Performs (calls.map Prod.fst)
        (runCalls hal calls (start s)).2.port.wire.slave.board.ops ∧
      (runCalls hal calls (start s)).1 =
        (runCalls hal calls (start s)).2.port.wire.slave.board.ops.map resultOf ∧
      (runCalls hal calls (start s)).2.port.wire.slave.board.hardware =
        calls.foldl (fun b c ↦ c.1.operate hal b) s.setup.board ∧
      (runCalls hal calls (start s)).2.port.wire.sent =
        (calls.map fun c ↦ c.1.bytes).flatten ∧
      Each hal (Completes hal) calls (start s) := by
  have hdone := each_completes hin (by simp [start]) (quiet_start s) hlink
  obtain ⟨ops, hops, hperf, hvals⟩ := ops_runCalls hdone
  have hops' : (runCalls hal calls (start s)).2.port.wire.slave.board.ops = ops := by
    simpa [start, Machine.setup] using hops
  rw [hops']
  exact ⟨hperf, hvals, hardware_runCalls hdone, by simpa [start] using sent_runCalls hdone, hdone⟩

def blankSlave : Machine Unit where
  rx := ⟨fun _ ↦ 0xaa, 9, 5, .waitBody, 4⟩
  board := { pwm := ⟨fun _ ↦ ⟨3, true⟩, clearedRegs⟩, pins := () }

def exampleCalls : List (Request × List Plan) :=
  [(.pinMode 13 1, [⟨[], [[.loop 1], [.loop 1], [.arrive 1]]⟩]),
    (.analogRead 3, [⟨[.loop 1], [[], [.loop 2], [.arrive 1], [], [.loop 1, .arrive 1]]⟩])]

theorem runCalls_refines_exampleCalls :
    (runCalls fixedHal exampleCalls (start blankSlave)).1 =
        (runCalls fixedHal exampleCalls (start blankSlave)).2.port.wire.slave.board.ops.map
          resultOf ∧
      (runCalls fixedHal exampleCalls (start blankSlave)).1 = [none, some 0x0203] := by
  have hin : ∀ c ∈ exampleCalls, c.1.InRange := by decide
  have hlink : Each fixedHal (fun q d ↦ Delivers fixedHal q d.port) exampleCalls
      (start blankSlave) := by
    refine ⟨⟨?_, ?_, ?_, ?_⟩, ⟨?_, ?_, ?_, ?_⟩, trivial⟩
    all_goals decide +kernel
  exact ⟨(runCalls_refines fixedHal blankSlave exampleCalls hin hlink).2.1, by decide +kernel⟩

end Rover.Link
