import Rover.App.WebSocket
import Rover.Lib.Runs
import Rover.Ws.Endpoint

/-!
# The threads that send to WebSocket connections

`main_app::run_ws` answers requests that the server has queued, and
`ws_broadcaster::run_udp` forwards datagrams to all connections.  Neither of
them catches what `server.send` throws for a connection that is not open, and
an exception that leaves a thread ends the process.
-/

namespace Rover.Ws

open App Messages Runs

/-- The process: the two servers, the two queues, what `run_udp` is forwarding,
and the logs of what was sent.  `pending` is what is left of the loop over
`connections_fmap`; the thread holds `server_mutex` until it is empty. -/
structure World where
  server : Endpoint := .start
  queue : List (BitVec 32 × List Byte) := []
  app : MainApp
  appQueue : List QueueMsg := []
  requests : List Arduino.Request := []
  replies : List (Handle × Stats) := []
  broadcaster : Endpoint := .start
  rcvRawBuffer : List Byte := []
  pending : List (BitVec 32 × Handle) := []
  forwarded : List (Handle × List Byte) := []
  terminated : Bool := false

inductive Event
  | server (c : Change)
  | onMessage (hdl : Handle) (payload : List Byte)
  | runWs (locals : WsLocals)
  | timer (time : BitVec 64)
  | run (r : Readings)
  | broadcaster (c : Change)
  | recvfrom (data : List Byte)
  | forward

def msgStr (dataStr : List Byte) : List Byte := dataStr.takeWhile (· ≠ 0)

namespace World

def onMessage (hdl : Handle) (payload : List Byte) (w : World) : World :=
  match w.server.connectionsRmap[hdl]? with
  | none => w
  | some id => { w with queue := w.queue ++ [(id, payload)] }

/-- The call throws when the connection is not open. -/
def wsSend (id : BitVec 32) (message : Stats) (w : World) : World :=
  match w.server.connectionsFmap[id]? with
  | none => w -- the call returns -1, which nobody looks at
  | some hdl =>
      if w.server.phase hdl = .opened then { w with replies := w.replies ++ [(hdl, message)] }
      else { w with terminated := true }

def runWs (locals : WsLocals) (w : World) : World :=
  match w.queue with
  | [] => w
  | (connId, dataStr) :: queue =>
      let (o, reply) := handleWs locals connId (msgStr dataStr) w.app
      let w := { w with
        queue := queue
        app := o.app
        appQueue := w.appQueue ++ o.queued
        requests := w.requests ++ o.requests }
      match reply with
      | none => w
      | some (id, message) => w.wsSend id message

def run (r : Readings) (w : World) : World :=
  match w.appQueue with
  | [] => w
  | m :: appQueue =>
      let (app, requests) := handle m r w.app
      { w with app := app, appQueue := appQueue, requests := w.requests ++ requests }

/-- The callbacks wait for `run_udp`, changes of state do not. -/
def changeBroadcaster (c : Change) (w : World) : World :=
  if c.locks ∧ w.pending ≠ [] then w else { w with broadcaster := w.broadcaster.change c }

def recvfrom (data : List Byte) (w : World) : World :=
  if w.pending = [] then
    { w with rcvRawBuffer := data, pending := w.broadcaster.connectionsFmap.toList }
  else w

def forward (w : World) : World :=
  -- one round of the loop in `run_udp`, in the order of the numbers
  match w.pending with
  | [] => w
  | (_, hdl) :: pending =>
      if w.broadcaster.phase hdl = .opened then
        { w with pending := pending, forwarded := w.forwarded ++ [(hdl, w.rcvRawBuffer)] }
      else { w with terminated := true }

def act (w : World) : Event → World
  | .server c => { w with server := w.server.change c }
  | .onMessage hdl payload => w.onMessage hdl payload
  | .runWs locals => w.runWs locals
  | .timer time => { w with appQueue := w.appQueue ++ [.timer time] }
  | .run r => w.run r
  | .broadcaster c => w.changeBroadcaster c
  | .recvfrom data => w.recvfrom data
  | .forward => w.forward

/-- Nothing happens any more once the process has ended. -/
def step (w : World) (e : Event) : World := if w.terminated then w else w.act e

def exec (events : List Event) (w : World) : World := events.foldl step w

def start (a : MainApp) : World := { app := a }

end World

/-! ## Exceptions -/

/-- The step sends to no connection that has left "open". -/
def Sendable (w : World) : Event → Prop
  | .runWs _ =>
      match w.queue with
      | [] => True
      | (connId, dataStr) :: _ =>
          IStream.firstWord (msgStr dataStr) = ascii "stats" →
            ∀ hdl, w.server.connectionsFmap[connId]? = some hdl → w.server.phase hdl = .opened
  | .forward =>
      match w.pending with
      | [] => True
      | (_, hdl) :: _ => w.broadcaster.phase hdl = .opened
  | _ => True

namespace World

theorem terminated_wsSend (id : BitVec 32) (message : Stats) (w : World) :
    (w.wsSend id message).terminated = false ↔
      w.terminated = false ∧
        ∀ hdl, w.server.connectionsFmap[id]? = some hdl → w.server.phase hdl = .opened := by
  cases h : w.server.connectionsFmap[id]? with
  | none => simp [wsSend, h]
  | some hdl =>
      by_cases hopen : w.server.phase hdl = .opened
      · simp [wsSend, h, hopen]
      · simp [wsSend, h, hopen]

theorem terminated_runWs (locals : WsLocals) (w : World) :
    (w.runWs locals).terminated = false ↔
      w.terminated = false ∧ Sendable w (.runWs locals) := by
  cases h : w.queue with
  | nil => simp [runWs, Sendable, h]
  | cons m queue =>
      obtain ⟨connId, dataStr⟩ := m
      by_cases hword : IStream.firstWord (msgStr dataStr) = ascii "stats"
      · simp only [runWs, Sendable, h, reply_handleWs, hword, if_true, forall_const]
        exact terminated_wsSend _ _ _
      · simp [runWs, Sendable, h, reply_handleWs, hword]

theorem terminated_forward (w : World) :
    w.forward.terminated = false ↔ w.terminated = false ∧ Sendable w .forward := by
  cases h : w.pending with
  | nil => simp [forward, Sendable, h]
  | cons x pending =>
      by_cases hopen : w.broadcaster.phase x.2 = .opened
      · simp [forward, Sendable, h, hopen]
      · simp [forward, Sendable, h, hopen]

theorem terminated_act (w : World) (e : Event) :
    (w.act e).terminated = false ↔ w.terminated = false ∧ Sendable w e := by
  cases e with
  | runWs locals => exact terminated_runWs locals w
  | forward => exact terminated_forward w
  | server c => simp [act, Sendable]
  | timer time => simp [act, Sendable]
  | onMessage hdl payload =>
      simp only [act, onMessage, Sendable, and_true]
      split <;> rfl
  | run r =>
      simp only [act, run, Sendable, and_true]
      split <;> rfl
  | broadcaster c =>
      simp only [act, changeBroadcaster, Sendable, and_true]
      split <;> rfl
  | recvfrom data =>
      simp only [act, recvfrom, Sendable, and_true]
      split <;> rfl

theorem terminated_step (w : World) (e : Event) :
    (w.step e).terminated = false ↔ w.terminated = false ∧ Sendable w e := by
  unfold step
  split
  · next hw => simp [hw]
  · exact terminated_act w e

end World

/-! ## Broadcasts -/

def Event.isForward : Event → Bool
  | .forward => true
  | _ => false

def FreshId (w : World) : Event → Prop
  | .broadcaster c => w.broadcaster.Fresh c
  | _ => True

structure Keeps (w w' : World) : Prop where
  broadcaster : w'.broadcaster = w.broadcaster
  rcvRawBuffer : w'.rcvRawBuffer = w.rcvRawBuffer
  pending : w'.pending = w.pending
  forwarded : w'.forwarded = w.forwarded

namespace World

theorem keeps_wsSend (id : BitVec 32) (message : Stats) (w : World) :
    Keeps w (w.wsSend id message) := by
  unfold wsSend
  split
  · exact ⟨rfl, rfl, rfl, rfl⟩
  · split <;> exact ⟨rfl, rfl, rfl, rfl⟩

theorem keeps_runWs (locals : WsLocals) (w : World) : Keeps w (w.runWs locals) := by
  unfold runWs
  split
  · exact ⟨rfl, rfl, rfl, rfl⟩
  · dsimp only
    split
    · exact ⟨rfl, rfl, rfl, rfl⟩
    · next id message _ =>
        obtain ⟨hcast, hbuf, hpending, hsent⟩ := keeps_wsSend id message _
        exact ⟨hcast, hbuf, hpending, hsent⟩

theorem keeps_act (w : World) (e : Event) :
    (∃ c, e = .broadcaster c) ∨ (∃ data, e = .recvfrom data) ∨ e = .forward ∨
      (e.isForward = false ∧ Keeps w (w.act e)) := by
  cases e with
  | broadcaster c => exact .inl ⟨c, rfl⟩
  | recvfrom data => exact .inr (.inl ⟨data, rfl⟩)
  | forward => exact .inr (.inr (.inl rfl))
  | server c => exact .inr (.inr (.inr ⟨rfl, rfl, rfl, rfl, rfl⟩))
  | timer time => exact .inr (.inr (.inr ⟨rfl, rfl, rfl, rfl, rfl⟩))
  | runWs locals => exact .inr (.inr (.inr ⟨rfl, keeps_runWs locals w⟩))
  | onMessage hdl payload =>
      refine .inr (.inr (.inr ⟨rfl, ?_⟩))
      simp only [act, onMessage]
      split <;> exact ⟨rfl, rfl, rfl, rfl⟩
  | run r =>
      refine .inr (.inr (.inr ⟨rfl, ?_⟩))
      simp only [act, run]
      split <;> exact ⟨rfl, rfl, rfl, rfl⟩

theorem forward_cons {w : World} {x : BitVec 32 × Handle} {rest : List (BitVec 32 × Handle)}
    (h : w.pending = x :: rest) (hopen : w.broadcaster.phase x.2 = .opened) :
    w.forward =
      { w with pending := rest, forwarded := w.forwarded ++ [(x.2, w.rcvRawBuffer)] } := by
  simp [forward, h, hopen]

/-- What a step does to the loop of `run_udp`: one round of it, or nothing
unless the loop has ended. -/
theorem act_cases (w : World) (e : Event) (hsend : Sendable w e) :
    (e.isForward = false ∧ (w.act e).pending = w.pending ∧
        (w.act e).rcvRawBuffer = w.rcvRawBuffer ∧ (w.act e).forwarded = w.forwarded) ∨
      (w.pending = [] ∧ (w.act e).forwarded = w.forwarded) ∨
        ∃ x, w.pending = x :: (w.act e).pending ∧ (w.act e).rcvRawBuffer = w.rcvRawBuffer ∧
          (w.act e).forwarded = w.forwarded ++ [(x.2, w.rcvRawBuffer)] := by
  rcases keeps_act w e with ⟨c, rfl⟩ | ⟨data, rfl⟩ | rfl | ⟨hne, hkeeps⟩
  · refine .inl ⟨rfl, ?_⟩
    simp only [act, changeBroadcaster]
    split <;> exact ⟨rfl, rfl, rfl⟩
  · by_cases hidle : w.pending = []
    · exact .inr (.inl ⟨hidle, by simp [act, recvfrom, hidle]⟩)
    · exact .inl ⟨rfl, by simp [act, recvfrom, hidle]⟩
  · cases hp : w.pending with
    | nil => exact .inr (.inl ⟨rfl, by simp [act, forward, hp]⟩)
    | cons x rest =>
        have hopen : w.broadcaster.phase x.2 = .opened := by
          simpa only [Sendable, hp] using hsend
        exact .inr (.inr ⟨x, by simp [act, forward_cons hp hopen]⟩)
  · exact .inl ⟨hne, hkeeps.pending, hkeeps.rcvRawBuffer, hkeeps.forwarded⟩

theorem exec_forwards (es : List Event) (w : World) (hw : w.terminated = false)
    (hsend : Along step Sendable w es) :
    ∃ new, (exec es w).forwarded = w.forwarded ++ new ∧
      ∀ x ∈ w.pending.take (es.countP Event.isForward), (x.2, w.rcvRawBuffer) ∈ new := by
  induction es generalizing w with
  | nil => exact ⟨[], by simp [exec]⟩
  | cons e es ih =>
      obtain ⟨hsend, hrest⟩ := hsend
      obtain ⟨new, hnew, hall⟩ := ih (w.step e) ((terminated_step w e).mpr ⟨hw, hsend⟩) hrest
      have hexec : (exec (e :: es) w).forwarded = (w.step e).forwarded ++ new := hnew
      have hact : w.step e = w.act e := by simp [step, hw]
      rw [hact] at hexec hall
      rcases act_cases w e hsend with ⟨hne, hp, hbuf, hsame⟩ | ⟨hnil, hsame⟩ | ⟨x, hp, hbuf, hsent⟩
      · refine ⟨new, by rw [hexec, hsame], ?_⟩
        rw [List.countP_cons_of_neg (by simp [hne]), ← hp, ← hbuf]
        exact hall
      · exact ⟨new, by rw [hexec, hsame], by simp [hnil]⟩
      · refine ⟨(x.2, w.rcvRawBuffer) :: new, by
          rw [hexec, hsent, List.append_assoc, List.singleton_append], ?_⟩
        intro y hy
        rw [hp] at hy
        rw [hbuf] at hall
        have hle : es.countP Event.isForward + 1 ≥ (e :: es).countP Event.isForward := by
          rw [List.countP_cons]
          split <;> omega
        have hy' := List.take_subset_take_left _ hle hy
        rw [List.take_succ_cons] at hy'
        rcases List.mem_cons.mp hy' with rfl | hy'
        · exact List.mem_cons_self
        · exact List.mem_cons_of_mem _ (hall y hy')

theorem listed_step {w : World} {e : Event} (hlist : w.broadcaster.Listed) (hfresh : FreshId w e) :
    (w.step e).broadcaster.Listed := by
  unfold step
  split
  · exact hlist
  · rcases keeps_act w e with ⟨c, rfl⟩ | ⟨data, rfl⟩ | rfl | ⟨-, hkeeps⟩
    · simp only [act, changeBroadcaster]
      split
      · exact hlist
      · exact hlist.change hfresh
    · simp only [act, recvfrom]
      split <;> exact hlist
    · simp only [act, forward]
      split
      · exact hlist
      · split <;> exact hlist
    · rw [hkeeps.broadcaster]
      exact hlist

end World

/-- A datagram taken in `w` reaches every connection that is open then and
stays so, when the loop has had a round for each of the connections. -/
def Reaches (w : World) (data : List Byte) (later : List Event) : Prop :=
  ∀ hdl, w.broadcaster.phase hdl = .opened → .broadcaster (.leave hdl) ∉ later →
    w.broadcaster.connectionsFmap.size ≤ later.countP Event.isForward →
      ∃ new, (w.exec (.recvfrom data :: later)).forwarded = w.forwarded ++ new ∧ (hdl, data) ∈ new

/-- No exception escapes in the run, and its broadcasts reach their
connections. -/
structure Dependable (a : MainApp) (events : List Event) : Prop where
  survives : (World.exec events (.start a)).terminated = false
  reaches : ∀ pre data later, events = pre ++ .recvfrom data :: later →
    (World.exec pre (.start a)).pending = [] → Reaches (.exec pre (.start a)) data later

theorem survives_iff (a : MainApp) (events : List Event) :
    (World.exec events (.start a)).terminated = false ↔
      Along World.step Sendable (.start a) events := by
  have h := ok_foldl_iff_along (fun w : World ↦ w.terminated = false) World.terminated_step
    (.start a) events
  exact h.trans (and_iff_right rfl)

theorem reaches_of_listed {w : World} {data : List Byte} {later : List Event}
    (hlist : w.broadcaster.Listed) (hw : w.terminated = false) (hidle : w.pending = [])
    (hsend : Along World.step Sendable w (.recvfrom data :: later)) : Reaches w data later := by
  intro hdl hopen _ hrounds
  obtain ⟨id, hid⟩ := hlist hdl (by simp [hopen])
  have htaken : w.step (.recvfrom data) =
      { w with rcvRawBuffer := data, pending := w.broadcaster.connectionsFmap.toList } := by
    simp [World.step, hw, World.act, World.recvfrom, hidle]
  obtain ⟨new, hnew, hall⟩ := World.exec_forwards later (w.step (.recvfrom data))
    (by rw [htaken]; exact hw) hsend.2
  rw [htaken] at hall hnew
  refine ⟨new, ?_, hall (id, hdl) ?_⟩
  · rw [← hnew, ← htaken]
    rfl
  · rw [List.take_of_length_le (by rw [Std.TreeMap.length_toList]; exact hrounds)]
    exact Std.TreeMap.mem_toList_iff_getElem?_eq_some.mpr hid

/-- In any order of steps, an exception escapes exactly when a step sends to a
connection between the loss of "open" and `on_close`.  When it does not, and no
number is given twice at a time, every broadcast reaches all connections. -/
theorem dependable_iff_sendable (a : MainApp) (events : List Event) :
    ((World.exec events (.start a)).terminated = false ↔
        Along World.step Sendable (.start a) events) ∧
      (Along World.step FreshId (.start a) events →
        (Dependable a events ↔ Along World.step Sendable (.start a) events)) := by
  refine ⟨survives_iff a events, fun hfresh ↦ ⟨fun h ↦ (survives_iff a events).mp h.survives,
    fun hsend ↦ ⟨(survives_iff a events).mpr hsend, ?_⟩⟩⟩
  rintro pre data later rfl hidle
  rw [along_append] at hfresh hsend
  have hlist : (World.exec pre (.start a)).broadcaster.Listed :=
    hfresh.1.invariant (I := fun w ↦ w.broadcaster.Listed) (fun w e ↦ World.listed_step)
      Endpoint.listed_start
  exact reaches_of_listed hlist ((survives_iff a pre).mpr hsend.1) hidle hsend.2

def bothViewers : List Event :=
  [.broadcaster (.onOpen 1), .broadcaster (.onOpen 2), .recvfrom [42], .forward, .forward]

theorem dependable_iff_sendable_bothViewers : Dependable (initial {} 0 0) bothViewers := by
  have hfresh : Along World.step FreshId (.start (initial {} 0 0)) bothViewers := by
    refine ⟨?_, ?_, trivial, trivial, trivial, trivial⟩
    · change Std.TreeMap.get? _ _ = none
      decide +kernel
    · change Std.TreeMap.get? _ _ = none
      decide +kernel
  refine ((dependable_iff_sendable _ bothViewers).2 hfresh).mpr ?_
  refine ⟨trivial, trivial, trivial, ?_, ?_, trivial⟩
  · change Endpoint.phase _ 1 = .opened
    decide +kernel
  · change Endpoint.phase _ 2 = .opened
    decide +kernel

def hastyClient : List Event :=
  [.server (.onOpen 1), .onMessage 1 (ascii "stats"), .server (.leave 1), .runWs ⟨0, 0, 0⟩]

def leavingViewer : List Event :=
  [.broadcaster (.onOpen 1), .broadcaster (.onOpen 2), .broadcaster (.leave 1), .recvfrom [42],
    .forward, .forward]

/-- Both runs end the process, and the other viewer gets nothing. -/
theorem leaving_not_dependable :
    ¬ Dependable (initial {} 0 0) hastyClient ∧ ¬ Dependable (initial {} 0 0) leavingViewer ∧
      (World.exec leavingViewer (.start (initial {} 0 0))).broadcaster.phase 2 = .opened ∧
        (World.exec leavingViewer (.start (initial {} 0 0))).forwarded = [] := by
  refine ⟨fun h ↦ ?_, fun h ↦ ?_, by decide +kernel, by decide +kernel⟩
  · exact absurd h.survives (by decide +kernel)
  · exact absurd h.survives (by decide +kernel)

end Rover.Ws
