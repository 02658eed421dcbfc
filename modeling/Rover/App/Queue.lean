import Mathlib.Logic.Function.Basic
import Rover.App.Handlers
import Rover.Lib.Runs

/-!
# The main queue

The front ends allocate a `js_data_t` for every joystick message and send its
address through a datagram socket; `main_app::run` receives into a buffer that
it never clears, handles what the buffer holds and deletes the object.  It does
not look at the result of `recv`.
-/

namespace Rover.App

open Arduino

/-- A `queue_msg_t` as it lies in memory; `value` is the union. -/
structure RawMsg where
  type : BitVec 32
  value : BitVec 64
  deriving DecidableEq, Repr

def typeJs : BitVec 32 := 0
def typeTty : BitVec 32 := 1
def typeTimer : BitVec 32 := 2

/-- A datagram in the socket, with what it was sent for: the message, and the
number of the object that was allocated for it. -/
structure Sent where
  raw : RawMsg
  msg : QueueMsg
  object : Option ℕ := none

/-- The queue and its two ends.  Objects are numbered in the order of their
allocation.  `broken` is set when an object is used that does not exist; what
follows is undefined, and nothing happens any more. -/
structure Loop where
  app : MainApp
  buff : RawMsg
  heap : BitVec 64 → Option (ℕ × JsData) := fun _ ↦ none
  queue : List Sent := []
  allocated : ℕ := 0
  deleted : List ℕ := []
  received : List QueueMsg := []
  handled : List (QueueMsg × Readings) := []
  requests : List Request := []
  broken : Bool := false

/-- What happens: a front end sends a joystick message whose object lies at
`address`, the timer thread sends, `recv` returns a datagram, or it fails.  The
readings are those of a handler that runs then. -/
inductive QueueEvent
  | js (data : JsData) (address : BitVec 64)
  | timer (time : BitVec 64)
  | recv (r : Readings)
  | error (r : Readings)

namespace Loop

def handleMsg (m : QueueMsg) (r : Readings) (s : Loop) : Loop :=
  { s with
    app := (handle m r s.app).1
    requests := s.requests ++ (handle m r s.app).2
    handled := s.handled ++ [(m, r)] }

/-- The body of the loop after `recv`. -/
def dispatch (r : Readings) (s : Loop) : Loop :=
  if s.buff.type = typeJs then
    match s.heap s.buff.value with
    | some (n, data) =>
        { s.handleMsg (.js data) r with
          heap := Function.update s.heap s.buff.value none
          deleted := s.deleted ++ [n] }
    | none => { s with broken := true }
  else if s.buff.type = typeTimer then s.handleMsg (.timer s.buff.value) r
  else s

/-- `new` does not return an address that is in use, and `recv` waits while
there is no datagram: such events do not occur. -/
def act (s : Loop) : QueueEvent → Loop
  | .js data address =>
      if (s.heap address).isSome then s
      else
        { s with
          heap := Function.update s.heap address (some (s.allocated, data))
          queue := s.queue ++ [⟨⟨typeJs, address⟩, .js data, some s.allocated⟩]
          allocated := s.allocated + 1 }
  | .timer time => { s with queue := s.queue ++ [⟨⟨typeTimer, time⟩, .timer time, none⟩] }
  | .recv r =>
      match s.queue with
      | [] => s
      | x :: rest =>
          dispatch r { s with buff := x.raw, queue := rest, received := s.received ++ [x.msg] }
  | .error r => s.dispatch r

def step (s : Loop) (e : QueueEvent) : Loop := if s.broken then s else s.act e

/-- `buff` is what the buffer holds before the first message. -/
def after (a : MainApp) (buff : RawMsg) (events : List QueueEvent) : Loop :=
  events.foldl step { app := a, buff := buff }

/-- The objects whose messages have not been received. -/
def inFlight (s : Loop) : List ℕ := s.queue.filterMap Sent.object

/-- Every received message has been handled, once and in order, and every
object has either been deleted, once, or is on its way. -/
structure ExactlyOnce (a : MainApp) (s : Loop) : Prop where
  not_broken : s.broken = false
  handled_eq : s.handled.map Prod.fst = s.received
  ran : (s.app, s.requests) = run s.handled a
  objects : s.deleted ++ s.inFlight = List.range s.allocated

/-- The heap holds the object of a datagram. -/
inductive Delivers (heap : BitVec 64 → Option (ℕ × JsData)) : Sent → Prop
  | js {address : BitVec 64} {n : ℕ} {data : JsData} (h : heap address = some (n, data)) :
      Delivers heap ⟨⟨typeJs, address⟩, .js data, some n⟩
  | timer (time : BitVec 64) : Delivers heap ⟨⟨typeTimer, time⟩, .timer time, none⟩

structure Inv (a : MainApp) (s : Loop) : Prop extends ExactlyOnce a s where
  delivers : ∀ x ∈ s.queue, Delivers s.heap x

theorem inv_start (a : MainApp) (buff : RawMsg) : Inv a { app := a, buff := buff } where
  not_broken := rfl
  handled_eq := rfl
  ran := rfl
  objects := rfl
  delivers := fun _ hx ↦ absurd hx List.not_mem_nil

/-! ## Objects do not move -/

section

variable {heap : BitVec 64 → Option (ℕ × JsData)} {x : Sent} {p : BitVec 64}

theorem Delivers.allocate (h : Delivers heap x) (hp : heap p = none) (v : Option (ℕ × JsData)) :
    Delivers (Function.update heap p v) x := by
  cases h with
  | js h =>
      apply Delivers.js
      rw [Function.update_of_ne, h]
      rintro rfl
      exact absurd (h.symm.trans hp) (Option.some_ne_none _)
  | timer time => exact Delivers.timer time

theorem Delivers.delete (h : Delivers heap x) {n : ℕ} {data : JsData} (hp : heap p = some (n, data))
    (hx : x.object ≠ some n) : Delivers (Function.update heap p none) x := by
  cases h with
  | js h =>
      apply Delivers.js
      rw [Function.update_of_ne, h]
      rintro rfl
      rw [h, Option.some_inj, Prod.mk.injEq] at hp
      exact hx (congrArg some hp.1)
  | timer time => exact Delivers.timer time

end

/-! ## One event -/

section

variable {a : MainApp} {s : Loop}

theorem step_eq_act (h : s.broken = false) (e : QueueEvent) : s.step e = s.act e := by
  rw [step, h]
  rfl

theorem run_handled (h : (s.app, s.requests) = run s.handled a) (m : QueueMsg) (r : Readings) :
    ((handle m r s.app).1, s.requests ++ (handle m r s.app).2) =
      run (s.handled ++ [(m, r)]) a := by
  obtain ⟨happ, hreq⟩ := Prod.mk.inj h
  rw [run_append, run_cons, run_nil, List.append_nil, ← happ, ← hreq]

theorem map_handled (h : s.handled.map Prod.fst = s.received) (m : QueueMsg) (r : Readings) :
    (s.handled ++ [(m, r)]).map Prod.fst = s.received ++ [m] := by
  rw [List.map_append, h]
  rfl

theorem Inv.js (h : Inv a s) (data : JsData) (address : BitVec 64) :
    Inv a (s.act (.js data address)) := by
  simp only [act]
  split_ifs with hfree
  · exact h
  · have hnone : s.heap address = none := Option.not_isSome_iff_eq_none.mp hfree
    refine ⟨⟨h.not_broken, h.handled_eq, h.ran, ?_⟩, ?_⟩
    · have hobjects := h.objects
      simp only [inFlight, List.filterMap_append, ← List.append_assoc,
        List.range_succ] at hobjects ⊢
      rw [hobjects]
      rfl
    · intro x hx
      rcases List.mem_append.mp hx with hx | hx
      · exact (h.delivers x hx).allocate hnone _
      · rw [List.mem_singleton.mp hx]
        exact Delivers.js (Function.update_self _ _ _)

theorem Inv.timer (h : Inv a s) (time : BitVec 64) : Inv a (s.act (.timer time)) := by
  simp only [act]
  refine ⟨⟨h.not_broken, h.handled_eq, h.ran, ?_⟩, ?_⟩
  · have hobjects := h.objects
    simp only [inFlight, List.filterMap_append] at hobjects ⊢
    simpa using hobjects
  · intro x hx
    rcases List.mem_append.mp hx with hx | hx
    · exact h.delivers x hx
    · rw [List.mem_singleton.mp hx]
      exact Delivers.timer time

theorem dispatch_js {r : Readings} {n : ℕ} {data : JsData} (htype : s.buff.type = typeJs)
    (h : s.heap s.buff.value = some (n, data)) :
    s.dispatch r =
      { s.handleMsg (.js data) r with
        heap := Function.update s.heap s.buff.value none
        deleted := s.deleted ++ [n] } := by
  rw [dispatch, if_pos htype, h]

theorem dispatch_js_none {r : Readings} (htype : s.buff.type = typeJs)
    (h : s.heap s.buff.value = none) : s.dispatch r = { s with broken := true } := by
  rw [dispatch, if_pos htype, h]

theorem dispatch_timer {r : Readings} (htype : s.buff.type = typeTimer) :
    s.dispatch r = s.handleMsg (.timer s.buff.value) r := by
  rw [dispatch, if_neg (by rw [htype]; decide), if_pos htype]

theorem dispatch_other {r : Readings} (hjs : s.buff.type ≠ typeJs)
    (htimer : s.buff.type ≠ typeTimer) : s.dispatch r = s := by
  rw [dispatch, if_neg hjs, if_neg htimer]

theorem Inv.recv (h : Inv a s) (r : Readings) : Inv a (s.act (.recv r)) := by
  simp only [act]
  have hobjects := h.objects
  have hdelivers := h.delivers
  rw [inFlight] at hobjects
  cases hq : s.queue with
  | nil => exact h
  | cons x rest =>
      rw [hq] at hobjects hdelivers
      have hx := hdelivers x List.mem_cons_self
      have hrest (y : Sent) (hy : y ∈ rest) := hdelivers y (List.mem_cons_of_mem x hy)
      cases hx with
      | @js address n data hobj =>
          -- the object is the next one to be deleted, and no other message has it
          have hnodup : (s.deleted ++ n :: rest.filterMap Sent.object).Nodup := by
            have hrange := List.nodup_range (n := s.allocated)
            rwa [← hobjects] at hrange
          have hfresh : n ∉ rest.filterMap Sent.object :=
            (List.nodup_cons.mp (List.nodup_append.mp hnodup).2.1).1
          dsimp only
          rw [dispatch_js rfl hobj]
          refine ⟨⟨h.not_broken, map_handled h.handled_eq _ r, run_handled h.ran _ r, ?_⟩, ?_⟩
          · simp only [handleMsg, inFlight]
            rw [List.append_assoc]
            exact hobjects
          · intro y hy
            refine (hrest y hy).delete hobj fun hsame ↦ hfresh ?_
            exact List.mem_filterMap.mpr ⟨y, hy, hsame⟩
      | timer time =>
          have hrun := run_handled h.ran (.timer time) r
          dsimp only
          rw [dispatch_timer]
          · simp only [handleMsg]
            refine ⟨⟨h.not_broken, map_handled h.handled_eq _ r, ?_, hobjects⟩, hrest⟩
            dsimp only
            exact hrun
          · rfl

/-- What an error must not find in the buffer. -/
def Stale (s : Loop) : Prop := s.buff.type = typeJs ∨ s.buff.type = typeTimer

instance (s : Loop) : Decidable s.Stale := inferInstanceAs (Decidable (_ ∨ _))

theorem Inv.error (h : Inv a s) (hs : ¬ s.Stale) (r : Readings) : Inv a (s.act (.error r)) := by
  obtain ⟨hjs, htimer⟩ := not_or.mp hs
  simp only [act]
  rwa [dispatch_other hjs htimer]

theorem Inv.handled_ne (h : Inv a s) (m : QueueMsg) (r : Readings) :
    (s.handled ++ [(m, r)]).map Prod.fst ≠ s.received := by
  intro heq
  rw [← h.handled_eq] at heq
  simpa using congrArg List.length heq

/-- A stale buffer is handled once more, or its object is gone. -/
theorem Inv.not_stale (h : Inv a s) {r : Readings} (he : ExactlyOnce a (s.act (.error r))) :
    ¬ s.Stale := by
  simp only [act] at he
  rintro (hjs | htimer)
  · cases hobj : s.heap s.buff.value with
    | some o =>
        obtain ⟨n, data⟩ := o
        rw [dispatch_js hjs hobj] at he
        exact h.handled_ne _ r he.handled_eq
    | none =>
        rw [dispatch_js_none hjs hobj] at he
        exact Bool.false_ne_true he.not_broken.symm
  · rw [dispatch_timer htimer, handleMsg] at he
    exact h.handled_ne _ r he.handled_eq

end

/-! ## Whole runs -/

/-- Every message is handled exactly once in every state of a run if and only
if no error finds a message in the buffer. -/
theorem exactlyOnce_iff (a : MainApp) (buff : RawMsg) (events : List QueueEvent) :
    (∀ pre, pre <+: events → ExactlyOnce a (after a buff pre)) ↔
      ∀ pre r post, events = pre ++ .error r :: post →
        (after a buff pre).buff.type ≠ typeJs ∧ (after a buff pre).buff.type ≠ typeTimer := by
  have hconcat (pre : List QueueEvent) (e : QueueEvent) :
      after a buff (pre ++ [e]) = (after a buff pre).step e := List.foldl_concat ..
  rw [Runs.forall_prefix_iff (I := fun pre ↦ Inv a (after a buff pre))
    (Q := fun pre e ↦ ∀ r, e = .error r → ¬ (after a buff pre).Stale)
    (fun _ h ↦ h.toExactlyOnce) (inv_start a buff)]
  · constructor
    · intro hall pre r post hsplit
      exact not_or.mp (hall pre _ post hsplit r rfl)
    · rintro hall pre e post hsplit r rfl
      exact not_or.mpr (hall pre r post hsplit)
  · intro pre e hinv hok
    rw [hconcat, step_eq_act hinv.not_broken]
    cases e with
    | js data address => exact hinv.js data address
    | timer time => exact hinv.timer time
    | recv r => exact hinv.recv r
    | error r => exact hinv.error (hok r rfl) r
  · rintro pre e hinv hexact r rfl
    rw [hconcat, step_eq_act hinv.not_broken] at hexact
    exact hinv.not_stale hexact

/-- One message, and then an error: its object is used again after it has been
deleted. -/
theorem error_after_message :
    ¬ ExactlyOnce (initial {} 0 0)
      (after (initial {} 0 0) ⟨typeTty, 0⟩ [.js { leftY := 100 } 4096, .recv {}, .error {}]) := by
  intro h
  exact absurd h.not_broken (by decide +kernel)

end Loop
end Rover.App
