import Rover.Lib.Runs
import Rover.System.Outputs

/-!
# Coming to rest

As long as nothing new comes from outside, every order in which the threads of
the server take their steps ends with all messages handled and all calls made.
Locks, full sockets and replies that throw are not modelled.
-/

namespace Rover.System

open App Arduino Runs

/-- What a thread of the server can do next.  The other events come from
outside. -/
def State.Ready (s : State) : Event → Prop
  | .ws _ _ => s.pending .ws = [] ∧ s.toServer ≠ []
  | .main _ => s.pending .main = [] ∧ s.queue ≠ []
  | .call t _ => s.pending t ≠ []
  | _ => False

/-- The calls that are still to come, when each queue message stands for at
most five of them. -/
def State.work (s : State) : ℕ :=
  7 * s.toServer.length + 6 * s.queue.length +
    ((s.pending .main).length + (s.pending .ws).length + (s.pending .udp).length)

structure State.Settled (s : State) : Prop where
  toServer : s.toServer = []
  queue : s.queue = []
  pending : ∀ t, s.pending t = []

theorem length_handle_le (m : QueueMsg) (r : Readings) (a : MainApp) :
    (handle m r a).2.length ≤ 5 := by
  have hwdt : (handleTimerWdt a).2.length ≤ 4 := by
    rw [handleTimerWdt]
    dsimp only
    split_ifs
    · exact le_refl _
    · exact Nat.zero_le _
  cases m with
  | tty => exact Nat.zero_le _
  | timer time =>
      rw [handle]
      rcases handleTimer_requests r a with h | h
      · rw [h]
        omega
      · rw [h, List.length_append, List.length_singleton]
        omega
  | js data =>
      have hside {fwd : Bool} {pwm : BitVec 32} :
          (leftCommands fwd pwm).length = 2 ∧ (rightCommands fwd pwm).length = 2 := by
        cases fwd <;> exact ⟨rfl, rfl⟩
      rw [handle, handleJs, handleJsWith]
      dsimp only
      rw [List.length_append, hside.1, hside.2]
      omega

/-- A message of the page leads to a call or to a queue message. -/
theorem length_handleWs_le (locals : WsLocals) (connId : BitVec 32) (str : List Byte)
    (a : MainApp) :
    6 * (handleWs locals connId str a).1.queued.length +
      (handleWs locals connId str a).1.requests.length ≤ 6 := by
  unfold handleWs
  dsimp only
  split_ifs
  · exact Nat.zero_le _
  · exact le_refl _
  · exact (by decide : 6 * 0 + 1 ≤ 6)
  · exact Nat.zero_le _

theorem work_step {s : State} {e : Event} (h : s.Ready e) : (s.step e).work < s.work := by
  cases e with
  | page e => exact h.elim
  | disconnect => exact h.elim
  | udp data pwm => exact h.elim
  | timer time => exact h.elim
  | ws locals connId =>
      obtain ⟨hidle, hne⟩ := h
      obtain ⟨m, rest, hserver⟩ := List.exists_cons_of_ne_nil hne
      have hle := length_handleWs_le locals connId (text m) s.app
      simp only [State.step, hidle, hserver, State.accept, State.work, Function.update_self,
        List.length_append, List.length_map, List.length_cons, List.length_nil]
      rw [Function.update_of_ne (by decide), Function.update_of_ne (by decide)]
      omega
  | main r =>
      obtain ⟨hidle, hne⟩ := h
      obtain ⟨⟨source, m⟩, rest, hqueue⟩ := List.exists_cons_of_ne_nil hne
      have hle := length_handle_le m r s.app
      simp only [State.step, hidle, hqueue, State.work, Function.update_self, List.length_cons,
        List.length_nil]
      rw [Function.update_of_ne (by decide), Function.update_of_ne (by decide)]
      omega
  | call t took =>
      obtain ⟨q, rest, hpending⟩ := List.exists_cons_of_ne_nil h
      have hlen := congrArg List.length hpending
      rw [List.length_cons] at hlen
      simp only [State.step, hpending, State.work]
      cases t with
      | main =>
          rw [Function.update_self, Function.update_of_ne (by decide),
            Function.update_of_ne (by decide)]
          omega
      | ws =>
          rw [Function.update_self, Function.update_of_ne (by decide),
            Function.update_of_ne (by decide)]
          omega
      | udp =>
          rw [Function.update_self, Function.update_of_ne (by decide),
            Function.update_of_ne (by decide)]
          omega

/-- A state with nothing to do is settled. -/
theorem settled_of_halted {s : State} (h : Halted State.Ready s) : s.Settled := by
  have hpending (t : Thread) : s.pending t = [] := not_not.mp (h (.call t true))
  refine ⟨?_, ?_, hpending⟩
  · by_contra hne
    exact h (.ws ⟨0, 0, 0⟩ 0) ⟨hpending .ws, hne⟩
  · by_contra hne
    exact h (.main {}) ⟨hpending .main, hne⟩

/-- A thread serves messages, but loses none. -/
theorem served_step {s : State} {e : Event} (h : s.Ready e) :
    (s.step e).served ++ (s.step e).toServer = s.served ++ s.toServer := by
  cases e with
  | page e => exact h.elim
  | disconnect => exact h.elim
  | udp data pwm => exact h.elim
  | timer time => exact h.elim
  | ws locals connId =>
      obtain ⟨hidle, hne⟩ := h
      obtain ⟨m, rest, hserver⟩ := List.exists_cons_of_ne_nil hne
      simp [State.step, hidle, hserver, State.accept]
  | main r =>
      simp only [State.step]
      split <;> rfl
  | call t took =>
      simp only [State.step]
      split <;> rfl

/-- From every moment of every run on, the threads come to rest after boundedly
many steps in any order, unless something happens outside.  Then all that the
page had sent over the connection is served, all queue messages are handled and
all calls made. -/
theorem settles (c : Config) (vbat vbatSlope : ℚ) (regs : Slave.Regs) (events : List Event) :
    (∀ more, Along State.step State.Ready (after c vbat vbatSlope regs events) more →
        more.length ≤ (after c vbat vbatSlope regs events).work ∧
          (Halted State.Ready (after c vbat vbatSlope regs (events ++ more)) →
            (after c vbat vbatSlope regs (events ++ more)).Settled ∧
              (after c vbat vbatSlope regs (events ++ more)).served =
                (after c vbat vbatSlope regs events).served ++
                  (after c vbat vbatSlope regs events).toServer)) ∧
      ∃ more, Along State.step State.Ready (after c vbat vbatSlope regs events) more ∧
        Halted State.Ready (after c vbat vbatSlope regs (events ++ more)) := by
  have happend (more : List Event) : after c vbat vbatSlope regs (events ++ more) =
      more.foldl State.step (after c vbat vbatSlope regs events) := List.foldl_append
  refine ⟨fun more hruns ↦ ⟨?_, fun hrest ↦ ?_⟩, ?_⟩
  · exact (Nat.le_add_right _ _).trans (hruns.length_add_work_le fun s e ↦ work_step)
  · have hsettled := settled_of_halted hrest
    have hserved := hruns.invariant
      (I := fun s ↦ s.served ++ s.toServer = (after c vbat vbatSlope regs events).served ++
        (after c vbat vbatSlope regs events).toServer)
      (fun s e hs hready ↦ (served_step hready).trans hs) rfl
    rw [← happend, hsettled.toServer, List.append_nil] at hserved
    exact ⟨hsettled, hserved⟩
  · obtain ⟨more, hruns, hrest⟩ := exists_along_halted (fun s e ↦ work_step)
      (after c vbat vbatSlope regs events)
    exact ⟨more, hruns, happend more ▸ hrest⟩

end Rover.System
