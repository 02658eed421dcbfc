import Mathlib.Data.List.Flatten
import Rover.System.Threads

/-!
# The way of a message

A message of the page is on the connection and then served.  A joystick message
goes on into the queue and is handled there; a message for the light becomes a
call.  Messages of one kind do not overtake each other.
-/

namespace Rover.System

open App Arduino Interleaving

/-- What the server puts into the queue for a message of the page. -/
def queuedBy : Html.Message → List QueueMsg
  | .js left right =>
      [.js { leftY := BitVec.ofInt 32 left.num * 5, rightY := BitVec.ofInt 32 right.num * 5 }]
  | _ => []

/-- The calls that the server makes for it. -/
def calledBy : Html.Message → List Request
  | .led pwm => [duty 1 1 (BitVec.ofNat 32 pwm.num.toNat * 255 / 100)]
  | _ => []

theorem handleWs_text {m : Html.Message} (h : m.InRange) (locals : WsLocals) (connId : BitVec 32)
    (a : MainApp) :
    (handleWs locals connId (text m) a).1.queued = queuedBy m ∧
      (handleWs locals connId (text m) a).1.requests = calledBy m := by
  cases m with
  | stats => exact ⟨rfl, rfl⟩
  | led pwm =>
      rw [text, handleWs_ledText]
      exact ⟨rfl, rfl⟩
  | js left right =>
      obtain ⟨⟨l, rfl, hl⟩, r, rfl, hr⟩ := h
      rw [text, handleWs_jsText]
      · exact ⟨rfl, rfl⟩
      · rw [Rat.num_intCast]
        omega
      · rw [Rat.num_intCast]
        omega

theorem sent_step (p : Html.Page) (e : Html.Event) : p.sent <+: (p.step e).sent := by
  cases e with
  | stick x y => exact List.prefix_rfl
  | statsTick => exact List.prefix_append _ _
  | click b => cases b <;> first | exact List.prefix_rfl | exact List.prefix_append _ _
  | jsTick =>
      rw [Html.Page.step, Html.Page.jsTick]
      split_ifs <;> first | exact List.prefix_rfl | exact List.prefix_append _ _

/-- What is known of the messages in every state. -/
structure Flow (s : State) : Prop where
  page : s.page.InRange
  toServer : ∀ m ∈ s.toServer, m.InRange
  sent : (s.served ++ s.toServer).Sublist s.page.sent
  queued : (project .ws s.handled).map Prod.fst ++ project .ws s.queue = s.served.flatMap queuedBy
  called : (project .ws s.calls).map Prod.fst ++ s.pending .ws = s.served.flatMap calledBy

/-- The messages that a front end puts into the queue come from it alone. -/
theorem project_source (source : Source) (queued : List QueueMsg) :
    project .ws (queued.map fun m ↦ (source, m)) = if source = .ws then queued else [] := by
  induction queued with
  | nil => split_ifs <;> rfl
  | cons m queued ih =>
      rw [List.map_cons]
      by_cases hsource : source = .ws
      · subst hsource
        rw [project_cons_self, ih, if_pos rfl, if_pos rfl]
      · rw [project_cons_of_ne _ _ hsource, ih, if_neg hsource, if_neg hsource]

namespace Flow

variable {s : State}

theorem queued_other (h : Flow s) {source : Source} (hsource : source ≠ .ws)
    (queued : List QueueMsg) :
    (project .ws s.handled).map Prod.fst ++
      project .ws (s.queue ++ queued.map fun m ↦ (source, m)) = s.served.flatMap queuedBy := by
  rw [project_append, project_source, if_neg hsource, List.append_nil]
  exact h.queued

theorem page_step (h : Flow s) (e : Html.Event) : Flow (s.step (.page e)) := by
  have hpage := h.page.step e
  obtain ⟨new, hnew⟩ := sent_step s.page e
  have hdrop : (s.page.step e).sent.drop s.page.sent.length = new := by
    rw [← hnew, List.drop_left]
  refine ⟨hpage, fun m hm ↦ ?_, ?_, h.queued, h.called⟩
  · rcases List.mem_append.mp hm with hm | hm
    · exact h.toServer m hm
    · exact hpage.sent m (List.mem_of_mem_drop hm)
  · simp only [State.step]
    rw [hdrop, ← hnew, ← List.append_assoc]
    exact h.sent.append (List.Sublist.refl new)

theorem serve (h : Flow s) {m : Html.Message} {rest : List Html.Message}
    (hserver : s.toServer = m :: rest) (hidle : s.pending .ws = []) (locals : WsLocals)
    (connId : BitVec 32) :
    Flow ({ s with toServer := rest, served := s.served ++ [m] }.accept .ws .ws
      (handleWs locals connId (text m) s.app).1) := by
  have hrange := h.toServer
  rw [hserver] at hrange
  obtain ⟨hqueued, hcalled⟩ := handleWs_text (hrange m List.mem_cons_self) locals connId s.app
  have hbefore := h.called
  rw [hidle, List.append_nil] at hbefore
  constructor
  · exact h.page
  · exact fun m' hm' ↦ hrange m' (List.mem_cons_of_mem m hm')
  · have hsent := h.sent
    rw [hserver] at hsent
    simpa only [State.accept, List.append_assoc, List.singleton_append] using hsent
  · simp only [State.accept, project_append, project_source, if_true, hqueued,
      List.flatMap_append, List.flatMap_singleton, ← h.queued, List.append_assoc]
  · simp only [State.accept, Function.update_self, hcalled, hbefore, List.flatMap_append,
      List.flatMap_singleton]

theorem main (h : Flow s) {source : Source} {m : QueueMsg} {rest : List (Source × QueueMsg)}
    (hqueue : s.queue = (source, m) :: rest) (r : Readings) (app : MainApp) (qs : List Request) :
    Flow
      { s with
        app := app
        queue := rest
        pending := Function.update s.pending .main qs
        handled := s.handled ++ [(source, m, r)] } := by
  refine ⟨h.page, h.toServer, h.sent, ?_, ?_⟩
  · have hqueued := h.queued
    rw [hqueue] at hqueued
    simp only [project_append, List.map_append]
    by_cases hsource : source = .ws
    · subst hsource
      rw [project_cons_self] at hqueued
      rw [project_cons_self, project_nil, ← hqueued]
      simp
    · rw [project_cons_of_ne _ _ hsource] at hqueued
      rw [project_cons_of_ne _ _ hsource, project_nil, ← hqueued]
      simp
  · exact h.called

theorem call (h : Flow s) {t : Thread} {q : Request} {rest : List Request}
    (hpending : s.pending t = q :: rest) (took : Bool) (pwm : Slave.PwmUnit) :
    Flow
      { s with
        pending := Function.update s.pending t rest
        pwm := pwm
        calls := s.calls ++ [(t, q, took)] } := by
  refine ⟨h.page, h.toServer, h.sent, h.queued, ?_⟩
  have hcalled := h.called
  simp only [project_append, List.map_append]
  by_cases ht : t = .ws
  · subst ht
    rw [hpending] at hcalled
    rw [project_cons_self, project_nil, Function.update_self, ← hcalled]
    simp
  · rw [project_cons_of_ne _ _ ht, project_nil, Function.update_of_ne (Ne.symm ht), ← hcalled]
    simp

theorem step (h : Flow s) (e : Event) : Flow (s.step e) := by
  cases e with
  | page e => exact h.page_step e
  | disconnect =>
      refine ⟨h.page, fun _ hm ↦ absurd hm List.not_mem_nil, ?_, h.queued, h.called⟩
      exact (List.Sublist.append_left (List.nil_sublist _) _).trans h.sent
  | timer time =>
      exact ⟨h.page, h.toServer, h.sent, h.queued_other (by decide) [.timer time], h.called⟩
  | ws locals connId =>
      simp only [State.step]
      split
      · next m rest hidle hserver => exact h.serve hserver hidle locals connId
      · exact h
  | udp data pwm =>
      simp only [State.step]
      split
      · exact ⟨h.page, h.toServer, h.sent, h.queued_other (by decide) _, h.called⟩
      · exact h
  | main r =>
      simp only [State.step]
      split
      · next source m rest _ hqueue => exact h.main hqueue r _ _
      · exact h
  | call t took =>
      simp only [State.step]
      split
      · exact h
      · next q rest hpending => exact h.call hpending took _

end Flow

section

variable (c : Config) (vbat vbatSlope : ℚ) (regs : Slave.Regs)

theorem flow_start : Flow (start c vbat vbatSlope regs) where
  page := Html.inRange_after []
  toServer _ hm := absurd hm List.not_mem_nil
  sent := List.Sublist.refl []
  queued := rfl
  called := rfl

theorem flow_after (events : List Event) : Flow (after c vbat vbatSlope regs events) := by
  refine List.foldlRecOn events State.step (flow_start c vbat vbatSlope regs) fun s hs e _ ↦ ?_
  exact hs.step e

/-- While the connection holds, nothing is lost on it. -/
theorem served_append_toServer {events : List Event} (h : .disconnect ∉ events) :
    (after c vbat vbatSlope regs events).served ++ (after c vbat vbatSlope regs events).toServer =
      (after c vbat vbatSlope regs events).page.sent := by
  induction events using List.reverseRecOn with
  | nil => rfl
  | append_singleton events e ih =>
      have hbefore := ih fun hmem ↦ h (List.mem_append_left _ hmem)
      rw [after_concat]
      cases e with
      | disconnect => exact absurd (by simp) h
      | page e =>
          obtain ⟨new, hnew⟩ := sent_step (after c vbat vbatSlope regs events).page e
          simp only [State.step, ← List.append_assoc, hbefore, ← hnew, List.drop_left]
      | timer time => exact hbefore
      | ws locals connId =>
          simp only [State.step]
          split
          · next m rest _ hserver =>
              rw [hserver] at hbefore
              simpa only [State.accept, List.append_assoc, List.singleton_append] using hbefore
          · exact hbefore
      | udp data pwm =>
          simp only [State.step]
          split <;> exact hbefore
      | main r =>
          simp only [State.step]
          split <;> exact hbefore
      | call t took =>
          simp only [State.step]
          split <;> exact hbefore

/-- No datagram has switched the light. -/
def State.LightOfPage (s : State) : Prop := project .udp s.calls = [] ∧ s.pending .udp = []

/-- However the threads are interleaved, the page's joystick messages are handled
in the order of sending and without repetition, and as long as the connection
holds nothing is missing.  The same holds of its light, unless a datagram
switches it too: both threads store its level and read it again without a lock. -/
theorem messages_in_order (events : List Event) :
    ((project .ws (after c vbat vbatSlope regs events).handled).map Prod.fst ++
        project .ws (after c vbat vbatSlope regs events).queue).Sublist
      ((after c vbat vbatSlope regs events).page.sent.flatMap queuedBy) ∧
    (.disconnect ∉ events →
      (project .ws (after c vbat vbatSlope regs events).handled).map Prod.fst ++
          project .ws (after c vbat vbatSlope regs events).queue ++
          (after c vbat vbatSlope regs events).toServer.flatMap queuedBy =
        (after c vbat vbatSlope regs events).page.sent.flatMap queuedBy) ∧
    ((after c vbat vbatSlope regs events).LightOfPage →
      ((project .ws (after c vbat vbatSlope regs events).calls).map Prod.fst ++
          (after c vbat vbatSlope regs events).pending .ws).Sublist
        ((after c vbat vbatSlope regs events).page.sent.flatMap calledBy) ∧
      (.disconnect ∉ events →
        (project .ws (after c vbat vbatSlope regs events).calls).map Prod.fst ++
            (after c vbat vbatSlope regs events).pending .ws ++
            (after c vbat vbatSlope regs events).toServer.flatMap calledBy =
          (after c vbat vbatSlope regs events).page.sent.flatMap calledBy)) := by
  have h := flow_after c vbat vbatSlope regs events
  have hserved := (List.sublist_append_left _ _).trans h.sent
  have hall (hconn : .disconnect ∉ events) := served_append_toServer c vbat vbatSlope regs hconn
  rw [h.queued, h.called]
  refine ⟨hserved.flatMap _, fun hconn ↦ ?_, fun _ ↦ ⟨hserved.flatMap _, fun hconn ↦ ?_⟩⟩
  · rw [← List.flatMap_append, hall hconn]
  · rw [← List.flatMap_append, hall hconn]

end

end Rover.System
