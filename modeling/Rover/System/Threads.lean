import Rover.System.Model

/-!
# What the threads do

The main thread makes the calls of the constructor and then those of the
messages it has handled, in this order, whatever the other threads do in
between.  The other threads only switch the light.
-/

namespace Rover.System

open App Arduino Interleaving

def IsLed (q : Request) : Prop := ∃ pwm, q = duty 1 1 pwm

/-- A front end leaves everything but the level of the light alone. -/
structure Keeps (a : MainApp) (o : Outcome) : Prop where
  app : o.app = { a with ledPwm := o.app.ledPwm }
  requests : o.requests = [] ∧ o.app.ledPwm = a.ledPwm ∨
    o.requests = [duty 1 1 (o.app.ledPwm * 255 / 100)]

theorem keeps_self (a : MainApp) (queued : List QueueMsg) : Keeps a { app := a, queued := queued } :=
  ⟨rfl, Or.inl ⟨rfl, rfl⟩⟩

theorem keeps_setLed (a : MainApp) (pwm : BitVec 32) : Keeps a (setLed pwm a) := ⟨rfl, Or.inr rfl⟩

theorem keeps_handleWs (locals : WsLocals) (connId : BitVec 32) (str : List Byte) (a : MainApp) :
    Keeps a (handleWs locals connId str a).1 := by
  unfold handleWs
  dsimp only
  split_ifs
  · exact keeps_self a []
  · exact keeps_self a _
  · exact keeps_setLed a _
  · exact keeps_self a []

theorem keeps_handleUdp (data : List Byte) (pwm : BitVec 32) (a : MainApp) :
    Keeps a (handleUdp data pwm a) := by
  unfold handleUdp handleCmd
  dsimp only
  split_ifs
  · exact keeps_setLed a _
  · exact keeps_self a []
  · exact keeps_self a _

/-! ## The requests of the handlers -/

def IsDrive (q : Request) : Prop :=
  ∃ pwm, q = duty 2 1 pwm ∨ q = duty 0 1 pwm ∨ q = duty 0 0 pwm ∨ q = duty 1 0 pwm

theorem isDrive_leftCommands {fwd : Bool} {pwm : BitVec 32} {q : Request}
    (h : q ∈ leftCommands fwd pwm) : IsDrive q := by
  cases fwd with
  | true =>
      rcases List.mem_pair.mp h with rfl | rfl
      · exact ⟨pwm, Or.inl rfl⟩
      · exact ⟨0, Or.inr (Or.inl rfl)⟩
  | false =>
      rcases List.mem_pair.mp h with rfl | rfl
      · exact ⟨0, Or.inl rfl⟩
      · exact ⟨pwm, Or.inr (Or.inl rfl)⟩

theorem isDrive_rightCommands {fwd : Bool} {pwm : BitVec 32} {q : Request}
    (h : q ∈ rightCommands fwd pwm) : IsDrive q := by
  cases fwd with
  | true =>
      rcases List.mem_pair.mp h with rfl | rfl
      · exact ⟨0, Or.inr (Or.inr (Or.inl rfl))⟩
      · exact ⟨pwm, Or.inr (Or.inr (Or.inr rfl))⟩
  | false =>
      rcases List.mem_pair.mp h with rfl | rfl
      · exact ⟨pwm, Or.inr (Or.inr (Or.inl rfl))⟩
      · exact ⟨0, Or.inr (Or.inr (Or.inr rfl))⟩

/-- The handlers of the queue drive the motors and take samples. -/
theorem isDrive_or_sample_handle {m : QueueMsg} {r : Readings} {a : MainApp} {q : Request}
    (h : q ∈ (handle m r a).2) : IsDrive q ∨ q = .analogRead pinBatt := by
  have hstop (h : q ∈ (handleTimerWdt a).2) : IsDrive q := by
    unfold handleTimerWdt at h
    dsimp only at h
    split_ifs at h
    · exact ⟨0, by simpa [stop] using h⟩
    · exact absurd h List.not_mem_nil
  cases m with
  | tty => exact absurd h List.not_mem_nil
  | timer time =>
      simp only [handle] at h
      rcases handleTimer_requests r a with heq | heq
      · rw [heq] at h
        exact Or.inl (hstop h)
      · rw [heq] at h
        rcases List.mem_append.mp h with h | h
        · exact Or.inl (hstop h)
        · exact Or.inr (List.mem_singleton.mp h)
  | js data =>
      left
      rcases List.mem_append.mp h with h | h
      · exact isDrive_leftCommands h
      · exact isDrive_rightCommands h

theorem isDrive_or_sample_run {msgs : List (QueueMsg × Readings)} {a : MainApp} {q : Request}
    (h : q ∈ (run msgs a).2) : IsDrive q ∨ q = .analogRead pinBatt := by
  induction msgs generalizing a with
  | nil => exact absurd h List.not_mem_nil
  | cons x msgs ih =>
      obtain ⟨m, r⟩ := x
      rw [run_cons] at h
      rcases List.mem_append.mp h with h | h
      · exact isDrive_or_sample_handle h
      · exact ih h

/-! ## The light and the handlers -/

def withLed (a : MainApp) (led : BitVec 32) : MainApp := { a with ledPwm := led }

section

variable (r : Readings) (a : MainApp) (led : BitVec 32)

theorem handleTimerWdt_withLed :
    handleTimerWdt (withLed a led) =
      (withLed (handleTimerWdt a).1 led, (handleTimerWdt a).2) := by
  unfold handleTimerWdt
  dsimp only [withLed]
  split_ifs <;> rfl

theorem handleTimerThr_withLed :
    handleTimerThr (withLed a led) = withLed (handleTimerThr a) led := by
  unfold handleTimerThr handleTimerThrTraced
  dsimp only [withLed]
  split_ifs <;> rfl

theorem handleTimerFan_withLed :
    handleTimerFan r (withLed a led) = withLed (handleTimerFan r a) led := by
  unfold handleTimerFan
  dsimp only [withLed]
  split_ifs <;> rfl

theorem handleTimerBatt_withLed :
    handleTimerBatt r (withLed a led) =
      (withLed (handleTimerBatt r a).1 led, (handleTimerBatt r a).2) := by
  unfold handleTimerBatt
  dsimp only [withLed]
  split_ifs <;> rfl

theorem handleTimerSlaveTrx_withLed :
    handleTimerSlaveTrx r (withLed a led) = withLed (handleTimerSlaveTrx r a) led := by
  unfold handleTimerSlaveTrx
  dsimp only [withLed]
  split_ifs <;> rfl

theorem handleTimerWlan_withLed :
    handleTimerWlan r (withLed a led) = withLed (handleTimerWlan r a) led := by
  unfold handleTimerWlan
  dsimp only [withLed]
  split_ifs
  · cases r.wireless <;> rfl
  · rfl

/-- No handler of the queue reads or writes the level of the light. -/
theorem handle_withLed (m : QueueMsg) :
    handle m r (withLed a led) =
      (withLed (handle m r a).1 led, (handle m r a).2) := by
  cases m with
  | js data => rfl
  | tty => rfl
  | timer time =>
      unfold handle handleTimer
      dsimp only
      rw [handleTimerWdt_withLed, handleTimerThr_withLed, handleTimerFan_withLed,
        handleTimerBatt_withLed, handleTimerSlaveTrx_withLed, handleTimerWlan_withLed]

end

/-! ## The invariant -/

/-- A call that takes effect or does not. -/
def attempt (u : Slave.PwmUnit) (x : Request × Bool) : Slave.PwmUnit :=
  if x.2 then perform u x.1 else u

/-- The messages handled so far. -/
def State.msgs (s : State) : List (QueueMsg × Readings) := s.handled.map Prod.snd

/-- The calls that the main thread has made. -/
def State.mainCalls (s : State) : List (Request × Bool) := project .main s.calls

structure Inv (a₀ : MainApp) (u₀ : Slave.PwmUnit) (s : State) : Prop where
  program : s.mainCalls.map Prod.fst ++ s.pending .main = setupRequests ++ (run s.msgs a₀).2
  app : s.app = withLed (run s.msgs a₀).1 s.app.ledPwm
  pwm : s.pwm = s.calls.foldl (fun u x ↦ attempt u x.2) u₀
  led_pending : ∀ t, t ≠ .main → ∀ q ∈ s.pending t, IsLed q
  led_calls : ∀ t, t ≠ .main → ∀ x ∈ project t s.calls, IsLed x.1

namespace Inv

variable {a₀ : MainApp} {u₀ : Slave.PwmUnit} {s : State}

theorem start (c : Config) (vbat vbatSlope : ℚ) (regs : Slave.Regs) :
    Inv (initial c vbat vbatSlope) (.afterSetup regs) (System.start c vbat vbatSlope regs) where
  program := rfl
  app := rfl
  pwm := rfl
  led_pending t ht q hq := by
    have hnil : (System.start c vbat vbatSlope regs).pending t = [] := if_neg ht
    rw [hnil] at hq
    exact absurd hq List.not_mem_nil
  led_calls t _ x hx := absurd hx List.not_mem_nil

theorem isLed_of_keeps {a : MainApp} {o : Outcome} (h : Keeps a o) : ∀ q ∈ o.requests, IsLed q := by
  intro q hq
  rcases h.requests with ⟨hnil, -⟩ | hled
  · rw [hnil] at hq
    exact absurd hq List.not_mem_nil
  · rw [hled] at hq
    exact ⟨_, List.mem_singleton.mp hq⟩

/-- A thread gets new calls to make. -/
theorem led_update (h : Inv a₀ u₀ s) {t : Thread} {qs : List Request}
    (hqs : t ≠ .main → ∀ q ∈ qs, IsLed q) (u : Thread) (hu : u ≠ .main) :
    ∀ q ∈ Function.update s.pending t qs u, IsLed q := by
  intro q hq
  by_cases htu : u = t
  · subst htu
    rw [Function.update_self] at hq
    exact hqs hu q hq
  · rw [Function.update_of_ne htu] at hq
    exact h.led_pending u hu q hq

theorem accept (h : Inv a₀ u₀ s) {o : Outcome} (ho : Keeps s.app o) (source : Source) {t : Thread}
    (ht : t ≠ .main) : Inv a₀ u₀ (s.accept source t o) where
  program := by
    have hpending : (s.accept source t o).pending .main = s.pending .main :=
      Function.update_of_ne ht.symm _ _
    rw [hpending]
    exact h.program
  app := by
    refine ho.app.trans ?_
    rw [h.app]
    rfl
  pwm := h.pwm
  led_pending := h.led_update fun _ ↦ isLed_of_keeps ho
  led_calls := h.led_calls

theorem main (h : Inv a₀ u₀ s) (hidle : s.pending .main = []) {source : Source} {m : QueueMsg}
    {rest : List (Source × QueueMsg)} (r : Readings) :
    Inv a₀ u₀
      { s with
        app := (handle m r s.app).1
        queue := rest
        pending := Function.update s.pending .main (handle m r s.app).2
        handled := s.handled ++ [(source, m, r)] } := by
  have hhandle : handle m r s.app = (withLed (handle m r (run s.msgs a₀).1).1 s.app.ledPwm,
      (handle m r (run s.msgs a₀).1).2) := by
    rw [← handle_withLed, ← h.app]
  have hrun : run (s.msgs ++ [(m, r)]) a₀ =
      ((handle m r (run s.msgs a₀).1).1,
        (run s.msgs a₀).2 ++ (handle m r (run s.msgs a₀).1).2) := by
    rw [run_append, run_cons, run_nil, List.append_nil]
  have hmsgs : (s.handled ++ [(source, m, r)]).map Prod.snd = s.msgs ++ [(m, r)] := by
    rw [List.map_append]
    rfl
  have hprogram := h.program
  rw [hidle, List.append_nil] at hprogram
  constructor
  · simp only [State.mainCalls, State.msgs, Function.update_self] at hprogram ⊢
    rw [hprogram, hmsgs, hrun, hhandle, List.append_assoc]
    rfl
  · simp only [State.msgs]
    rw [hmsgs, hrun, hhandle]
    rfl
  · exact h.pwm
  · exact h.led_update fun hmain ↦ absurd rfl hmain
  · exact h.led_calls

theorem call (h : Inv a₀ u₀ s) {t : Thread} {q : Request} {rest : List Request}
    (hpending : s.pending t = q :: rest) (took : Bool) :
    Inv a₀ u₀
      { s with
        pending := Function.update s.pending t rest
        pwm := if took then perform s.pwm q else s.pwm
        calls := s.calls ++ [(t, q, took)] } where
  program := by
    have hprogram := h.program
    simp only [State.mainCalls, State.msgs, project_append] at hprogram ⊢
    rw [← hprogram]
    by_cases ht : t = .main
    · subst ht
      rw [Function.update_self, hpending, project_cons_self]
      simp
    · rw [Function.update_of_ne (Ne.symm ht), project_cons_of_ne _ _ ht]
      simp
  app := h.app
  pwm := by
    rw [List.foldl_append, ← h.pwm]
    rfl
  led_pending := by
    refine h.led_update fun ht p hp ↦ h.led_pending t ht p ?_
    rw [hpending]
    exact List.mem_cons_of_mem q hp
  led_calls u hu x hx := by
    rw [project_append] at hx
    rcases List.mem_append.mp hx with hx | hx
    · exact h.led_calls u hu x hx
    · rw [mem_project] at hx
      obtain ⟨rfl, rfl⟩ := Prod.mk.inj (List.mem_singleton.mp hx)
      exact h.led_pending u hu q (by rw [hpending]; exact List.mem_cons_self)

theorem step (h : Inv a₀ u₀ s) (e : Event) : Inv a₀ u₀ (s.step e) := by
  cases e with
  | page e => exact ⟨h.program, h.app, h.pwm, h.led_pending, h.led_calls⟩
  | disconnect => exact ⟨h.program, h.app, h.pwm, h.led_pending, h.led_calls⟩
  | timer time => exact ⟨h.program, h.app, h.pwm, h.led_pending, h.led_calls⟩
  | ws locals connId =>
      simp only [State.step]
      split
      · next m rest _ _ =>
          have hs : Inv a₀ u₀ { s with toServer := rest, served := s.served ++ [m] } :=
            ⟨h.program, h.app, h.pwm, h.led_pending, h.led_calls⟩
          exact hs.accept (keeps_handleWs locals connId (text m) s.app) .ws (by decide)
      · exact h
  | udp data pwm =>
      simp only [State.step]
      split
      · exact h.accept (keeps_handleUdp data pwm s.app) .udp (by decide)
      · exact h
  | main r =>
      simp only [State.step]
      split
      · next source m rest hidle _ => exact h.main hidle r
      · exact h
  | call t took =>
      simp only [State.step]
      split
      · exact h
      · next q rest hpending => exact h.call hpending took

theorem after (c : Config) (vbat vbatSlope : ℚ) (regs : Slave.Regs) (events : List Event) :
    Inv (initial c vbat vbatSlope) (.afterSetup regs)
      (System.after c vbat vbatSlope regs events) := by
  refine List.foldlRecOn events State.step (start c vbat vbatSlope regs) fun s hs e _ ↦ ?_
  exact hs.step e

end Inv
end Rover.System
