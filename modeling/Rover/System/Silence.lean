import Rover.System.Outputs

/-!
# Silence

The watchdog repeats its four stop calls every 500 timer messages.  One success
for each of the four inputs is enough, whatever was lost before.
-/

namespace Rover.System

open App Arduino Interleaving

/-- After the last joystick message the only duties are those of the watchdog. -/
theorem duties_run (c : Config) (vbat vbatSlope : ℚ) (msgs : List (QueueMsg × Readings)) :
    ∃ before, (run msgs (initial c vbat vbatSlope)).2.filter isDuty =
      before ++ (List.replicate (timersSince msgs / 500) stop).flatten := by
  induction msgs using List.reverseRecOn with
  | nil => exact ⟨[], rfl⟩
  | append_singleton msgs x ih =>
      obtain ⟨m, r⟩ := x
      obtain ⟨before, hbefore⟩ := ih
      rw [timersSince_concat, run_append, run_cons, run_nil, List.append_nil, List.filter_append,
        hbefore]
      cases m with
      | tty => exact ⟨before, by simp [handle, sinceJs]⟩
      | js data => exact ⟨_, by simp [sinceJs]; rfl⟩
      | timer time =>
          simp only [handle, commands_timer, sinceJs]
          refine ⟨before, ?_⟩
          by_cases hdvd : 500 ∣ timersSince msgs + 1
          · have hdiv : (timersSince msgs + 1) / 500 = timersSince msgs / 500 + 1 := by omega
            rw [if_pos hdvd, hdiv, List.replicate_succ', List.flatten_append, List.append_assoc]
            simp
          · have hdiv : (timersSince msgs + 1) / 500 = timersSince msgs / 500 := by omega
            rw [if_neg hdvd, hdiv, List.append_nil]

/-- The inputs are off, or a call that switches them off is still to come. -/
structure Stopping (m : Motors) (xs : List (Request × Bool)) : Prop where
  a : m.a = 0 ∨ (duty 2 1 0, true) ∈ xs
  b : m.b = 0 ∨ (duty 0 1 0, true) ∈ xs
  c : m.c = 0 ∨ (duty 0 0 0, true) ∈ xs
  d : m.d = 0 ∨ (duty 1 0 0, true) ∈ xs

theorem Stopping.cons {m : Motors} {x : Request × Bool} {xs : List (Request × Bool)}
    (h : Stopping m (x :: xs)) (hx : x.1 ∈ stop) : Stopping (attemptedMotors m x) xs := by
  obtain ⟨q, took⟩ := x
  obtain ⟨ha, hb, hc, hd⟩ := h
  have hq : q ∈ stop := hx
  simp only [stop, List.mem_cons, List.not_mem_nil, or_false] at hq
  simp only [List.mem_cons] at ha hb hc hd
  rcases hq with rfl | rfl | rfl | rfl <;> cases took <;>
    constructor <;> simp_all [attemptedMotors, commandedMotors, duty]

theorem foldl_of_stopping {xs : List (Request × Bool)} (hxs : ∀ x ∈ xs, x.1 ∈ stop) {m : Motors}
    (h : Stopping m xs) : xs.foldl attemptedMotors m = .stopped := by
  induction xs generalizing m with
  | nil =>
      obtain ⟨ha, hb, hc, hd⟩ := h
      simp only [List.not_mem_nil, or_false] at ha hb hc hd
      obtain ⟨a, b, c, d⟩ := m
      simp only at ha hb hc hd
      rw [List.foldl_nil, ha, hb, hc, hd]
      rfl
  | cons x xs ih =>
      rw [List.foldl_cons]
      exact ih (fun y hy ↦ hxs y (List.mem_cons_of_mem x hy)) (h.cons (hxs x List.mem_cons_self))

theorem foldl_filter_isDuty (xs : List (Request × Bool)) (m : Motors) :
    xs.foldl attemptedMotors m = (xs.filter fun x ↦ isDuty x.1).foldl attemptedMotors m := by
  induction xs generalizing m with
  | nil => rfl
  | cons x xs ih =>
      obtain ⟨q, took⟩ := x
      rw [List.foldl_cons, ih, List.filter_cons]
      cases q with
      | pwmDuty timer channel duty => rfl
      | pinMode pin mode => cases took <;> rfl
      | initPwm timer channel prescale => cases took <;> rfl
      | analogRead pin => cases took <;> rfl

/-- The calls that the watchdog has made since the last joystick message. -/
def State.stopCalls (s : State) : List (Request × Bool) :=
  ((s.mainCalls.filter fun x ↦ isDuty x.1).reverse.take (4 * (timersSince s.msgs / 500))).reverse

/-- Whatever was lost on the connection or at the slave, and whatever the other
threads do: once each of the four stop calls has taken effect since the last
joystick message, the motors stand still. -/
theorem stopped_when_silent (c : Config) (vbat vbatSlope : ℚ) (regs : Slave.Regs)
    (events : List Event) (hidle : (after c vbat vbatSlope regs events).pending .main = [])
    (htook : ∀ q ∈ stop, (q, true) ∈ (after c vbat vbatSlope regs events).stopCalls) :
    motors (after c vbat vbatSlope regs events).pwm.regs = .stopped := by
  have hinv := Inv.after c vbat vbatSlope regs events
  generalize after c vbat vbatSlope regs events = s at *
  obtain ⟨before, hbefore⟩ := duties_run c vbat vbatSlope s.msgs
  have hprogram := hinv.program
  rw [hidle, List.append_nil] at hprogram
  have hduties : (s.mainCalls.filter fun x ↦ isDuty x.1).map Prod.fst =
      before ++ (List.replicate (timersSince s.msgs / 500) stop).flatten := by
    rw [← hbefore, ← List.nil_append (List.filter isDuty _), ← show setupRequests.filter isDuty = []
      from rfl, ← List.filter_append, ← hprogram, List.filter_map]
    rfl
  obtain ⟨earlier, stops, hsplit, hearlier, hstops⟩ := List.map_eq_append_iff.mp hduties
  have hlength : stops.length = 4 * (timersSince s.msgs / 500) := by
    have hlen := congrArg List.length hstops
    simpa [stop, Nat.mul_comm] using hlen
  have hcalls : s.stopCalls = stops := by
    rw [State.stopCalls, hsplit, List.reverse_append, ← hlength, ← List.length_reverse,
      List.take_left, List.reverse_reverse]
  rw [hcalls] at htook
  rw [hinv.motors_eq, foldl_filter_isDuty, hsplit, List.foldl_append]
  apply foldl_of_stopping
  · intro x hx
    have hmem : x.1 ∈ stops.map Prod.fst := List.mem_map_of_mem hx
    rw [hstops] at hmem
    obtain ⟨qs, hqs, hq⟩ := List.mem_flatten.mp hmem
    rwa [List.eq_of_mem_replicate hqs] at hq
  · exact ⟨Or.inr (htook _ (by decide)), Or.inr (htook _ (by decide)),
      Or.inr (htook _ (by decide)), Or.inr (htook _ (by decide))⟩

def timerEvents : List Event := (List.replicate 500 [.timer 0, .main {}]).flatten

/-- The connection is lost while the motors run, and every round of stop calls
loses some. -/
def lostEvents : List Event :=
  drivenEvents ++ .disconnect :: timerEvents ++ [true, false, true, true].map (Event.call .main) ++
    timerEvents ++ [false, true, false, true, true].map (Event.call .main)

theorem stopped_when_silent_lost :
    motors (after {} 0 0 Slave.clearedRegs lostEvents).pwm.regs = .stopped := by
  refine stopped_when_silent {} 0 0 Slave.clearedRegs lostEvents ?_ ?_
  all_goals decide +kernel

end Rover.System
