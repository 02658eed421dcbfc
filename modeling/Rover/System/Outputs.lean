import Rover.System.Flow

/-!
# What the outputs do

The outputs of the slave depend on the calls that took effect.  The motors see
only the calls of the main thread.
-/

namespace Rover.System

open App Arduino Interleaving

/-! ## The motors -/

/-- The motors after one more request. -/
def commandedMotors (m : Motors) : Request → Motors
  | .pwmDuty timer channel duty =>
      if timer = 0 then
        if channel = 0 then { m with c := duty.toNat } else { m with b := duty.toNat }
      else if timer = 1 then if channel = 0 then { m with d := duty.toNat } else m
      else if timer = 2 then if channel = 0 then m else { m with a := duty.toNat }
      else m
  | _ => m

def attemptedMotors (m : Motors) (x : Request × Bool) : Motors :=
  if x.2 then commandedMotors m x.1 else m

theorem motors_initPwm (timer channel prescale : Byte) (u : Slave.PwmUnit) :
    motors (Slave.initPwm timer channel prescale u).regs = motors u.regs := by
  unfold Slave.initPwm
  dsimp only
  split_ifs <;> rfl

theorem motors_pwmDuty (timer channel duty : Byte) (regs : Slave.Regs) :
    motors (Slave.pwmDuty timer channel duty regs) =
      commandedMotors (motors regs) (.pwmDuty timer channel duty) := by
  have hwide : (duty.setWidth 16).toNat = duty.toNat := by
    rw [BitVec.toNat_setWidth]
    omega
  unfold Slave.pwmDuty commandedMotors
  dsimp only
  split_ifs <;> simp [motors, hwide]

theorem motors_perform (u : Slave.PwmUnit) (q : Request) :
    motors (perform u q).regs = commandedMotors (motors u.regs) q := by
  cases q with
  | pinMode pin mode => rfl
  | analogRead pin => rfl
  | initPwm timer channel prescale => exact motors_initPwm timer channel prescale u
  | pwmDuty timer channel duty => exact motors_pwmDuty timer channel duty u.regs

theorem motors_attempt (u : Slave.PwmUnit) (x : Request × Bool) :
    motors (attempt u x).regs = attemptedMotors (motors u.regs) x := by
  rw [attempt, attemptedMotors]
  split_ifs
  · exact motors_perform u x.1
  · rfl

theorem motors_effect (qs : List Request) (regs : Slave.Regs) :
    motors (effect qs regs) = qs.foldl commandedMotors (motors regs) := by
  induction qs generalizing regs with
  | nil => rfl
  | cons q qs ih =>
      refine (ih (takeEffect regs q)).trans ?_
      rw [List.foldl_cons]
      congr 1
      cases q with
      | pwmDuty timer channel duty => exact motors_pwmDuty timer channel duty regs
      | pinMode pin mode => rfl
      | analogRead pin => rfl
      | initPwm timer channel prescale => rfl

theorem attemptedMotors_of_isLed {x : Request × Bool} (h : IsLed x.1) (m : Motors) :
    attemptedMotors m x = m := by
  obtain ⟨q, took⟩ := x
  obtain ⟨pwm, rfl⟩ : IsLed q := h
  cases took <;> rfl

namespace Inv

variable {a₀ : MainApp} {u₀ : Slave.PwmUnit} {s : State}

/-- The calls of the other threads cannot be seen. -/
theorem motors_eq (h : Inv a₀ u₀ s) :
    motors s.pwm.regs = s.mainCalls.foldl attemptedMotors (motors u₀.regs) := by
  rw [h.pwm]
  refine view_foldl Thread.main attempt attemptedMotors (fun u ↦ motors u.regs)
    (fun x _ u ↦ motors_attempt u x) (fun t x hx ht u ↦ ?_) u₀
  refine (motors_attempt u x).trans ?_
  exact attemptedMotors_of_isLed (h.led_calls t ht x ((mem_project t _).mpr hx)) _

/-- When the main thread has made its calls and none was lost, the motors do what
the switch asks for. -/
theorem motors_settled {c : Config} {vbat vbatSlope : ℚ} {regs : Slave.Regs}
    (h : Inv (initial c vbat vbatSlope) (.afterSetup regs) s)
    (htook : ∀ x ∈ s.mainCalls, x.2 = true) (hidle : s.pending .main = []) :
    motors s.pwm.regs = .ofHeld c (motors regs) (switch s.msgs).held := by
  have hall : ∀ (xs : List (Request × Bool)) (m : Motors), (∀ x ∈ xs, x.2 = true) →
      xs.foldl attemptedMotors m = (xs.map Prod.fst).foldl commandedMotors m := by
    intro xs m hxs
    rw [List.foldl_map]
    exact List.foldl_ext _ _ m fun m x hx ↦ by rw [attemptedMotors, if_pos (hxs x hx)]
  have hprogram := h.program
  rw [hidle, List.append_nil] at hprogram
  rw [h.motors_eq, hall _ _ htook, hprogram, List.foldl_append]
  refine Eq.trans ?_ (motors_run c vbat vbatSlope s.msgs regs)
  exact (motors_effect _ regs).symm

end Inv

/-! ## The page and the motors -/

/-- What a pair of percentages asks for, in exact arithmetic. -/
def ofPercent (c : Config) (l r : ℤ) : Motors :=
  let left := (5 * l).natAbs * c.pwmRange.toNat / 500 % 256
  let right := (5 * r).natAbs * c.pwmRange.toNat / 500 % 256
  { a := if 0 < l then left else 0
    b := if 0 < l then 0 else left
    c := if 0 < r then 0 else right
    d := if 0 < r then right else 0 }

theorem ofJs_percent (c : Config) {l r : ℤ} (hl : -100 ≤ l ∧ l ≤ 100) (hr : -100 ≤ r ∧ r ≤ 100) :
    Motors.ofJs c { leftY := BitVec.ofInt 32 l * 5, rightY := BitVec.ofInt 32 r * 5 } =
      ofPercent c l r := by
  have hpower {x : ℤ} (hx : -100 ≤ x ∧ x ≤ 100) : power c (BitVec.ofInt 32 x * 5) % 256 =
      (5 * x).natAbs * c.pwmRange.toNat / 500 % 256 := by
    rw [power, Html.toInt_ofInt_mul_five hx.1 hx.2]
    omega
  have hsign {x : ℤ} (hx : -100 ≤ x ∧ x ≤ 100) :
      decide (0 < (BitVec.ofInt 32 x * 5).toInt) = decide (0 < x) := by
    rw [Html.toInt_ofInt_mul_five hx.1 hx.2]
    exact decide_eq_decide.mpr (by omega)
  rw [Motors.ofJs, ofPercent]
  simp only [hpower hl, hpower hr, hsign hl, hsign hr, decide_eq_true_eq]

/-- The joystick message of a pair of the page. -/
def jsOf (p : ℚ × ℚ) : JsData :=
  { leftY := BitVec.ofInt 32 p.1.num * 5, rightY := BitVec.ofInt 32 p.2.num * 5 }

theorem latest_sent (sent : List Html.Message) :
    DeadMan.latest ((sent.flatMap queuedBy).map QueueMsg.input) =
      (sent.filterMap fun m ↦ match m with | .js l r => some (l, r) | _ => none).getLast?.map
        jsOf := by
  induction sent using List.reverseRecOn with
  | nil => rfl
  | append_singleton sent m ih =>
      rw [List.flatMap_append, List.flatMap_singleton, List.map_append, List.filterMap_append]
      cases m with
      | stats => simpa [queuedBy] using ih
      | led pwm => simpa [queuedBy] using ih
      | js l r =>
          rw [queuedBy, List.map_singleton, DeadMan.latest_concat]
          simp [QueueMsg.input, jsOf]

/-- The timer thread sends nothing but its own messages. -/
structure Ticks (s : State) : Prop where
  queue : ∀ x ∈ s.queue, x.1 = .timer → x.2.input = .tick
  handled : ∀ x ∈ s.handled, x.1 = .timer → x.2.1.input = .tick

namespace Ticks

variable {s : State}

theorem queue_append (h : Ticks s) {source : Source} (queued : List QueueMsg)
    (hqueued : source = .timer → ∀ m ∈ queued, m.input = .tick) :
    ∀ x ∈ s.queue ++ queued.map fun m ↦ (source, m), x.1 = .timer → x.2.input = .tick := by
  intro x hx htimer
  rcases List.mem_append.mp hx with hx | hx
  · exact h.queue x hx htimer
  · obtain ⟨m, hm, rfl⟩ := List.mem_map.mp hx
    exact hqueued htimer m hm

theorem step (h : Ticks s) (e : Event) : Ticks (s.step e) := by
  cases e with
  | page e => exact ⟨h.queue, h.handled⟩
  | disconnect => exact ⟨h.queue, h.handled⟩
  | timer time =>
      refine ⟨h.queue_append [.timer time] fun _ m hm ↦ ?_, h.handled⟩
      rw [List.mem_singleton.mp hm]
      rfl
  | ws locals connId =>
      simp only [State.step]
      split
      · exact ⟨h.queue_append _ fun hsource ↦ by simp at hsource, h.handled⟩
      · exact h
  | udp data pwm =>
      simp only [State.step]
      split
      · exact ⟨h.queue_append _ fun hsource ↦ by simp at hsource, h.handled⟩
      · exact h
  | main r =>
      simp only [State.step]
      split
      · next source m rest _ hqueue =>
          have hbefore := h.queue
          rw [hqueue] at hbefore
          refine ⟨fun x hx ↦ hbefore x (List.mem_cons_of_mem _ hx), fun x hx htimer ↦ ?_⟩
          rcases List.mem_append.mp hx with hx | hx
          · exact h.handled x hx htimer
          · obtain rfl := List.mem_singleton.mp hx
            exact hbefore (source, m) List.mem_cons_self htimer
      · exact h
  | call t took =>
      simp only [State.step]
      split
      · exact h
      · exact ⟨h.queue, h.handled⟩

theorem after (c : Config) (vbat vbatSlope : ℚ) (regs : Slave.Regs) (events : List Event) :
    Ticks (System.after c vbat vbatSlope regs events) := by
  refine List.foldlRecOn events State.step ?_ fun s hs e _ ↦ hs.step e
  exact ⟨fun x hx ↦ absurd hx List.not_mem_nil, fun x hx ↦ absurd hx List.not_mem_nil⟩

end Ticks

/-- Without joystick datagrams the last command comes from the page. -/
theorem latest_handled {handled : List (Source × QueueMsg × Readings)}
    (htimer : ∀ x ∈ handled, x.1 = .timer → x.2.1.input = .tick)
    (hudp : ∀ x ∈ handled, x.1 ≠ .udp) :
    DeadMan.latest (handled.map fun x ↦ x.2.1.input) =
      DeadMan.latest (((project .ws handled).map Prod.fst).map QueueMsg.input) := by
  induction handled using List.reverseRecOn with
  | nil => rfl
  | append_singleton handled x ih =>
      obtain ⟨source, m, r⟩ := x
      have hbefore := ih (fun x hx ↦ htimer x (List.mem_append_left _ hx))
        (fun x hx ↦ hudp x (List.mem_append_left _ hx))
      have hlast : (source, m, r) ∈ handled ++ [(source, m, r)] := by simp
      rw [List.map_append, List.map_singleton, DeadMan.latest_concat, project_append]
      cases source with
      | udp => exact absurd rfl (hudp _ hlast)
      | timer =>
          rw [htimer _ hlast rfl, project_cons_of_ne _ _ (by decide), project_nil,
            List.append_nil]
          exact hbefore
      | ws =>
          rw [project_cons_self, project_nil, List.map_append, List.map_append, List.map_singleton,
            List.map_singleton, DeadMan.latest_concat, hbefore]

/-- When all that the page sent has arrived and was handled, the last command is
that of its last pair. -/
theorem latest_msgs {s : State} (hticks : Ticks s) (hflow : Flow s)
    (hserved : s.served = s.page.sent) (hqueue : s.queue = [])
    (hudp : ∀ x ∈ s.handled, x.1 ≠ .udp) :
    DeadMan.latest (s.msgs.map fun x ↦ x.1.input) = s.page.lastPair.map jsOf := by
  have hhandled : (project .ws s.handled).map Prod.fst = s.page.sent.flatMap queuedBy := by
    rw [← hserved, ← hflow.queued, hqueue, project_nil, List.append_nil]
  rw [State.msgs, List.map_map]
  refine (latest_handled hticks.handled hudp).trans ?_
  rw [hhandled, latest_sent]
  rfl

theorem isPercent_of_lastPair {p : Html.Page} (h : ∀ m ∈ p.sent, m.InRange) {l r : ℚ}
    (hpair : p.lastPair = some (l, r)) : Html.IsPercent l ∧ Html.IsPercent r := by
  obtain ⟨m, hm, hjs⟩ := List.mem_filterMap.mp (List.mem_of_getLast? hpair)
  cases m with
  | js l' r' =>
      obtain ⟨rfl, rfl⟩ := Prod.mk.inj (Option.some.inj hjs)
      exact h _ hm
  | stats => simp at hjs
  | led pwm => simp at hjs

/-- The motors by the last pair. -/
theorem Inv.motors_of_lastPair {c : Config} {vbat vbatSlope : ℚ} {regs : Slave.Regs} {s : State}
    (h : Inv (initial c vbat vbatSlope) (.afterSetup regs) s) (hticks : Ticks s) (hflow : Flow s)
    (hserved : s.served = s.page.sent) (hqueue : s.queue = []) (hidle : s.pending .main = [])
    (htook : ∀ x ∈ s.mainCalls, x.2 = true) (hudp : ∀ x ∈ s.handled, x.1 ≠ .udp) :
    motors s.pwm.regs =
      if 500 ≤ timersSince s.msgs then .stopped
      else s.page.lastPair.elim (motors regs) fun p ↦ ofPercent c p.1.num p.2.num := by
  have hlatest := latest_msgs hticks hflow hserved hqueue hudp
  have hidleSwitch := idle_switch s.msgs
  rw [h.motors_settled htook hidle, switch, DeadMan.held_after 500 _ (by decide), hlatest]
  rw [switch] at hidleSwitch
  rw [hidleSwitch]
  split_ifs with hsilent
  · rfl
  · cases hpair : s.page.lastPair with
    | none => rfl
    | some p =>
        obtain ⟨l, r⟩ := p
        obtain ⟨⟨l, rfl, hl⟩, r, rfl, hr⟩ := isPercent_of_lastPair hflow.page.sent hpair
        simp only [Option.map_some, Option.elim_some, Motors.ofHeld, jsOf, Rat.num_intCast]
        exact ofJs_percent c hl hr

/-- When the connection has held and all messages have arrived, the motors
follow the last pair that the page sent, and stand still when 500 timer messages
were handled since it was handled. -/
theorem motors_follow_page (c : Config) (vbat vbatSlope : ℚ) (regs : Slave.Regs)
    (events : List Event) (hconn : .disconnect ∉ events)
    (hserver : (after c vbat vbatSlope regs events).toServer = [])
    (hqueue : (after c vbat vbatSlope regs events).queue = [])
    (hidle : (after c vbat vbatSlope regs events).pending .main = [])
    (htook : ∀ x ∈ (after c vbat vbatSlope regs events).mainCalls, x.2 = true)
    (hudp : ∀ x ∈ (after c vbat vbatSlope regs events).handled, x.1 ≠ .udp) :
    motors (after c vbat vbatSlope regs events).pwm.regs =
      if 500 ≤ timersSince (after c vbat vbatSlope regs events).msgs then .stopped
      else match (after c vbat vbatSlope regs events).page.lastPair with
        | none => motors regs
        | some (l, r) => ofPercent c l.num r.num := by
  have hall := served_append_toServer c vbat vbatSlope regs hconn
  rw [hserver, List.append_nil] at hall
  rw [(Inv.after c vbat vbatSlope regs events).motors_of_lastPair
    (Ticks.after c vbat vbatSlope regs events) (flow_after c vbat vbatSlope regs events) hall hqueue
    hidle htook hudp]
  cases (after c vbat vbatSlope regs events).page.lastPair <;> rfl

/-- The stick to the upper right, and what follows of it. -/
def drivenEvents : List Event :=
  List.replicate 10 (.call .main true) ++
    [.page (.stick 50 50), .page .jsTick, .ws ⟨0, 0, 0⟩ 0, .main {}] ++
    List.replicate 4 (.call .main true)

theorem motors_follow_page_driven :
    motors (after {} 0 0 Slave.clearedRegs drivenEvents).pwm.regs = ⟨255, 0, 0, 0⟩ := by
  refine (motors_follow_page {} 0 0 Slave.clearedRegs drivenEvents (by simp [drivenEvents]) ?_ ?_ ?_
    ?_ ?_).trans ?_
  all_goals decide +kernel

end Rover.System
