import Rover.System.Flow

/-!
# The light

The front ends switch the light themselves, past the queue of the main thread.
-/

namespace Rover.System

open App Arduino Interleaving

/-- The duty of the light after one more call. -/
def attemptedLight (n : ℕ) (x : Request × Bool) : ℕ :=
  match x with
  | (.pwmDuty timer channel duty, true) => if timer = 1 ∧ channel ≠ 0 then duty.toNat else n
  | _ => n

theorem light_attempt (u : Slave.PwmUnit) (x : Request × Bool) :
    (attempt u x).regs.ocr1b.toNat = attemptedLight u.regs.ocr1b.toNat x := by
  obtain ⟨q, took⟩ := x
  cases took with
  | false => cases q <;> rfl
  | true =>
      cases q with
      | pinMode pin mode => rfl
      | analogRead pin => rfl
      | initPwm timer channel prescale =>
          simp only [attempt, perform, attemptedLight, if_true]
          unfold Slave.initPwm
          dsimp only
          split_ifs <;> rfl
      | pwmDuty timer channel duty =>
          have hwide : (duty.setWidth 16).toNat = duty.toNat := by
            rw [BitVec.toNat_setWidth]
            omega
          simp only [attempt, perform, attemptedLight, if_true]
          unfold Slave.pwmDuty
          split_ifs <;> simp_all

theorem attemptedLight_of_isDrive {x : Request × Bool} (h : IsDrive x.1) (n : ℕ) :
    attemptedLight n x = n := by
  obtain ⟨q, took⟩ := x
  obtain ⟨pwm, rfl | rfl | rfl | rfl⟩ : IsDrive q := h <;> cases took <;> rfl

namespace Inv

variable {a₀ : MainApp} {u₀ : Slave.PwmUnit} {s : State}

theorem attemptedLight_main (h : Inv a₀ u₀ s) {x : Request × Bool} (hx : x ∈ s.mainCalls) (n : ℕ) :
    attemptedLight n x = n := by
  have hprogram : x.1 ∈ s.mainCalls.map Prod.fst ++ s.pending .main :=
    List.mem_append_left _ (List.mem_map_of_mem hx)
  rw [h.program] at hprogram
  obtain ⟨q, took⟩ := x
  rcases List.mem_append.mp hprogram with hsetup | hrun
  · simp only [setupRequests, List.mem_cons, List.not_mem_nil, or_false] at hsetup
    rcases hsetup with rfl | rfl | rfl | rfl | rfl | rfl | rfl | rfl | rfl | rfl <;>
      cases took <;> rfl
  · rcases isDrive_or_sample_run hrun with hdrive | hsample
    · exact attemptedLight_of_isDrive hdrive n
    · obtain rfl : q = .analogRead pinBatt := hsample
      cases took <;> rfl

/-- If the UDP thread keeps quiet, only the calls of the WebSocket thread count. -/
theorem light_eq (h : Inv a₀ u₀ s) (hudp : project .udp s.calls = []) :
    s.pwm.regs.ocr1b.toNat =
      (project .ws s.calls).foldl attemptedLight u₀.regs.ocr1b.toNat := by
  rw [h.pwm]
  refine view_foldl Thread.ws attempt attemptedLight (fun u ↦ u.regs.ocr1b.toNat)
    (fun x _ u ↦ light_attempt u x) (fun t x hx ht u ↦ ?_) u₀
  refine (light_attempt u x).trans ?_
  have hmem := (mem_project t s.calls).mpr hx
  cases t with
  | main => exact h.attemptedLight_main hmem _
  | ws => exact absurd rfl ht
  | udp =>
      rw [hudp] at hmem
      exact absurd hmem List.not_mem_nil

end Inv

/-- The last level that the page sent. -/
def lastLed (p : Html.Page) : Option ℚ :=
  (p.sent.filterMap fun m ↦ match m with | .led pwm => some pwm | _ => none).getLast?

theorem lastLed_of_sent {p q : Html.Page} {m : Html.Message} (h : q.sent = p.sent ++ [m])
    (hm : ∀ pwm, m ≠ .led pwm) : lastLed q = lastLed p := by
  rw [lastLed, lastLed, h, List.filterMap_append]
  cases m with
  | led pwm => exact absurd rfl (hm pwm)
  | stats => simp
  | js l r => simp

theorem lastLed_sendLed (p : Html.Page) : lastLed p.sendLed = some p.ledPwm := by
  simp [lastLed, Html.Page.sendLed]

/-- Every change of the level is sent. -/
theorem lastLed_step {p : Html.Page} (h : lastLed p = none ∨ lastLed p = some p.ledPwm)
    (e : Html.Event) : lastLed (p.step e) = none ∨ lastLed (p.step e) = some (p.step e).ledPwm := by
  cases e with
  | stick x y => exact h
  | statsTick =>
      rw [Html.Page.step, lastLed_of_sent (p := p) rfl (by simp)]
      exact h
  | click b =>
      cases b with
      | ledM10 => exact Or.inr (lastLed_sendLed _)
      | ledM5 => exact Or.inr (lastLed_sendLed _)
      | ledP5 => exact Or.inr (lastLed_sendLed _)
      | ledP10 => exact Or.inr (lastLed_sendLed _)
      | pwmScaleM10 => exact h
      | pwmScaleM5 => exact h
      | pwmScaleP5 => exact h
      | pwmScaleP10 => exact h
  | jsTick =>
      have hsent : (p.jsTick.sent = p.sent ++ [.js p.jsLeft p.jsRight] ∨ p.jsTick.sent = p.sent) ∧
          p.jsTick.ledPwm = p.ledPwm := by
        rw [Html.Page.jsTick]
        split_ifs
        · exact ⟨Or.inl rfl, rfl⟩
        · exact ⟨Or.inl rfl, rfl⟩
        · exact ⟨Or.inr rfl, rfl⟩
      obtain ⟨hsent | hsame, hled⟩ := hsent
      · rw [Html.Page.step, lastLed_of_sent hsent (by simp), hled]
        exact h
      · rw [Html.Page.step, lastLed, hsame, hled]
        exact h

theorem lastLed_after (c : Config) (vbat vbatSlope : ℚ) (regs : Slave.Regs) (events : List Event) :
    lastLed (after c vbat vbatSlope regs events).page = none ∨
      lastLed (after c vbat vbatSlope regs events).page =
        some (after c vbat vbatSlope regs events).page.ledPwm := by
  rw [page_after]
  induction events.filterMap Event.html using List.reverseRecOn with
  | nil => exact Or.inl rfl
  | append_singleton es e ih =>
      rw [Html.Page.after_append]
      exact lastLed_step ih e

theorem getLast?_calledBy (sent : List Html.Message) :
    (sent.flatMap calledBy).getLast? =
      ((sent.filterMap fun m ↦ match m with | .led pwm => some pwm | _ => none).getLast?).map
        fun pwm ↦ duty 1 1 (BitVec.ofNat 32 pwm.num.toNat * 255 / 100) := by
  induction sent using List.reverseRecOn with
  | nil => rfl
  | append_singleton sent m ih =>
      rw [List.flatMap_append, List.flatMap_singleton, List.filterMap_append]
      cases m with
      | stats => simpa [calledBy] using ih
      | js l r => simpa [calledBy] using ih
      | led pwm => simp [calledBy]

/-- A level that the page sends, as it arrives at the slave. -/
theorem toNat_level {n : ℕ} (h : n ≤ 100) :
    ((BitVec.ofNat 32 n * 255 / 100).setWidth 8).toNat = n * 255 / 100 := by
  have hn : (BitVec.ofNat 32 n).toNat = n := by
    rw [BitVec.toNat_ofNat]
    omega
  have hwrap : 255 * n % 2 ^ 32 = n * 255 := by omega
  rw [BitVec.toNat_setWidth, toNat_ledDuty, hn, hwrap]
  exact Nat.mod_eq_of_lt (by omega)

/-- The last call decides, if it takes effect. -/
theorem foldl_attemptedLight {xs : List (Request × Bool)} {d : Byte}
    (hlast : (xs.map Prod.fst).getLast? = some (.pwmDuty 1 1 d))
    (htook : ∀ x, xs.getLast? = some x → x.2 = true) (n : ℕ) :
    xs.foldl attemptedLight n = d.toNat := by
  rw [List.getLast?_map, Option.map_eq_some_iff] at hlast
  obtain ⟨⟨q, took⟩, hx, hq⟩ := hlast
  obtain rfl : q = .pwmDuty 1 1 d := hq
  obtain rfl : took = true := htook _ hx
  obtain ⟨ys, rfl⟩ := List.getLast?_eq_some_iff.mp hx
  rw [List.foldl_concat]
  rw [attemptedLight, if_pos (by decide)]

/-- When the connection has held and the messages of the page have been served,
the light has the level that the page shows, if only the last call for it took
effect and no datagram switched it. -/
theorem light_follows_page (c : Config) (vbat vbatSlope : ℚ) (regs : Slave.Regs)
    (events : List Event) (hconn : .disconnect ∉ events)
    (hserver : (after c vbat vbatSlope regs events).toServer = [])
    (hidle : (after c vbat vbatSlope regs events).pending .ws = [])
    (hudp : (after c vbat vbatSlope regs events).LightOfPage)
    (htook : ∀ x, (project .ws (after c vbat vbatSlope regs events).calls).getLast? = some x →
      x.2 = true) :
    (after c vbat vbatSlope regs events).pwm.regs.ocr1b.toNat =
      if lastLed (after c vbat vbatSlope regs events).page = none then regs.ocr1b.toNat
      else (after c vbat vbatSlope regs events).page.ledPwm.num.toNat * 255 / 100 := by
  have hinv := Inv.after c vbat vbatSlope regs events
  have hflow := flow_after c vbat vbatSlope regs events
  have hall := served_append_toServer c vbat vbatSlope regs hconn
  have hled := lastLed_after c vbat vbatSlope regs events
  generalize after c vbat vbatSlope regs events = s at *
  have hserved : s.served = s.page.sent := by rw [← hall, hserver, List.append_nil]
  have hcalls : (project .ws s.calls).map Prod.fst = s.page.sent.flatMap calledBy := by
    rw [← hserved, ← hflow.called, hidle, List.append_nil]
  have hlast := getLast?_calledBy s.page.sent
  rw [← hcalls] at hlast
  rw [hinv.light_eq hudp.1]
  by_cases hnone : lastLed s.page = none
  · have hempty : project .ws s.calls = [] := by
      have hgone : ((project .ws s.calls).map Prod.fst).getLast? = none := by
        rw [hlast, ← lastLed, hnone]
        rfl
      rwa [List.getLast?_eq_none_iff, List.map_eq_nil_iff] at hgone
    rw [hempty, if_pos hnone]
    rfl
  · obtain ⟨n, hn, hle⟩ := hflow.page.led
    have hled' : lastLed s.page = some s.page.ledPwm := hled.resolve_left hnone
    rw [← lastLed, hled'] at hlast
    rw [if_neg hnone, foldl_attemptedLight hlast htook, hn, Rat.num_natCast, Int.toNat_natCast]
    exact toNat_level hle

/-- The level is lowered twice while the slave is set up; the first of the two
calls is lost. -/
def dimmedEvents : List Event :=
  [.page (.click .ledM10), .page (.click .ledM10), .call .main true, .ws ⟨0, 0, 0⟩ 0,
    .call .ws false, .ws ⟨0, 0, 0⟩ 0, .call .main true, .call .ws true]

theorem light_follows_page_dimmed :
    (after {} 0 0 Slave.clearedRegs dimmedEvents).pwm.regs.ocr1b.toNat = 204 := by
  refine (light_follows_page {} 0 0 Slave.clearedRegs dimmedEvents (by simp [dimmedEvents]) ?_ ?_ ?_
    fun x hx ↦ ?_).trans ?_
  · decide +kernel
  · decide +kernel
  · exact ⟨by decide +kernel, by decide +kernel⟩
  · have hlast : (project .ws (after {} 0 0 Slave.clearedRegs dimmedEvents).calls).getLast?.map
        Prod.snd = some true := by decide +kernel
    rw [hx] at hlast
    exact Option.some.inj hlast
  · decide +kernel

end Rover.System
