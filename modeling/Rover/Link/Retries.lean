import Rover.Link.Refinement

/-!
# Retries when whole messages are lost

A reply that is lost makes the slave execute the same request again.  Every
request but a sample is idempotent, so the state of the slave after a call is
the state after executing the request once, or the state before it.
-/

namespace Rover.Slave

variable {π : Type} (hal : Hal π)

def Board.state (b : Board π) : PwmUnit × π := (b.pwm, b.pins)

theorem initPwm_initPwm (timer channel prescale : Byte) (u : PwmUnit) :
    initPwm timer channel prescale (initPwm timer channel prescale u) =
      initPwm timer channel prescale u := by
  unfold initPwm
  by_cases h0 : timer = 0
  · simp [h0, BitVec.or_assoc]
  by_cases h1 : timer = 1
  · simp [h1, BitVec.or_assoc]
  by_cases h2 : timer = 2
  · simp [h2, BitVec.or_assoc]
  · simp only [h0, h1, h2, if_false]

theorem pwmDuty_pwmDuty (timer channel duty : Byte) (regs : Regs) :
    pwmDuty timer channel duty (pwmDuty timer channel duty regs) =
      pwmDuty timer channel duty regs := by
  unfold pwmDuty
  split_ifs <;> rfl

end Rover.Slave

namespace Rover.Arduino.Request

open Slave

variable {π : Type} (hal : Hal π)

def apply : Request → PwmUnit × π → PwmUnit × π
  | pinMode pin mode, (u, pins) =>
      let hw := hal.pinMode pin mode (u.regs, pins)
      ({ u with regs := hw.1 }, hw.2)
  | initPwm timer channel prescale, (u, pins) => (Slave.initPwm timer channel prescale u, pins)
  | pwmDuty timer channel duty, (u, pins) =>
      ({ u with regs := Slave.pwmDuty timer channel duty u.regs }, pins)
  | analogRead pin, (u, pins) =>
      let hw := (hal.analogRead pin (u.regs, pins)).2
      ({ u with regs := hw.1 }, hw.2)

def Sets : Request → Prop
  | analogRead _ => False
  | _ => True

theorem state_exec (q : Request) (b : Board π) : (q.exec hal b).state = q.apply hal b.state := by
  cases q <;> rfl

theorem apply_apply
    (hpin : ∀ pin mode hw, hal.pinMode pin mode (hal.pinMode pin mode hw) = hal.pinMode pin mode hw)
    {q : Request} (hq : q.Sets) (x : PwmUnit × π) :
    q.apply hal (q.apply hal x) = q.apply hal x := by
  obtain ⟨u, pins⟩ := x
  cases q with
  | pinMode pin mode => simp [apply, hpin]
  | initPwm timer channel prescale => simp [apply, initPwm_initPwm]
  | pwmDuty timer channel duty => simp [apply, pwmDuty_pwmDuty]
  | analogRead pin => exact hq.elim

end Rover.Arduino.Request

namespace Rover.Link

open Arduino Slave Line

variable {π : Type} (hal : Hal π)

/-- What becomes of an attempt when only whole messages are lost: it is
answered in time, its request is executed and the reply is lost, or the slave
never hears of it.  A request that is delivered is not hit by an idle reset. -/
inductive Fate (q : Request) (l : Line π) : Prop
  | answered (h : Delivers hal q l)
  | unanswered (events : ∀ burst ∈ (l.plans.headD {}).bursts, ∀ e ∈ burst, e.Serves false)
      (uncut : (after hal q.bytes 52 l).wire.cuts = l.wire.cuts)
      (toSlave : (after hal q.bytes 52 l).wire.toSlave = [])
      (out : (after hal q.bytes 52 l).wire.out = [])
  | lost (heard : (after hal q.bytes 52 l).wire.heard = l.wire.heard)
      (toSlave : (after hal q.bytes 52 l).wire.toSlave = [])

def WholeLoss (q : Request) (d : ArduinoSlave (Line π)) : Prop :=
  ∀ i < d.maxRetry, FailedBefore hal q d.port i → Fate hal q ((fail hal q.bytes)^[i] d.port)

/-- The state at some moment of a call: as before it, or as after executing
the request once. -/
def OnceOrNot (q : Request) (before now : PwmUnit × π) : Prop :=
  now = q.apply hal before ∨ now = before

variable {hal} {q : Request} {l : Line π}

/-! ## One attempt -/

theorem Fate.state_after (hq : q.InRange) (hquiet : l.wire.Quiet) (h : Fate hal q l) {k : ℕ}
    (hk : k ≤ 51) :
    OnceOrNot hal q l.wire.slave.board.state (after hal q.bytes k l).wire.slave.board.state := by
  have hserving {replied : Bool}
      (hs : Serving hal q l.wire.slave.board replied q.bytes (after hal q.bytes k l).wire) :
      OnceOrNot hal q l.wire.slave.board.state (after hal q.bytes k l).wire.slave.board.state := by
    cases hs with
    | receiving p rest _ _ _ _ _ hboard _ => exact Or.inr (by rw [hboard])
    | served out _ _ _ hboard _ =>
        left
        rw [hboard, ← Request.state_exec]
        rfl
  cases h with
  | answered h => exact hserving (serving_after hq hquiet h.events hk h.uncut)
  | unanswered events uncut _ _ =>
      exact hserving (serving_after hq hquiet events (by omega : k ≤ 52) uncut)
  | lost heard _ =>
      right
      rw [(unheard_after hquiet q.bytes (by omega : k ≤ 52) heard).board]

theorem Fate.fail (hq : q.InRange) (hquiet : l.wire.Quiet) (h : Fate hal q l)
    (hshort : (after hal q.bytes 51 l).wire.arrived.length < q.rspSize) :
    (fail hal q.bytes l).wire.Quiet ∧
      OnceOrNot hal q l.wire.slave.board.state (fail hal q.bytes l).wire.slave.board.state := by
  cases h with
  | answered h => exact absurd (h.size_le hq hquiet) (Nat.not_le.mpr hshort)
  | unanswered events uncut toSlave out =>
      cases serving_after hq hquiet events le_rfl uncut with
      | receiving p rest hput _ hne hto _ _ _ =>
          rw [toSlave] at hto
          rw [← hto, List.append_nil] at hput
          exact absurd hput hne
      | served out' _ _ hold hboard _ =>
          refine ⟨⟨toSlave, out, hold⟩, Or.inl ?_⟩
          change (after hal q.bytes 52 l).wire.slave.board.state = _
          rw [hboard, ← Request.state_exec]
          rfl
  | lost heard toSlave =>
      have hun := unheard_after hquiet q.bytes le_rfl heard
      have hout : (after hal q.bytes 52 l).wire.out = [] := by
        rw [Wire.out, hun.board]
        exact hquiet.out
      refine ⟨⟨toSlave, hout, hun.holding⟩, Or.inr ?_⟩
      change (after hal q.bytes 52 l).wire.slave.board.state = _
      rw [hun.board]

theorem Fate.accepted (hq : q.InRange) (hquiet : l.wire.Quiet) (h : Fate hal q l) {k : ℕ}
    (hk : k ≤ 51) (hsize : q.rspSize ≤ (after hal q.bytes k l).wire.arrived.length) :
    ((after hal q.bytes k l).read q.rspSize).wire.Quiet ∧
      ((after hal q.bytes k l).read q.rspSize).wire.slave.board.state =
        q.apply hal l.wire.slave.board.state := by
  have hpos := Nat.pos_of_ne_zero (rspSize_ne_zero q)
  cases h with
  | answered h =>
      obtain ⟨-, hto, hold, hboard⟩ := h.accepted hq hquiet hk hsize
      refine ⟨⟨hto, ?_, hold⟩, ?_⟩
      · change (after hal q.bytes k l).wire.slave.board.serialOut = []
        rw [hboard]
      · change (after hal q.bytes k l).wire.slave.board.state = _
        rw [hboard, ← Request.state_exec]
        rfl
  | unanswered events uncut _ _ =>
      have harr : (after hal q.bytes k l).wire.arrived = [] := by
        cases serving_after hq hquiet events (by omega : k ≤ 52) uncut with
        | receiving p rest _ _ _ _ _ _ harr => exact harr
        | served out _ _ _ _ harr => simpa using harr
      rw [harr, List.length_nil] at hsize
      omega
  | lost heard _ =>
      rw [(unheard_after hquiet q.bytes (by omega : k ≤ 52) heard).arrived,
        List.length_nil] at hsize
      omega

/-! ## One call -/

theorem quiet_fail_iterate {d : ArduinoSlave (Line π)} (hq : q.InRange)
    (hquiet : d.port.wire.Quiet) (h : WholeLoss hal q d) {i : ℕ} (hi : i ≤ d.maxRetry)
    (hfailed : FailedBefore hal q d.port i) : ((fail hal q.bytes)^[i] d.port).wire.Quiet := by
  induction i with
  | zero => exact hquiet
  | succ i ih =>
      have hfailed' : FailedBefore hal q d.port i := fun j hj ↦ hfailed j (by omega)
      rw [Function.iterate_succ_apply']
      exact ((h i (by omega) hfailed').fail hq (ih (by omega) hfailed')
        (hfailed i (by omega))).1

theorem quiet_perform {d : ArduinoSlave (Line π)} (hq : q.InRange) (hquiet : d.port.wire.Quiet)
    (h : WholeLoss hal q d) : (perform (port hal) q d).2.port.wire.Quiet := by
  have hcall := perform_attempted hal q d
  cases hr : (perform (port hal) q d).1 with
  | some data =>
      obtain ⟨j, hj, k, hk, hfailed, hle, -, -, hport⟩ := hcall.success data hr
      change (perform (port hal) q d).2.port = _ at hport
      rw [hport]
      exact ((h j hj hfailed).accepted hq
        (quiet_fail_iterate hq hquiet h hj.le hfailed) hk hle).1
  | none =>
      obtain ⟨hfailed, m, -, hport⟩ := hcall.failure hr
      change (perform (port hal) q d).2.port = _ at hport
      rw [hport]
      have hend := quiet_fail_iterate hq hquiet h le_rfl hfailed
      exact ⟨hend.toSlave, hend.out, hend.holding⟩

/-- How a call leaves the state of the slave, and what it can be meanwhile. -/
structure Once (hal : Hal π) (q : Request) (d : ArduinoSlave (Line π)) : Prop where
  success : (perform (port hal) q d).1.isSome →
    (perform (port hal) q d).2.port.wire.slave.board.state =
      q.apply hal d.port.wire.slave.board.state
  failure : (perform (port hal) q d).1 = none →
    OnceOrNot hal q d.port.wire.slave.board.state
      (perform (port hal) q d).2.port.wire.slave.board.state
  during : ∀ i < d.maxRetry, FailedBefore hal q d.port i → ∀ k ≤ 51,
    OnceOrNot hal q d.port.wire.slave.board.state
      (after hal q.bytes k ((fail hal q.bytes)^[i] d.port)).wire.slave.board.state

section

variable (hpin : ∀ pin mode hw,
  hal.pinMode pin mode (hal.pinMode pin mode hw) = hal.pinMode pin mode hw)

include hpin

theorem OnceOrNot.trans {x y z : PwmUnit × π} (hq : q.Sets) (h : OnceOrNot hal q x y)
    (h' : OnceOrNot hal q y z) : OnceOrNot hal q x z := by
  rcases h with rfl | rfl
  · rcases h' with rfl | rfl
    · exact Or.inl (Request.apply_apply hal hpin hq x)
    · exact Or.inl rfl
  · exact h'

variable {d : ArduinoSlave (Line π)}

theorem state_fail_iterate (hq : q.InRange) (hsets : q.Sets) (hquiet : d.port.wire.Quiet)
    (h : WholeLoss hal q d) {i : ℕ} (hi : i ≤ d.maxRetry) (hfailed : FailedBefore hal q d.port i) :
    OnceOrNot hal q d.port.wire.slave.board.state
      ((fail hal q.bytes)^[i] d.port).wire.slave.board.state := by
  induction i with
  | zero => exact Or.inr rfl
  | succ i ih =>
      have hfailed' : FailedBefore hal q d.port i := fun j hj ↦ hfailed j (by omega)
      have hquiet' := quiet_fail_iterate hq hquiet h (by omega) hfailed'
      have hlast := (h i (by omega) hfailed').fail hq hquiet' (hfailed i (by omega))
      rw [Function.iterate_succ_apply']
      exact (ih (by omega) hfailed').trans hpin hsets hlast.2

theorem once_of_wholeLoss (hq : q.InRange) (hsets : q.Sets) (hquiet : d.port.wire.Quiet)
    (h : WholeLoss hal q d) : Once hal q d := by
  have hcall := perform_attempted hal q d
  refine ⟨fun hsome ↦ ?_, fun hnone ↦ ?_, fun i hi hfailed k hk ↦ ?_⟩
  · obtain ⟨data, hdata⟩ := Option.isSome_iff_exists.mp hsome
    obtain ⟨j, hj, k, hk, hfailed, hle, -, -, hport⟩ := hcall.success data hdata
    have hquiet' := quiet_fail_iterate hq hquiet h hj.le hfailed
    have hstate := ((h j hj hfailed).accepted hq hquiet' hk hle).2
    change (perform (port hal) q d).2.port = _ at hport
    rw [hport, hstate]
    rcases state_fail_iterate hpin hq hsets hquiet h hj.le hfailed with heq | heq
    · rw [heq, Request.apply_apply hal hpin hsets]
    · rw [heq]
  · obtain ⟨hfailed, m, -, hport⟩ := hcall.failure hnone
    change (perform (port hal) q d).2.port = _ at hport
    rw [hport]
    exact state_fail_iterate hpin hq hsets hquiet h le_rfl hfailed
  · have hquiet' := quiet_fail_iterate hq hquiet h hi.le hfailed
    exact (state_fail_iterate hpin hq hsets hquiet h hi.le hfailed).trans hpin hsets
      ((h i hi hfailed).state_after hq hquiet' hk)

/-! ## Whole runs -/

/-- Along a sequence of calls with whatever losses of whole messages, every
call that sets something leaves the state it would leave if executed exactly
once, and if no attempt succeeded, that state or the previous one. -/
theorem each_once {calls : List (Request × List Plan)} (hin : ∀ c ∈ calls, c.1.InRange)
    (hquiet : d.port.wire.Quiet) (h : Each hal (WholeLoss hal) calls d) :
    Each hal (fun q d ↦ q.Sets → Once hal q d) calls d := by
  induction calls generalizing d with
  | nil => trivial
  | cons c rest ih =>
      obtain ⟨q, plans⟩ := c
      obtain ⟨hfirst, hrest⟩ := h
      have hq : q.InRange := hin (q, plans) (by simp)
      refine ⟨fun hsets ↦ once_of_wholeLoss hpin hq hsets hquiet hfirst,
        ih (fun c hc ↦ hin c (by simp [hc])) ?_ hrest⟩
      rw [callWith_snd]
      exact quiet_perform hq hquiet hfirst

end

/-- An attempt of each fate: the request is lost, the reply is lost, and the
third time both arrive. -/
def lossyCalls : List (Request × List Plan) :=
  [(.initPwm 0 1 1, [⟨[], [[], [.loseRequest 0 2]]⟩,
    ⟨[], [[.loop 1], [.loop 1], [.loseReply 0 1]]⟩, ⟨[], [[], [.loop 2, .arrive 1]]⟩])]

theorem each_once_lossyCalls :
    Each fixedHal (fun q d ↦ q.Sets → Once fixedHal q d) lossyCalls (start blankSlave) := by
  refine each_once (fun _ _ _ ↦ rfl) (by decide) (quiet_start blankSlave) ⟨?_, trivial⟩
  intro i hi hfailed
  by_cases h2 : 2 < i
  · exact absurd (hfailed 2 h2) (by decide +kernel)
  · interval_cases i
    · exact .lost (by decide +kernel) (by decide +kernel)
    · exact .unanswered (by decide +kernel) (by decide +kernel) (by decide +kernel)
        (by decide +kernel)
    · exact .answered ⟨by decide +kernel, by decide +kernel, by decide +kernel, by decide +kernel⟩

end Rover.Link
