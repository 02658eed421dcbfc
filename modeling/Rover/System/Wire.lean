import Rover.Link.Refinement
import Rover.System.Threads

/-!
# The calls on the wire

Made over a serial line that delivers, the calls of the threads do to the slave
what they are taken to do.
-/

namespace Rover.System

open App Arduino Interleaving Link Slave

theorem inRange_of_isDrive {q : Request} (h : IsDrive q) : q.InRange := by
  obtain ⟨pwm, rfl | rfl | rfl | rfl⟩ := h
  all_goals exact by simp [Request.InRange, duty]

namespace Inv

variable {a₀ : MainApp} {u₀ : PwmUnit} {s : State}

/-- Every call fits into the fields of its message. -/
theorem inRange (h : Inv a₀ u₀ s) {x : Thread × Request × Bool} (hx : x ∈ s.calls) :
    x.2.1.InRange := by
  obtain ⟨t, y⟩ := x
  have hproject := (mem_project t s.calls).mpr hx
  by_cases ht : t = .main
  · subst ht
    have hprogram : y.1 ∈ s.mainCalls.map Prod.fst ++ s.pending .main :=
      List.mem_append_left _ (List.mem_map_of_mem hproject)
    rw [h.program] at hprogram
    rcases List.mem_append.mp hprogram with hsetup | hrun
    · revert hsetup
      generalize y.1 = q
      revert q
      decide
    · rcases isDrive_or_sample_run hrun with hdrive | hsample
      · exact inRange_of_isDrive hdrive
      · change y.1.InRange
        rw [hsample]
        decide
  · obtain ⟨pwm, hled⟩ := h.led_calls t ht y hproject
    change y.1.InRange
    rw [hled]
    simp [Request.InRange, duty]

end Inv

section

variable {π : Type} {hal : Hal π}

/-- What the pin functions of the Arduino core do not touch. -/
structure KeepsTimers (hal : Hal π) : Prop where
  pinMode : ∀ pin mode hw, (hal.pinMode pin mode hw).1 = hw.1
  analogRead : ∀ pin hw, (hal.analogRead pin hw).2.1 = hw.1

theorem pwm_operate (hhal : KeepsTimers hal) (q : Request) (b : Board π) :
    (q.operate hal b).pwm = perform b.pwm q := by
  cases q with
  | pinMode pin mode =>
      change { b.pwm with regs := (hal.pinMode pin mode b.hw).1 } = b.pwm
      rw [hhal.pinMode]
      rfl
  | analogRead pin =>
      change { b.pwm with regs := (hal.analogRead pin b.hw).2.1 } = b.pwm
      rw [hhal.analogRead]
      rfl
  | initPwm timer channel prescale => rfl
  | pwmDuty timer channel duty => rfl

theorem pwm_foldl_operate (hhal : KeepsTimers hal) (calls : List (Request × List Plan))
    (b : Board π) :
    (calls.foldl (fun b c ↦ c.1.operate hal b) b).pwm =
      (calls.map Prod.fst).foldl perform b.pwm := by
  induction calls generalizing b with
  | nil => rfl
  | cons c calls ih =>
      rw [List.foldl_cons, ih, pwm_operate hhal]
      rfl

end

/-- However the threads are interleaved: if all their calls take effect in the
model of the rover, then made one after the other over a line that delivers they
leave the timers of the slave in the same state. -/
theorem calls_on_the_wire {π : Type} (hal : Hal π) (hhal : KeepsTimers hal) (m : Machine π)
    (c : Config) (vbat vbatSlope : ℚ) (events : List Event)
    (htook : ∀ x ∈ (after c vbat vbatSlope m.board.pwm.regs events).calls, x.2.2 = true)
    (calls : List (Request × List Plan))
    (hcalls : calls.map Prod.fst =
      (after c vbat vbatSlope m.board.pwm.regs events).calls.map fun x ↦ x.2.1)
    (hlink : Each hal (fun q d ↦ Delivers hal q d.port) calls (Link.start m)) :
    (runCalls hal calls (Link.start m)).2.port.wire.slave.board.pwm =
      (after c vbat vbatSlope m.board.pwm.regs events).pwm := by
  have hinv := Inv.after c vbat vbatSlope m.board.pwm.regs events
  generalize after c vbat vbatSlope m.board.pwm.regs events = s at *
  have hin : ∀ x ∈ calls, x.1.InRange := by
    intro x hx
    have hmem : x.1 ∈ calls.map Prod.fst := List.mem_map_of_mem hx
    rw [hcalls] at hmem
    obtain ⟨y, hy, heq⟩ := List.mem_map.mp hmem
    exact heq ▸ hinv.inRange hy
  have hdone := each_completes hin (by simp [Link.start]) (quiet_start m) hlink
  have hboard := congrArg Board.pwm (hardware_runCalls hdone)
  rw [pwm_foldl_operate hhal, hcalls] at hboard
  have hattempt : s.calls.foldl (fun u x ↦ attempt u x.2) (PwmUnit.afterSetup m.board.pwm.regs) =
      (s.calls.map fun x ↦ x.2.1).foldl perform (PwmUnit.afterSetup m.board.pwm.regs) := by
    rw [List.foldl_map]
    exact List.foldl_ext _ _ _ fun u x hx ↦ by rw [attempt, if_pos (htook x hx)]
  rw [hinv.pwm, hattempt]
  exact hboard

def twoCalls : List (Request × List Plan) :=
  [(.pinMode 3 1, [⟨[], [[.loop 1], [.loop 1], [.arrive 1]]⟩]),
    (.pwmDuty 1 1 229, [⟨[], [[.loop 1], [.loop 2], [.loop 1], [.arrive 1]]⟩])]

theorem calls_on_the_wire_two :
    (runCalls fixedHal twoCalls (Link.start blankSlave)).2.port.wire.slave.board.pwm =
      (after {} 0 0 clearedRegs [.page (.click .ledM10), .call .main true, .ws ⟨0, 0, 0⟩ 0,
        .call .ws true]).pwm := by
  refine calls_on_the_wire fixedHal ⟨fun _ _ _ ↦ rfl, fun _ _ ↦ rfl⟩ blankSlave {} 0 0
    [.page (.click .ledM10), .call .main true, .ws ⟨0, 0, 0⟩ 0, .call .ws true] ?_ twoCalls ?_ ?_
  · decide +kernel
  · decide +kernel
  · refine ⟨⟨?_, ?_, ?_, ?_⟩, ⟨?_, ?_, ?_, ?_⟩, trivial⟩
    all_goals decide +kernel

end Rover.System
