import Rover.Html.JoyStick
import Rover.System.Outputs

/-!
# Hands off

What the rover does when the driver lets the stick go.
-/

namespace Rover.System

open App Html

/-- When the stick was let go, the motors stop with the next tick of the page,
unless the last tick before found a track at rest already: then the command
before stays in force until the watchdog ends it. -/
theorem hands_off (c : Config) (vbat vbatSlope : ℚ) (regs : Slave.Regs) (events : List Event)
    (pre : List Input) {post : List Input} (hpost : .down ∉ post)
    (hpage : events.filterMap Event.html = (JoyStick.run canvas (pre ++ .up :: post)).2)
    (hconn : .disconnect ∉ events)
    (hserver : (after c vbat vbatSlope regs events).toServer = [])
    (hqueue : (after c vbat vbatSlope regs events).queue = [])
    (hidle : (after c vbat vbatSlope regs events).pending .main = [])
    (htook : ∀ x ∈ (after c vbat vbatSlope regs events).mainCalls, x.2 = true)
    (hudp : ∀ x ∈ (after c vbat vbatSlope regs events).handled, x.1 ≠ .udp) :
    motors (after c vbat vbatSlope regs events).pwm.regs =
      if 500 ≤ timersSince (after c vbat vbatSlope regs events).msgs ∨
          .jsTick ∈ post ∧ (pageAfter pre).zeroCount = 0 then .stopped
      else match (pageAfter pre).lastPair with
        | none => motors regs
        | some (l, r) => ofPercent c l.num r.num := by
  have hall := served_append_toServer c vbat vbatSlope regs hconn
  rw [hserver, List.append_nil] at hall
  have hpairs := (rest_after_up pre hpost).2
  rw [pageAfter, ← hpage, ← page_after c vbat vbatSlope regs] at hpairs
  have hmotors := (Inv.after c vbat vbatSlope regs events).motors_of_lastPair
    (Ticks.after c vbat vbatSlope regs events) (flow_after c vbat vbatSlope regs events) hall hqueue
    hidle htook hudp
  rw [hmotors, Page.lastPair_eq, hpairs]
  have hzero : ofPercent c (0 : ℚ).num (0 : ℚ).num = .stopped := by simp [ofPercent, Motors.stopped]
  by_cases hsilent : 500 ≤ timersSince (after c vbat vbatSlope regs events).msgs
  · rw [if_pos hsilent, if_pos (Or.inl hsilent)]
  · by_cases htick : .jsTick ∈ post ∧ (pageAfter pre).zeroCount = 0
    · rw [if_neg hsilent, if_pos htick, if_pos (Or.inr htick), List.getLast?_concat]
      exact hzero
    · have hor := not_or.mpr ⟨hsilent, htick⟩
      rw [if_neg hsilent, if_neg htick, if_neg hor, List.append_nil, ← Page.lastPair_eq]
      cases (pageAfter pre).lastPair <;> rfl

/-- The stick is pushed forward and let go. -/
def pushed : List Input := [.down, .move 90 0 true, .jsTick]

def letGoEvents : List Event :=
  List.replicate 10 (.call .main true) ++
    [.page (.stick 0 100), .page .jsTick, .ws ⟨0, 0, 0⟩ 0, .main {}] ++
    List.replicate 4 (.call .main true) ++
    [.page (.stick 0 0), .page .jsTick, .ws ⟨0, 0, 0⟩ 0, .main {}] ++
    List.replicate 4 (.call .main true)

theorem hands_off_pushed :
    motors (after {} 0 0 Slave.clearedRegs letGoEvents).pwm.regs = .stopped := by
  refine (hands_off {} 0 0 Slave.clearedRegs letGoEvents pushed
    (by simp : Input.down ∉ [Input.jsTick]) ?_
    (by simp [letGoEvents]) ?_ ?_ ?_ ?_ ?_).trans (if_pos (Or.inr ?_))
  all_goals decide +kernel

end Rover.System
