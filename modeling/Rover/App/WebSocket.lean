import Rover.App.Inputs

/-!
# WebSocket commands

`handle_ws` extracts the numbers of a command without looking at the state of
the stream, into variables without an initial value.
-/

namespace Rover.App

open Messages IStream

def TwoInts (r : List Byte) : Prop :=
  (scan (r.dropWhile isSpace)).Fits 32 true ∧
    (scan ((scan (r.dropWhile isSpace)).rest.dropWhile isSpace)).Fits 32 true

instance (r : List Byte) : Decidable (TwoInts r) := inferInstanceAs (Decidable (_ ∧ _))

/-- The effect of a message does not depend on what the variables held. -/
def Determined (str : List Byte) : Prop :=
  ∀ (locals locals' : WsLocals) connId a,
    handleWs locals connId str a = handleWs locals' connId str a

/-- A joystick command without two integers does not reach the queue. -/
def RejectsJs (str : List Byte) : Prop :=
  firstWord str = ascii "js" → ¬ TwoInts (afterWord str) →
    ∀ (locals : WsLocals) connId a, (handleWs locals connId str a).1.queued = []

section

variable (locals : WsLocals) (connId : BitVec 32) {str : List Byte} (a : MainApp)

theorem handleWs_js (h : firstWord str = ascii "js") :
    handleWs locals connId str a =
      let (left, ss) := (clean (afterWord str)).num 32 true
      let (right, _) := ss.num 32 true
      ({ app := a
         queued := [.js { leftY := left.getD locals.left * 5
                          rightY := right.getD locals.right * 5 }] }, none) := by
  obtain ⟨hword, hrest⟩ := word_start str
  have hne : firstWord str ≠ [] := by
    rw [h]
    decide
  have hstats : ¬ ascii "js" = ascii "stats" := by decide
  simp only [handleWs, hword, hrest hne, h, if_neg hstats, if_true]

theorem handleWs_led (h : firstWord str = ascii "led") :
    handleWs locals connId str a =
      (setLed (((clean (afterWord str)).num 32 false).1.getD locals.pwm) a, none) := by
  obtain ⟨hword, hrest⟩ := word_start str
  have hne : firstWord str ≠ [] := by
    rw [h]
    decide
  have hstats : ¬ ascii "led" = ascii "stats" := by decide
  have hjs : ¬ ascii "led" = ascii "js" := by decide
  simp only [handleWs, hword, hrest hne, h, if_neg hstats, if_neg hjs, if_true]

theorem handleWs_of_ne (hjs : firstWord str ≠ ascii "js") (hled : firstWord str ≠ ascii "led") :
    handleWs locals connId str a =
      ({ app := a }, if firstWord str = ascii "stats" then some (connId, stats a) else none) := by
  obtain ⟨hword, -⟩ := word_start str
  simp only [handleWs, hword, if_neg hjs, if_neg hled]
  split <;> rfl

theorem reply_handleWs :
    (handleWs locals connId str a).2 =
      if firstWord str = ascii "stats" then some (connId, stats a) else none := by
  by_cases hjs : firstWord str = ascii "js"
  · rw [handleWs_js locals connId a hjs, hjs, if_neg (by decide)]
  · by_cases hled : firstWord str = ascii "led"
    · rw [handleWs_led locals connId a hled, hled, if_neg (by decide)]
    · rw [handleWs_of_ne locals connId a hjs hled]

end

theorem determined_js {str : List Byte} (h : firstWord str = ascii "js")
    (hints : TwoInts (afterWord str)) : Determined str := by
  intro locals locals' connId a
  obtain ⟨hleft, hright⟩ := hints
  rw [handleWs_js locals connId a h, handleWs_js locals' connId a h]
  simp only [num_clean_of_fits hleft, num_clean_of_fits hright, Option.getD_some]

theorem queued_js {str : List Byte} (h : firstWord str = ascii "js") (locals : WsLocals)
    (connId : BitVec 32) (a : MainApp) : (handleWs locals connId str a).1.queued ≠ [] := by
  rw [handleWs_js locals connId a h]
  exact List.cons_ne_nil _ _

theorem determined_led_iff {str : List Byte} (h : firstWord str = ascii "led") :
    Determined str ↔ blank (afterWord str) = false := by
  constructor
  · intro hdet
    by_contra hblank
    have hnone := num_clean_of_blank (by simpa using hblank) 32 false
    have heq := hdet ⟨0, 0, 0⟩ ⟨0, 0, 1⟩ 0 (initial {} 0 0)
    rw [handleWs_led _ _ _ h, handleWs_led _ _ _ h, hnone] at heq
    have hled := congrArg (fun o ↦ o.1.app.ledPwm) heq
    exact absurd hled (by decide)
  · intro hblank locals locals' connId a
    rw [handleWs_led locals connId a h, handleWs_led locals' connId a h, num_clean hblank]
    rfl

/-- Which messages `handle_ws` treats as it should: a joystick command must
come with two integers, and a light command must not be followed by nothing. -/
theorem handleWs_safe_iff (str : List Byte) :
    Determined str ∧ RejectsJs str ↔
      (firstWord str = ascii "js" → TwoInts (afterWord str)) ∧
        (firstWord str = ascii "led" → blank (afterWord str) = false) := by
  constructor
  · rintro ⟨hdet, hrej⟩
    refine ⟨fun h ↦ ?_, fun h ↦ (determined_led_iff h).mp hdet⟩
    by_contra hints
    exact queued_js h ⟨0, 0, 0⟩ 0 _ (hrej h hints ⟨0, 0, 0⟩ 0 (initial {} 0 0))
  · rintro ⟨hjs, hled⟩
    refine ⟨?_, fun h hints ↦ absurd (hjs h) hints⟩
    by_cases h : firstWord str = ascii "js"
    · exact determined_js h (hjs h)
    · by_cases h' : firstWord str = ascii "led"
      · exact (determined_led_iff h').mpr (hled h')
      · intro locals locals' connId a
        rw [handleWs_of_ne locals connId a h h', handleWs_of_ne locals' connId a h h']

/-- The bare word `js` sends the rover wherever the stack says, and `js 5 x` is
not rejected either. -/
theorem bare_js_not_safe :
    ¬ Determined (ascii "js") ∧ ¬ RejectsJs (ascii "js") ∧ ¬ RejectsJs (ascii "js 5 x") := by
  refine ⟨fun hdet ↦ ?_, fun hrej ↦ ?_, fun hrej ↦ ?_⟩
  · have heq := congrArg (fun o ↦ o.1.queued) (hdet ⟨0, 0, 0⟩ ⟨100, 100, 0⟩ 0 (initial {} 0 0))
    exact absurd heq (by decide)
  · exact absurd (hrej (by decide) (by decide) ⟨0, 0, 0⟩ 0 (initial {} 0 0)) (by decide)
  · exact absurd (hrej (by decide) (by decide) ⟨0, 0, 0⟩ 0 (initial {} 0 0)) (by decide)

end Rover.App
