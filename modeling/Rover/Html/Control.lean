import Mathlib.Data.List.Induction
import Mathlib.Data.Rat.Floor

/-!
# The control page

`index.html` turns stick positions and clicks into messages for the server.
Its numbers are taken as exact.  Two of its timers send: one asks for `stats`,
the other sends the position of the stick unless `zero_count` says that nothing
has changed.
-/

namespace Rover.Html

inductive Message
  | stats
  | js (left right : ℚ)
  | led (pwm : ℚ)
  deriving DecidableEq

/-- The variables of the page, and the messages it has sent. -/
structure Page where
  jsLeft : ℚ := 0
  jsRight : ℚ := 0
  pwmScale : ℚ := 1
  ledPwm : ℚ := 100
  zeroCount : ℕ := 0
  sent : List Message := []

/-- `Math.round` rounds halves up. -/
def round (x : ℚ) : ℚ := ⌊x + 1 / 2⌋

def sign (x : ℚ) : ℚ := if 0 < x then 1 else if x < 0 then -1 else 0

def cm45 : ℚ := 7071 / 10000
def sm45 : ℚ := -7071 / 10000

/-- The value for one track; both are treated alike. -/
def track (scale v : ℚ) : ℚ :=
  let js := round v / cm45
  let js := if 100 < |js| then 100 * sign js else js
  round (js * scale)

namespace Page

/-- The callback of `JoyStick`. -/
def stick (stickX stickY : ℚ) (p : Page) : Page :=
  let y := round stickY
  let x := round stickX
  { p with
    jsLeft := track p.pwmScale (x * cm45 - y * sm45)
    jsRight := track p.pwmScale (x * sm45 + y * cm45) }

def sendLed (p : Page) : Page := { p with sent := p.sent ++ [.led p.ledPwm] }

def lowerLed (d : ℚ) (p : Page) : Page :=
  let led := p.ledPwm - d
  { p with ledPwm := if led ≤ 0 then 0 else led }.sendLed

def raiseLed (d : ℚ) (p : Page) : Page :=
  let led := p.ledPwm + d
  { p with ledPwm := if 100 ≤ led then 100 else led }.sendLed

def lowerScale (d : ℚ) (p : Page) : Page :=
  let scale := p.pwmScale + -d
  { p with pwmScale := if scale ≤ 0 then 0 else scale }

def raiseScale (d : ℚ) (p : Page) : Page :=
  let scale := p.pwmScale + d
  { p with pwmScale := if 1 ≤ scale then 1 else scale }

/-- The timer of 250 ms. -/
def statsTick (p : Page) : Page := { p with sent := p.sent ++ [.stats] }

def sendJs (p : Page) : Page := { p with sent := p.sent ++ [.js p.jsLeft p.jsRight] }

/-- The timer of 100 ms. -/
def jsTick (p : Page) : Page :=
  if p.jsLeft ≠ 0 ∧ p.jsRight ≠ 0 then { p with zeroCount := 0 }.sendJs
  else if p.zeroCount = 0 then { p with zeroCount := p.zeroCount + 1 }.sendJs
  else p

end Page

inductive Button
  | ledM10
  | ledM5
  | ledP5
  | ledP10
  | pwmScaleM10
  | pwmScaleM5
  | pwmScaleP5
  | pwmScaleP10
  deriving DecidableEq

/-- The buttons `led_m5` and `led_p5` change the light by 1. -/
def Button.click : Button → Page → Page
  | .ledM10 => Page.lowerLed 10
  | .ledM5 => Page.lowerLed 1
  | .ledP5 => Page.raiseLed 1
  | .ledP10 => Page.raiseLed 10
  | .pwmScaleM10 => Page.lowerScale (1 / 10)
  | .pwmScaleM5 => Page.lowerScale (5 / 100)
  | .pwmScaleP5 => Page.raiseScale (5 / 100)
  | .pwmScaleP10 => Page.raiseScale (1 / 10)

inductive Event
  | stick (x y : ℚ)
  | click (b : Button)
  | statsTick
  | jsTick
  deriving DecidableEq

namespace Page

def step (p : Page) : Event → Page
  | .stick x y => p.stick x y
  | .click b => b.click p
  | .statsTick => p.statsTick
  | .jsTick => p.jsTick

/-- The page after these events, from its loading on. -/
def after (events : List Event) : Page := events.foldl step {}

theorem after_append (xs ys : List Event) : after (xs ++ ys) = ys.foldl step (after xs) :=
  List.foldl_append

def pair (p : Page) : ℚ × ℚ := (p.jsLeft, p.jsRight)

/-- The pair of the last `js` message. -/
def lastPair (p : Page) : Option (ℚ × ℚ) :=
  (p.sent.filterMap fun m ↦ match m with | .js l r => some (l, r) | _ => none).getLast?

/-- A tick sends the current pair, unless that is (0, 0) and was sent last. -/
def Transmits (p : Page) : Prop :=
  (p.pair ≠ (0, 0) ∨ p.lastPair ≠ some p.pair →
      p.jsTick.sent = p.sent ++ [.js p.jsLeft p.jsRight]) ∧
    (p.jsTick.sent = p.sent → p.lastPair = some p.pair ∧ p.pair = (0, 0))

/-- A track stands still. -/
def HasZero (p : Page) : Prop := p.jsLeft = 0 ∨ p.jsRight = 0

instance (p : Page) : Decidable p.HasZero := inferInstanceAs (Decidable (_ ∨ _))

theorem lastPair_sendJs (p : Page) : p.sendJs.lastPair = some p.pair := by
  simp [lastPair, sendJs, pair]

theorem jsTick_of_not_hasZero {p : Page} (h : ¬ p.HasZero) :
    p.jsTick = { p with zeroCount := 0 }.sendJs := by
  rw [jsTick, if_pos (not_or.mp h)]

theorem jsTick_of_hasZero {p : Page} (h : p.HasZero) :
    p.jsTick = if p.zeroCount = 0 then { p with zeroCount := 1 }.sendJs else p := by
  rw [jsTick, if_neg fun hne ↦ h.elim hne.1 hne.2]
  split
  · next hzero => rw [hzero]
  · rfl

theorem zeroCount_jsTick (p : Page) : p.jsTick.zeroCount = 0 ↔ ¬ p.HasZero := by
  by_cases h : p.HasZero
  · rw [jsTick_of_hasZero h]
    split
    · simp [sendJs, h]
    · next hne => simp [h, hne]
  · rw [jsTick_of_not_hasZero h]
    simp [sendJs, h]

theorem jsTick_sends {p : Page} (h : p.HasZero → p.zeroCount = 0) :
    p.jsTick.sent = p.sent ++ [.js p.jsLeft p.jsRight] ∧ p.jsTick.lastPair = some p.pair := by
  by_cases hz : p.HasZero
  · rw [jsTick_of_hasZero hz, if_pos (h hz)]
    exact ⟨rfl, lastPair_sendJs _⟩
  · rw [jsTick_of_not_hasZero hz]
    exact ⟨rfl, lastPair_sendJs _⟩

theorem jsTick_silent {p : Page} (hz : p.HasZero) (h : p.zeroCount ≠ 0) : p.jsTick = p := by
  rw [jsTick_of_hasZero hz, if_neg h]

/-- What a tick that has to keep silent may not lack. -/
theorem transmits_iff (p : Page) :
    p.Transmits ↔
      (p.HasZero → p.zeroCount ≠ 0 → p.lastPair = some p.pair ∧ p.pair = (0, 0)) := by
  constructor
  · intro h hz hcount
    exact h.2 (by rw [jsTick_silent hz hcount])
  · intro h
    by_cases hsends : p.HasZero → p.zeroCount = 0
    · obtain ⟨hsent, -⟩ := jsTick_sends hsends
      exact ⟨fun _ ↦ hsent, fun heq ↦ absurd (hsent.symm.trans heq) (by simp)⟩
    · obtain ⟨hz, hcount⟩ := Classical.not_imp.mp hsends
      obtain ⟨hlast, hpair⟩ := h hz hcount
      exact ⟨fun hor ↦ (hor.elim (· hpair) (· hlast)).elim, fun _ ↦ ⟨hlast, hpair⟩⟩

/-! ## Between two ticks -/

theorem lastPair_of_sent {p q : Page} {m : Message} (hm : ∀ l r, m ≠ .js l r)
    (h : q.sent = p.sent ++ [m]) : q.lastPair = p.lastPair := by
  rw [lastPair, lastPair, h, List.filterMap_append]
  cases m with
  | js l r => exact absurd rfl (hm l r)
  | stats => simp
  | led pwm => simp

/-- The other events leave the sender alone. -/
theorem step_frame (p : Page) {e : Event} (he : e ≠ .jsTick) :
    (p.step e).zeroCount = p.zeroCount ∧ (p.step e).lastPair = p.lastPair := by
  cases e with
  | jsTick => exact absurd rfl he
  | stick x y => exact ⟨rfl, rfl⟩
  | statsTick => exact ⟨rfl, lastPair_of_sent (by simp) rfl⟩
  | click b =>
      cases b with
      | ledM10 => exact ⟨rfl, lastPair_of_sent (by simp) rfl⟩
      | ledM5 => exact ⟨rfl, lastPair_of_sent (by simp) rfl⟩
      | ledP5 => exact ⟨rfl, lastPair_of_sent (by simp) rfl⟩
      | ledP10 => exact ⟨rfl, lastPair_of_sent (by simp) rfl⟩
      | pwmScaleM10 => exact ⟨rfl, rfl⟩
      | pwmScaleM5 => exact ⟨rfl, rfl⟩
      | pwmScaleP5 => exact ⟨rfl, rfl⟩
      | pwmScaleP10 => exact ⟨rfl, rfl⟩

theorem foldl_frame (p : Page) {mid : List Event} (hmid : .jsTick ∉ mid) :
    (mid.foldl step p).zeroCount = p.zeroCount ∧ (mid.foldl step p).lastPair = p.lastPair := by
  induction mid generalizing p with
  | nil => exact ⟨rfl, rfl⟩
  | cons e mid ih =>
      obtain ⟨hcount, hlast⟩ := step_frame p (fun he ↦ hmid (by simp [he]) : e ≠ .jsTick)
      obtain ⟨hcount', hlast'⟩ := ih (p.step e) fun h ↦ hmid (List.mem_cons_of_mem e h)
      exact ⟨hcount'.trans hcount, hlast'.trans hlast⟩

theorem after_tick (pre : List Event) {mid : List Event} (hmid : .jsTick ∉ mid) :
    (after (pre ++ .jsTick :: mid)).zeroCount = (after pre).jsTick.zeroCount ∧
      (after (pre ++ .jsTick :: mid)).lastPair = (after pre).jsTick.lastPair := by
  rw [after_append]
  exact foldl_frame _ hmid

/-- Either there was no tick yet, or there is a last one. -/
theorem split_last_tick (events : List Event) :
    .jsTick ∉ events ∨ ∃ pre mid, events = pre ++ .jsTick :: mid ∧ .jsTick ∉ mid := by
  induction events using List.reverseRecOn with
  | nil => exact .inl (by simp)
  | append_singleton events e ih =>
      by_cases he : e = .jsTick
      · exact .inr ⟨events, [], by rw [he], by simp⟩
      · rcases ih with hno | ⟨pre, mid, rfl, hmid⟩
        · exact .inl (by simpa [hno] using fun h ↦ he h.symm)
        · refine .inr ⟨pre, mid ++ [e], by simp, ?_⟩
          simpa [hmid] using fun h ↦ he h.symm

/-! ## Whole runs -/

/-- No two ticks in a row find a track at rest, unless both find both tracks at
rest. -/
def RestsTogether (events : List Event) : Prop :=
  ∀ pre mid post, events = pre ++ .jsTick :: (mid ++ .jsTick :: post) → .jsTick ∉ mid →
    (after pre).HasZero → (after (pre ++ .jsTick :: mid)).HasZero →
      (after pre).pair = (0, 0) ∧ (after (pre ++ .jsTick :: mid)).pair = (0, 0)

theorem zeroCount_after {events : List Event} (h : .jsTick ∉ events) :
    (after events).zeroCount = 0 := (foldl_frame {} h).1

theorem exists_tick_of_zeroCount {events : List Event} (h : (after events).zeroCount ≠ 0) :
    ∃ pre mid, events = pre ++ .jsTick :: mid ∧ .jsTick ∉ mid ∧ (after pre).HasZero := by
  rcases split_last_tick events with hno | ⟨pre, mid, rfl, hmid⟩
  · exact absurd (zeroCount_after hno) h
  · refine ⟨pre, mid, rfl, hmid, ?_⟩
    by_contra hne
    exact h ((after_tick pre hmid).1.trans ((zeroCount_jsTick _).mpr hne))

theorem RestsTogether.of_append {xs : List Event} (ys : List Event) (h : RestsTogether (xs ++ ys)) :
    RestsTogether xs := by
  rintro pre mid post rfl
  exact h pre mid (post ++ ys) (by simp)

/-- As long as the tracks rest together, the last pair sent is that of the last
tick. -/
theorem lastPair_jsTick {pre : List Event} (h : RestsTogether (pre ++ [.jsTick])) :
    (after pre).jsTick.lastPair = some (after pre).pair := by
  induction hn : pre.length using Nat.strong_induction_on generalizing pre with
  | h n ih =>
      by_cases hsends : (after pre).HasZero → (after pre).zeroCount = 0
      · exact (jsTick_sends hsends).2
      · obtain ⟨hz, hcount⟩ := Classical.not_imp.mp hsends
        rw [jsTick_silent hz hcount]
        -- the tick before found a zero as well, so both pairs are (0, 0)
        obtain ⟨pre', mid, rfl, hmid, hz'⟩ := exists_tick_of_zeroCount hcount
        obtain ⟨hfirst, hsecond⟩ := h pre' mid [] (by simp) hmid hz' hz
        have hshort : RestsTogether (pre' ++ [.jsTick]) :=
          RestsTogether.of_append (mid ++ [.jsTick]) (by simpa using h)
        rw [(after_tick pre' hmid).2, hsecond, ← hfirst]
        exact ih pre'.length (by simp [← hn]) hshort rfl

theorem transmits_of_restsTogether {pre : List Event} (h : RestsTogether (pre ++ [.jsTick])) :
    (after pre).Transmits := by
  refine (transmits_iff _).mpr fun hz hcount ↦ ?_
  have hlast := lastPair_jsTick h
  rw [jsTick_silent hz hcount] at hlast
  refine ⟨hlast, ?_⟩
  obtain ⟨pre', mid, rfl, hmid, hz'⟩ := exists_tick_of_zeroCount hcount
  exact (h pre' mid [] (by simp) hmid hz' hz).2

/-- Every tick transmits as it should if and only if no two ticks in a row find
a track at rest, unless both find both tracks at rest. -/
theorem transmits_iff_restsTogether (events : List Event) :
    (∀ pre post, events = pre ++ .jsTick :: post → (after pre).Transmits) ↔
      RestsTogether events := by
  constructor
  · intro h pre mid post heq hmid hz hz'
    have hsecond := h (pre ++ .jsTick :: mid) post (by simp [heq])
    have hcount : (after (pre ++ .jsTick :: mid)).zeroCount ≠ 0 := by
      rw [(after_tick pre hmid).1]
      exact fun h0 ↦ (zeroCount_jsTick _).mp h0 hz
    obtain ⟨hlast, hpair⟩ := (transmits_iff _).mp hsecond hz' hcount
    refine ⟨?_, hpair⟩
    by_cases hsends : (after pre).zeroCount = 0
    · rw [(after_tick pre hmid).2, (jsTick_sends fun _ ↦ hsends).2, hpair] at hlast
      exact Option.some.inj hlast
    · exact ((transmits_iff _).mp (h pre _ heq) hz hsends).2
  · rintro h pre post rfl
    exact transmits_of_restsTogether (RestsTogether.of_append post (by simpa using h))

/-- The stick to the upper right makes the rover turn on its left track. -/
def turning : List Event := [.stick 50 50, .jsTick, .jsTick]

/-- The second tick sends nothing although the left track is at full speed. -/
theorem turning_not_transmitted :
    (after turning).pair = (100, 0) ∧ (after turning).sent = [.js 100 0] ∧
      ¬ ∀ pre post, turning = pre ++ .jsTick :: post → (after pre).Transmits := by
  refine ⟨by decide +kernel, by decide +kernel, fun h ↦ ?_⟩
  have hsecond := (h [.stick 50 50, .jsTick] [] rfl).1 (.inl (by decide +kernel))
  exact absurd hsecond (by decide +kernel)

end Page
end Rover.Html
