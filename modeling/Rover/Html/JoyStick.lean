import Rover.Html.Range

/-!
# The stick

`joystick.js` follows the mouse or a finger while it is pressed, and calls the
page back with percentages.  Coordinates are those of the canvas.  Between the
stick and the motors stand the callback and the timer of the page.
-/

namespace Rover.Html

structure Canvas where
  width : ℕ
  height : ℕ

/-- That of the page. -/
def canvas : Canvas := ⟨180, 180⟩

def internalRadius : ℚ := 10

namespace Canvas

variable (c : Canvas)

def maxMoveStick : ℚ := c.width / 2 - internalRadius / 2
def centerX : ℚ := c.width / 2
def centerY : ℚ := c.height / 2

end Canvas

/-- `toFixed` rounds halves away from zero. -/
def toFixed (x : ℚ) : ℚ := if x < 0 then -round (-x) else round x

structure JoyStick where
  pressed : Bool := false
  movedX : ℚ
  movedY : ℚ

/-- What the browser reports to the page.  A mouse moves on the canvas
wherever it is, a finger if it was put down there. -/
inductive Input
  | down
  | move (x y : ℚ) (onCanvas : Bool)
  | up
  | click (b : Button)
  | statsTick
  | jsTick
  deriving DecidableEq

namespace JoyStick

section

variable (c : Canvas) (s : JoyStick)

/-- The stick is drawn at the edge when it comes near it. -/
def drawInternal : JoyStick :=
  let movedX := if s.movedX ≤ internalRadius then internalRadius / 2 else s.movedX
  let movedX := if c.width - internalRadius ≤ movedX + internalRadius then
    c.width - internalRadius / 2 else movedX
  let movedY := if s.movedY ≤ internalRadius then internalRadius / 2 else s.movedY
  let movedY := if c.height - internalRadius < movedY + internalRadius then
    c.height - internalRadius / 2 else movedY
  { s with movedX := movedX, movedY := movedY }

def x : ℚ := toFixed (100 * ((s.movedX - c.centerX) / c.maxMoveStick))

def y : ℚ := toFixed (100 * ((s.movedY - c.centerY) / c.maxMoveStick) * -1)

/-- The callback. -/
def report : JoyStick × List Event := (s, [.stick (s.x c) (s.y c)])

def center : JoyStick := { s with movedX := c.centerX, movedY := c.centerY }

/-- The stick afterwards, and what happens to the page. -/
def step : Input → JoyStick × List Event
  | .down => ({ s with pressed := true }, [])
  | .move x y onCanvas =>
      if s.pressed && onCanvas then
        ({ s with movedX := x, movedY := y }.drawInternal c).report c
      else (s, [])
  | .up => (({ s with pressed := false }.center c).drawInternal c).report c
  | .click b => (s, [.click b])
  | .statsTick => (s, [.statsTick])
  | .jsTick => (s, [.jsTick])

end

def start (c : Canvas) : JoyStick := drawInternal c ⟨false, c.centerX, c.centerY⟩

def run (c : Canvas) (inputs : List Input) : JoyStick × List Event :=
  inputs.foldl (fun s i ↦ ((s.1.step c i).1, s.2 ++ (s.1.step c i).2)) (start c, [])

end JoyStick

namespace JoyStick

theorem run_concat (c : Canvas) (inputs : List Input) (i : Input) :
    run c (inputs ++ [i]) =
      (((run c inputs).1.step c i).1, (run c inputs).2 ++ ((run c inputs).1.step c i).2) :=
  List.foldl_concat ..

/-! ## The edge -/

/-- A coordinate stays half the size of the stick away from the edges. -/
theorem abs_edge_sub {n x : ℚ} {far : Prop} [Decidable far] (hn : 10 ≤ n)
    (hfar : ¬ far →
      (if x ≤ internalRadius then internalRadius / 2 else x) + internalRadius ≤
        n - internalRadius) :
    |(if far then n - internalRadius / 2
        else if x ≤ internalRadius then internalRadius / 2 else x) - n / 2| ≤
      n / 2 - internalRadius / 2 := by
  have hr : internalRadius = 10 := rfl
  by_cases h : far
  · rw [if_pos h, abs_le]
    constructor <;> linarith
  · have hle := hfar h
    rw [if_neg h, abs_le]
    by_cases hx : x ≤ internalRadius
    · rw [if_pos hx] at hle ⊢
      constructor <;> linarith
    · rw [if_neg hx] at hle ⊢
      constructor <;> linarith

theorem drawInternal_bounds {c : Canvas} (hw : 10 ≤ c.width) (hh : 10 ≤ c.height) (s : JoyStick) :
    |(s.drawInternal c).movedX - c.centerX| ≤ c.maxMoveStick ∧
      |(s.drawInternal c).movedY - c.centerY| ≤ c.height / 2 - internalRadius / 2 := by
  have hw' : (10 : ℚ) ≤ c.width := by exact_mod_cast hw
  have hh' : (10 : ℚ) ≤ c.height := by exact_mod_cast hh
  exact ⟨abs_edge_sub hw' fun hfar ↦ (not_le.mp hfar).le, abs_edge_sub hh' fun hfar ↦ not_lt.mp hfar⟩

theorem isPercent_toFixed {v : ℚ} (h : |v| ≤ 100) : IsPercent (toFixed v) := by
  rw [toFixed]
  split
  · obtain ⟨l, hl, hge, hle⟩ := isPercent_round ((abs_neg v).trans_le h)
    exact ⟨-l, by rw [hl, Int.cast_neg], by omega, by omega⟩
  · exact isPercent_round h

/-- On a canvas that is not higher than wide both values are percentages. -/
theorem isPercent_report {c : Canvas} (hw : 10 < c.width) (hh : 10 ≤ c.height)
    (hle : c.height ≤ c.width) (s : JoyStick) :
    IsPercent ((s.drawInternal c).x c) ∧ IsPercent ((s.drawInternal c).y c) := by
  have hw' : (10 : ℚ) < c.width := by exact_mod_cast hw
  have hle' : (c.height : ℚ) ≤ c.width := by exact_mod_cast hle
  obtain ⟨hx, hy⟩ := drawInternal_bounds hw.le hh s
  have hpos : 0 < c.maxMoveStick := by
    rw [Canvas.maxMoveStick, internalRadius]
    linarith
  have hy' : |(s.drawInternal c).movedY - c.centerY| ≤ c.maxMoveStick := by
    refine hy.trans ?_
    rw [Canvas.maxMoveStick]
    linarith
  have hscale {d : ℚ} (hd : |d| ≤ c.maxMoveStick) : |100 * (d / c.maxMoveStick)| ≤ 100 := by
    rw [abs_mul, abs_div, abs_of_pos hpos, abs_of_pos (by norm_num : (0 : ℚ) < 100)]
    have hone : |d| / c.maxMoveStick ≤ 1 := (div_le_one hpos).mpr hd
    linarith
  refine ⟨isPercent_toFixed (hscale hx), isPercent_toFixed ?_⟩
  rw [mul_neg_one, abs_neg]
  exact hscale hy'

/-- The values of the stick are whole percentages, whatever the pointer does. -/
theorem stick_in_range (inputs : List Input) :
    ∀ x y, .stick x y ∈ (run canvas inputs).2 → IsPercent x ∧ IsPercent y := by
  have hreport := isPercent_report (c := canvas) (by decide) (by decide) (by decide)
  induction inputs using List.reverseRecOn with
  | nil => exact fun x y h ↦ absurd h List.not_mem_nil
  | append_singleton inputs i ih =>
      intro x y h
      rw [run_concat] at h
      rcases List.mem_append.mp h with h | h
      · exact ih x y h
      · generalize (run canvas inputs).1 = s at h
        cases i with
        | down => exact absurd h List.not_mem_nil
        | click b => simp [step] at h
        | statsTick => simp [step] at h
        | jsTick => simp [step] at h
        | up =>
            obtain ⟨rfl, rfl⟩ := Event.stick.inj (List.mem_singleton.mp h)
            exact hreport _
        | move x' y' onCanvas =>
            rw [step] at h
            split at h
            · obtain ⟨rfl, rfl⟩ := Event.stick.inj (List.mem_singleton.mp h)
              exact hreport _
            · exact absurd h List.not_mem_nil

/-- Pressed and pulled to a corner. -/
theorem stick_in_range_corner :
    (run canvas [.down, .move 500 (-20) true]).2 = [.stick 100 100] ∧ IsPercent 100 := by
  have hrun : (run canvas [.down, .move 500 (-20) true]).2 = [.stick 100 100] := by decide +kernel
  exact ⟨hrun, (stick_in_range [.down, .move 500 (-20) true] 100 100 (by simp [hrun])).1⟩

/-! ## Letting go -/

theorem drawInternal_center {c : Canvas} (hw : 40 < c.width) (hh : 40 ≤ c.height) (s : JoyStick) :
    (s.center c).drawInternal c = s.center c := by
  have hw' : (40 : ℚ) < c.width := by exact_mod_cast hw
  have hh' : (40 : ℚ) ≤ c.height := by exact_mod_cast hh
  have hr : internalRadius = 10 := rfl
  have hcx : (s.center c).movedX = c.width / 2 := rfl
  have hcy : (s.center c).movedY = c.height / 2 := rfl
  have hleft : ¬ (s.center c).movedX ≤ internalRadius := by linarith
  have hright : ¬ c.width - internalRadius ≤ (s.center c).movedX + internalRadius := by linarith
  have htop : ¬ (s.center c).movedY ≤ internalRadius := by linarith
  have hbottom : ¬ c.height - internalRadius < (s.center c).movedY + internalRadius := by linarith
  simp only [drawInternal, if_neg hleft, if_neg hright, if_neg htop, if_neg hbottom]

theorem report_center (c : Canvas) (s : JoyStick) :
    (s.center c).report c = (s.center c, [.stick 0 0]) := by
  have hzero : toFixed 0 = 0 := by decide +kernel
  simp [report, x, y, center, hzero]

theorem step_up (s : JoyStick) :
    s.step canvas .up = (({ s with pressed := false } : JoyStick).center canvas, [.stick 0 0]) := by
  rw [step, drawInternal_center (by decide) (by decide), report_center]

end JoyStick

/-- The stick is at rest. -/
def Event.Centred (e : Event) : Prop := ∀ x y, e = .stick x y → x = 0 ∧ y = 0

/-- After it was let go the stick keeps still, until it is pressed again. -/
theorem JoyStick.run_up (pre : List Input) {post : List Input} (h : .down ∉ post) :
    ∃ rest, (run canvas (pre ++ .up :: post)).2 = (run canvas pre).2 ++ .stick 0 0 :: rest ∧
      (run canvas (pre ++ .up :: post)).1.pressed = false ∧
      (∀ e ∈ rest, e.Centred) ∧ (.jsTick ∈ rest ↔ .jsTick ∈ post) := by
  induction post using List.reverseRecOn with
  | nil =>
      refine ⟨[], ?_, ?_, by simp, by simp⟩
      · rw [run_concat, step_up]
      · rw [run_concat, step_up]
        rfl
  | append_singleton post i ih =>
      obtain ⟨rest, hevents, hpressed, hrest, htick⟩ := ih fun hd ↦ h (List.mem_append_left _ hd)
      have hsplit : pre ++ .up :: (post ++ [i]) = pre ++ .up :: post ++ [i] := by simp
      rw [hsplit, run_concat, hevents]
      generalize (run canvas (pre ++ .up :: post)).1 = s at hpressed ⊢
      have hconcat {e : Event} (he : e.Centred) : ∀ e' ∈ rest ++ [e], e'.Centred := by
        intro e' he'
        rcases List.mem_append.mp he' with he' | he'
        · exact hrest e' he'
        · exact List.mem_singleton.mp he' ▸ he
      cases i with
      | down => exact absurd (by simp) h
      | move x y onCanvas =>
          refine ⟨rest, ?_, ?_, hrest, by simp [htick]⟩ <;> simp [step, hpressed]
      | up =>
          rw [step_up]
          refine ⟨rest ++ [.stick 0 0], by simp, rfl, hconcat fun x y he ↦ ?_, by simp [htick]⟩
          obtain ⟨rfl, rfl⟩ := Event.stick.inj he
          exact ⟨rfl, rfl⟩
      | click b =>
          exact ⟨rest ++ [.click b], by simp [step], hpressed, hconcat (by simp [Event.Centred]),
            by simp [htick]⟩
      | statsTick =>
          exact ⟨rest ++ [.statsTick], by simp [step], hpressed, hconcat (by simp [Event.Centred]),
            by simp [htick]⟩
      | jsTick =>
          exact ⟨rest ++ [.jsTick], by simp [step], hpressed, hconcat (by simp [Event.Centred]),
            by simp⟩

namespace Page

/-- The pairs that were sent. -/
def pairs (p : Page) : List (ℚ × ℚ) :=
  p.sent.filterMap fun m ↦ match m with | .js l r => some (l, r) | _ => none

theorem lastPair_eq (p : Page) : p.lastPair = p.pairs.getLast? := rfl

theorem pairs_of_sent {p q : Page} {m : Message} (hm : ∀ l r, m ≠ .js l r)
    (h : q.sent = p.sent ++ [m]) : q.pairs = p.pairs := by
  rw [pairs, pairs, h, List.filterMap_append]
  cases m with
  | js l r => exact absurd rfl (hm l r)
  | stats => simp
  | led pwm => simp

theorem track_zero (scale : ℚ) : track scale 0 = 0 := by
  have hround : round 0 = 0 := by decide +kernel
  have hjs : round 0 / cm45 = 0 := by rw [hround, zero_div]
  have habs : ¬ (100 : ℚ) < |0| := by norm_num
  rw [track, hjs]
  simp only [if_neg habs, zero_mul, hround]

theorem pair_stick_zero (p : Page) : (p.stick 0 0).pair = (0, 0) := by
  have hround : round 0 = 0 := by decide +kernel
  simp only [pair, stick, hround, zero_mul, sub_zero, add_zero, track_zero]

theorem step_of_ne_jsTick {p : Page} (hp : p.pair = (0, 0)) {e : Event} (he : e.Centred)
    (hne : e ≠ .jsTick) : (p.step e).pair = (0, 0) ∧ (p.step e).pairs = p.pairs := by
  cases e with
  | jsTick => exact absurd rfl hne
  | stick x y =>
      obtain ⟨rfl, rfl⟩ := he x y rfl
      exact ⟨pair_stick_zero p, rfl⟩
  | statsTick => exact ⟨hp, pairs_of_sent (by simp) rfl⟩
  | click b =>
      cases b with
      | ledM10 => exact ⟨hp, pairs_of_sent (by simp) rfl⟩
      | ledM5 => exact ⟨hp, pairs_of_sent (by simp) rfl⟩
      | ledP5 => exact ⟨hp, pairs_of_sent (by simp) rfl⟩
      | ledP10 => exact ⟨hp, pairs_of_sent (by simp) rfl⟩
      | pwmScaleM10 => exact ⟨hp, rfl⟩
      | pwmScaleM5 => exact ⟨hp, rfl⟩
      | pwmScaleP5 => exact ⟨hp, rfl⟩
      | pwmScaleP10 => exact ⟨hp, rfl⟩

/-- One event while the tracks are at rest. -/
theorem step_centred {p : Page} (hp : p.pair = (0, 0)) {e : Event} (he : e.Centred) :
    (p.step e).pair = (0, 0) ∧
      (p.step e).pairs = p.pairs ++ (if e = .jsTick ∧ p.zeroCount = 0 then [(0, 0)] else []) ∧
      (p.step e).zeroCount = if e = .jsTick ∧ p.zeroCount = 0 then 1 else p.zeroCount := by
  by_cases htick : e = .jsTick
  · subst htick
    have hzero : p.HasZero := .inl (Prod.mk.inj hp).1
    simp only [true_and]
    by_cases hcount : p.zeroCount = 0
    · rw [if_pos hcount, if_pos hcount, step, jsTick_of_hasZero hzero, if_pos hcount, ← hp]
      refine ⟨rfl, ?_, rfl⟩
      rw [pairs, pairs, sendJs, List.filterMap_append]
      rfl
    · rw [if_neg hcount, if_neg hcount, step, jsTick_silent hzero hcount, List.append_nil]
      exact ⟨hp, rfl, rfl⟩
  · obtain ⟨hpair, hpairs⟩ := step_of_ne_jsTick hp he htick
    have hno : ¬ (e = .jsTick ∧ p.zeroCount = 0) := fun h ↦ htick h.1
    rw [if_neg hno, if_neg hno, List.append_nil]
    exact ⟨hpair, hpairs, (step_frame p htick).1⟩

theorem foldl_centred {p : Page} (hp : p.pair = (0, 0)) {es : List Event}
    (hes : ∀ e ∈ es, e.Centred) :
    (es.foldl step p).pair = (0, 0) ∧
      (es.foldl step p).pairs =
        p.pairs ++ if .jsTick ∈ es ∧ p.zeroCount = 0 then [(0, 0)] else [] := by
  induction es generalizing p with
  | nil => simp [hp]
  | cons e es ih =>
      obtain ⟨hpair, hpairs, hcount⟩ := step_centred hp (hes e List.mem_cons_self)
      obtain ⟨hpair', hpairs'⟩ := ih hpair fun e' he' ↦ hes e' (List.mem_cons_of_mem e he')
      refine ⟨hpair', ?_⟩
      rw [List.foldl_cons, hpairs', hpairs, hcount, List.append_assoc]
      congr 1
      by_cases hzero : p.zeroCount = 0
      · by_cases htick : e = .jsTick
        · simp [hzero, htick]
        · simp [hzero, htick, Ne.symm htick]
      · simp [hzero]

end Page

/-- The page after these inputs. -/
def pageAfter (inputs : List Input) : Page := Page.after (JoyStick.run canvas inputs).2

/-- The run from the moment the stick was let go. -/
theorem rest_after_up (pre : List Input) {post : List Input} (h : .down ∉ post) :
    (pageAfter (pre ++ .up :: post)).pair = (0, 0) ∧
      (pageAfter (pre ++ .up :: post)).pairs = (pageAfter pre).pairs ++
        if .jsTick ∈ post ∧ (pageAfter pre).zeroCount = 0 then [(0, 0)] else [] := by
  obtain ⟨rest, hevents, -, hrest, htick⟩ := JoyStick.run_up pre h
  obtain ⟨hpair, hpairs⟩ := Page.foldl_centred (Page.pair_stick_zero (pageAfter pre)) hrest
  have hafter : pageAfter (pre ++ .up :: post) =
      rest.foldl Page.step ((pageAfter pre).stick 0 0) := by
    rw [pageAfter, hevents, Page.after_append]
    rfl
  simp only [htick] at hpairs
  rw [hafter]
  exact ⟨hpair, hpairs⟩

end Rover.Html
