import Rover.App.Truncation
import Rover.Html.Control

/-!
# The range of the page's commands

Whatever is clicked and wherever the stick is, the page asks for at most full
power, and the server computes a duty of at most one byte from it.
-/

namespace Rover.Html

open App

/-- An integer from -100 to 100. -/
def IsPercent (x : ℚ) : Prop := ∃ l : ℤ, x = l ∧ -100 ≤ l ∧ l ≤ 100

/-- A natural number up to 100. -/
def IsLevel (x : ℚ) : Prop := ∃ n : ℕ, x = n ∧ n ≤ 100

def Message.InRange : Message → Prop
  | .stats => True
  | .js left right => IsPercent left ∧ IsPercent right
  | .led pwm => IsLevel pwm

/-- What every event keeps. -/
structure Page.InRange (p : Page) : Prop where
  scale_nonneg : 0 ≤ p.pwmScale
  scale_le : p.pwmScale ≤ 1
  left : IsPercent p.jsLeft
  right : IsPercent p.jsRight
  led : IsLevel p.ledPwm
  sent : ∀ m ∈ p.sent, m.InRange

/-! ## The stick -/

theorem isPercent_round {x : ℚ} (h : |x| ≤ 100) : IsPercent (round x) := by
  obtain ⟨hge, hle⟩ := abs_le.mp h
  refine ⟨⌊x + 1 / 2⌋, rfl, ?_, ?_⟩
  · rw [Int.le_floor]
    push_cast
    linarith
  · rw [← Int.lt_add_one_iff, Int.floor_lt]
    push_cast
    linarith

theorem abs_sign_le (x : ℚ) : |sign x| ≤ 1 := by
  unfold sign
  split_ifs <;> norm_num

/-- The value is limited before it is scaled, and the scale is at most 1. -/
theorem isPercent_track {scale : ℚ} (hge : 0 ≤ scale) (hle : scale ≤ 1) (v : ℚ) :
    IsPercent (track scale v) := by
  have hlimit (js : ℚ) : |if 100 < |js| then 100 * sign js else js| ≤ 100 := by
    split_ifs with hbig
    · have hsign := abs_sign_le js
      rw [abs_mul]
      norm_num
      linarith
    · exact not_lt.mp hbig
  apply isPercent_round
  rw [abs_mul, abs_of_nonneg hge]
  calc _ ≤ (100 : ℚ) * 1 := mul_le_mul (hlimit _) hle hge (by norm_num)
    _ = 100 := mul_one 100

/-! ## The buttons -/

theorem isLevel_lower {x : ℚ} (h : IsLevel x) (d : ℕ) :
    IsLevel (if x - d ≤ 0 then 0 else x - d) := by
  obtain ⟨n, rfl, hn⟩ := h
  split_ifs with hneg
  · exact ⟨0, by norm_num, by decide⟩
  · have hlt : d < n := by
      have hpos : (d : ℚ) < n := by linarith
      exact_mod_cast hpos
    exact ⟨n - d, by push_cast [hlt.le]; ring, by omega⟩

theorem isLevel_raise {x : ℚ} (h : IsLevel x) (d : ℕ) :
    IsLevel (if 100 ≤ x + d then 100 else x + d) := by
  obtain ⟨n, rfl, hn⟩ := h
  split_ifs with hbig
  · exact ⟨100, by norm_num, le_rfl⟩
  · have hlt : n + d < 100 := by
      have hlt : (n : ℚ) + d < 100 := not_le.mp hbig
      exact_mod_cast hlt
    exact ⟨n + d, by push_cast; ring, by omega⟩

namespace Page.InRange

variable {p : Page}

theorem sent_concat (h : p.InRange) {new : Message} (hnew : new.InRange) :
    ∀ m ∈ p.sent ++ [new], m.InRange := by
  intro m hm
  rcases List.mem_append.mp hm with hm | hm
  · exact h.sent m hm
  · rw [List.mem_singleton.mp hm]
    exact hnew

theorem sendLed (h : p.InRange) : p.sendLed.InRange :=
  { h with sent := h.sent_concat h.led }

theorem sendJs (h : p.InRange) : p.sendJs.InRange :=
  { h with sent := h.sent_concat ⟨h.left, h.right⟩ }

theorem lowerLed (h : p.InRange) (d : ℕ) : (p.lowerLed d).InRange :=
  sendLed { h with led := isLevel_lower h.led d }

theorem raiseLed (h : p.InRange) (d : ℕ) : (p.raiseLed d).InRange :=
  sendLed { h with led := isLevel_raise h.led d }

theorem lowerScale (h : p.InRange) {d : ℚ} (hd : 0 ≤ d) : (p.lowerScale d).InRange := by
  have hle := h.scale_le
  refine { h with scale_nonneg := ?_, scale_le := ?_ }
  · simp only [Page.lowerScale]
    split_ifs with hneg
    · exact le_rfl
    · exact (not_le.mp hneg).le
  · simp only [Page.lowerScale]
    split_ifs
    · norm_num
    · linarith

theorem raiseScale (h : p.InRange) {d : ℚ} (hd : 0 ≤ d) : (p.raiseScale d).InRange := by
  have hge := h.scale_nonneg
  refine { h with scale_nonneg := ?_, scale_le := ?_ }
  · simp only [Page.raiseScale]
    split_ifs
    · norm_num
    · linarith
  · simp only [Page.raiseScale]
    split_ifs with hbig
    · exact le_rfl
    · exact (not_le.mp hbig).le

theorem click (h : p.InRange) (b : Button) : (b.click p).InRange := by
  cases b with
  | ledM10 => exact h.lowerLed 10
  | ledM5 => exact_mod_cast h.lowerLed 1
  | ledP5 => exact_mod_cast h.raiseLed 1
  | ledP10 => exact h.raiseLed 10
  | pwmScaleM10 => exact h.lowerScale (by norm_num)
  | pwmScaleM5 => exact h.lowerScale (by norm_num)
  | pwmScaleP5 => exact h.raiseScale (by norm_num)
  | pwmScaleP10 => exact h.raiseScale (by norm_num)

theorem jsTick (h : p.InRange) : p.jsTick.InRange := by
  unfold Page.jsTick
  split_ifs
  · exact sendJs { h with }
  · exact sendJs { h with }
  · exact h

theorem step (h : p.InRange) (e : Event) : (p.step e).InRange := by
  cases e with
  | stick x y =>
      exact { h with
        left := isPercent_track h.scale_nonneg h.scale_le _
        right := isPercent_track h.scale_nonneg h.scale_le _ }
  | click b => exact h.click b
  | statsTick =>
      refine { h with sent := ?_ }
      intro m hm
      rcases List.mem_append.mp hm with hm | hm
      · exact h.sent m hm
      · rw [List.mem_singleton.mp hm]
        trivial
  | jsTick => exact h.jsTick

end Page.InRange

theorem inRange_after (events : List Event) : (Page.after events).InRange := by
  refine List.foldlRecOn events Page.step ?_ fun p hp e _ ↦ hp.step e
  exact
    { scale_nonneg := by norm_num
      scale_le := le_rfl
      left := ⟨0, by norm_num, by decide, by decide⟩
      right := ⟨0, by norm_num, by decide, by decide⟩
      led := ⟨100, by norm_num, le_rfl⟩
      sent := fun m hm ↦ absurd hm List.not_mem_nil }

/-! ## The server -/

section

variable (a : Scaled) (locals : WsLocals) (connId : BitVec 32)

/-- The motors get `floor (|5 * l| * 255 / 500)` and the same for the right
side, and it is a byte. -/
def Powered (l r : ℤ) (s : MainApp × List Arduino.Request) : Prop :=
  (s.1.leftPwm.toNat = (5 * l).natAbs * 255 / 500 ∧ s.1.leftPwm.toNat ≤ 255 ∧
      leftDuty s.2 = s.1.leftPwm.toNat) ∧
    s.1.rightPwm.toNat = (5 * r).natAbs * 255 / 500 ∧ s.1.rightPwm.toNat ≤ 255 ∧
      rightDuty s.2 = s.1.rightPwm.toNat

theorem toInt_ofInt_mul_five {l : ℤ} (hge : -100 ≤ l) (hle : l ≤ 100) :
    (BitVec.ofInt 32 l * 5).toInt = 5 * l := by
  have hofInt : (BitVec.ofInt 32 l).toInt = l := by
    rw [BitVec.toInt_ofInt]
    exact Int.bmod_eq_of_le (by omega) (by omega)
  rw [toInt_mul_five, hofInt]
  exact Int.bmod_eq_of_le (by omega) (by omega)

theorem powered_jsText {l r : ℤ} (hl : -100 ≤ l ∧ l ≤ 100) (hr : -100 ≤ r ∧ r ≤ 100) :
    Powered l r
      (applied a.toMainApp (handleWs locals connId (jsText l r) a.toMainApp).1.queued) := by
  have hleft := toInt_ofInt_mul_five hl.1 hl.2
  have hright := toInt_ofInt_mul_five hr.1 hr.2
  rw [handleWs_jsText ⟨by omega, by omega⟩ ⟨by omega, by omega⟩]
  obtain ⟨hpl, hpr⟩ := powers_handleJs a
    { leftY := BitVec.ofInt 32 l * 5, rightY := BitVec.ofInt 32 r * 5 }
  obtain ⟨hdl, hdr⟩ := duties_applied_js a
    { leftY := BitVec.ofInt 32 l * 5, rightY := BitVec.ofInt 32 r * 5 }
  rw [hleft] at hpl hdl
  rw [hright] at hpr hdr
  rw [applied_js] at hdl hdr ⊢
  refine ⟨⟨hpl, ?_, ?_⟩, hpr, ?_, ?_⟩
  · simp only [hpl]
    omega
  · rw [hdl, hpl]
    omega
  · simp only [hpr]
    omega
  · rw [hdr, hpr]
    omega

theorem ledDuty_ledText {p : ℕ} (h : p ≤ 100) :
    (lastDuty 1 1 (handleWs locals connId (ledText (BitVec.ofNat 32 p))
      a.toMainApp).1.requests).toNat = p * 255 / 100 := by
  have hp : (BitVec.ofNat 32 p).toNat = p := by
    rw [BitVec.toNat_ofNat]
    omega
  rw [handleWs_ledText]
  change ((BitVec.ofNat 32 p * 255 / 100).setWidth 8).toNat = _
  have hwrap : 255 * p % 2 ^ 32 = p * 255 := by omega
  rw [BitVec.toNat_setWidth, toNat_ledDuty, hp, hwrap]
  exact Nat.mod_eq_of_lt (by omega)

/-- Every message of the page is in range, whatever has happened before, and
the server makes a duty of one byte of it. -/
theorem commands_in_range (events : List Event) :
    (0 ≤ (Page.after events).pwmScale ∧ (Page.after events).pwmScale ≤ 1) ∧
      ∀ m ∈ (Page.after events).sent,
        m = .stats ∨
        (∃ l r : ℤ, m = .js l r ∧ (-100 ≤ l ∧ l ≤ 100) ∧ (-100 ≤ r ∧ r ≤ 100) ∧
          Powered l r
            (applied a.toMainApp (handleWs locals connId (jsText l r) a.toMainApp).1.queued)) ∨
        ∃ p : ℕ, m = .led p ∧ p ≤ 100 ∧ p * 255 / 100 ≤ 255 ∧
          (lastDuty 1 1 (handleWs locals connId (ledText (BitVec.ofNat 32 p))
            a.toMainApp).1.requests).toNat = p * 255 / 100 := by
  have h := inRange_after events
  refine ⟨⟨h.scale_nonneg, h.scale_le⟩, fun m hm ↦ ?_⟩
  have hrange := h.sent m hm
  cases m with
  | stats => exact Or.inl rfl
  | js left right =>
      obtain ⟨⟨l, rfl, hl⟩, r, rfl, hr⟩ := hrange
      exact Or.inr (Or.inl ⟨l, r, rfl, hl, hr, powered_jsText a locals connId hl hr⟩)
  | led pwm =>
      obtain ⟨p, rfl, hp⟩ := hrange
      exact Or.inr (Or.inr ⟨p, rfl, hp, by omega, ledDuty_ledText a locals connId hp⟩)

end

end Rover.Html
