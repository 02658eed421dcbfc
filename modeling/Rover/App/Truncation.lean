import Rover.App.Commands
import Rover.App.Recorded

/-!
# From commands to duty bytes

A duty is computed as an `unsigned` and narrowed to one byte when it is passed
to `pwmDuty`.  Nothing limits it to 255, so a command just above full power is
turned into almost none.
-/

namespace Rover.App

open Arduino

/-- A state of an application with the default `PWM_RANGE`.  No handler writes
`thr_limit`. -/
structure Scaled extends MainApp where
  pwmRange_eq : config.pwmRange = 255
  thrLimit_eq : thrLimit = 1

def Scaled.ofRun (c : Config) (vbat vbatSlope : ℚ) (msgs : List (QueueMsg × Readings)) :
    Scaled where
  toMainApp := (run msgs (initial { c with pwmRange := 255 } vbat vbatSlope)).1
  pwmRange_eq := by rw [(run_config msgs _).1]; rfl
  thrLimit_eq := by rw [(run_config msgs _).2]; rfl

/-- What the handlers do with the messages that a command puts into the queue;
none of them is a timer message, so nothing is read. -/
def applied (a : MainApp) (queued : List QueueMsg) : MainApp × List Request :=
  run (queued.map fun m ↦ (m, {})) a

def leftDuty (qs : List Request) : ℕ := max (lastDuty 2 1 qs).toNat (lastDuty 0 1 qs).toNat

def rightDuty (qs : List Request) : ℕ := max (lastDuty 0 0 qs).toNat (lastDuty 1 0 qs).toNat

/-- A command whose duties are not truncated, and not below those of a command
of smaller or equal magnitude. -/
structure JsKept {ι : Type} (a : MainApp) (queued : ι → List QueueMsg) (left right : ι → ℕ)
    (i : ι) : Prop where
  recorded : Recorded (applied a (queued i))
  left_mono : ∀ j, left j ≤ left i →
    leftDuty (applied a (queued j)).2 ≤ leftDuty (applied a (queued i)).2
  right_mono : ∀ j, right j ≤ right i →
    rightDuty (applied a (queued j)).2 ≤ rightDuty (applied a (queued i)).2

structure LedKept (outcome : BitVec 32 → Outcome) (p : BitVec 32) : Prop where
  recorded : (lastDuty 1 1 (outcome p).requests).toNat =
    ((outcome p).app.ledPwm * 255 / 100).toNat
  mono : ∀ q, q.toNat ≤ p.toNat →
    (lastDuty 1 1 (outcome q).requests).toNat ≤ (lastDuty 1 1 (outcome p).requests).toNat

/-! ## Values that are narrowed to a byte -/

/-- The value is a byte, and no command of smaller or equal magnitude has a
larger byte. -/
def Kept {ι : Type} (magnitude value : ι → ℕ) (i : ι) : Prop :=
  value i < 256 ∧ ∀ j, magnitude j ≤ magnitude i → value j % 256 ≤ value i % 256

theorem mod_le_mod_of_le {x y : ℕ} (h : x ≤ y) (hy : y < 256) : x % 256 ≤ y % 256 := by
  omega

section

variable {ι : Type} {magnitude value : ι → ℕ}

theorem kept_iff_of_scaled (h : ∀ i, value i = magnitude i * 255 / 500) (i : ι) :
    Kept magnitude value i ↔ magnitude i ≤ 501 := by
  constructor
  · rintro ⟨hlt, -⟩
    rw [h] at hlt
    omega
  · intro hle
    have hlt : magnitude i * 255 / 500 < 256 := by omega
    refine ⟨by rwa [h], fun j hj ↦ ?_⟩
    rw [h, h]
    exact mod_le_mod_of_le (Nat.div_le_div_right (Nat.mul_le_mul_right 255 hj)) hlt

/-- Magnitudes up to 100 are scaled.  What a larger one is turned into does not
matter: 100 already has the largest byte. -/
theorem kept_iff_of_percent (h : ∀ i, magnitude i ≤ 100 → value i = magnitude i * 255 / 100)
    (full : ι) (hfull : magnitude full = 100) (i : ι) :
    Kept magnitude value i ↔ magnitude i ≤ 100 ∨ value i = 255 := by
  constructor
  · rintro ⟨hlt, hmono⟩
    by_cases hle : magnitude i ≤ 100
    · exact Or.inl hle
    · have hbyte := hmono full (by omega)
      rw [h full (by omega), hfull] at hbyte
      right
      omega
  · rintro (hle | heq)
    · have hlt : magnitude i * 255 / 100 < 256 := by omega
      refine ⟨by rwa [h i hle], fun j hj ↦ ?_⟩
      rw [h i hle, h j (by omega)]
      exact mod_le_mod_of_le (Nat.div_le_div_right (Nat.mul_le_mul_right 255 hj)) hlt
    · refine ⟨by omega, fun j _ ↦ ?_⟩
      omega

end

/-! ## Sticks -/

theorem power_of_scaled (a : Scaled) (y : BitVec 32) :
    power a.config y = y.toInt.natAbs * 255 / 500 := by
  have hrange : (255 : BitVec 32).toNat = 255 := rfl
  have hge := BitVec.le_toInt y
  have hlt := BitVec.toInt_lt (x := y)
  rw [power, a.pwmRange_eq, hrange]
  apply Nat.mod_eq_of_lt
  omega

theorem applied_js (a : MainApp) (js : JsData) :
    applied a [.js js] = ((handleJs js a).1, [] ++ (handleJs js a).2) := by
  change ((handleJs js a).1, (handleJs js a).2 ++ []) = _
  rw [List.append_nil, List.nil_append]

theorem powers_handleJs (a : Scaled) (js : JsData) :
    (handleJs js a.toMainApp).1.leftPwm.toNat = js.leftY.toInt.natAbs * 255 / 500 ∧
      (handleJs js a.toMainApp).1.rightPwm.toNat = js.rightY.toInt.natAbs * 255 / 500 := by
  rw [← power_of_scaled a, ← power_of_scaled a]
  exact handleJs_powers a.thrLimit_eq js

theorem duties_applied_js (a : Scaled) (js : JsData) :
    leftDuty (applied a.toMainApp [.js js]).2 = js.leftY.toInt.natAbs * 255 / 500 % 256 ∧
      rightDuty (applied a.toMainApp [.js js]).2 = js.rightY.toInt.natAbs * 255 / 500 % 256 := by
  obtain ⟨hleft, hright⟩ := powers_handleJs a js
  rw [applied_js, ← hleft, ← hright]
  constructor
  · refine (max_lastDuty_left _ _ _ _ _).trans ?_
    exact BitVec.toNat_setWidth _ _
  · refine (max_lastDuty_right _ _ _ _ _).trans ?_
    exact BitVec.toNat_setWidth _ _

theorem jsKept_iff {ι : Type} (a : Scaled) {queued : ι → List QueueMsg} {js : ι → JsData}
    (h : ∀ i, queued i = [.js (js i)]) (left right : ι → ℕ) (i : ι) :
    JsKept a.toMainApp queued left right i ↔
      Kept left (fun i ↦ (js i).leftY.toInt.natAbs * 255 / 500) i ∧
        Kept right (fun i ↦ (js i).rightY.toInt.natAbs * 255 / 500) i := by
  have hrecorded : Recorded (applied a.toMainApp [.js (js i)]) ↔
      (js i).leftY.toInt.natAbs * 255 / 500 < 256 ∧
        (js i).rightY.toInt.natAbs * 255 / 500 < 256 := by
    obtain ⟨hleft, hright⟩ := powers_handleJs a (js i)
    rw [applied_js, recorded_handleJs, hleft, hright]
  constructor
  · rintro ⟨hrec, hleft, hright⟩
    simp only [h, (duties_applied_js a _).1, (duties_applied_js a _).2] at hrec hleft hright
    obtain ⟨hltl, hltr⟩ := hrecorded.mp hrec
    exact ⟨⟨hltl, hleft⟩, ⟨hltr, hright⟩⟩
  · rintro ⟨⟨hltl, hleft⟩, ⟨hltr, hright⟩⟩
    refine ⟨?_, ?_, ?_⟩
    · rw [h]
      exact hrecorded.mpr ⟨hltl, hltr⟩
    · simpa only [h, (duties_applied_js a _).1] using hleft
    · simpa only [h, (duties_applied_js a _).2] using hright

/-- How far a stick position of a datagram is from rest. -/
def Datagram.offset (d : Datagram) (i : ℕ) : ℕ := ((d.number i : ℤ) - 1500).natAbs

theorem Datagram.natAbs_toInt (d : Datagram) {i : ℕ} (h : i + 4 ≤ 16) :
    (fourDigits d.data i - 1500).toInt.natAbs = d.offset i := by
  rw [d.toInt_fourDigits_sub h, Datagram.offset]

theorem jsKept_handleUdp (a : Scaled) (pwm : BitVec 32) (d : Datagram) :
    JsKept a.toMainApp (fun d : Datagram ↦ (handleUdp d.data pwm a.toMainApp).queued)
        (Datagram.offset · 4) (Datagram.offset · 12) d ↔
      d.offset 4 ≤ 501 ∧ d.offset 12 ≤ 501 := by
  have hqueued (d : Datagram) :
      (handleUdp d.data pwm a.toMainApp).queued = [.js (jsOfDatagram d.data)] := by
    rw [d.handleUdp_data]
  rw [jsKept_iff a hqueued]
  apply and_congr
  · apply kept_iff_of_scaled
    intro d
    simp only [jsOfDatagram]
    rw [d.natAbs_toInt (by decide)]
  · apply kept_iff_of_scaled
    intro d
    simp only [jsOfDatagram]
    rw [d.natAbs_toInt (by decide)]

/-- A number of a `js` command that comes out right: at most 100, or so large
that five times it wraps around to full power. -/
def StickFits (l : BitVec 32) : Prop :=
  l.toInt.natAbs ≤ 100 ∨
    500 ≤ ((5 * l.toInt).bmod (2 ^ 32)).natAbs ∧ ((5 * l.toInt).bmod (2 ^ 32)).natAbs ≤ 501

instance (l : BitVec 32) : Decidable (StickFits l) := inferInstanceAs (Decidable (_ ∨ _))

theorem toInt_mul_five (l : BitVec 32) : (l * 5).toInt = (5 * l.toInt).bmod (2 ^ 32) := by
  rw [BitVec.toInt_mul, mul_comm]
  rfl

theorem kept_percent_iff {ι : Type} (number : ι → BitVec 32) (full : ι) (hfull : number full = 100)
    (i : ι) :
    Kept (fun i ↦ (number i).toInt.natAbs) (fun i ↦ (number i * 5).toInt.natAbs * 255 / 500) i ↔
      StickFits (number i) := by
  have hscale (j : ι) (hj : (number j).toInt.natAbs ≤ 100) :
      (number j * 5).toInt.natAbs * 255 / 500 = (number j).toInt.natAbs * 255 / 100 := by
    have hwrap : (5 * (number j).toInt).bmod (2 ^ 32) = 5 * (number j).toInt :=
      Int.bmod_eq_of_le (by omega) (by omega)
    rw [toInt_mul_five, hwrap]
    omega
  rw [kept_iff_of_percent hscale full (by rw [hfull]; rfl), StickFits, toInt_mul_five]
  omega

theorem jsKept_handleWs (a : Scaled) (locals : WsLocals) (connId : BitVec 32)
    (x : BitVec 32 × BitVec 32) :
    JsKept a.toMainApp
        (fun x : BitVec 32 × BitVec 32 ↦
          (handleWs locals connId (jsText x.1.toInt x.2.toInt) a.toMainApp).1.queued)
        (fun x ↦ x.1.toInt.natAbs) (fun x ↦ x.2.toInt.natAbs) x ↔
      StickFits x.1 ∧ StickFits x.2 := by
  have hqueued (x : BitVec 32 × BitVec 32) :
      (handleWs locals connId (jsText x.1.toInt x.2.toInt) a.toMainApp).1.queued =
        [.js { leftY := x.1 * 5, rightY := x.2 * 5 }] := by
    rw [handleWs_jsText ⟨BitVec.le_toInt x.1, BitVec.toInt_lt⟩
      ⟨BitVec.le_toInt x.2, BitVec.toInt_lt⟩, BitVec.ofInt_toInt, BitVec.ofInt_toInt]
  rw [jsKept_iff a hqueued]
  apply and_congr
  · exact kept_percent_iff Prod.fst (100, 0) rfl x
  · exact kept_percent_iff Prod.snd (0, 100) rfl x

/-! ## The light -/

def LedFits (p : BitVec 32) : Prop :=
  p.toNat ≤ 100 ∨ 25500 ≤ 255 * p.toNat % 2 ^ 32 ∧ 255 * p.toNat % 2 ^ 32 < 25600

instance (p : BitVec 32) : Decidable (LedFits p) := inferInstanceAs (Decidable (_ ∨ _))

theorem toNat_ledDuty (p : BitVec 32) : (p * 255 / 100).toNat = 255 * p.toNat % 2 ^ 32 / 100 := by
  rw [BitVec.toNat_udiv, BitVec.toNat_mul, mul_comm]
  rfl

theorem ledKept_iff {outcome : BitVec 32 → Outcome} (a : MainApp)
    (h : ∀ p, outcome p = setLed p a) (p : BitVec 32) : LedKept outcome p ↔ LedFits p := by
  have hbyte (p : BitVec 32) :
      (lastDuty 1 1 (outcome p).requests).toNat = (p * 255 / 100).toNat % 256 := by
    rw [h]
    exact BitVec.toNat_setWidth 8 (p * 255 / 100)
  have hvalue (p : BitVec 32) : (outcome p).app.ledPwm = p := by
    rw [h]
    rfl
  have hkept : LedKept outcome p ↔ Kept BitVec.toNat (fun p ↦ (p * 255 / 100).toNat) p := by
    constructor
    · rintro ⟨hrec, hmono⟩
      simp only [hbyte, hvalue] at hrec hmono
      have hlt : (p * 255 / 100).toNat < 256 := by omega
      exact ⟨hlt, hmono⟩
    · rintro ⟨hlt, hmono⟩
      refine ⟨?_, ?_⟩
      · rw [hbyte, hvalue, Nat.mod_eq_of_lt hlt]
      · simpa only [hbyte] using hmono
  have hscale (q : BitVec 32) (hq : q.toNat ≤ 100) :
      (q * 255 / 100).toNat = q.toNat * 255 / 100 := by
    rw [toNat_ledDuty]
    omega
  rw [hkept, kept_iff_of_percent hscale 100 rfl, LedFits, toNat_ledDuty]
  omega

/-- Which commands are not truncated: sixteen digits with positions at most 501
from rest, `js` with numbers up to 100, `led` with a number up to 100, and the
few numbers that wrap around to full power. -/
theorem commands_kept_iff (a : Scaled) (locals : WsLocals) (connId pwm : BitVec 32) :
    (∀ d : Datagram,
      JsKept a.toMainApp (fun d : Datagram ↦ (handleUdp d.data pwm a.toMainApp).queued)
          (Datagram.offset · 4) (Datagram.offset · 12) d ↔
        d.offset 4 ≤ 501 ∧ d.offset 12 ≤ 501) ∧
      (∀ x : BitVec 32 × BitVec 32,
        JsKept a.toMainApp
            (fun x : BitVec 32 × BitVec 32 ↦
              (handleWs locals connId (jsText x.1.toInt x.2.toInt) a.toMainApp).1.queued)
            (fun x ↦ x.1.toInt.natAbs) (fun x ↦ x.2.toInt.natAbs) x ↔
          StickFits x.1 ∧ StickFits x.2) ∧
      (∀ p : BitVec 32,
        LedKept (fun p ↦ handleCmd (ledText p) pwm a.toMainApp) p ↔ LedFits p) ∧
      ∀ p : BitVec 32,
        LedKept (fun p ↦ (handleWs locals connId (ledText p) a.toMainApp).1) p ↔ LedFits p := by
  refine ⟨jsKept_handleUdp a pwm, jsKept_handleWs a locals connId, ?_, ?_⟩
  · exact ledKept_iff a.toMainApp fun p ↦ handleCmd_ledText p pwm a.toMainApp
  · refine ledKept_iff a.toMainApp fun p ↦ ?_
    rw [handleWs_ledText]

/-- One step above full power: `js 101 0` and `led 101` are turned into a duty
of 1. -/
theorem above_full_not_kept :
    ¬ JsKept (Scaled.ofRun {} 0 0 []).toMainApp
        (fun x : BitVec 32 × BitVec 32 ↦ (handleWs ⟨0, 0, 0⟩ 0 (jsText x.1.toInt x.2.toInt)
          (Scaled.ofRun {} 0 0 []).toMainApp).1.queued)
        (fun x ↦ x.1.toInt.natAbs) (fun x ↦ x.2.toInt.natAbs) (101, 0) ∧
      ¬ LedKept (fun p ↦ handleCmd (ledText p) 0 (Scaled.ofRun {} 0 0 []).toMainApp) 101 := by
  refine ⟨?_, ?_⟩
  · rw [jsKept_handleWs]
    decide
  · rw [ledKept_iff (Scaled.ofRun {} 0 0 []).toMainApp fun p ↦ handleCmd_ledText p 0 _]
    decide

end Rover.App
