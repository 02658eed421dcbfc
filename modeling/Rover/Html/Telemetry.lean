import Mathlib.Algebra.Order.Round
import Mathlib.Tactic.NormNum
import Rover.App.WebSocket
import Rover.Html.Control
import Rover.Lib.GFormat

/-!
# The values shown on the page

The server answers `stats` with a line of words, which `onmessage` takes apart
again.  Numbers with a fraction are exact.
-/

namespace Rover.Html

open App Decimal GFormat IStream Messages

/-- The answer of `handle_ws`. -/
def statsText (s : Stats) : List Byte :=
  ascii "stats " ++ general s.socTemp ++ ascii " " ++ digits s.fanPwm.toNat ++ ascii " " ++
    digits s.ledPwm.toNat ++ ascii " " ++ general s.motTemp ++ ascii " " ++
    digits s.leftPwm.toNat ++ ascii " " ++ digits s.rightPwm.toNat ++ ascii " " ++
    general s.vbat ++ ascii " " ++ general s.vbatSlope ++ ascii " " ++
    digits s.slaveRx.toNat ++ ascii " " ++ digits s.slaveTx.toNat ++ ascii " " ++
    intText s.wifiQuality ++ ascii " " ++ intText s.wifiSignal ++ ascii "\n"

/-- What the elements of the page show; no number is `NaN`.  The percentage of
the battery, which is computed from its voltage, and the latency are left out. -/
structure Display where
  socTemp : Option ℚ := none
  socFan : List Byte := ascii "NULL"
  led : List Byte := ascii "NULL"
  motorTemp : Option ℚ := none
  pwmLeft : List Byte := ascii "NULL"
  pwmRight : List Byte := ascii "NULL"
  vbat : Option ℚ := none
  vcell : Option ℚ := none
  vslope : Option ℚ := none
  scale : ℚ := 1
  slaveAccept : List Byte := ascii "NULL"
  wifiQuality : List Byte := ascii "NULL"
  wifiSignal : List Byte := ascii "NULL"

def trim (str : List Byte) : List Byte := (str.dropWhile isSpace).rdropWhile isSpace

/-- Two places after the point. -/
def cents (x : ℚ) : ℚ := round (x * 100) / 100

/-- `onmessage`.  A word that is missing is `undefined`, whose `trim` throws. -/
def Page.onMessage (p : Page) (data : List Byte) (d : Display) : Display :=
  let cmd := data.splitOn 0x20
  let word i := (cmd[i]?).getD (ascii "undefined")
  if word 0 = ascii "stats" then
    let vbat := (parseFloat (word 7)).map cents
    { socTemp := (parseFloat (word 1)).map cents
      socFan := word 2 ++ ascii " %"
      led := word 3 ++ ascii " %"
      motorTemp := (parseFloat (word 4)).map cents
      pwmLeft := word 5
      pwmRight := word 6
      vbat := vbat
      vcell := vbat.map fun v ↦ round (v * 100 / 4) / 100
      vslope := (parseFloat (word 8)).map fun v ↦ round (v * 10 * (36 / 10)) / 10
      scale := cents p.pwmScale
      slaveAccept := word 9 ++ ascii "/" ++ word 10
      wifiQuality := word 11 ++ ascii "/70"
      wifiSignal := (cmd[12]?).elim d.wifiSignal fun w ↦ trim w ++ ascii " dBm" }
  else d

/-! ## Words -/

def statsWords (s : Stats) : List (List Byte) :=
  [ascii "stats", general s.socTemp, digits s.fanPwm.toNat, digits s.ledPwm.toNat,
    general s.motTemp, digits s.leftPwm.toNat, digits s.rightPwm.toNat, general s.vbat,
    general s.vbatSlope, digits s.slaveRx.toNat, digits s.slaveTx.toNat, intText s.wifiQuality,
    intText s.wifiSignal ++ ascii "\n"]

theorem statsText_eq (s : Stats) : statsText s = [0x20].intercalate (statsWords s) := by
  have hspace : ascii " " = [0x20] := by decide
  have hstats : ascii "stats " = ascii "stats" ++ [0x20] := by decide
  unfold statsText statsWords
  rw [hspace, hstats]
  simp only [List.intercalate_cons_cons, List.intercalate_singleton]
  simp only [List.append_assoc]

theorem space_not_mem_general (x : ℚ) : 0x20 ∉ general x :=
  fun h ↦ absurd (isNumberChar_general x _ h) (by decide)

theorem space_not_mem_digits (n : ℕ) : 0x20 ∉ digits n :=
  fun h ↦ absurd ((digits_spec n).2.1 _ h) (by decide)

theorem space_not_mem_intText (l : ℤ) : 0x20 ∉ intText l := by
  rw [intText_eq]
  split
  · exact List.not_mem_cons_of_ne_of_not_mem (by decide) (space_not_mem_digits _)
  · exact space_not_mem_digits _

theorem space_not_mem_statsWords (s : Stats) : ∀ w ∈ statsWords s, 0x20 ∉ w := by
  have hstats : 0x20 ∉ ascii "stats" := by decide
  have hnewline : 0x20 ∉ ascii "\n" := by decide
  simp only [statsWords, List.forall_mem_cons, List.mem_append, not_or, List.not_mem_nil,
    false_imp_iff, implies_true, and_true]
  exact ⟨hstats, space_not_mem_general _, space_not_mem_digits _, space_not_mem_digits _,
    space_not_mem_general _, space_not_mem_digits _, space_not_mem_digits _,
    space_not_mem_general _, space_not_mem_general _, space_not_mem_digits _,
    space_not_mem_digits _, space_not_mem_intText _, space_not_mem_intText _, hnewline⟩

theorem splitOn_statsText (s : Stats) : (statsText s).splitOn 0x20 = statsWords s := by
  rw [statsText_eq]
  exact List.splitOn_intercalate 0x20 (space_not_mem_statsWords s) (List.cons_ne_nil _ _)

theorem intText_ne_nil (l : ℤ) : intText l ≠ [] := by
  rw [intText_eq]
  split
  · exact List.cons_ne_nil _ _
  · exact (digits_spec _).1

theorem not_isSpace_intText (l : ℤ) : ∀ c ∈ intText l, isSpace c = false := by
  intro c hc
  rw [intText_eq] at hc
  split at hc
  · rcases List.mem_cons.mp hc with rfl | hc
    · decide
    · exact not_isSpace_of_isDigit ((digits_spec _).2.1 c hc)
  · exact not_isSpace_of_isDigit ((digits_spec _).2.1 c hc)

/-- The line break after the last word goes. -/
theorem trim_intText (l : ℤ) : trim (intText l ++ ascii "\n") = intText l := by
  have hspace := not_isSpace_intText l
  have hnewline : ascii "\n" = [0x0a] := by decide
  have hend : (intText l).rdropWhile isSpace = intText l := by
    rw [List.rdropWhile_eq_self_iff]
    intro hne
    rw [hspace _ (List.getLast_mem hne)]
    exact Bool.false_ne_true
  have hdrop : (intText l ++ ascii "\n").dropWhile isSpace = intText l ++ ascii "\n" := by
    cases htext : intText l with
    | nil => exact absurd htext (intText_ne_nil l)
    | cons c cs =>
        have hc : ¬ isSpace c = true := by simp [hspace c (by simp [htext])]
        rw [List.cons_append, List.dropWhile_cons_of_neg hc]
  rw [trim, hdrop, hnewline, List.rdropWhile_concat_pos _ _ _ (by decide), hend]

/-! ## Rounding -/

theorem abs_round_sub (x : ℚ) : |round x - x| ≤ 1 / 2 := by
  have hle := Int.floor_le (x + 1 / 2)
  have hlt := Int.lt_floor_add_one (x + 1 / 2)
  rw [round, abs_le]
  constructor <;> linarith

theorem abs_round_div_sub {k : ℚ} (hk : 0 < k) (x : ℚ) : |round x / k - x / k| ≤ 1 / (2 * k) := by
  rw [← sub_div, abs_div, abs_of_pos hk, div_le_div_iff₀ hk (by positivity)]
  nlinarith [abs_round_sub x]

theorem abs_cents_sub (x : ℚ) : |cents x - x| ≤ 1 / 200 := by
  have h := abs_round_div_sub (by norm_num : (0 : ℚ) < 100) (x * 100)
  rw [mul_div_cancel_right₀ x (by norm_num)] at h
  rw [cents]
  linarith

/-- Two places after the point of what is read of six digits. -/
theorem cents_parseFloat (x : ℚ) :
    ∃ q, (parseFloat (general x)).map cents = some q ∧ |q - x| ≤ 1 / 200 + 5 / 10 ^ 6 * |x| := by
  obtain ⟨q, hq, hbound⟩ := parseFloat_general x
  refine ⟨cents q, by rw [hq, Option.map_some], ?_⟩
  calc |cents q - x| ≤ |cents q - q| + |q - x| := abs_sub_le _ _ _
    _ ≤ 1 / 200 + 5 / 10 ^ 6 * |x| := add_le_add (abs_cents_sub q) hbound

/-! ## The round trip -/

/-- The state of the server, up to the six digits that are sent and the places
that are shown. -/
structure Display.Shows (d : Display) (a : MainApp) : Prop where
  socTemp : ∃ q, d.socTemp = some q ∧ |q - a.socTemp| ≤ 1 / 200 + 5 / 10 ^ 6 * |a.socTemp|
  socFan : d.socFan = digits a.fanPwm.toNat ++ ascii " %"
  led : d.led = digits a.ledPwm.toNat ++ ascii " %"
  motorTemp : ∃ q, d.motorTemp = some q ∧ |q - a.motTemp| ≤ 1 / 200 + 5 / 10 ^ 6 * |a.motTemp|
  pwmLeft : d.pwmLeft = digits a.leftPwm.toNat
  pwmRight : d.pwmRight = digits a.rightPwm.toNat
  vbat : ∃ q, d.vbat = some q ∧ |q - a.vbat| ≤ 1 / 200 + 5 / 10 ^ 6 * |a.vbat|
  vcell : ∃ q, d.vcell = some q ∧
    |q - a.vbat / 4| ≤ 1 / 200 + (1 / 200 + 5 / 10 ^ 6 * |a.vbat|) / 4
  vslope : ∃ q, d.vslope = some q ∧
    |q - 36 / 10 * a.vbatSlope| ≤ 1 / 20 + 36 / 10 * (5 / 10 ^ 6 * |a.vbatSlope|)
  slaveAccept : d.slaveAccept =
    digits a.slaveTrx.1.toNat ++ ascii "/" ++ digits a.slaveTrx.2.toNat
  wifiQuality : d.wifiQuality = intText a.wifiQuality ++ ascii "/70"
  wifiSignal : d.wifiSignal = intText a.wifiSignal ++ ascii " dBm"

theorem onMessage_statsText (p : Page) (s : Stats) (d : Display) :
    p.onMessage (statsText s) d =
      { socTemp := (parseFloat (general s.socTemp)).map cents
        socFan := digits s.fanPwm.toNat ++ ascii " %"
        led := digits s.ledPwm.toNat ++ ascii " %"
        motorTemp := (parseFloat (general s.motTemp)).map cents
        pwmLeft := digits s.leftPwm.toNat
        pwmRight := digits s.rightPwm.toNat
        vbat := (parseFloat (general s.vbat)).map cents
        vcell := ((parseFloat (general s.vbat)).map cents).map fun v ↦ round (v * 100 / 4) / 100
        vslope := (parseFloat (general s.vbatSlope)).map fun v ↦ round (v * 10 * (36 / 10)) / 10
        scale := cents p.pwmScale
        slaveAccept := digits s.slaveRx.toNat ++ ascii "/" ++ digits s.slaveTx.toNat
        wifiQuality := intText s.wifiQuality ++ ascii "/70"
        wifiSignal := intText s.wifiSignal ++ ascii " dBm" } := by
  rw [Page.onMessage, splitOn_statsText]
  simp only [statsWords, List.getElem?_cons_zero, List.getElem?_cons_succ, Option.getD_some,
    Option.elim_some, if_true, trim_intText]

/-- The voltage of a cell is that of the battery as it is shown. -/
theorem abs_cell_sub {q v b : ℚ} (h : |q - v| ≤ b) :
    |round (q * 100 / 4) / 100 - v / 4| ≤ 1 / 200 + b / 4 := by
  have hround := abs_round_div_sub (by norm_num : (0 : ℚ) < 100) (q * 100 / 4)
  have hcell : q * 100 / 4 / 100 - v / 4 = (q - v) / 4 := by ring
  have hsplit := abs_sub_le (round (q * 100 / 4) / 100) (q * 100 / 4 / 100) (v / 4)
  rw [hcell, abs_div, abs_of_pos (by norm_num : (0 : ℚ) < 4)] at hsplit
  linarith

theorem abs_slope_sub {q v b : ℚ} (h : |q - v| ≤ b) :
    |round (q * 10 * (36 / 10)) / 10 - 36 / 10 * v| ≤ 1 / 20 + 36 / 10 * b := by
  have hround := abs_round_div_sub (by norm_num : (0 : ℚ) < 10) (q * 10 * (36 / 10))
  have hslope : q * 10 * (36 / 10) / 10 - 36 / 10 * v = 36 / 10 * (q - v) := by ring
  have hsplit := abs_sub_le (round (q * 10 * (36 / 10)) / 10) (q * 10 * (36 / 10) / 10)
    (36 / 10 * v)
  rw [hslope, abs_mul, abs_of_pos (by norm_num : (0 : ℚ) < 36 / 10)] at hsplit
  linarith

/-- Whatever was shown before, the answer to `stats` brings the page up to the
state of the server. -/
theorem shows_stats (p : Page) (d : Display) (locals : WsLocals) (connId : BitVec 32)
    (a : MainApp) :
    ∃ s, (handleWs locals connId (ascii "stats") a).2 = some (connId, s) ∧
      (p.onMessage (statsText s) d).Shows a := by
  have hword : firstWord (ascii "stats") = ascii "stats" := by decide
  refine ⟨stats a, by rw [reply_handleWs, if_pos hword], ?_⟩
  rw [onMessage_statsText]
  obtain ⟨qv, hvbat, hvbatBound⟩ := cents_parseFloat a.vbat
  obtain ⟨qs, hslope, hslopeBound⟩ := parseFloat_general a.vbatSlope
  exact
    { socTemp := cents_parseFloat a.socTemp
      socFan := rfl
      led := rfl
      motorTemp := cents_parseFloat a.motTemp
      pwmLeft := rfl
      pwmRight := rfl
      vbat := ⟨qv, hvbat, hvbatBound⟩
      vcell := ⟨_, congrArg (Option.map _) hvbat, abs_cell_sub hvbatBound⟩
      vslope := ⟨_, congrArg (Option.map _) hslope, abs_slope_sub hslopeBound⟩
      slaveAccept := rfl
      wifiQuality := rfl
      wifiSignal := rfl }

end Rover.Html
