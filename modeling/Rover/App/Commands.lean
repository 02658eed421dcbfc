import Rover.App.Udp
import Rover.App.WebSocket
import Rover.Lib.Decimal

/-!
# Well-formed commands

What the front ends make of a command whose numbers are written out in
decimal, and of a datagram of sixteen digits.
-/

namespace Rover.App

open Arduino Messages IStream Decimal

/-! ## Text commands -/

/-- `js l r` with two numbers of type `int`. -/
def jsText (l r : ℤ) : List Byte := ascii ("js " ++ toString l ++ " " ++ toString r)

/-- `led p` with a number of type `unsigned`. -/
def ledText (p : BitVec 32) : List Byte := ascii ("led " ++ toString p.toNat)

theorem jsText_eq (l r : ℤ) :
    jsText l r = ascii "js" ++ 0x20 :: (intText l ++ 0x20 :: (intText r ++ [])) := by
  change text _ = _
  rw [text_append, text_append, text_append]
  change text "js" ++ [0x20] ++ intText l ++ [0x20] ++ intText r = _
  simp only [List.append_assoc, List.singleton_append, List.append_nil]
  rfl

theorem ledText_eq (p : BitVec 32) :
    ledText p = ascii "led" ++ 0x20 :: (digits p.toNat ++ []) := by
  change text _ = _
  rw [text_append]
  change text "led" ++ [0x20] ++ digits p.toNat = _
  simp only [List.append_assoc, List.singleton_append, List.append_nil]
  rfl

theorem word_of_space {w : List Byte} (hne : firstWord w ≠ []) (hend : afterWord w = [])
    (r : List Byte) : firstWord (w ++ 0x20 :: r) = firstWord w ∧
      afterWord (w ++ 0x20 :: r) = 0x20 :: r := by
  obtain ⟨hfirst, hafter⟩ := word_append_of_end hne hend (0x20 :: r)
  have hspace : (!isSpace 0x20) = false := by decide
  rw [hfirst, hafter, List.takeWhile_cons, List.dropWhile_cons, hspace]
  exact ⟨List.append_nil _, rfl⟩

theorem handleWs_jsText {l r : ℤ} (hl : -2 ^ 31 ≤ l ∧ l < 2 ^ 31) (hr : -2 ^ 31 ≤ r ∧ r < 2 ^ 31)
    (locals : WsLocals) (connId : BitVec 32) (a : MainApp) :
    handleWs locals connId (jsText l r) a =
      ({ app := a
         queued := [.js { leftY := BitVec.ofInt 32 l * 5, rightY := BitVec.ofInt 32 r * 5 }] },
        none) := by
  obtain ⟨hfirst, hafter⟩ := word_of_space (w := ascii "js") (by decide) (by decide)
    (intText l ++ 0x20 :: (intText r ++ []))
  have hjs : firstWord (ascii "js") = ascii "js" := by decide
  rw [jsText_eq, handleWs_js locals connId a (hfirst.trans hjs), hafter,
    num_intText hl.1 hl.2 (ends_space _)]
  simp only [num_intText hr.1 hr.2 ends_nil, Option.getD_some]

theorem handleWs_ledText (p : BitVec 32) (locals : WsLocals) (connId : BitVec 32) (a : MainApp) :
    handleWs locals connId (ledText p) a = (setLed p a, none) := by
  obtain ⟨hfirst, hafter⟩ := word_of_space (w := ascii "led") (by decide) (by decide)
    (digits p.toNat ++ [])
  have hled : firstWord (ascii "led") = ascii "led" := by decide
  rw [ledText_eq, handleWs_led locals connId a (hfirst.trans hled), hafter,
    num_digits p.isLt ends_nil, Option.getD_some, BitVec.ofNat_toNat, BitVec.setWidth_eq]

theorem handleCmd_ledText (p pwm : BitVec 32) (a : MainApp) :
    handleCmd (ledText p) pwm a = setLed p a := by
  obtain ⟨hfirst, hafter⟩ := word_of_space (w := ascii "led") (by decide) (by decide)
    (digits p.toNat ++ [])
  have hled : firstWord (ascii "led") = ascii "led" := by decide
  obtain ⟨hword, hrest⟩ := word_start (ledText p)
  rw [ledText_eq] at hword hrest ⊢
  rw [hfirst, hled] at hword hrest
  simp only [handleCmd, hword, if_true]
  rw [hrest (by decide), hafter, num_digits p.isLt ends_nil, Option.getD_some,
    BitVec.ofNat_toNat, BitVec.setWidth_eq]

/-! ## Datagrams -/

/-- A buffer that starts with sixteen digits. -/
structure Datagram where
  digits : List Byte
  beyond : List Byte
  length_eq : digits.length = 16
  all_digits : ∀ c ∈ digits, isDigit c = true

namespace Datagram

def data (d : Datagram) : List Byte := d.digits ++ d.beyond

/-- The number that the four digits from place `i` on stand for. -/
def number (d : Datagram) (i : ℕ) : ℕ :=
  let digit (k : ℕ) : ℕ := (d.digits.getD (i + k) 0).toNat - 48
  digit 0 * 1000 + digit 1 * 100 + digit 2 * 10 + digit 3

theorem toNat_digit (d : Datagram) {i : ℕ} (h : i < 16) :
    48 ≤ (d.digits.getD i 0).toNat ∧ (d.digits.getD i 0).toNat ≤ 57 := by
  have hlt : i < d.digits.length := by rwa [d.length_eq]
  have hmem : d.digits.getD i 0 ∈ d.digits := by
    rw [List.getD_eq_getElem _ _ hlt]
    exact List.getElem_mem hlt
  have hdigit := d.all_digits _ hmem
  rw [isDigit, Bool.and_eq_true, decide_eq_true_eq, decide_eq_true_eq] at hdigit
  exact hdigit

theorem number_le (d : Datagram) {i : ℕ} (h : i + 4 ≤ 16) : d.number i ≤ 9999 := by
  have h0 := d.toNat_digit (i := i + 0) (by omega)
  have h1 := d.toNat_digit (i := i + 1) (by omega)
  have h2 := d.toNat_digit (i := i + 2) (by omega)
  have h3 := d.toNat_digit (i := i + 3) (by omega)
  simp only [number]
  omega

theorem fourDigits_data (d : Datagram) {i : ℕ} (h : i + 4 ≤ 16) :
    (fourDigits d.data i).toNat = d.number i := by
  have h0 := d.toNat_digit (i := i + 0) (by omega)
  have h1 := d.toNat_digit (i := i + 1) (by omega)
  have h2 := d.toNat_digit (i := i + 2) (by omega)
  have h3 := d.toNat_digit (i := i + 3) (by omega)
  rw [data, fourDigits_append (by rwa [d.length_eq])]
  simp only [fourDigits, number]
  bv_omega

/-- A stick position is sent with an offset of 1500. -/
theorem toInt_fourDigits_sub (d : Datagram) {i : ℕ} (h : i + 4 ≤ 16) :
    (fourDigits d.data i - 1500).toInt = d.number i - 1500 := by
  have hle := d.number_le h
  have hoffset : (1500 : BitVec 32).toNat = 1500 := rfl
  rw [BitVec.toInt_eq_toNat_bmod, BitVec.toNat_sub, fourDigits_data d h, hoffset]
  rw [Int.bmod_def]
  split_ifs <;> omega

theorem handleUdp_data (d : Datagram) (pwm : BitVec 32) (a : MainApp) :
    handleUdp d.data pwm a = { app := a, queued := [.js (jsOfDatagram d.data)] } := by
  have hne : d.digits ≠ [] := by
    rw [← List.length_pos_iff, d.length_eq]
    decide
  obtain ⟨hge, hle⟩ := d.toNat_digit (i := 0) (by decide)
  apply handleUdp_of_digit
  rw [data, getD_zero_append hne, isDigit, Bool.and_eq_true, decide_eq_true_eq,
    decide_eq_true_eq]
  exact ⟨hge, hle⟩

end Datagram

/-! ## The two forms of a joystick command -/

def digitByte (d : ℕ) : Byte := BitVec.ofNat 8 (48 + d % 10)

/-- The decimal form of a number up to 9999, in four digits. -/
def dddd (n : ℕ) : List Byte :=
  [digitByte (n / 1000), digitByte (n / 100), digitByte (n / 10), digitByte n]

example : dddd 175 = ascii "0175" := by decide

theorem toNat_digitByte (d : ℕ) : (digitByte d).toNat = 48 + d % 10 :=
  toNat_digit (Nat.mod_lt d (by decide))

theorem isDigit_digitByte (d : ℕ) : isDigit (digitByte d) = true := by
  rw [isDigit, toNat_digitByte, Bool.and_eq_true, decide_eq_true_eq, decide_eq_true_eq]
  omega

def joystickDigits (a b c d : ℕ) : List Byte := dddd a ++ dddd b ++ dddd c ++ dddd d

namespace Datagram

/-- The four numbers, and whatever the buffer holds behind them. -/
def joystick (a b c d : ℕ) (beyond : List Byte) : Datagram where
  digits := joystickDigits a b c d
  beyond := beyond
  length_eq := rfl
  all_digits x hx := by
    simp only [joystickDigits, dddd, List.cons_append, List.nil_append, List.mem_cons,
      List.not_mem_nil, or_false] at hx
    rcases hx with rfl | rfl | rfl | rfl | rfl | rfl | rfl | rfl | rfl | rfl | rfl | rfl | rfl |
      rfl | rfl | rfl <;> exact isDigit_digitByte _

section

variable {a b c d : ℕ} (beyond : List Byte)

theorem number_joystick (ha : a ≤ 9999) (hb : b ≤ 9999) (hc : c ≤ 9999) (hd : d ≤ 9999) :
    (joystick a b c d beyond).number 0 = a ∧ (joystick a b c d beyond).number 4 = b ∧
      (joystick a b c d beyond).number 8 = c ∧ (joystick a b c d beyond).number 12 = d := by
  simp only [number, joystick, joystickDigits, dddd, List.cons_append, List.nil_append,
    Nat.add_zero, Nat.zero_add, List.getD_cons_zero, List.getD_cons_succ, toNat_digitByte]
  omega

end

theorem fourDigits_sub_eq (x : Datagram) {i n : ℕ} (h : i + 4 ≤ 16) (hn : x.number i = n) :
    fourDigits x.data i - 1500 = BitVec.ofInt 32 (n - 1500) := by
  have hle := x.number_le h
  apply BitVec.eq_of_toInt_eq
  rw [x.toInt_fourDigits_sub h, hn, BitVec.toInt_ofInt, Int.bmod_def]
  split_ifs <;> omega

end Datagram

theorem handleUdp_joystick {a b c d : ℕ} (ha : a ≤ 9999) (hb : b ≤ 9999) (hc : c ≤ 9999)
    (hd : d ≤ 9999) (beyond : List Byte) (pwm : BitVec 32) (app : MainApp) :
    handleUdp (joystickDigits a b c d ++ beyond) pwm app =
      { app := app
        queued := [.js { leftX := BitVec.ofInt 32 (a - 1500)
                         leftY := BitVec.ofInt 32 (b - 1500)
                         rightX := BitVec.ofInt 32 (c - 1500)
                         rightY := BitVec.ofInt 32 (d - 1500) }] } := by
  obtain ⟨hleftX, hleftY, hrightX, hrightY⟩ := Datagram.number_joystick beyond ha hb hc hd
  refine ((Datagram.joystick a b c d beyond).handleUdp_data pwm app).trans ?_
  rw [jsOfDatagram, Datagram.fourDigits_sub_eq _ (by decide) hleftX,
    Datagram.fourDigits_sub_eq _ (by decide) hleftY,
    Datagram.fourDigits_sub_eq _ (by decide) hrightX,
    Datagram.fourDigits_sub_eq _ (by decide) hrightY]

/-- A joystick datagram queues its four numbers less 1500, and with the sticks
upright it is the text command with a fifth of them. -/
theorem joystick_inputs_agree (beyond : List Byte) (pwm : BitVec 32) (locals : WsLocals)
    (connId : BitVec 32) (app : MainApp) :
    (∀ a b c d : ℕ, a ≤ 9999 → b ≤ 9999 → c ≤ 9999 → d ≤ 9999 →
      (handleUdp (joystickDigits a b c d ++ beyond) pwm app).queued =
        [.js { leftX := BitVec.ofInt 32 (a - 1500)
               leftY := BitVec.ofInt 32 (b - 1500)
               rightX := BitVec.ofInt 32 (c - 1500)
               rightY := BitVec.ofInt 32 (d - 1500) }]) ∧
      ∀ l r : ℤ, 0 ≤ 1500 + 5 * l → 1500 + 5 * l ≤ 9999 → 0 ≤ 1500 + 5 * r →
        1500 + 5 * r ≤ 9999 → ∃ js,
          (handleUdp (joystickDigits 1500 (1500 + 5 * l).toNat 1500 (1500 + 5 * r).toNat ++ beyond)
            pwm app).queued = [.js js] ∧
          (handleWs locals connId (jsText l r) app).1.queued = [.js js] := by
  constructor
  · intro a b c d ha hb hc hd
    rw [handleUdp_joystick ha hb hc hd]
  · intro l r hl hl' hr hr'
    have hscaled (x : ℤ) : BitVec.ofInt 32 (5 * x) = BitVec.ofInt 32 x * 5 := by
      rw [mul_comm, BitVec.ofInt_mul]
      rfl
    have hleft : ((1500 + 5 * l).toNat : ℤ) - 1500 = 5 * l := by omega
    have hright : ((1500 + 5 * r).toNat : ℤ) - 1500 = 5 * r := by omega
    refine ⟨{ leftY := BitVec.ofInt 32 l * 5, rightY := BitVec.ofInt 32 r * 5 }, ?_, ?_⟩
    · rw [handleUdp_joystick (by decide) (by omega) (by decide) (by omega), hleft, hright,
        hscaled, hscaled]
      rfl
    · rw [handleWs_jsText (by omega) (by omega)]

theorem joystick_inputs_agree_backward :
    (handleUdp (ascii "1500100015002000") 0 (initial {} 0 0)).queued =
        [.js { leftY := -500, rightY := 500 }] ∧
      (handleWs ⟨0, 0, 0⟩ 0 (ascii "js -100 100") (initial {} 0 0)).1.queued =
        [.js { leftY := -500, rightY := 500 }] := by
  obtain ⟨hdigits, hboth⟩ := joystick_inputs_agree [] 0 ⟨0, 0, 0⟩ 0 (initial {} 0 0)
  have hudp := hdigits 1500 1000 1500 2000 (by decide) (by decide) (by decide) (by decide)
  obtain ⟨js, hjs, hws⟩ := hboth (-100) 100 (by decide) (by decide) (by decide) (by decide)
  have hsame : [QueueMsg.js js] = _ := hjs.symm.trans hudp
  refine ⟨hudp, ?_⟩
  exact hws.trans hsame

end Rover.App
