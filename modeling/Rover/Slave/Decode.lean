import Rover.Slave.Board

/-!
# Text commands

`process_text_message` takes a command out of the buffer, performs it and
writes a reply.  It reads as many bytes as the command letter calls for,
wherever the message ended.
-/

namespace Rover.Slave

open Messages

/-! ## Decoding -/

inductive TextCommand
  | logInfo
  | pinMode (pin mode : Byte)
  | digitalWrite (pin value : Byte)
  | digitalRead (pin : Byte)
  | analogRead (pin : Byte)
  | initPwm (timer channel prescale : Byte)
  | pwmDuty (timer channel duty : Byte)
  deriving DecidableEq

section

variable (d : Buffer)

def one (i : ℕ) : Byte := d (BitVec.ofNat 8 i) - 48

def two (i : ℕ) : Byte := one d i * 10 + one d (i + 1)

def three (i : ℕ) : Byte := (one d i * 100 + one d (i + 1)) * 10 + one d (i + 2)

/-- The command in the buffer, if its letter is one of a command. -/
def decodeText : Option TextCommand :=
  match (d 0).toNat with
  | 65 => some .logInfo
  | 66 => some (.pinMode (two d 1) (two d 3))
  | 67 => some (.digitalWrite (two d 1) (two d 3))
  | 68 => some (.digitalRead (two d 1))
  | 69 => some (.analogRead (two d 1))
  | 70 => some (.initPwm (one d 1) (one d 2) (one d 3))
  | 71 => some (.pwmDuty (one d 1) (one d 2) (three d 3))
  | _ => none

end

namespace TextCommand

variable {π : Type} (hal : Hal π)

/-- The hardware call of a command. -/
def operate (b : Board π) : TextCommand → Board π
  | logInfo => b
  | pinMode pin mode => b.pinMode hal pin mode
  | digitalWrite pin value => b.digitalWrite hal pin value
  | digitalRead pin => (b.digitalRead hal pin).2
  | analogRead pin => (b.analogRead hal pin).2
  | initPwm timer channel prescale => b.initPwm timer channel prescale
  | pwmDuty timer channel duty => b.pwmDuty timer channel duty

def reply (b : Board π) : TextCommand → List Byte
  | logInfo => ascii ";"
  | pinMode pin mode => ascii ("pinMode(" ++ decimal pin ++ "," ++ decimal mode ++ ");")
  | digitalWrite pin value =>
      ascii ("digitalWrite(" ++ decimal pin ++ "," ++ decimal value ++ ");")
  | digitalRead pin =>
      ascii (decimal (b.digitalRead hal pin).1 ++ "=digitalRead(" ++ decimal pin ++ ");")
  | analogRead pin =>
      ascii (decimal (b.analogRead hal pin).1 ++ "=analogRead(" ++ decimal pin ++ ");")
  | initPwm timer channel prescale =>
      ascii ("initPwm(" ++ decimal timer ++ "," ++ decimal channel ++ "," ++
        decimal prescale ++ ");")
  | pwmDuty timer channel duty =>
      ascii ("pwmDuty(" ++ decimal timer ++ "," ++ decimal channel ++ "," ++
        decimal duty ++ ");")

def exec (b : Board π) (c : TextCommand) : Board π := (c.operate hal b).sendSerial (c.reply hal b)

/-- The record of the hardware call, if there is one. -/
def ops (b : Board π) : TextCommand → List HwOp
  | logInfo => []
  | pinMode pin mode => [.pinMode pin mode]
  | digitalWrite pin value => [.digitalWrite pin value]
  | digitalRead pin => [.digitalRead pin (hal.digitalRead pin b.hw).1]
  | analogRead pin => [.analogRead pin (hal.analogRead pin b.hw).1]
  | initPwm timer channel prescale => [.initPwm timer channel prescale]
  | pwmDuty timer channel duty => [.pwmDuty timer channel duty]

theorem ops_exec (b : Board π) (c : TextCommand) : (c.exec hal b).ops = b.ops ++ c.ops hal b := by
  cases c with
  | logInfo => exact (List.append_nil _).symm
  | _ => rfl

theorem ops_injective (b : Board π) {c c' : TextCommand} (h : c.ops hal b = c'.ops hal b) :
    c = c' := by
  cases c <;> cases c' <;> simp_all [ops]

theorem exec_injective (b : Board π) {c c' : TextCommand} (h : c.exec hal b = c'.exec hal b) :
    c = c' := by
  have hops := congrArg Board.ops h
  rw [ops_exec, ops_exec] at hops
  exact ops_injective hal b (List.append_cancel_left hops)

/-- Every command leaves a trace. -/
theorem exec_ne (b : Board π) (c : TextCommand) : c.exec hal b ≠ b := by
  intro h
  have hops := congrArg Board.ops h
  rw [ops_exec] at hops
  have hnil : c.ops hal b = [] := List.append_cancel_left (hops.trans (List.append_nil _).symm)
  cases c with
  | logInfo =>
      have hwritten := congrArg (fun b ↦ b.written.length) h
      simp [exec, operate, reply, Board.sendSerial, ascii] at hwritten
  | _ => exact absurd hnil (List.cons_ne_nil _ _)

end TextCommand

theorem processTextMessage_eq {π : Type} (hal : Hal π) (d : Buffer) (b : Board π) :
    processTextMessage hal d b = (decodeText d).elim b fun c ↦ c.exec hal b := by
  unfold processTextMessage decodeText
  simp only [getStrParamN_one, getStrParamN_two, getStrParamN_three, cdata]
  generalize (d 0).toNat = letter
  split
  case h_8 => simp [*]
  all_goals rfl

/-- One of the letters from `A` to `G`. -/
def IsLetter (c : Byte) : Prop := 65 ≤ c.toNat ∧ c.toNat ≤ 71

instance (c : Byte) : Decidable (IsLetter c) := inferInstanceAs (Decidable (_ ∧ _))

theorem decodeText_eq_none_iff (d : Buffer) : decodeText d = none ↔ ¬ IsLetter (d 0) := by
  unfold decodeText IsLetter
  generalize (d 0).toNat = letter
  split
  case h_8 => grind
  all_goals simp

theorem processTextMessage_eq_self_iff {π : Type} (hal : Hal π) (d : Buffer) (b : Board π) :
    processTextMessage hal d b = b ↔ ¬ IsLetter (d 0) := by
  rw [processTextMessage_eq, ← decodeText_eq_none_iff]
  cases decodeText d with
  | none => exact iff_of_true rfl rfl
  | some c => exact iff_of_false (c.exec_ne hal b) (Option.some_ne_none c)

theorem decodeText_eq_of_processTextMessage_eq {π : Type} (hal : Hal π) {d d' : Buffer}
    (b : Board π) (h : processTextMessage hal d b = processTextMessage hal d' b) :
    decodeText d = decodeText d' := by
  rw [processTextMessage_eq, processTextMessage_eq] at h
  cases hd : decodeText d with
  | none =>
      cases hd' : decodeText d' with
      | none => rfl
      | some c' =>
          rw [hd, hd'] at h
          exact absurd h.symm (c'.exec_ne hal b)
  | some c =>
      cases hd' : decodeText d' with
      | none =>
          rw [hd, hd'] at h
          exact absurd h (c.exec_ne hal b)
      | some c' =>
          rw [hd, hd'] at h
          rw [TextCommand.exec_injective hal b h]

/-- The place of the last byte that the handler reads. -/
def reach (letter : ℕ) : ℕ :=
  match letter with
  | 66 | 67 => 4
  | 68 | 69 => 2
  | 70 => 3
  | 71 => 5
  | _ => 0

theorem reach_le (letter : ℕ) : reach letter ≤ 5 := by
  unfold reach
  split <;> decide

section

variable {d d' : Buffer}

theorem decodeText_congr
    (h : ∀ i ≤ reach (d 0).toNat, d (BitVec.ofNat 8 i) = d' (BitVec.ofNat 8 i)) :
    decodeText d = decodeText d' := by
  have h0 : d 0 = d' 0 := h 0 (Nat.zero_le _)
  have hone (i : ℕ) (hi : i ≤ reach (d 0).toNat) : one d i = one d' i := by
    rw [one, one, h i hi]
  unfold decodeText two three
  rw [← h0]
  clear h h0
  generalize (d 0).toNat = letter at hone ⊢
  split
  case h_1 | h_8 => rfl
  case h_2 | h_3 =>
    rw [hone 1 (by decide), hone 2 (by decide), hone 3 (by decide), hone 4 (by decide)]
  case h_4 | h_5 => rw [hone 1 (by decide), hone 2 (by decide)]
  case h_6 => rw [hone 1 (by decide), hone 2 (by decide), hone 3 (by decide)]
  case h_7 =>
    rw [hone 1 (by decide), hone 2 (by decide), hone 3 (by decide), hone 4 (by decide),
      hone 5 (by decide)]

/-- The last byte that is read adds its digit to the last argument. -/
theorem eq_of_decodeText_eq (hreach : 3 ≤ reach (d 0).toNat)
    (h : ∀ i < reach (d 0).toNat, d (BitVec.ofNat 8 i) = d' (BitVec.ofNat 8 i))
    (heq : decodeText d = decodeText d') :
    d (BitVec.ofNat 8 (reach (d 0).toNat)) = d' (BitVec.ofNat 8 (reach (d 0).toNat)) := by
  have h0 : d 0 = d' 0 := h 0 (by omega)
  have hone (i : ℕ) (hi : i < reach (d 0).toNat) : one d i = one d' i := by
    rw [one, one, h i hi]
  suffices hlast : one d (reach (d 0).toNat) = one d' (reach (d 0).toNat) by
    have hback := congrArg (· + (48 : Byte)) hlast
    simpa only [one, BitVec.sub_add_cancel] using hback
  unfold decodeText two three at heq
  rw [← h0] at heq
  clear h h0
  generalize (d 0).toNat = letter at hone heq hreach ⊢
  split at heq
  case h_1 => exact absurd hreach (by decide)
  case h_2 | h_3 =>
    rw [hone 1 (by decide), hone 2 (by decide), hone 3 (by decide)] at heq
    simpa [reach] using heq
  case h_4 | h_5 => exact absurd hreach (by decide)
  case h_6 =>
    rw [hone 1 (by decide), hone 2 (by decide)] at heq
    simpa [reach] using heq
  case h_7 =>
    rw [hone 1 (by decide), hone 2 (by decide), hone 3 (by decide), hone 4 (by decide)] at heq
    simpa [reach] using heq
  case h_8 =>
    have hnone : reach letter = 0 := by simp [reach, *]
    omega

end

end Rover.Slave
