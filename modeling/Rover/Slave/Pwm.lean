import Mathlib.Data.List.Induction
import Rover.Slave.Loop

/-!
# The timers

Each of the three timers is set up by its first call of `initPwm` and changed
by later ones, steered by what is remembered of it.  The registers of all of
them are reached from one routine.
-/

namespace Rover.Slave

open Messages

inductive PwmCall
  | initPwm (timer channel prescale : Byte)
  | pwmDuty (timer channel duty : Byte)
  deriving DecidableEq, Repr

/-- The number of a timer as it is passed. -/
def timerByte (t : Fin 3) : Byte := BitVec.ofNat 8 t

/-- The second output of a timer is meant by every number but 0. -/
inductive Output
  | a
  | b
  deriving DecidableEq, Repr

def outputOf (channel : Byte) : Output := if channel = 0 then .a else .b

namespace Regs

def tccrA (r : Regs) : Fin 3 → Byte
  | 0 => r.tccr0a
  | 1 => r.tccr1a
  | 2 => r.tccr2a

def tccrB (r : Regs) : Fin 3 → Byte
  | 0 => r.tccr0b
  | 1 => r.tccr1b
  | 2 => r.tccr2b

def ocr (r : Regs) : Fin 3 → Output → BitVec 16
  | 0, .a => r.ocr0a.setWidth 16
  | 0, .b => r.ocr0b.setWidth 16
  | 1, .a => r.ocr1a
  | 1, .b => r.ocr1b
  | 2, .a => r.ocr2a.setWidth 16
  | 2, .b => r.ocr2b.setWidth 16

def setTccrA (x : Byte) (r : Regs) : Fin 3 → Regs
  | 0 => { r with tccr0a := x }
  | 1 => { r with tccr1a := x }
  | 2 => { r with tccr2a := x }

def setTccrB (x : Byte) (r : Regs) : Fin 3 → Regs
  | 0 => { r with tccr0b := x }
  | 1 => { r with tccr1b := x }
  | 2 => { r with tccr2b := x }

def setOcr (x : Byte) (r : Regs) : Fin 3 → Output → Regs
  | 0, .a => { r with ocr0a := x }
  | 0, .b => { r with ocr0b := x }
  | 1, .a => { r with ocr1a := x.setWidth 16 }
  | 1, .b => { r with ocr1b := x.setWidth 16 }
  | 2, .a => { r with ocr2a := x }
  | 2, .b => { r with ocr2b := x }

section

variable (x : Byte) (r : Regs) (t v : Fin 3) (o o' : Output)

theorem tccrA_setTccrA : (r.setTccrA x t).tccrA v = if v = t then x else r.tccrA v := by
  match t, v with
  | 0, 0 | 0, 1 | 0, 2 | 1, 0 | 1, 1 | 1, 2 | 2, 0 | 2, 1 | 2, 2 => rfl

theorem tccrB_setTccrB : (r.setTccrB x t).tccrB v = if v = t then x else r.tccrB v := by
  match t, v with
  | 0, 0 | 0, 1 | 0, 2 | 1, 0 | 1, 1 | 1, 2 | 2, 0 | 2, 1 | 2, 2 => rfl

@[simp] theorem tccrA_setTccrB : (r.setTccrB x t).tccrA = r.tccrA := by
  match t with
  | 0 | 1 | 2 => rfl

@[simp] theorem tccrB_setTccrA : (r.setTccrA x t).tccrB = r.tccrB := by
  match t with
  | 0 | 1 | 2 => rfl

@[simp] theorem ocr_setTccrA : (r.setTccrA x t).ocr = r.ocr := by
  match t with
  | 0 | 1 | 2 => rfl

@[simp] theorem ocr_setTccrB : (r.setTccrB x t).ocr = r.ocr := by
  match t with
  | 0 | 1 | 2 => rfl

@[simp] theorem tccrA_setOcr : (r.setOcr x t o).tccrA = r.tccrA := by
  match t, o with
  | 0, .a | 0, .b | 1, .a | 1, .b | 2, .a | 2, .b => rfl

@[simp] theorem tccrB_setOcr : (r.setOcr x t o).tccrB = r.tccrB := by
  match t, o with
  | 0, .a | 0, .b | 1, .a | 1, .b | 2, .a | 2, .b => rfl

theorem ocr_setOcr_of_ne (h : v ≠ t ∨ o' ≠ o) : (r.setOcr x t o).ocr v o' = r.ocr v o' := by
  match t, v with
  | 0, 0 | 1, 1 | 2, 2 => cases o <;> cases o' <;> first | rfl | exact absurd h (by decide)
  | 0, 1 | 0, 2 | 1, 0 | 1, 2 | 2, 0 | 2, 1 => cases o <;> cases o' <;> rfl

end

end Regs

namespace PwmUnit

def step (u : PwmUnit) : PwmCall → PwmUnit
  | .initPwm timer channel prescale => initPwm timer channel prescale u
  | .pwmDuty timer channel duty => { u with regs := pwmDuty timer channel duty u.regs }

/-- The state that `setup` leaves, whatever the registers hold then. -/
def afterSetup (regs : Regs) : PwmUnit := { timers := fun _ ↦ ⟨0, false⟩, regs := regs }

def after (regs : Regs) (calls : List PwmCall) : PwmUnit := calls.foldl step (afterSetup regs)

theorem after_concat (regs : Regs) (calls : List PwmCall) (call : PwmCall) :
    after regs (calls ++ [call]) = (after regs calls).step call := by
  rw [after, List.foldl_append]
  rfl

end PwmUnit

theorem pwm_setup {π : Type} (s : Machine π) :
    s.setup.board.pwm = PwmUnit.afterSetup s.board.pwm.regs := rfl

/-! ## One call -/

/-- What the first call writes to `TCCRnA`. -/
def modeBits : Fin 3 → Byte
  | 0 => bv wgm01 ||| bv wgm00
  | 1 => bv wgm10
  | 2 => bv wgm21 ||| bv wgm20

def outputBits : Output → Byte
  | .a => bv com0a1
  | .b => bv com0b1

/-- What the first call writes to `TCCRnB`. -/
def firstClock (prescale : Byte) : Fin 3 → Byte
  | 0 => prescale &&& 0b111
  | 1 => bv wgm10 ||| (prescale &&& 0b111)
  | 2 => prescale &&& 0b111

/-- The timer whose clock is written by a later call with another prescale. -/
def clockWritten : Fin 3 → Fin 3
  | 0 => timer0
  | 1 => timer1
  | 2 => timer0

/-- What such a call writes over `old`. -/
def nextClock (prescale old : Byte) : Fin 3 → Byte
  | 0 => prescale &&& 0b111
  | 1 => (old &&& 0b11111000) ||| (prescale &&& 0b111)
  | 2 => prescale &&& 0b111

/-- The mode and the clock, before an output is enabled. -/
def clocked (t : Fin 3) (prescale : Byte) (u : PwmUnit) : Regs :=
  if !(u.timers t).configured then
    (u.regs.setTccrA (modeBits t) t).setTccrB (firstClock prescale t) t
  else if (u.timers t).prescale ≠ prescale then
    u.regs.setTccrB (nextClock prescale (u.regs.tccrB (clockWritten t)) t) (clockWritten t)
  else u.regs

/-- The three branches of `initPwm` as one. -/
theorem initPwm_eq (t : Fin 3) (channel prescale : Byte) (u : PwmUnit) :
    initPwm (timerByte t) channel prescale u =
      { timers := Function.update u.timers t ⟨prescale, true⟩
        regs := (clocked t prescale u).setTccrA
          ((clocked t prescale u).tccrA t ||| outputBits (outputOf channel)) t } := by
  have hbits : outputBits (outputOf channel) =
      if channel = 0 then bv com0a1 else bv com0b1 := by
    unfold outputOf
    split_ifs <;> rfl
  rw [hbits]
  match t with
  | 0 | 1 | 2 => rfl

theorem pwmDuty_eq (t : Fin 3) (channel duty : Byte) (regs : Regs) :
    pwmDuty (timerByte t) channel duty regs = regs.setOcr duty t (outputOf channel) := by
  unfold outputOf
  match t with
  | 0 | 1 | 2 =>
      by_cases h : channel = 0
      · rw [if_pos h]
        simp only [pwmDuty, h]
        rfl
      · rw [if_neg h]
        simp only [pwmDuty, h]
        rfl

/-- A timer is one of the three, or none. -/
theorem timer_cases (timer : Byte) : (∃ t, timer = timerByte t) ∨ 2 < timer.toNat := by
  by_cases h : 2 < timer.toNat
  · exact Or.inr h
  · refine Or.inl ⟨⟨timer.toNat, by omega⟩, ?_⟩
    rw [timerByte, BitVec.ofNat_toNat, BitVec.setWidth_eq]

theorem timerByte_inj {t v : Fin 3} (h : timerByte t = timerByte v) : t = v := by
  revert t v
  decide

theorem timerByte_le (t : Fin 3) : (timerByte t).toNat ≤ 2 := by
  revert t
  decide

theorem ne_of_timer_gt {timer k : Byte} (h : 2 < timer.toNat) (hk : k.toNat ≤ 2) : timer ≠ k := by
  rintro rfl
  omega

theorem initPwm_of_gt {timer : Byte} (h : 2 < timer.toNat) (channel prescale : Byte)
    (u : PwmUnit) : initPwm timer channel prescale u = u := by
  have h0 : timer ≠ 0 := ne_of_timer_gt h (by decide)
  have h1 : timer ≠ 1 := ne_of_timer_gt h (by decide)
  have h2 : timer ≠ 2 := ne_of_timer_gt h (by decide)
  rw [initPwm, if_neg h0, if_neg h1, if_neg h2]

theorem pwmDuty_of_gt {timer : Byte} (h : 2 < timer.toNat) (channel duty : Byte) (regs : Regs) :
    pwmDuty timer channel duty regs = regs := by
  have h0 : timer ≠ 0 := ne_of_timer_gt h (by decide)
  have h1 : timer ≠ 1 := ne_of_timer_gt h (by decide)
  have h2 : timer ≠ 2 := ne_of_timer_gt h (by decide)
  rw [pwmDuty, if_neg h0, if_neg h1, if_neg h2]

section

variable (t v : Fin 3) (channel prescale : Byte) (u : PwmUnit)

theorem tccrA_clocked :
    (clocked t prescale u).tccrA v =
      if v = t ∧ (u.timers t).configured = false then modeBits t else u.regs.tccrA v := by
  unfold clocked
  cases hc : (u.timers t).configured with
  | false =>
      simp only [Bool.not_false, if_true, Regs.tccrA_setTccrB, Regs.tccrA_setTccrA, and_true]
  | true =>
      simp only [Bool.not_true, Bool.false_eq_true, if_false, Bool.true_eq_false, and_false]
      split_ifs <;> simp

theorem tccrB_clocked :
    (clocked t prescale u).tccrB v =
      if (u.timers t).configured = false then
        if v = t then firstClock prescale t else u.regs.tccrB v
      else if (u.timers t).prescale ≠ prescale ∧ v = clockWritten t then
        nextClock prescale (u.regs.tccrB v) t
      else u.regs.tccrB v := by
  unfold clocked
  cases hc : (u.timers t).configured with
  | false => simp only [Bool.not_false, if_true, Regs.tccrB_setTccrB, Regs.tccrB_setTccrA]
  | true =>
      simp only [Bool.not_true, Bool.false_eq_true, if_false, Bool.true_eq_false]
      by_cases hp : (u.timers t).prescale ≠ prescale
      · rw [if_pos hp, Regs.tccrB_setTccrB]
        by_cases hv : v = clockWritten t
        · rw [if_pos hv, if_pos ⟨hp, hv⟩, hv]
        · rw [if_neg hv, if_neg fun hboth ↦ hv hboth.2]
      · rw [if_neg hp, if_neg fun hboth ↦ hp hboth.1]

theorem ocr_clocked : (clocked t prescale u).ocr = u.regs.ocr := by
  unfold clocked
  split_ifs <;> simp

theorem tccrA_initPwm :
    (initPwm (timerByte t) channel prescale u).regs.tccrA v =
      if v = t then
        (if (u.timers t).configured then u.regs.tccrA t else modeBits t) |||
          outputBits (outputOf channel)
      else u.regs.tccrA v := by
  rw [initPwm_eq, Regs.tccrA_setTccrA, tccrA_clocked, tccrA_clocked]
  by_cases hv : v = t
  · rw [if_pos hv, if_pos hv]
    cases (u.timers t).configured <;> simp
  · rw [if_neg hv, if_neg hv, if_neg fun hboth ↦ hv hboth.1]

theorem tccrB_initPwm :
    (initPwm (timerByte t) channel prescale u).regs.tccrB = (clocked t prescale u).tccrB := by
  rw [initPwm_eq, Regs.tccrB_setTccrA]

theorem ocr_initPwm : (initPwm (timerByte t) channel prescale u).regs.ocr = u.regs.ocr := by
  rw [initPwm_eq, Regs.ocr_setTccrA, ocr_clocked]

theorem timers_initPwm :
    (initPwm (timerByte t) channel prescale u).timers =
      Function.update u.timers t ⟨prescale, true⟩ := by
  rw [initPwm_eq]

end

/-! ## Enabled outputs -/

/-- Whether the call initialises the output. -/
def PwmCall.enables (t : Fin 3) (o : Output) : PwmCall → Bool
  | .initPwm timer channel _ => decide (timer = timerByte t ∧ outputOf channel = o)
  | .pwmDuty .. => false

def initialised (t : Fin 3) (o : Output) (calls : List PwmCall) : Bool :=
  calls.any (PwmCall.enables t o)

/-- The bits of the outputs that have been initialised. -/
def enabledBits (t : Fin 3) (calls : List PwmCall) : Byte :=
  (if initialised t .a calls then outputBits .a else 0) |||
    (if initialised t .b calls then outputBits .b else 0)

section

variable (t : Fin 3) (calls : List PwmCall)

theorem initialised_concat (o : Output) (call : PwmCall) :
    initialised t o (calls ++ [call]) = (initialised t o calls || call.enables t o) := by
  rw [initialised, List.any_append, List.any_cons, List.any_nil, Bool.or_false]
  rfl

theorem enabledBits_of_not_enables {call : PwmCall} (h : ∀ o, call.enables t o = false) :
    enabledBits t (calls ++ [call]) = enabledBits t calls := by
  simp only [enabledBits, initialised_concat, h, Bool.or_false]

theorem enabledBits_initPwm (channel prescale : Byte) :
    enabledBits t (calls ++ [.initPwm (timerByte t) channel prescale]) =
      enabledBits t calls ||| outputBits (outputOf channel) := by
  have henables (o : Output) :
      PwmCall.enables t o (.initPwm (timerByte t) channel prescale) =
        decide (outputOf channel = o) := by
    simp [PwmCall.enables]
  simp only [enabledBits, initialised_concat, henables]
  generalize initialised t .a calls = x
  generalize initialised t .b calls = y
  generalize outputOf channel = o
  cases x <;> cases y <;> cases o <;> decide

end

/-- The output bits of a timer, as far as it is configured. -/
structure OutputsKept (t : Fin 3) (calls : List PwmCall) (u : PwmUnit) : Prop where
  configured_iff : (u.timers t).configured = true ↔ ∃ o, initialised t o calls = true
  tccrA_eq : (u.timers t).configured = true → u.regs.tccrA t = modeBits t ||| enabledBits t calls

theorem enabledBits_of_not_initialised {t : Fin 3} {calls : List PwmCall}
    (h : ¬∃ o, initialised t o calls = true) : enabledBits t calls = 0 := by
  rw [not_exists] at h
  rw [enabledBits, if_neg (h .a), if_neg (h .b)]
  rfl

namespace OutputsKept

variable {t : Fin 3} {calls : List PwmCall} {u : PwmUnit}

theorem afterSetup (t : Fin 3) (regs : Regs) : OutputsKept t [] (.afterSetup regs) where
  configured_iff := by simp [PwmUnit.afterSetup, initialised]
  tccrA_eq h := absurd h (by simp [PwmUnit.afterSetup])

/-- A call that initialises no output of the timer leaves it alone. -/
theorem of_not_enables (hkept : OutputsKept t calls u) {call : PwmCall} {u' : PwmUnit}
    (hnot : ∀ o, call.enables t o = false) (htimer : u'.timers t = u.timers t)
    (hregs : u'.regs.tccrA t = u.regs.tccrA t) : OutputsKept t (calls ++ [call]) u' where
  configured_iff := by
    simp only [htimer, initialised_concat, hnot, Bool.or_false]
    exact hkept.configured_iff
  tccrA_eq h := by
    rw [htimer] at h
    rw [hregs, enabledBits_of_not_enables t calls hnot]
    exact hkept.tccrA_eq h

theorem initPwm_self (hkept : OutputsKept t calls u) (channel prescale : Byte) :
    OutputsKept t (calls ++ [.initPwm (timerByte t) channel prescale])
      (initPwm (timerByte t) channel prescale u) where
  configured_iff := by
    have henables : initialised t (outputOf channel)
        (calls ++ [.initPwm (timerByte t) channel prescale]) = true := by
      rw [initialised_concat]
      simp [PwmCall.enables]
    rw [timers_initPwm, Function.update_self]
    exact ⟨fun _ ↦ ⟨_, henables⟩, fun _ ↦ rfl⟩
  tccrA_eq _ := by
    rw [tccrA_initPwm, if_pos rfl, enabledBits_initPwm]
    by_cases hc : (u.timers t).configured = true
    · rw [if_pos hc, hkept.tccrA_eq hc, BitVec.or_assoc]
    · rw [if_neg hc, enabledBits_of_not_initialised (hkept.configured_iff.not.mp hc),
        show (0 : Byte) = 0#8 from rfl, BitVec.zero_or]

theorem step (hkept : OutputsKept t calls u) (call : PwmCall) :
    OutputsKept t (calls ++ [call]) (u.step call) := by
  cases call with
  | pwmDuty timer channel duty =>
      refine hkept.of_not_enables (fun _ ↦ rfl) rfl ?_
      obtain ⟨v, rfl⟩ | hgt := timer_cases timer
      · simp only [PwmUnit.step, pwmDuty_eq, Regs.tccrA_setOcr]
      · simp only [PwmUnit.step, pwmDuty_of_gt hgt]
  | initPwm timer channel prescale =>
      obtain ⟨v, rfl⟩ | hgt := timer_cases timer
      · by_cases hv : v = t
        · subst hv
          exact hkept.initPwm_self channel prescale
        · have hne : timerByte v ≠ timerByte t := fun h ↦ hv (timerByte_inj h)
          refine hkept.of_not_enables (fun o ↦ by simp [PwmCall.enables, hne]) ?_ ?_
          · rw [PwmUnit.step, timers_initPwm, Function.update_of_ne (Ne.symm hv)]
          · rw [PwmUnit.step, tccrA_initPwm, if_neg (Ne.symm hv)]
      · have hne : timer ≠ timerByte t := ne_of_timer_gt hgt (timerByte_le t)
        refine hkept.of_not_enables (fun o ↦ by simp [PwmCall.enables, hne]) ?_ ?_
        · rw [PwmUnit.step, initPwm_of_gt hgt]
        · rw [PwmUnit.step, initPwm_of_gt hgt]

theorem after (t : Fin 3) (regs : Regs) (calls : List PwmCall) :
    OutputsKept t calls (.after regs calls) := by
  induction calls using List.reverseRecOn with
  | nil => exact afterSetup t regs
  | append_singleton calls call ih =>
      rw [PwmUnit.after_concat]
      exact ih.step call

end OutputsKept

theorem initialised_append (t : Fin 3) (o : Output) (calls more : List PwmCall) :
    initialised t o (calls ++ more) = (initialised t o calls || initialised t o more) :=
  List.any_append

theorem enabledBits_and_outputBits {t : Fin 3} {o : Output} {calls : List PwmCall}
    (h : initialised t o calls = true) :
    enabledBits t calls &&& outputBits o = outputBits o := by
  revert h
  cases o <;> rw [enabledBits] <;> generalize initialised t .a calls = x <;>
    generalize initialised t .b calls = y <;> cases x <;> cases y <;> decide

theorem modeBits_and_outputBits (t : Fin 3) (o : Output) : modeBits t &&& outputBits o = 0 := by
  match t with
  | 0 | 1 | 2 => cases o <;> decide

theorem tccrA_after (regs : Regs) {calls : List PwmCall} {t : Fin 3}
    (h : ∃ o, initialised t o calls = true) :
    (PwmUnit.after regs calls).regs.tccrA t = modeBits t ||| enabledBits t calls := by
  have hkept : OutputsKept t calls (.after regs calls) := .after t regs calls
  exact hkept.tccrA_eq (hkept.configured_iff.mpr h)

/-- Once a timer has been initialised, its `TCCRnA` holds the mode bits and the
bits of exactly the initialised outputs, which other calls in between, their
order and their number do not change. -/
theorem enabled_outputs (regs : Regs) (calls : List PwmCall) (t : Fin 3)
    (h : ∃ o, initialised t o calls = true) :
    (PwmUnit.after regs calls).regs.tccrA t = modeBits t ||| enabledBits t calls ∧
      (∀ o more, initialised t o calls = true →
        (PwmUnit.after regs (calls ++ more)).regs.tccrA t &&& outputBits o = outputBits o) ∧
      ∀ regs' calls', (∀ o, initialised t o calls' = initialised t o calls) →
        (PwmUnit.after regs' calls').regs.tccrA t =
          (PwmUnit.after regs calls).regs.tccrA t := by
  refine ⟨tccrA_after regs h, ?_, ?_⟩
  · intro o more ho
    have hlater : initialised t o (calls ++ more) = true := by
      rw [initialised_append, ho, Bool.true_or]
    rw [tccrA_after regs ⟨o, hlater⟩, BitVec.and_or_distrib_right, modeBits_and_outputBits,
      enabledBits_and_outputBits hlater]
    exact BitVec.zero_or
  · intro regs' calls' hsame
    have hinit : ∃ o, initialised t o calls' = true := by
      obtain ⟨o, ho⟩ := h
      exact ⟨o, (hsame o).trans ho⟩
    rw [tccrA_after regs' hinit, tccrA_after regs h, enabledBits, enabledBits, hsame, hsame]

def sampleCalls : List PwmCall :=
  [.initPwm 2 0 3, .initPwm 1 1 2, .initPwm 2 1 4, .pwmDuty 2 0 100]

theorem enabled_outputs_sample :
    (PwmUnit.after clearedRegs sampleCalls).regs.tccrA 2 = 0b10100011 ∧
      (PwmUnit.after clearedRegs sampleCalls).regs.tccrA 1 = 0b00100001 :=
  ⟨(enabled_outputs clearedRegs sampleCalls 2 ⟨.a, by decide⟩).1.trans (by decide),
    (enabled_outputs clearedRegs sampleCalls 1 ⟨.b, by decide⟩).1.trans (by decide)⟩

end Rover.Slave
