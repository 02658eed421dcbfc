import Rover.Lib.Runs
import Rover.Slave.Pwm

/-!
# Clocks and modes of the timers

What a timer was last asked for is read off the calls.  A later call for
timer 2 with another prescale writes the clock of timer 0 and leaves its own,
and timer 1 is never given its mode.
-/

namespace Rover.Slave

open Messages Runs

def PwmCall.prescaleFor (t : Fin 3) : PwmCall → Option Byte
  | .initPwm timer _ prescale => if timer = timerByte t then some prescale else none
  | .pwmDuty .. => none

/-- The prescale of the last call that initialised the timer. -/
def lastPrescale (t : Fin 3) (calls : List PwmCall) : Option Byte :=
  calls.reverse.findSome? (PwmCall.prescaleFor t)

theorem lastPrescale_concat (t : Fin 3) (calls : List PwmCall) (call : PwmCall) :
    lastPrescale t (calls ++ [call]) = (call.prescaleFor t).or (lastPrescale t calls) := by
  rw [lastPrescale, List.reverse_concat, List.findSome?_cons]
  cases call.prescaleFor t <;> rfl

theorem prescaleFor_initPwm (t v : Fin 3) (channel prescale : Byte) :
    PwmCall.prescaleFor v (.initPwm (timerByte t) channel prescale) =
      if v = t then some prescale else none := by
  by_cases hv : v = t
  · rw [PwmCall.prescaleFor, hv, if_pos rfl, if_pos rfl]
  · have hne : timerByte t ≠ timerByte v := fun h ↦ hv (timerByte_inj h).symm
    rw [PwmCall.prescaleFor, if_neg hne, if_neg hv]

theorem prescaleFor_of_gt {timer : Byte} (h : 2 < timer.toNat) (v : Fin 3)
    (channel prescale : Byte) : PwmCall.prescaleFor v (.initPwm timer channel prescale) = none :=
  if_neg (ne_of_timer_gt h (timerByte_le v))

/-- A call initialises one of the timers, or it changes no timer's mode, clock
or memory. -/
theorem step_cases (u : PwmUnit) (call : PwmCall) :
    (∃ t channel prescale, call = .initPwm (timerByte t) channel prescale) ∨
      (∀ t, call.prescaleFor t = none) ∧ (u.step call).timers = u.timers ∧
        (u.step call).regs.tccrA = u.regs.tccrA ∧ (u.step call).regs.tccrB = u.regs.tccrB := by
  cases call with
  | initPwm timer channel prescale =>
      obtain ⟨t, rfl⟩ | hgt := timer_cases timer
      · exact Or.inl ⟨t, channel, prescale, rfl⟩
      · right
        rw [PwmUnit.step, initPwm_of_gt hgt]
        exact ⟨fun t ↦ prescaleFor_of_gt hgt t channel prescale, rfl, rfl, rfl⟩
  | pwmDuty timer channel duty =>
      refine Or.inr ⟨fun _ ↦ rfl, rfl, ?_⟩
      obtain ⟨t, rfl⟩ | hgt := timer_cases timer
      · simp only [PwmUnit.step, pwmDuty_eq, Regs.tccrA_setOcr, Regs.tccrB_setOcr, and_self]
      · simp only [PwmUnit.step, pwmDuty_of_gt hgt, and_self]

/-- What is remembered of a timer that was last asked for `prescale`. -/
def TimerConfig.asked : Option Byte → TimerConfig
  | none => ⟨0, false⟩
  | some prescale => ⟨prescale, true⟩

theorem timers_after (regs : Regs) (calls : List PwmCall) (t : Fin 3) :
    (PwmUnit.after regs calls).timers t = .asked (lastPrescale t calls) := by
  induction calls using List.reverseRecOn with
  | nil => rfl
  | append_singleton calls call ih =>
      rw [PwmUnit.after_concat, lastPrescale_concat]
      obtain ⟨v, channel, prescale, rfl⟩ | ⟨hnone, htimers, -⟩ :=
        step_cases (PwmUnit.after regs calls) call
      · rw [PwmUnit.step, timers_initPwm, prescaleFor_initPwm]
        by_cases ht : t = v
        · rw [ht, Function.update_self, if_pos rfl]
          rfl
        · rw [Function.update_of_ne ht, ih, if_neg ht, Option.none_or]
      · rw [htimers, ih, hnone, Option.none_or]

section

variable {regs : Regs} {calls : List PwmCall} {t : Fin 3}

theorem tccrB_clocked_of_none (h : lastPrescale t calls = none) (v : Fin 3) (prescale : Byte) :
    (clocked t prescale (.after regs calls)).tccrB v =
      if v = t then firstClock prescale t else (PwmUnit.after regs calls).regs.tccrB v := by
  rw [tccrB_clocked, timers_after, h]
  rfl

theorem tccrB_clocked_of_some {q : Byte} (h : lastPrescale t calls = some q) (v : Fin 3)
    (prescale : Byte) :
    (clocked t prescale (.after regs calls)).tccrB v =
      if q ≠ prescale ∧ v = clockWritten t then
        nextClock prescale ((PwmUnit.after regs calls).regs.tccrB v) t
      else (PwmUnit.after regs calls).regs.tccrB v := by
  rw [tccrB_clocked, timers_after, h]
  rfl

end

/-! ## Interference -/

/-- The call leaves every register alone that is not its own. -/
def Isolated (u : PwmUnit) : PwmCall → Prop
  | .initPwm timer channel prescale =>
      (∀ v, timerByte v ≠ timer →
        (initPwm timer channel prescale u).regs.tccrA v = u.regs.tccrA v ∧
          (initPwm timer channel prescale u).regs.tccrB v = u.regs.tccrB v) ∧
        (initPwm timer channel prescale u).regs.ocr = u.regs.ocr ∧
        (2 < timer.toNat → initPwm timer channel prescale u = u)
  | .pwmDuty timer channel duty =>
      (pwmDuty timer channel duty u.regs).tccrA = u.regs.tccrA ∧
        (pwmDuty timer channel duty u.regs).tccrB = u.regs.tccrB ∧
        (∀ v o, timerByte v ≠ timer ∨ o ≠ outputOf channel →
          (pwmDuty timer channel duty u.regs).ocr v o = u.regs.ocr v o) ∧
        (2 < timer.toNat → pwmDuty timer channel duty u.regs = u.regs)

theorem isolated_pwmDuty (u : PwmUnit) (timer channel duty : Byte) :
    Isolated u (.pwmDuty timer channel duty) := by
  obtain ⟨t, rfl⟩ | hgt := timer_cases timer
  · refine ⟨?_, ?_, ?_, ?_⟩
    · rw [pwmDuty_eq, Regs.tccrA_setOcr]
    · rw [pwmDuty_eq, Regs.tccrB_setOcr]
    · intro v o hother
      rw [pwmDuty_eq]
      refine Regs.ocr_setOcr_of_ne _ _ _ _ _ _ (hother.imp_left ?_)
      rintro hne rfl
      exact hne rfl
    · intro hgt
      exact absurd hgt (not_lt_of_ge (timerByte_le t))
  · rw [Isolated, pwmDuty_of_gt hgt]
    exact ⟨rfl, rfl, fun _ _ _ ↦ rfl, fun _ ↦ rfl⟩

/-- Initialising a timer is isolated unless a clock other than its own is
written and changes. -/
theorem isolated_initPwm_iff (u : PwmUnit) (t : Fin 3) (channel prescale : Byte) :
    Isolated u (.initPwm (timerByte t) channel prescale) ↔
      ∀ v, v ≠ t → (clocked t prescale u).tccrB v = u.regs.tccrB v := by
  constructor
  · intro h v hv
    rw [← tccrB_initPwm t channel]
    exact (h.1 v fun heq ↦ hv (timerByte_inj heq)).2
  · intro h
    refine ⟨?_, ocr_initPwm t channel prescale u, ?_⟩
    · intro v hne
      have hv : v ≠ t := by
        rintro rfl
        exact hne rfl
      rw [tccrA_initPwm, if_neg hv, tccrB_initPwm]
      exact ⟨rfl, h v hv⟩
    · intro hgt
      exact absurd hgt (not_lt_of_ge (timerByte_le t))

/-- A later call for timer 2 with another prescale finds its value in the clock
of timer 0. -/
def LeavesClock0 (calls : List PwmCall) (u : PwmUnit) : PwmCall → Prop
  | .initPwm timer _ prescale =>
      timer = 2 → ∀ q, lastPrescale timer2 calls = some q → q ≠ prescale →
        u.regs.tccr0b = prescale &&& 0b111
  | .pwmDuty .. => True

theorem tccrB_clocked_of_self (t : Fin 3) (ht : clockWritten t = t) (prescale : Byte)
    (u : PwmUnit) {v : Fin 3} (hv : v ≠ t) :
    (clocked t prescale u).tccrB v = u.regs.tccrB v := by
  have hnot : ¬((u.timers t).prescale ≠ prescale ∧ v = t) := fun hboth ↦ hv hboth.2
  rw [tccrB_clocked, ht, if_neg hv, if_neg hnot, ite_self]

theorem isolated_after_iff (regs : Regs) (calls : List PwmCall) (call : PwmCall) :
    Isolated (.after regs calls) call ↔ LeavesClock0 calls (.after regs calls) call := by
  cases call with
  | pwmDuty timer channel duty => exact iff_of_true (isolated_pwmDuty _ _ _ _) trivial
  | initPwm timer channel prescale =>
      obtain ⟨t, rfl⟩ | hgt := timer_cases timer
      · rw [isolated_initPwm_iff]
        match t with
        | 0 | 1 => exact iff_of_true (fun v ↦ tccrB_clocked_of_self _ rfl _ _) nofun
        | 2 =>
            cases hlast : lastPrescale 2 calls with
            | none =>
                apply iff_of_true
                · intro v hv
                  rw [tccrB_clocked_of_none hlast, if_neg hv]
                · intro _ q hq
                  rw [hlast] at hq
                  cases hq
            | some q =>
                simp only [LeavesClock0, hlast, tccrB_clocked_of_some hlast]
                constructor
                · intro h _ q' hq' hne
                  cases hq'
                  have hclock := h 0 (by decide)
                  rw [if_pos ⟨hne, rfl⟩] at hclock
                  exact hclock.symm
                · intro h v hv
                  by_cases hw : q ≠ prescale ∧ v = 0
                  · obtain ⟨hne, rfl⟩ := hw
                    rw [if_pos ⟨hne, rfl⟩]
                    exact (h rfl q rfl hne).symm
                  · exact if_neg hw
      · apply iff_of_true
        · rw [Isolated, initPwm_of_gt hgt]
          exact ⟨fun _ _ ↦ ⟨rfl, rfl⟩, rfl, fun _ ↦ rfl⟩
        · rintro rfl
          exact absurd hgt (by decide)

/-- The timers do not interfere in a run if and only if no later call for
timer 2 changes the clock of timer 0. -/
theorem isolated_run_iff (regs : Regs) (calls : List PwmCall) :
    (∀ pre call post, calls = pre ++ call :: post → Isolated (.after regs pre) call) ↔
      ∀ pre call post, calls = pre ++ call :: post →
        LeavesClock0 pre (.after regs pre) call := by
  constructor
  · intro h pre call post hsplit
    exact (isolated_after_iff regs pre call).mp (h pre call post hsplit)
  · intro h pre call post hsplit
    exact (isolated_after_iff regs pre call).mpr (h pre call post hsplit)

theorem second_prescale_interferes :
    ¬∀ regs calls pre call post, calls = pre ++ call :: post →
      Isolated (.after regs pre) call := by
  intro h
  have hiso : Isolated (.after clearedRegs [.initPwm 0 0 1, .initPwm 2 0 3]) (.initPwm 2 0 4) :=
    h clearedRegs _ _ _ [] rfl
  have hclock := (hiso.1 0 (by decide)).2
  revert hclock
  decide

/-! ## Modes -/

/-- `WGMn1:0` of 8-bit fast PWM, in `TCCRnA`. -/
def fastPwmLow : Fin 3 → Byte
  | 0 => 0b11
  | 1 => 0b01
  | 2 => 0b11

/-- The other mode bits of 8-bit fast PWM, in `TCCRnB`: `WGM02` and `WGM22` are
clear, and of `WGM13:2` only the lower one is set. -/
def FastPwmHigh (x : Byte) : Fin 3 → Prop
  | 0 => x &&& 0b1000 = 0
  | 1 => x &&& 0b11000 = 0b01000
  | 2 => x &&& 0b1000 = 0

def FastPwm8 (r : Regs) (t : Fin 3) : Prop :=
  r.tccrA t &&& 0b11 = fastPwmLow t ∧ FastPwmHigh (r.tccrB t) t

/-- Every timer has the clock select and the mode of its last call. -/
def AsAsked (r : Regs) (calls : List PwmCall) : Prop :=
  ∀ t prescale, lastPrescale t calls = some prescale →
    r.tccrB t &&& 0b111 = prescale &&& 0b111 ∧ FastPwm8 r t

/-- No call for timer 1, and timer 2 is never given another clock. -/
def KeepsClock (calls : List PwmCall) : PwmCall → Prop
  | .initPwm timer _ prescale =>
      timer ≠ 1 ∧ (timer = 2 → ∀ q, lastPrescale timer2 calls = some q →
        q &&& 0b111 = prescale &&& 0b111 ∧
          (q ≠ prescale → ∀ s, lastPrescale timer0 calls = some s →
            s &&& 0b111 = prescale &&& 0b111))
  | .pwmDuty .. => True

theorem enabledBits_and_low (t : Fin 3) (calls : List PwmCall) :
    enabledBits t calls &&& 0b11 = 0 := by
  rw [enabledBits]
  cases initialised t .a calls <;> cases initialised t .b calls <;> decide

theorem modeBits_and_low (t : Fin 3) : modeBits t &&& 0b11 = fastPwmLow t := by
  revert t
  decide

/-- The half of the mode in `TCCRnA` is always right. -/
theorem tccrA_low (regs : Regs) {calls : List PwmCall} {t : Fin 3} {prescale : Byte}
    (h : lastPrescale t calls = some prescale) :
    (PwmUnit.after regs calls).regs.tccrA t &&& 0b11 = fastPwmLow t := by
  have hconfigured : ((PwmUnit.after regs calls).timers t).configured = true := by
    rw [timers_after, h]
    rfl
  rw [(OutputsKept.after t regs calls).tccrA_eq hconfigured, BitVec.and_or_distrib_right,
    modeBits_and_low, enabledBits_and_low]
  exact BitVec.or_zero

/-- What is left to say of `TCCRnB`. -/
def ClockKept (x prescale : Byte) (t : Fin 3) : Prop :=
  x &&& 0b111 = prescale &&& 0b111 ∧ FastPwmHigh x t

theorem asAsked_iff (regs : Regs) (calls : List PwmCall) :
    AsAsked (PwmUnit.after regs calls).regs calls ↔
      ∀ t prescale, lastPrescale t calls = some prescale →
        ClockKept ((PwmUnit.after regs calls).regs.tccrB t) prescale t := by
  constructor
  · intro h t prescale hlast
    exact ⟨(h t prescale hlast).1, (h t prescale hlast).2.2⟩
  · intro h t prescale hlast
    exact ⟨(h t prescale hlast).1, tccrA_low regs hlast, (h t prescale hlast).2⟩

theorem clockKept_firstClock {t : Fin 3} (ht : t ≠ 1) (prescale : Byte) :
    ClockKept (firstClock prescale t) prescale t := by
  match t with
  | 0 | 2 =>
      constructor
      · simp [firstClock, BitVec.and_assoc]
      · simp [firstClock, FastPwmHigh, BitVec.and_assoc]

theorem not_fastPwmHigh_firstClock (prescale : Byte) :
    ¬FastPwmHigh (firstClock prescale 1) 1 := by
  revert prescale
  simp only [FastPwmHigh, firstClock]
  decide

theorem ClockKept.congr {x p q : Byte} {t : Fin 3} (h : ClockKept x p t)
    (hpq : p &&& 0b111 = q &&& 0b111) : ClockKept x q t :=
  ⟨h.1.trans hpq, h.2⟩

theorem lastPrescale_initPwm (t v : Fin 3) (calls : List PwmCall) (channel prescale : Byte) :
    lastPrescale v (calls ++ [.initPwm (timerByte t) channel prescale]) =
      if v = t then some prescale else lastPrescale v calls := by
  rw [lastPrescale_concat, prescaleFor_initPwm]
  split_ifs <;> rfl

theorem tccrB_after_initPwm (regs : Regs) (calls : List PwmCall) (t : Fin 3)
    (channel prescale : Byte) :
    (PwmUnit.after regs (calls ++ [.initPwm (timerByte t) channel prescale])).regs.tccrB =
      (clocked t prescale (.after regs calls)).tccrB := by
  rw [PwmUnit.after_concat, PwmUnit.step, tccrB_initPwm]

/-- Every timer is as asked, and timer 1 has been left alone. -/
def ClocksKept (regs : Regs) (calls : List PwmCall) : Prop :=
  AsAsked (PwmUnit.after regs calls).regs calls ∧ lastPrescale timer1 calls = none

namespace ClocksKept

variable {regs : Regs} {calls : List PwmCall} (h : ClocksKept regs calls)

include h

theorem clockKept {v : Fin 3} {p : Byte} (hlast : lastPrescale v calls = some p) :
    ClockKept ((PwmUnit.after regs calls).regs.tccrB v) p v :=
  (asAsked_iff regs calls).mp h.1 v p hlast

theorem initPwm {t : Fin 3} (ht : t ≠ 1) (channel prescale : Byte)
    (hself : ClockKept ((clocked t prescale (.after regs calls)).tccrB t) prescale t)
    (hother : ∀ v p, v ≠ t → lastPrescale v calls = some p →
      ClockKept ((clocked t prescale (.after regs calls)).tccrB v) p v) :
    ClocksKept regs (calls ++ [.initPwm (timerByte t) channel prescale]) := by
  refine ⟨(asAsked_iff _ _).mpr ?_, ?_⟩
  · intro v p hp
    rw [tccrB_after_initPwm]
    rw [lastPrescale_initPwm] at hp
    by_cases hv : v = t
    · rw [if_pos hv] at hp
      cases hp
      rw [hv]
      exact hself
    · rw [if_neg hv] at hp
      exact hother v p hv hp
  · rw [lastPrescale_initPwm, if_neg (Ne.symm ht)]
    exact h.2

theorem initPwm_of_none {t : Fin 3} (ht : t ≠ 1) (hlast : lastPrescale t calls = none)
    (channel prescale : Byte) :
    ClocksKept regs (calls ++ [.initPwm (timerByte t) channel prescale]) := by
  apply h.initPwm ht channel prescale
  · rw [tccrB_clocked_of_none hlast, if_pos rfl]
    exact clockKept_firstClock ht prescale
  · intro v p hv hp
    rw [tccrB_clocked_of_none hlast, if_neg hv]
    exact h.clockKept hp

/-- Timer 0 takes the new prescale. -/
theorem initPwm_zero {q : Byte} (hlast : lastPrescale 0 calls = some q)
    (channel prescale : Byte) :
    ClocksKept regs (calls ++ [.initPwm (timerByte 0) channel prescale]) := by
  apply h.initPwm (by decide) channel prescale
  · rw [tccrB_clocked_of_some hlast]
    by_cases hq : q = prescale
    · rw [if_neg fun hboth ↦ hboth.1 hq]
      exact h.clockKept (hq ▸ hlast)
    · rw [if_pos ⟨hq, rfl⟩]
      exact clockKept_firstClock (t := 0) (by decide) prescale
  · intro v p hv hp
    rw [tccrB_clocked_of_some hlast, if_neg fun hboth ↦ hv hboth.2]
    exact h.clockKept hp

/-- Timer 2 keeps its clock, and timer 0 is given the new one. -/
theorem initPwm_two {q : Byte} (hlast : lastPrescale 2 calls = some q) {prescale : Byte}
    (hq : q &&& 0b111 = prescale &&& 0b111)
    (hzero : q ≠ prescale → ∀ s, lastPrescale 0 calls = some s →
      s &&& 0b111 = prescale &&& 0b111) (channel : Byte) :
    ClocksKept regs (calls ++ [.initPwm (timerByte 2) channel prescale]) := by
  apply h.initPwm (by decide) channel prescale
  · rw [tccrB_clocked_of_some hlast, if_neg fun hboth ↦ absurd hboth.2 (by decide)]
    exact (h.clockKept hlast).congr hq
  · intro v p hv hp
    rw [tccrB_clocked_of_some hlast]
    by_cases hw : q ≠ prescale ∧ v = clockWritten 2
    · obtain ⟨hne, rfl⟩ := hw
      rw [if_pos ⟨hne, rfl⟩]
      exact (clockKept_firstClock (t := 0) (by decide) prescale).congr (hzero hne p hp).symm
    · rw [if_neg hw]
      exact h.clockKept hp

end ClocksKept

theorem ClocksKept.concat {regs : Regs} {calls : List PwmCall} {call : PwmCall}
    (h : ClocksKept regs calls) (hcall : KeepsClock calls call) :
    ClocksKept regs (calls ++ [call]) := by
  obtain ⟨t, channel, prescale, rfl⟩ | ⟨hnone, -, htccrA, htccrB⟩ :=
    step_cases (.after regs calls) call
  · cases hlast : lastPrescale t calls with
    | none =>
        refine h.initPwm_of_none ?_ hlast channel prescale
        rintro rfl
        exact hcall.1 rfl
    | some q =>
        match t with
        | 0 => exact h.initPwm_zero hlast channel prescale
        | 1 => exact absurd rfl hcall.1
        | 2 =>
            obtain ⟨hq, hzero⟩ := hcall.2 rfl q hlast
            exact h.initPwm_two hlast hq hzero channel
  · have hlast (t : Fin 3) : lastPrescale t (calls ++ [call]) = lastPrescale t calls := by
      rw [lastPrescale_concat, hnone, Option.none_or]
    rw [ClocksKept, asAsked_iff, PwmUnit.after_concat, htccrB]
    simp only [hlast]
    exact ⟨(asAsked_iff _ _).mp h.1, h.2⟩

/-- A call after which every timer is as asked has met the condition. -/
theorem keepsClock_of_asAsked {regs : Regs} {calls : List PwmCall} {call : PwmCall}
    (h : ClocksKept regs calls)
    (hafter : AsAsked (PwmUnit.after regs (calls ++ [call])).regs (calls ++ [call])) :
    KeepsClock calls call := by
  obtain ⟨t, channel, prescale, rfl⟩ | ⟨hnone, -⟩ := step_cases (.after regs calls) call
  · rw [asAsked_iff, tccrB_after_initPwm] at hafter
    have hself := hafter t prescale (by rw [lastPrescale_initPwm, if_pos rfl])
    match t with
    | 0 => exact ⟨by decide, nofun⟩
    | 1 =>
        rw [tccrB_clocked_of_none h.2, if_pos rfl] at hself
        exact absurd hself.2 (not_fastPwmHigh_firstClock prescale)
    | 2 =>
        refine ⟨by decide, fun _ q hlast ↦ ⟨?_, fun hne s hs ↦ ?_⟩⟩
        · rw [tccrB_clocked_of_some hlast, if_neg fun hboth ↦ absurd hboth.2 (by decide)] at hself
          exact (h.clockKept hlast).1.symm.trans hself.1
        · have hzero := hafter 0 s (by rw [lastPrescale_initPwm, if_neg (by decide), hs])
          rw [tccrB_clocked_of_some hlast, if_pos ⟨hne, rfl⟩] at hzero
          exact hzero.1.symm.trans (clockKept_firstClock (t := 0) (by decide) prescale).1
  · cases call with
    | pwmDuty timer channel duty => trivial
    | initPwm timer channel prescale =>
        obtain ⟨t, rfl⟩ | hgt := timer_cases timer
        · have hsome := hnone t
          rw [prescaleFor_initPwm, if_pos rfl] at hsome
          cases hsome
        · exact ⟨ne_of_timer_gt hgt (by decide),
            fun htwo ↦ absurd htwo (ne_of_timer_gt hgt (by decide))⟩

/-- Every timer has the mode and the clock of its last call throughout a run if
and only if timer 1 is never initialised, and a later call for timer 2 selects
the same clock and, when its prescale differs, that of timer 0 as well. -/
theorem asAsked_run_iff (regs : Regs) (calls : List PwmCall) :
    (∀ pre, pre <+: calls → AsAsked (PwmUnit.after regs pre).regs pre) ↔
      ∀ pre call post, calls = pre ++ call :: post → KeepsClock pre call :=
  forall_prefix_iff (I := ClocksKept regs) (fun _ h ↦ h.1) ⟨nofun, rfl⟩
    (fun _ _ ↦ ClocksKept.concat) (fun _ _ ↦ keepsClock_of_asAsked) calls

/-- The first call for timer 1 sets bit 0 of `TCCR1B` in place of bit 3. -/
theorem timer1_not_asAsked :
    ¬∀ regs calls pre, pre <+: calls → AsAsked (PwmUnit.after regs pre).regs pre := by
  intro h
  have hasked := h clearedRegs [.initPwm 1 0 2] _ (List.prefix_refl _) 1 2 rfl
  have hclock := hasked.1
  revert hclock
  decide

end Rover.Slave
