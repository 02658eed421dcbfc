import Rover.Slave.Clocks
import Rover.System.Threads

/-!
# Setting up the slave

The front ends run while the constructor still sets up the slave, and calls may
be lost.  The control registers of the timers depend only on which of the
set-up calls have taken effect.
-/

namespace Rover.System

open App Arduino Interleaving Slave

/-- What a request does to the timers. -/
def pwmCall : Request → Option PwmCall
  | .initPwm timer channel prescale => some (.initPwm timer channel prescale)
  | .pwmDuty timer channel duty => some (.pwmDuty timer channel duty)
  | _ => none

/-- What has taken effect. -/
def State.tookCalls (s : State) : List PwmCall :=
  s.calls.filterMap fun x ↦ if x.2.2 then pwmCall x.2.1 else none

theorem foldl_attempt (log : List (Thread × Request × Bool)) (u : PwmUnit) :
    log.foldl (fun u x ↦ attempt u x.2) u =
      (log.filterMap fun x ↦ if x.2.2 then pwmCall x.2.1 else none).foldl PwmUnit.step u := by
  induction log generalizing u with
  | nil => rfl
  | cons x log ih =>
      obtain ⟨t, q, took⟩ := x
      rw [List.foldl_cons, ih, List.filterMap_cons]
      cases took with
      | false => rfl
      | true => cases q <;> rfl

theorem initPwm_notMem_run (timer channel prescale : Byte) (msgs : List (QueueMsg × Readings))
    (a : MainApp) : .initPwm timer channel prescale ∉ (run msgs a).2 := by
  intro h
  rcases isDrive_or_sample_run h with ⟨pwm, hdrive⟩ | hsample
  · simp [duty] at hdrive
  · simp at hsample

namespace Inv

variable {a₀ : MainApp} {u₀ : PwmUnit} {s : State}

theorem pwm_eq (h : Inv a₀ u₀ s) : s.pwm = s.tookCalls.foldl PwmUnit.step u₀ := by
  rw [h.pwm, foldl_attempt]
  rfl

/-- Only the constructor initialises timers. -/
theorem initPwm_mem (h : Inv a₀ u₀ s) {timer channel prescale : Byte}
    (hmem : .initPwm timer channel prescale ∈ s.tookCalls) :
    .initPwm timer channel prescale ∈ setupRequests := by
  obtain ⟨⟨t, q, took⟩, hx, hq⟩ := List.mem_filterMap.mp hmem
  obtain rfl : q = .initPwm timer channel prescale := by
    cases took with
    | false => simp at hq
    | true => cases q <;> simp_all [pwmCall]
  have hproject := (mem_project t s.calls).mpr hx
  by_cases ht : t = .main
  · subst ht
    have hprogram : .initPwm timer channel prescale ∈
        s.mainCalls.map Prod.fst ++ s.pending .main :=
      List.mem_append_left _ (List.mem_map_of_mem hproject)
    rw [h.program] at hprogram
    exact (List.mem_append.mp hprogram).resolve_right
      (initPwm_notMem_run timer channel prescale s.msgs a₀)
  · obtain ⟨pwm, hled⟩ := h.led_calls t ht _ hproject
    simp [duty] at hled

end Inv

/-- Where all calls ask for one prescale, the clocks do not interfere. -/
theorem clock_of_one_prescale (regs : Regs) {calls : List PwmCall} {p : Byte}
    (h : ∀ timer channel q, .initPwm timer channel q ∈ calls → q = p) (t : Fin 3) :
    (∀ q, lastPrescale t calls = some q → q = p) ∧
      (PwmUnit.after regs calls).regs.tccrB t =
        if (lastPrescale t calls).isSome then firstClock p t else regs.tccrB t := by
  induction calls using List.reverseRecOn generalizing t with
  | nil => exact ⟨fun q hq ↦ by simp [lastPrescale] at hq, rfl⟩
  | append_singleton calls call ih =>
      have hbefore := ih fun timer channel q hq ↦ h timer channel q (List.mem_append_left _ hq)
      obtain ⟨v, channel, q, rfl⟩ | ⟨hnone, -, -, hclock⟩ :=
        step_cases (PwmUnit.after regs calls) call
      · obtain rfl : q = p := h _ _ _ (List.mem_append_right _ List.mem_cons_self)
        rw [lastPrescale_initPwm, tccrB_after_initPwm]
        constructor
        · intro q' hq'
          split_ifs at hq' with ht
          · exact (Option.some.inj hq').symm
          · exact (hbefore t).1 q' hq'
        · cases hlast : lastPrescale v calls with
          | none =>
              rw [tccrB_clocked_of_none hlast]
              by_cases ht : t = v
              · subst ht
                rw [if_pos rfl, if_pos rfl]
                rfl
              · rw [if_neg ht, if_neg ht]
                exact (hbefore t).2
          | some q' =>
              -- the timer has this prescale already
              have hsame : q' = q := (hbefore v).1 q' hlast
              rw [tccrB_clocked_of_some hlast, if_neg fun hboth ↦ hboth.1 hsame, (hbefore t).2]
              by_cases ht : t = v
              · subst ht
                rw [hlast, if_pos rfl]
                rfl
              · rw [if_neg ht]
      · rw [PwmUnit.after_concat, hclock, lastPrescale_concat, hnone, Option.none_or]
        exact hbefore t

theorem tccrA_of_none (regs : Regs) {calls : List PwmCall} {t : Fin 3}
    (h : lastPrescale t calls = none) : (PwmUnit.after regs calls).regs.tccrA t = regs.tccrA t := by
  induction calls using List.reverseRecOn with
  | nil => rfl
  | append_singleton calls call ih =>
      rw [lastPrescale_concat, Option.or_eq_none_iff] at h
      obtain ⟨hcall, hcalls⟩ := h
      rw [PwmUnit.after_concat, ← ih hcalls]
      obtain ⟨v, channel, q, rfl⟩ | ⟨-, -, hmode, -⟩ := step_cases (PwmUnit.after regs calls) call
      · rw [prescaleFor_initPwm] at hcall
        have ht : t ≠ v := fun heq ↦ by simp [heq] at hcall
        rw [PwmUnit.step, tccrA_initPwm, if_neg ht]
      · rw [hmode]

theorem tccrA_of_some (regs : Regs) {calls : List PwmCall} {t : Fin 3}
    (h : (lastPrescale t calls).isSome) :
    (PwmUnit.after regs calls).regs.tccrA t = modeBits t ||| enabledBits t calls := by
  apply (OutputsKept.after t regs calls).tccrA_eq
  obtain ⟨p, hp⟩ := Option.isSome_iff_exists.mp h
  rw [timers_after, hp]
  rfl

theorem initialised_iff (t : Fin 3) (o : Output) (calls : List PwmCall) :
    initialised t o calls = true ↔
      ∃ channel p, outputOf channel = o ∧ .initPwm (timerByte t) channel p ∈ calls := by
  rw [initialised, List.any_eq_true]
  constructor
  · rintro ⟨call, hmem, hcall⟩
    cases call with
    | pwmDuty timer channel duty => exact absurd hcall Bool.false_ne_true
    | initPwm timer channel p =>
        obtain ⟨rfl, ho⟩ := of_decide_eq_true hcall
        exact ⟨channel, p, ho, hmem⟩
  · rintro ⟨channel, p, ho, hmem⟩
    exact ⟨_, hmem, decide_eq_true ⟨rfl, ho⟩⟩

/-- The five set-up calls for outputs enable A, B, C, D and the light. -/
theorem initialised_tookCalls {a₀ : MainApp} {u₀ : PwmUnit} {s : State} (h : Inv a₀ u₀ s)
    (hsetup : ∀ q ∈ setupRequests, (.main, q, true) ∈ s.calls) (t : Fin 3) (o : Output) :
    initialised t o s.tookCalls = decide (t ≠ 2 ∨ o = .b) := by
  have htook (v : Fin 3) (channel : Byte) (hq : .initPwm (timerByte v) channel 1 ∈ setupRequests) :
      .initPwm (timerByte v) channel 1 ∈ s.tookCalls :=
    List.mem_filterMap.mpr ⟨_, hsetup _ hq, rfl⟩
  rw [Bool.eq_iff_iff, decide_eq_true_eq, initialised_iff]
  constructor
  · rintro ⟨channel, p, rfl, hmem⟩
    have hq := h.initPwm_mem hmem
    simp only [setupRequests, List.mem_cons, List.not_mem_nil, or_false, reduceCtorEq, false_or,
      Request.initPwm.injEq] at hq
    clear htook hmem
    rcases hq with ⟨ht, rfl, -⟩ | ⟨ht, rfl, -⟩ | ⟨ht, rfl, -⟩ | ⟨ht, rfl, -⟩ | ⟨ht, rfl, -⟩ <;>
      revert t <;> decide
  · intro hto
    have hlisted : outputOf (if o = .a then 0 else 1) = o ∧
        .initPwm (timerByte t) (if o = .a then 0 else 1) 1 ∈ setupRequests := by
      clear htook
      cases o <;> revert t <;> decide
    exact ⟨_, 1, hlisted.1, htook t _ hlisted.2⟩

/-- At any time, whatever else is called and whatever is lost, the control
registers of a timer are as the slave found them until a set-up call for the
timer takes effect; then they have its mode, the outputs that were set up, and
the undivided clock. -/
theorem control_registers (c : Config) (vbat vbatSlope : ℚ) (regs : Regs) (events : List Event) :
    (∀ t, (after c vbat vbatSlope regs events).pwm.regs.tccrA t =
        (if (lastPrescale t (after c vbat vbatSlope regs events).tookCalls).isSome then
          modeBits t ||| enabledBits t (after c vbat vbatSlope regs events).tookCalls
        else regs.tccrA t) ∧
      (after c vbat vbatSlope regs events).pwm.regs.tccrB t =
        if (lastPrescale t (after c vbat vbatSlope regs events).tookCalls).isSome then 1
        else regs.tccrB t) ∧
    ((∀ q ∈ setupRequests, (.main, q, true) ∈ (after c vbat vbatSlope regs events).calls) →
      ((after c vbat vbatSlope regs events).pwm.regs.tccr0a = 0xa3 ∧
        (after c vbat vbatSlope regs events).pwm.regs.tccr1a = 0xa1 ∧
        (after c vbat vbatSlope regs events).pwm.regs.tccr2a = 0x23) ∧
      (after c vbat vbatSlope regs events).pwm.regs.tccr0b = 1 ∧
        (after c vbat vbatSlope regs events).pwm.regs.tccr1b = 1 ∧
        (after c vbat vbatSlope regs events).pwm.regs.tccr2b = 1) := by
  have hinv := Inv.after c vbat vbatSlope regs events
  generalize after c vbat vbatSlope regs events = s at *
  have hpwm : s.pwm = PwmUnit.after regs s.tookCalls := hinv.pwm_eq
  have hone : ∀ timer channel q, .initPwm timer channel q ∈ s.tookCalls → q = 1 := by
    intro timer channel q hq
    have hmem := hinv.initPwm_mem hq
    simp only [setupRequests, List.mem_cons, List.not_mem_nil, or_false, reduceCtorEq, false_or,
      Request.initPwm.injEq] at hmem
    rcases hmem with h | h | h | h | h <;> exact h.2.2
  have hclock : ∀ t, firstClock 1 t = 1 := by decide
  have hboth : ∀ t, s.pwm.regs.tccrA t =
      (if (lastPrescale t s.tookCalls).isSome then modeBits t ||| enabledBits t s.tookCalls
        else regs.tccrA t) ∧
      s.pwm.regs.tccrB t = if (lastPrescale t s.tookCalls).isSome then 1 else regs.tccrB t := by
    intro t
    rw [hpwm, (clock_of_one_prescale regs hone t).2, hclock]
    refine ⟨?_, rfl⟩
    cases hlast : lastPrescale t s.tookCalls with
    | none =>
        rw [tccrA_of_none regs hlast]
        rfl
    | some p =>
        rw [tccrA_of_some regs (by rw [hlast]; rfl)]
        rfl
  refine ⟨hboth, fun hsetup ↦ ?_⟩
  have hinit := initialised_tookCalls hinv hsetup
  have hsome : ∀ t, (lastPrescale t s.tookCalls).isSome := by
    intro t
    have hconfigured := (OutputsKept.after t regs s.tookCalls).configured_iff.mpr
      ⟨.b, (hinit t .b).trans (decide_eq_true (Or.inr rfl))⟩
    rw [timers_after] at hconfigured
    cases hlast : lastPrescale t s.tookCalls with
    | none =>
        rw [hlast] at hconfigured
        exact absurd hconfigured Bool.false_ne_true
    | some p => rfl
  have hmode (t : Fin 3) : s.pwm.regs.tccrA t = modeBits t |||
      ((if decide (t ≠ 2 ∨ Output.a = .b) then outputBits .a else 0) ||| outputBits .b) := by
    rw [(hboth t).1, if_pos (hsome t), enabledBits, hinit, hinit]
    simp
  have hclocks (t : Fin 3) : s.pwm.regs.tccrB t = 1 := by
    rw [(hboth t).2, if_pos (hsome t)]
  exact ⟨⟨hmode 0, hmode 1, hmode 2⟩, hclocks 0, hclocks 1, hclocks 2⟩

end Rover.System
