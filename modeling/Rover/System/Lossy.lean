import Rover.Link.Losses
import Rover.Link.Retries
import Rover.System.Light

/-!
# Calls in which bytes are lost

The flag of a call says whether it took effect.  A request that arrives without
some of its bytes may be taken for another one, but never for another duty: the
compare registers, and with them the motors and the light, are those of calls
that take effect or do not.
-/

namespace Rover.System

open App Arduino Messages Link Slave Line

/-- The compare registers alone. -/
def compares (regs : Regs) : Regs :=
  { clearedRegs with
    ocr0a := regs.ocr0a
    ocr0b := regs.ocr0b
    ocr1a := regs.ocr1a
    ocr1b := regs.ocr1b
    ocr2a := regs.ocr2a
    ocr2b := regs.ocr2b }

/-- The compare registers after an operation of the slave. -/
def written (regs : Regs) : HwOp → Regs
  | .pwmDuty timer channel duty => Slave.pwmDuty timer channel duty regs
  | _ => regs

theorem compares_pwmDuty (timer channel duty : Byte) (regs : Regs) :
    compares (Slave.pwmDuty timer channel duty regs) =
      Slave.pwmDuty timer channel duty (compares regs) := by
  unfold Slave.pwmDuty
  split_ifs <;> rfl

theorem compares_initPwm (timer channel prescale : Byte) (u : PwmUnit) :
    compares (Slave.initPwm timer channel prescale u).regs = compares u.regs := by
  unfold Slave.initPwm
  dsimp only
  split_ifs <;> rfl

/-! ## The record of the slave -/

section

variable {π : Type} {hal : Hal π}

/-- The pin functions of the Arduino core may switch an output off its timer, but
write no compare register. -/
structure KeepsCompares (hal : Hal π) : Prop where
  pinMode : ∀ pin mode hw, compares (hal.pinMode pin mode hw).1 = compares hw.1
  digitalWrite : ∀ pin value hw, compares (hal.digitalWrite pin value hw).1 = compares hw.1
  digitalRead : ∀ pin hw, compares (hal.digitalRead pin hw).2.1 = compares hw.1
  analogRead : ∀ pin hw, compares (hal.analogRead pin hw).2.1 = compares hw.1

/-- The operations from `b` to `b'` account for the compare registers. -/
def Follows (b b' : Board π) : Prop :=
  ∃ ops, b'.ops = b.ops ++ ops ∧ compares b'.pwm.regs = ops.foldl written (compares b.pwm.regs)

namespace Follows

theorem refl (b : Board π) : Follows b b := ⟨[], by simp, rfl⟩

theorem trans {b₁ b₂ b₃ : Board π} (h : Follows b₁ b₂) (h' : Follows b₂ b₃) : Follows b₁ b₃ := by
  obtain ⟨ops, hops, hregs⟩ := h
  obtain ⟨ops', hops', hregs'⟩ := h'
  refine ⟨ops ++ ops', ?_, ?_⟩
  · rw [hops', hops, List.append_assoc]
  · rw [hregs', hregs, List.foldl_append]

theorem of_op {b b' : Board π} {op : HwOp} (hops : b'.ops = b.ops ++ [op])
    (hregs : compares b'.pwm.regs = written (compares b.pwm.regs) op) : Follows b b' :=
  ⟨[op], hops, hregs⟩

variable (hhal : KeepsCompares hal) (b : Board π)

include hhal

theorem processMessage (serialData : Buffer) :
    Follows b (Slave.processMessage hal serialData b) := by
  unfold Slave.processMessage
  split
  · exact .refl b
  · exact .refl b
  · exact .of_op rfl (hhal.pinMode _ _ b.hw)
  · exact .of_op rfl (hhal.digitalWrite _ _ b.hw)
  · exact .of_op rfl (hhal.digitalRead _ b.hw)
  · exact .of_op rfl (hhal.analogRead _ b.hw)
  · exact .of_op rfl (compares_initPwm _ _ _ b.pwm)
  · exact .of_op rfl (compares_pwmDuty _ _ _ b.pwm.regs)

theorem processTextMessage (serialData : Buffer) :
    Follows b (Slave.processTextMessage hal serialData b) := by
  unfold Slave.processTextMessage
  dsimp only
  split
  · exact ⟨[], by simp [Board.sendSerial], rfl⟩
  · exact .of_op rfl (hhal.pinMode _ _ b.hw)
  · exact .of_op rfl (hhal.digitalWrite _ _ b.hw)
  · exact .of_op rfl (hhal.digitalRead _ b.hw)
  · exact .of_op rfl (hhal.analogRead _ b.hw)
  · exact .of_op rfl (compares_initPwm _ _ _ b.pwm)
  · exact .of_op rfl (compares_pwmDuty _ _ _ b.pwm.regs)
  · exact .refl b

theorem loop (avail : List Byte) (m : Machine π) : Follows m.board (m.loop hal avail).board := by
  refine List.foldlRecOn _ _ (.refl m.board) fun b hb c _ ↦ hb.trans ?_
  cases c with
  | processMessage serialData => exact processMessage hhal b serialData
  | processTextMessage serialData => exact processTextMessage hhal b serialData

theorem step (e : Link.Event) (w : Wire π) :
    Follows w.slave.board (w.step hal e).slave.board := by
  cases e with
  | loop n => exact loop hhal (w.toSlave.take n) w.slave
  | arrive n => exact .refl w.slave.board
  | loseRequest i n => exact .refl w.slave.board
  | loseReply i n => exact .refl w.slave.board

theorem act (burst : List Link.Event) (w : Wire π) :
    Follows w.slave.board (w.act hal burst).slave.board := by
  induction burst generalizing w with
  | nil => exact .refl w.slave.board
  | cons e burst ih => exact (step hhal e w).trans (ih (w.step hal e))

/-- Whatever the line does, the slave accounts for its compare registers. -/
theorem preserves : (port hal).Preserves fun l ↦ Follows b l.wire.slave.board where
  serialFlush {l} hl := hl.trans (act hhal (l.plans.headD {}).flush l.wire)
  serialPutchar c l hl := hl.trans (act hhal (l.bursts.headD []) (l.wire.put c))
  serialDataAvail hl := hl
  serialGetchar hl := hl
  sleep {l} hl := hl.trans (act hhal (l.bursts.headD []) l.wire)

end Follows

/-! ## Lossy calls -/

theorem ofByte?_ne_duty {y x : Byte} (h : messageComplete [y, x] = true) :
    MsgType.ofByte? y ≠ some .pwmDutyRequest := by
  intro htype
  have hy : y.toNat = 6 := by
    unfold MsgType.ofByte? at htype
    split at htype <;> first | assumption | exact absurd htype (by decide)
  have hsize : 2 = msgSize y := by simpa [messageComplete, hy, msgSizeByType] using h
  simp [msgSize, hy, msgSizeByType] at hsize

theorem ops_processMessage (hal : Hal π) {serialData : Buffer}
    (h : MsgType.ofByte? (serialData 0) ≠ some .pwmDutyRequest) (b : Board π) :
    ∃ new, (processMessage hal serialData b).ops = b.ops ++ new ∧
      ∀ op ∈ new, ∀ timer channel duty, op ≠ .pwmDuty timer channel duty := by
  unfold processMessage
  split
  · exact ⟨[], by simp, by simp⟩
  · exact ⟨[], by simp, by simp⟩
  · exact ⟨[_], rfl, by simp⟩
  · exact ⟨[_], rfl, by simp⟩
  · exact ⟨[_], rfl, by simp⟩
  · exact ⟨[_], rfl, by simp⟩
  · exact ⟨[_], rfl, by simp⟩
  · next hduty => exact absurd hduty h

/-- A request without its type byte is never taken for a duty. -/
theorem ne_pwmDuty_of_misread {q : Request} {op : HwOp} (h : Misread hal q op)
    (timer channel duty : Byte) : op ≠ .pwmDuty timer channel duty := by
  obtain ⟨t, c, x, rfl, hcomplete, serialData, b, hstarts, new, hop, hnew⟩ := h
  have htail : (Request.pwmDuty t c x).bytes.tail = [(pwmDutyMsg t c x).timerChannel, x] := rfl
  rw [htail] at hcomplete hstarts
  have h0 : serialData 0 = (pwmDutyMsg t c x).timerChannel := hstarts 0 (by simp)
  obtain ⟨new', hnew', hne⟩ := ops_processMessage hal (h0 ▸ ofByte?_ne_duty hcomplete) b
  obtain rfl := List.append_cancel_left (hnew.symm.trans hnew')
  exact hne op hop timer channel duty

/-- If all duties among the operations are the one of the call, it is set or not. -/
theorem foldl_written {q : Request} {ops : List HwOp}
    (h : ∀ op ∈ ops, ∀ timer channel duty, op = .pwmDuty timer channel duty →
      q = .pwmDuty timer channel duty) (regs : Regs) :
    ops.foldl written regs = regs ∨ ∃ timer channel duty, q = .pwmDuty timer channel duty ∧
      ops.foldl written regs = Slave.pwmDuty timer channel duty regs := by
  induction ops generalizing regs with
  | nil => exact Or.inl rfl
  | cons op ops ih =>
      have hrest := ih fun op' hop' ↦ h op' (List.mem_cons_of_mem op hop')
      cases op with
      | pwmDuty timer channel duty =>
          obtain rfl := h _ List.mem_cons_self timer channel duty rfl
          refine Or.inr ⟨timer, channel, duty, rfl, ?_⟩
          rcases hrest (Slave.pwmDuty timer channel duty regs) with hsame | ⟨t, c, x, hq, hset⟩
          · exact hsame
          · obtain ⟨rfl, rfl, rfl⟩ := Request.pwmDuty.inj hq
            exact hset.trans (pwmDuty_pwmDuty timer channel duty regs)
      | pinMode pin mode => exact hrest regs
      | digitalWrite pin value => exact hrest regs
      | digitalRead pin value => exact hrest regs
      | analogRead pin value => exact hrest regs
      | initPwm timer channel prescale => exact hrest regs

/-- The compare registers after a call that takes effect or does not. -/
def attemptedCompares (regs : Regs) : Request × Bool → Regs
  | (.pwmDuty timer channel duty, true) => Slave.pwmDuty timer channel duty regs
  | _ => regs

theorem compares_attempt (u : PwmUnit) (x : Request × Bool) :
    compares (attempt u x).regs = attemptedCompares (compares u.regs) x := by
  obtain ⟨q, took⟩ := x
  cases took with
  | false => cases q <;> rfl
  | true =>
      cases q with
      | pinMode pin mode => rfl
      | analogRead pin => rfl
      | initPwm timer channel prescale => exact compares_initPwm timer channel prescale u
      | pwmDuty timer channel duty => exact compares_pwmDuty timer channel duty u.regs

/-- Whatever bytes of its attempts are lost, a call that finds the slave at rest
before each attempt writes no compare register but its own: it takes effect on
them, or does not. -/
theorem compares_of_lossy_call (hhal : KeepsCompares hal) {q : Request} (hq : q.InRange)
    {d : ArduinoSlave (Line π)} (hrest : RestsBetween hal q d) :
    ∃ took, compares (Arduino.perform (port hal) q d).2.port.wire.slave.board.pwm.regs =
      attemptedCompares (compares d.port.wire.slave.board.pwm.regs) (q, took) := by
  obtain ⟨ops, -, hops, -, hall, -⟩ := effects_of_rests hal hq hrest
  obtain ⟨new, hnew, hregs⟩ := (Follows.preserves hhal d.port.wire.slave.board).perform q
    (Follows.refl d.port.wire.slave.board)
  obtain rfl := List.append_cancel_left (hops.symm.trans hnew)
  have hduties : ∀ op ∈ ops, ∀ timer channel duty, op = .pwmDuty timer channel duty →
      q = .pwmDuty timer channel duty := by
    rintro op hop timer channel duty rfl
    rcases hall _ hop with hperforms | hmisread
    · cases q with
      | pwmDuty t c x =>
          obtain ⟨rfl, rfl, rfl⟩ := HwOp.pwmDuty.inj hperforms
          rfl
      | pinMode pin mode => cases hperforms
      | initPwm t c prescale => cases hperforms
      | analogRead pin =>
          obtain ⟨value, hvalue⟩ := hperforms
          cases hvalue
    · exact absurd rfl (ne_pwmDuty_of_misread hmisread timer channel duty)
  rw [hregs]
  rcases foldl_written hduties (compares d.port.wire.slave.board.pwm.regs) with
    hsame | ⟨timer, channel, duty, rfl, hset⟩
  · exact ⟨false, by rw [hsame]; cases q <;> rfl⟩
  · exact ⟨true, hset⟩

/-- Over a line that loses bytes, the compare registers of the slave are those of
the calls with some flags. -/
theorem compares_of_lossy_calls (hhal : KeepsCompares hal) {calls : List (Request × List Plan)}
    (hin : ∀ c ∈ calls, c.1.InRange) {d : ArduinoSlave (Line π)}
    (hrest : Each hal (RestsBetween hal) calls d) :
    ∃ xs : List (Request × Bool), xs.map Prod.fst = calls.map Prod.fst ∧
      compares (runCalls hal calls d).2.port.wire.slave.board.pwm.regs =
        xs.foldl attemptedCompares (compares d.port.wire.slave.board.pwm.regs) := by
  induction calls generalizing d with
  | nil => exact ⟨[], rfl, rfl⟩
  | cons c calls ih =>
      obtain ⟨q, plans⟩ := c
      obtain ⟨hfirst, hlater⟩ := hrest
      obtain ⟨took, htook⟩ := compares_of_lossy_call hhal (hin (q, plans) List.mem_cons_self) hfirst
      obtain ⟨xs, hxs, hregs⟩ := ih (fun c hc ↦ hin c (List.mem_cons_of_mem _ hc)) hlater
      rw [← callWith_snd] at htook
      rw [htook] at hregs
      exact ⟨(q, took) :: xs, congrArg (q :: ·) hxs, hregs⟩

/-- The motors and the light do not tell a line that loses bytes from calls that
take effect or do not. -/
theorem outputs_of_lossy_calls (hhal : KeepsCompares hal) {calls : List (Request × List Plan)}
    (hin : ∀ c ∈ calls, c.1.InRange) {d : ArduinoSlave (Line π)}
    (hrest : Each hal (RestsBetween hal) calls d) :
    ∃ xs : List (Request × Bool), xs.map Prod.fst = calls.map Prod.fst ∧
      motors (runCalls hal calls d).2.port.wire.slave.board.pwm.regs =
        motors (xs.foldl attempt d.port.wire.slave.board.pwm).regs ∧
      (runCalls hal calls d).2.port.wire.slave.board.pwm.regs.ocr1b =
        (xs.foldl attempt d.port.wire.slave.board.pwm).regs.ocr1b := by
  obtain ⟨xs, hxs, hregs⟩ := compares_of_lossy_calls hhal hin hrest
  have hfold : xs.foldl attemptedCompares (compares d.port.wire.slave.board.pwm.regs) =
      compares (xs.foldl attempt d.port.wire.slave.board.pwm).regs :=
    List.foldl_hom (fun u : PwmUnit ↦ compares u.regs) fun u x ↦ (compares_attempt u x).symm
  have hmotors := congrArg motors (hregs.trans hfold)
  have hlight := congrArg Regs.ocr1b (hregs.trans hfold)
  exact ⟨xs, hxs, hmotors, hlight⟩

end

end Rover.System
