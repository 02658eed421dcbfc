import Rover.Arduino
import Rover.Slave.Framing

/-!
# Requests as the slave reads them

The master packs the arguments of a call into bit fields and the slave takes
them out again.  For arguments that fit their fields the handler performs the
operation of the call, once, and writes the reply the master waits for.
-/

namespace Rover.Arduino

open Messages Slave

namespace Request

/-- The arguments fit their fields. -/
def InRange : Request → Prop
  | pinMode pin mode => pin.toNat < 64 ∧ mode.toNat < 4
  | initPwm timer channel prescale => timer.toNat < 4 ∧ channel.toNat < 2 ∧ prescale.toNat < 8
  | pwmDuty timer channel _ => timer.toNat < 4 ∧ channel.toNat < 2
  | analogRead _ => True

instance : (q : Request) → Decidable q.InRange
  | pinMode .. => inferInstanceAs (Decidable (_ ∧ _))
  | initPwm .. => inferInstanceAs (Decidable (_ ∧ _))
  | pwmDuty .. => inferInstanceAs (Decidable (_ ∧ _))
  | analogRead _ => inferInstanceAs (Decidable True)

variable {π : Type} (hal : Hal π)

/-- The operation of the call on the slave's hardware, without any reply. -/
def operate : Request → Board π → Board π
  | pinMode pin mode, b => b.pinMode hal pin mode
  | initPwm timer channel prescale, b => b.initPwm timer channel prescale
  | pwmDuty timer channel duty, b => b.pwmDuty timer channel duty
  | analogRead pin, b => (b.analogRead hal pin).2

def op : Request → Board π → HwOp
  | pinMode pin mode, _ => .pinMode pin mode
  | initPwm timer channel prescale, _ => .initPwm timer channel prescale
  | pwmDuty timer channel duty, _ => .pwmDuty timer channel duty
  | analogRead pin, b => .analogRead pin (hal.analogRead pin b.hw).1

def reply : Request → Board π → List Byte
  | pinMode .., _ | initPwm .., _ | pwmDuty .., _ => byteResponse 0
  | analogRead pin, b => analogReadResponse (hal.analogRead pin b.hw).1

def exec (q : Request) (b : Board π) : Board π := (q.operate hal b).sendSerial (q.reply hal b)

@[simp] theorem reply_length (q : Request) (b : Board π) : (q.reply hal b).length = q.rspSize := by
  cases q <;> rfl

theorem operate_frame (q : Request) (b : Board π) :
    (q.operate hal b).ops = b.ops ++ [q.op hal b] ∧ (q.operate hal b).written = b.written ∧
      (q.operate hal b).serialOut = b.serialOut := by
  cases q <;> exact ⟨rfl, rfl, rfl⟩

theorem exec_ops (q : Request) (b : Board π) : (q.exec hal b).ops = b.ops ++ [q.op hal b] :=
  (operate_frame hal q b).1

theorem exec_serialOut (q : Request) (b : Board π) :
    (q.exec hal b).serialOut = b.serialOut ++ q.reply hal b := by
  simp [exec, Board.sendSerial, (operate_frame hal q b).2.2]

/-! ## Packing and unpacking -/

theorem getParam_modePin {pin mode : Byte} (hpin : pin.toNat < 64) (hmode : mode.toNat < 4) :
    getParam 8 (pinModeMsg pin mode).modePin MsgbPinmodeRequest.maskPin
        MsgbPinmodeRequest.shiftPin = pin ∧
      getParam 8 (pinModeMsg pin mode).modePin MsgbPinmodeRequest.maskMode
        MsgbPinmodeRequest.shiftMode = mode := by
  have hmsg : (pinModeMsg pin mode).modePin =
      BitField.put 2 6 mode (BitField.put 6 0 pin (0 : Byte)) := by
    simp only [pinModeMsg, maskMode_eq, maskPin_eq, MsgbPinmodeRequest.shiftMode,
      MsgbPinmodeRequest.shiftPin, setParam_mask _ _ (by decide : 8 ≤ max 32 8)]
  rw [hmsg, maskMode_eq, maskPin_eq]
  constructor
  · rw [MsgbPinmodeRequest.shiftPin, getParam_mask,
      BitField.get_put_of_disjoint _ hmode (Or.inr (by decide))]
    exact BitField.get_put_self _ (by decide) hpin
  · exact BitField.get_put_self _ (by decide) hmode

theorem getParam_prescalerTimerChannel {timer channel prescale : Byte} (htimer : timer.toNat < 4)
    (hchannel : channel.toNat < 2) (hprescale : prescale.toNat < 8) :
    getParam 8 (initPwmMsg timer channel prescale).prescalerTimerChannel
        MsgbPwmInitRequest.maskTimer MsgbPwmInitRequest.shiftTimer = timer ∧
      getParam 8 (initPwmMsg timer channel prescale).prescalerTimerChannel
        MsgbPwmInitRequest.maskChannel MsgbPwmInitRequest.shiftChannel = channel ∧
      getParam 8 (initPwmMsg timer channel prescale).prescalerTimerChannel
        MsgbPwmInitRequest.maskPrescaler MsgbPwmInitRequest.shiftPrescaler = prescale := by
  have hmsg : (initPwmMsg timer channel prescale).prescalerTimerChannel =
      BitField.put 3 3 prescale (BitField.put 1 0 channel (BitField.put 2 1 timer (0 : Byte))) := by
    simp only [initPwmMsg, pwmInit_maskTimer_eq, pwmInit_maskChannel_eq, pwmInit_maskPrescaler_eq,
      MsgbPwmInitRequest.shiftTimer, MsgbPwmInitRequest.shiftChannel,
      MsgbPwmInitRequest.shiftPrescaler, setParam_mask _ _ (by decide : 8 ≤ max 32 8)]
  rw [hmsg, pwmInit_maskTimer_eq, pwmInit_maskChannel_eq, pwmInit_maskPrescaler_eq]
  refine ⟨?_, ?_, ?_⟩
  · rw [MsgbPwmInitRequest.shiftTimer, getParam_mask,
      BitField.get_put_of_disjoint _ hprescale (Or.inr (by decide)),
      BitField.get_put_of_disjoint _ hchannel (Or.inl (by decide))]
    exact BitField.get_put_self _ (by decide) htimer
  · rw [MsgbPwmInitRequest.shiftChannel, getParam_mask,
      BitField.get_put_of_disjoint _ hprescale (Or.inr (by decide))]
    exact BitField.get_put_self _ (by decide) hchannel
  · exact BitField.get_put_self _ (by decide) hprescale

theorem getParam_timerChannel {timer channel : Byte} (duty : Byte) (htimer : timer.toNat < 4)
    (hchannel : channel.toNat < 2) :
    getParam 8 (pwmDutyMsg timer channel duty).timerChannel
        MsgbPwmDutyRequest.maskTimer MsgbPwmDutyRequest.shiftTimer = timer ∧
      getParam 8 (pwmDutyMsg timer channel duty).timerChannel
        MsgbPwmDutyRequest.maskChannel MsgbPwmDutyRequest.shiftChannel = channel := by
  have hmsg : (pwmDutyMsg timer channel duty).timerChannel =
      BitField.put 1 0 channel (BitField.put 2 1 timer (0 : Byte)) := by
    simp only [pwmDutyMsg, pwmDuty_maskTimer_eq, pwmDuty_maskChannel_eq,
      MsgbPwmDutyRequest.shiftTimer, MsgbPwmDutyRequest.shiftChannel,
      setParam_mask _ _ (by decide : 8 ≤ max 32 8)]
  rw [hmsg, pwmDuty_maskTimer_eq, pwmDuty_maskChannel_eq]
  constructor
  · rw [MsgbPwmDutyRequest.shiftTimer, getParam_mask,
      BitField.get_put_of_disjoint _ hchannel (Or.inl (by decide))]
    exact BitField.get_put_self _ (by decide) htimer
  · exact BitField.get_put_self _ (by decide) hchannel

/-- The handler, given the bytes of a request, executes that request. -/
theorem processMessage_bytes {q : Request} (hq : q.InRange) {serialData : Buffer}
    (hdata : StartsWith serialData q.bytes) (b : Board π) :
    processMessage hal serialData b = q.exec hal b := by
  cases q with
  | pinMode pin mode =>
      have h0 : serialData 0 = 1 := hdata 0 (by simp [bytes, MsgbPinmodeRequest.bytes])
      have h1 : serialData 1 = (pinModeMsg pin mode).modePin :=
        hdata 1 (by simp [bytes, MsgbPinmodeRequest.bytes])
      obtain ⟨hpin, hmode⟩ := getParam_modePin hq.1 hq.2
      simp only [processMessage, h0, h1, show MsgType.ofByte? 1 = some .pinmodeRequest from rfl,
        hpin, hmode]
      rfl
  | initPwm timer channel prescale =>
      have h0 : serialData 0 = 5 := hdata 0 (by simp [bytes, MsgbPwmInitRequest.bytes])
      have h1 : serialData 1 = (initPwmMsg timer channel prescale).prescalerTimerChannel :=
        hdata 1 (by simp [bytes, MsgbPwmInitRequest.bytes])
      obtain ⟨htimer, hchannel, hprescale⟩ :=
        getParam_prescalerTimerChannel hq.1 hq.2.1 hq.2.2
      simp only [processMessage, h0, h1, show MsgType.ofByte? 5 = some .pwmInitRequest from rfl,
        htimer, hchannel, hprescale]
      rfl
  | pwmDuty timer channel duty =>
      have h0 : serialData 0 = 6 := hdata 0 (by simp [bytes, MsgbPwmDutyRequest.bytes])
      have h1 : serialData 1 = (pwmDutyMsg timer channel duty).timerChannel :=
        hdata 1 (by simp [bytes, MsgbPwmDutyRequest.bytes])
      have h2 : serialData 2 = duty := hdata 2 (by simp [bytes, MsgbPwmDutyRequest.bytes])
      obtain ⟨htimer, hchannel⟩ := getParam_timerChannel duty hq.1 hq.2
      simp only [processMessage, h0, h1, h2,
        show MsgType.ofByte? 6 = some .pwmDutyRequest from rfl, htimer, hchannel]
      rfl
  | analogRead pin =>
      have h0 : serialData 0 = 4 := hdata 0 (by simp [bytes, MsgbAnalogReadRequest.bytes])
      have h1 : serialData 1 = pin := hdata 1 (by simp [bytes, MsgbAnalogReadRequest.bytes])
      simp only [processMessage, h0, h1, show MsgType.ofByte? 4 = some .analogReadRequest from rfl]
      rfl

theorem isBinaryFrame_bytes (q : Request) : IsBinaryFrame q.bytes := by
  cases q with
  | pinMode pin mode => exact ⟨1, [_], rfl, by decide, rfl⟩
  | initPwm timer channel prescale => exact ⟨5, [_], rfl, by decide, rfl⟩
  | pwmDuty timer channel duty => exact ⟨6, [_, _], rfl, by decide, rfl⟩
  | analogRead pin => exact ⟨4, [_], rfl, by decide, rfl⟩

theorem bytes_length_le (q : Request) : q.bytes.length ≤ 3 := by
  cases q <;> simp [bytes, MsgbPinmodeRequest.bytes, MsgbPwmInitRequest.bytes,
    MsgbPwmDutyRequest.bytes, MsgbAnalogReadRequest.bytes]

theorem isBinary_bytes (q : Request) : isBinary q.bytes = true := by
  cases q <;> rfl

theorem run_of_handles {q : Request} (hq : q.InRange) {c : Slave.Call} (hc : c.Handles q.bytes)
    (b : Board π) : c.run hal b = q.exec hal b := by
  cases c with
  | processMessage serialData => exact processMessage_bytes hal hq hc.2 b
  | processTextMessage serialData => exact absurd (isBinary_bytes q) (by simp [hc.1])

end Request
end Rover.Arduino
