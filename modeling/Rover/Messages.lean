import Rover.Lib.BitField

/-!
# The messages of the serial link

Both ends of the link carry their own copy of this file, with the same
definitions.  A request is a packed struct whose first byte is its type; the
reply has no header, so its length is known only from the request.
-/

namespace Rover

abbrev Byte := BitVec 8

def ascii (s : String) : List Byte := s.toList.map fun c ↦ BitVec.ofNat 8 c.toNat

namespace Messages

variable {v w : ℕ}

/-- `value << shift`, converted to the type of a field of `w` bits.  A value
narrower than an `int` is shifted as an `int`, whose sign is then extended. -/
def shifted (int : ℕ) (value : BitVec v) (shift w : ℕ) : BitVec w :=
  if v < int then (value.setWidth int <<< shift).signExtend w else (value <<< shift).setWidth w

/-- The value is joined after the field is cleared but is not masked itself. -/
def setParam (value : BitVec v) (field mask : BitVec w) (shift : ℕ) (int : ℕ := 32) : BitVec w :=
  let field := field &&& ~~~mask
  field ||| shifted int value shift w

def getParam (t : ℕ) (field mask : BitVec w) (shift : ℕ) : BitVec t :=
  ((field &&& mask) >>> shift).setWidth t

inductive MsgType
  | logInfoRequest
  | pinmodeRequest
  | digitalWriteRequest
  | digitalReadRequest
  | analogReadRequest
  | pwmInitRequest
  | pwmDutyRequest
  deriving DecidableEq, Repr

namespace MsgType

def toByte : MsgType → Byte
  | logInfoRequest => 0
  | pinmodeRequest => 1
  | digitalWriteRequest => 2
  | digitalReadRequest => 3
  | analogReadRequest => 4
  | pwmInitRequest => 5
  | pwmDutyRequest => 6

/-- The case label of `switch (type)` that a type byte selects, if any. -/
def ofByte? (type : Byte) : Option MsgType :=
  match type.toNat with
  | 0 => some logInfoRequest
  | 1 => some pinmodeRequest
  | 2 => some digitalWriteRequest
  | 3 => some digitalReadRequest
  | 4 => some analogReadRequest
  | 5 => some pwmInitRequest
  | 6 => some pwmDutyRequest
  | _ => none

end MsgType

structure MsgbPinmodeRequest where
  type : Byte := 1
  modePin : Byte := 0
  deriving DecidableEq, Repr

namespace MsgbPinmodeRequest

def maskMode : Byte := 0b11000000
def maskPin : Byte := 0b00111111
def shiftMode : ℕ := 6
def shiftPin : ℕ := 0

def bytes (msg : MsgbPinmodeRequest) : List Byte := [msg.type, msg.modePin]

end MsgbPinmodeRequest

structure MsgbDigitalWriteRequest where
  type : Byte := 2
  valuePin : Byte := 0
  deriving DecidableEq, Repr

namespace MsgbDigitalWriteRequest

def maskValue : Byte := 0b11000000
def maskPin : Byte := 0b00111111
def shiftValue : ℕ := 6
def shiftPin : ℕ := 0

end MsgbDigitalWriteRequest

structure MsgbDigitalReadRequest where
  type : Byte := 3
  pin : Byte := 0
  deriving DecidableEq, Repr

structure MsgbAnalogReadRequest where
  type : Byte := 4
  pin : Byte := 0
  deriving DecidableEq, Repr

namespace MsgbAnalogReadRequest

def bytes (msg : MsgbAnalogReadRequest) : List Byte := [msg.type, msg.pin]

end MsgbAnalogReadRequest

structure MsgbPwmInitRequest where
  type : Byte := 5
  prescalerTimerChannel : Byte := 0
  deriving DecidableEq, Repr

namespace MsgbPwmInitRequest

def maskPrescaler : Byte := 0b00111000
def maskTimer : Byte := 0b00000110
def maskChannel : Byte := 0b00000001
def shiftPrescaler : ℕ := 3
def shiftTimer : ℕ := 1
def shiftChannel : ℕ := 0

def bytes (msg : MsgbPwmInitRequest) : List Byte := [msg.type, msg.prescalerTimerChannel]

end MsgbPwmInitRequest

structure MsgbPwmDutyRequest where
  type : Byte := 6
  timerChannel : Byte := 0
  duty : Byte := 0
  deriving DecidableEq, Repr

namespace MsgbPwmDutyRequest

def maskTimer : Byte := 0b00000110
def maskChannel : Byte := 0b00000001
def shiftTimer : ℕ := 1
def shiftChannel : ℕ := 0

def bytes (msg : MsgbPwmDutyRequest) : List Byte := [msg.type, msg.timerChannel, msg.duty]

end MsgbPwmDutyRequest

def byteResponse (rval : Byte := 0) : List Byte := [rval]

/-- `msgb_analog_read_response`; both CPUs store a `uint16_t` low byte first. -/
def analogReadResponse (rval : BitVec 16) : List Byte :=
  [rval.setWidth 8, (rval >>> 8).setWidth 8]

def analogReadRval (rsp : List Byte) : BitVec 16 :=
  (rsp.getD 0 0).setWidth 16 ||| ((rsp.getD 1 0).setWidth 16 <<< 8)

theorem analogReadRval_response (rval : BitVec 16) :
    analogReadRval (analogReadResponse rval) = rval := by
  apply BitVec.eq_of_getLsbD_eq
  intro i hi
  simp only [analogReadRval, analogReadResponse, List.getD_cons_zero, List.getD_cons_succ,
    BitVec.getLsbD_or, BitVec.getLsbD_setWidth, BitVec.getLsbD_shiftLeft,
    BitVec.getLsbD_ushiftRight]
  by_cases h : i < 8
  · simp [h, hi]
  · have hsub : i - 8 < 8 := by omega
    have hadd : 8 + (i - 8) = i := by omega
    have hsub' : i - 8 < 16 := by omega
    simp [h, hi, hsub, hsub', hadd]

def msgSizeByType : List Byte := [1, 2, 2, 2, 2, 2, 3]

/-- `pow` is exact here and the conversion back to `T` reduces modulo `2 ^ w`. -/
def getStrParamN (w : ℕ) (cdata : ℕ → Byte) (size : Byte) : BitVec w :=
  (List.range size.toNat).foldl (fun rval i ↦
    let digit : ℤ := (cdata i).toNat - 48
    let rval := BitVec.ofInt w (rval.toNat + digit)
    BitVec.ofNat w (rval.toNat * 10 ^ (size.toNat - i - 1))) 0

/-! ## Decimal parameters -/

theorem add_digit (rval c : Byte) :
    BitVec.ofInt 8 (rval.toNat + ((c.toNat : ℤ) - 48)) = rval + (c - 48) := by
  have hzero : (48 : Byte).toNat = 48 := rfl
  have hrval := rval.isLt
  have hc := c.isLt
  apply BitVec.eq_of_toNat_eq
  rw [BitVec.toNat_ofInt, BitVec.toNat_add, BitVec.toNat_sub, hzero]
  omega

theorem ofNat_toNat_mul (x : Byte) (k : ℕ) :
    BitVec.ofNat 8 (x.toNat * k) = x * BitVec.ofNat 8 k := by
  rw [BitVec.ofNat_mul, BitVec.ofNat_toNat, BitVec.setWidth_eq]

theorem getStrParamN_one (cdata : ℕ → Byte) : getStrParamN 8 cdata 1 = cdata 0 - 48 := by
  have hsize : (1 : Byte).toNat = 1 := rfl
  simp only [getStrParamN, hsize, List.range_succ, List.range_zero, List.nil_append,
    List.foldl_cons, List.foldl_nil, add_digit, ofNat_toNat_mul]
  simp

theorem getStrParamN_two (cdata : ℕ → Byte) :
    getStrParamN 8 cdata 2 = (cdata 0 - 48) * 10 + (cdata 1 - 48) := by
  have hsize : (2 : Byte).toNat = 2 := rfl
  simp only [getStrParamN, hsize, List.range_succ, List.range_zero, List.nil_append,
    List.foldl_append, List.foldl_cons, List.foldl_nil, add_digit, ofNat_toNat_mul]
  simp

/-- The first of three digits counts a thousand times, since every step
multiplies all that was added before. -/
theorem getStrParamN_three (cdata : ℕ → Byte) :
    getStrParamN 8 cdata 3 = ((cdata 0 - 48) * 100 + (cdata 1 - 48)) * 10 + (cdata 2 - 48) := by
  have hsize : (3 : Byte).toNat = 3 := rfl
  simp only [getStrParamN, hsize, List.range_succ, List.range_zero, List.nil_append,
    List.foldl_append, List.foldl_cons, List.foldl_nil, add_digit, ofNat_toNat_mul]
  simp

/-! ## Reading back what was packed -/

/-- The bit of the value that is joined at the place `s + j`. -/
def carried (int : ℕ) (value : BitVec v) (s j : ℕ) : Bool :=
  if v < int then value.getLsbD (min (s + j) (int - 1) - s)
  else decide (s + j < v) && value.getLsbD j

theorem getLsbD_shifted {int s : ℕ} (value : BitVec v) (h : s < max int v) (i : ℕ) :
    (shifted int value s w).getLsbD i =
      (decide (i < w) && (decide (s ≤ i) && carried int value s (i - s))) := by
  unfold shifted carried
  by_cases hv : v < int
  · rw [if_pos hv, if_pos hv, BitVec.getLsbD_signExtend, BitVec.msb_eq_getLsbD_last,
      BitVec.getLsbD_shiftLeft, BitVec.getLsbD_shiftLeft, BitVec.getLsbD_setWidth,
      BitVec.getLsbD_setWidth]
    by_cases hs : s ≤ i
    · rw [Nat.add_sub_cancel' hs]
      have hns : ¬ i < s := by omega
      by_cases hi : i < int
      · have hmin : min i (int - 1) = i := by omega
        have hlow : i - s < int := by omega
        simp [hi, hs, hns, hmin, hlow]
      · have hmin : min i (int - 1) = int - 1 := by omega
        have hlow : int - 1 - s < int := by omega
        have hlast : int - 1 < int := by omega
        have hshift : ¬ int - 1 < s := by omega
        simp [hi, hs, hmin, hlow, hlast, hshift]
    · have hi : i < int := by omega
      have hns : i < s := by omega
      simp [hi, hs, hns]
  · rw [if_neg hv, if_neg hv, BitVec.getLsbD_setWidth, BitVec.getLsbD_shiftLeft]
    by_cases hs : s ≤ i
    · have hns : ¬ i < s := by omega
      rw [Nat.add_sub_cancel' hs]
      simp [hs, hns]
    · have hns : i < s := by omega
      simp [hs, hns]

theorem carried_of_lt {int s j : ℕ} (value : BitVec v) (h : s + j < max int v) :
    carried int value s j = value.getLsbD j := by
  unfold carried
  by_cases hv : v < int
  · have hmin : min (s + j) (int - 1) - s = j := by omega
    rw [if_pos hv, hmin]
  · have hlt : s + j < v := by omega
    rw [if_neg hv, decide_eq_true hlt, Bool.true_and]

/-- A field that is no wider than the promoted value gets what fits in it. -/
theorem shifted_of_le {int s : ℕ} (value : BitVec v) (hw : w ≤ max int v) :
    shifted int value s w = value.setWidth w <<< s := by
  apply BitVec.eq_of_getLsbD_eq
  intro i hi
  have hiw : i - s < w := by omega
  unfold shifted
  split_ifs with hv
  · have hint : i < int := by omega
    have hlow : i - s < int := by omega
    rw [BitVec.signExtend_eq_setWidth_of_le _ (by omega)]
    simp only [BitVec.getLsbD_setWidth, BitVec.getLsbD_shiftLeft, hi, hiw, hint, hlow, decide_true,
      Bool.true_and]
  · have hiv : i < v := by omega
    simp only [BitVec.getLsbD_setWidth, BitVec.getLsbD_shiftLeft, hi, hiw, hiv, decide_true,
      Bool.true_and]

theorem setParam_mask {int n s : ℕ} (value : BitVec v) (field : BitVec w) (hw : w ≤ max int v) :
    setParam value field (BitField.mask w n s) s int = BitField.put n s value field := by
  rw [setParam, shifted_of_le value hw]
  rfl

theorem getParam_mask (t n s : ℕ) (field : BitVec w) :
    getParam t field (BitField.mask w n s) s = (BitField.get n s field).setWidth t := rfl

theorem maskMode_eq : MsgbPinmodeRequest.maskMode = BitField.mask 8 2 6 := by decide

theorem maskPin_eq : MsgbPinmodeRequest.maskPin = BitField.mask 8 6 0 := by decide

theorem pwmInit_maskPrescaler_eq : MsgbPwmInitRequest.maskPrescaler = BitField.mask 8 3 3 := by
  decide

theorem pwmInit_maskTimer_eq : MsgbPwmInitRequest.maskTimer = BitField.mask 8 2 1 := by decide

theorem pwmInit_maskChannel_eq : MsgbPwmInitRequest.maskChannel = BitField.mask 8 1 0 := by decide

theorem pwmDuty_maskTimer_eq : MsgbPwmDutyRequest.maskTimer = BitField.mask 8 2 1 := by decide

theorem pwmDuty_maskChannel_eq : MsgbPwmDutyRequest.maskChannel = BitField.mask 8 1 0 := by decide

end Messages

end Rover
