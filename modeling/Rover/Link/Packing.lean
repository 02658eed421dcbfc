import Rover.Arduino
import Rover.Lib.Fields

/-!
# Packing parameters into a byte

`set_param` clears its field and joins the shifted value, which is not masked.
The bits of a value that is too large for its field are joined to the fields
above it, unless they fall out of the word.  In a field that is wider than
`int`, so are the copies of the sign that the shift of a narrow value may get.
-/

namespace Rover.Messages

open BitField

variable {w v : ℕ} (int : ℕ)

def fieldMask (f : Field w) : BitVec w := mask w f.n f.s

def setField (f : Field w) (value : BitVec v) (field : BitVec w) : BitVec w :=
  setParam value field (fieldMask f) f.s int

def getField (t : ℕ) (f : Field w) (field : BitVec w) : BitVec t :=
  getParam t field (fieldMask f) f.s

/-- The shift is defined, the bits outside the mask are as before, and reading
the field, into any type that is wide enough, gives the value modulo `2 ^ n`. -/
structure TouchesOnly (f : Field w) (value : BitVec v) (field : BitVec w) : Prop where
  defined : f.s < max int v
  outside : setField int f value field &&& ~~~(fieldMask f) = field &&& ~~~(fieldMask f)
  inside : ∀ t, f.n ≤ t →
    (getField t f (setField int f value field)).toNat = value.toNat % 2 ^ f.n

/-- No bit comes out of the value but those of the field. -/
structure Exact (f : Field w) (value : BitVec v) : Prop where
  defined : f.s < max int v
  carried_eq : ∀ j, f.s + j < w → carried int value f.s j = (decide (j < f.n) && value.getLsbD j)

/-- What the shift leaves of a value, as a value of the word. -/
def seen (f : Field w) (value : BitVec v) : BitVec w := shifted int value f.s w >>> f.s

variable {int} {f : Field w} {value : BitVec v}

theorem getLsbD_seen (h : f.s < max int v) (j : ℕ) :
    (seen int f value).getLsbD j = (decide (f.s + j < w) && carried int value f.s j) := by
  rw [seen, BitVec.getLsbD_ushiftRight, getLsbD_shifted value h, Nat.add_sub_cancel_left]
  simp

theorem setField_eq (h : f.s < max int v) (field : BitVec w) :
    setField int f value field = put f.n f.s (seen int f value) field := by
  have hshift : seen int f value <<< f.s = shifted int value f.s w := by
    apply BitVec.eq_of_getLsbD_eq
    intro i hi
    rw [BitVec.getLsbD_shiftLeft, getLsbD_seen h, getLsbD_shifted value h]
    by_cases hs : f.s ≤ i
    · have hns : ¬ i < f.s := by omega
      simp [hi, hs, hns, Nat.add_sub_cancel' hs]
    · have hns : i < f.s := by omega
      simp [hs, hns]
  rw [setField, setParam, put, BitVec.setWidth_eq, hshift]
  rfl

theorem getField_eq (t : ℕ) (f : Field w) (field : BitVec w) :
    getField t f field = (get f.n f.s field).setWidth t := getParam_mask t f.n f.s field

/-- Reading gives the low bits of what the shift leaves of the value. -/
theorem toNat_getField_setField (h : f.s < max int v) (field : BitVec w) {t : ℕ} (ht : f.n ≤ t) :
    (getField t f (setField int f value field)).toNat =
      (seen int f value).toNat % 2 ^ f.n := by
  rw [getField_eq, setField_eq h]
  exact toNat_get_put (seen int f value) field f.fits ht

theorem mod_eq_mod_iff {a : BitVec w} {b : BitVec v} {n : ℕ} :
    a.toNat % 2 ^ n = b.toNat % 2 ^ n ↔ ∀ j < n, a.getLsbD j = b.getLsbD j := by
  constructor
  · intro heq j hj
    have hbit := congrArg (Nat.testBit · j) heq
    simpa [Nat.testBit_mod_two_pow, hj, BitVec.testBit_toNat] using hbit
  · intro hall
    apply Nat.eq_of_testBit_eq
    intro j
    rw [Nat.testBit_mod_two_pow, Nat.testBit_mod_two_pow, BitVec.testBit_toNat,
      BitVec.testBit_toNat]
    by_cases hj : j < n
    · rw [hall j hj]
    · simp [hj]

/-- A call is exact if and only if its shift is defined, the bits of the field
are those of the value, and whatever else is joined is set in the word
already. -/
theorem touchesOnly_iff (int : ℕ) (f : Field w) (value : BitVec v) (field : BitVec w) :
    TouchesOnly int f value field ↔ f.s < max int v ∧ ∀ j, f.s + j < w →
      if j < f.n then carried int value f.s j = value.getLsbD j
      else carried int value f.s j = true → field.getLsbD (f.s + j) = true := by
  have hkeeps := put_keeps_iff (n := f.n) (s := f.s) (seen int f value) field
  have hfits := f.fits
  constructor
  · intro h
    refine ⟨h.defined, fun j hw ↦ ?_⟩
    have hseen : (seen int f value).getLsbD j = carried int value f.s j := by
      rw [getLsbD_seen h.defined, decide_eq_true hw, Bool.true_and]
    split_ifs with hj
    · have hmod := h.inside f.n le_rfl
      rw [toNat_getField_setField h.defined field le_rfl] at hmod
      rw [← hseen]
      exact mod_eq_mod_iff.mp hmod j hj
    · have hout := h.outside
      rw [setField_eq h.defined] at hout
      rw [← hseen]
      exact hkeeps.mp hout j (Nat.le_of_not_lt hj) hw
  · rintro ⟨hdef, hall⟩
    have hseen (j : ℕ) (hw : f.s + j < w) :
        (seen int f value).getLsbD j = carried int value f.s j := by
      rw [getLsbD_seen hdef, decide_eq_true hw, Bool.true_and]
    refine ⟨hdef, ?_, fun t ht ↦ ?_⟩
    · rw [setField_eq hdef]
      refine hkeeps.mpr fun j hj hw hset ↦ ?_
      have hj' := hall j hw
      rw [if_neg (Nat.not_lt.mpr hj)] at hj'
      exact hj' (hseen j hw ▸ hset)
    · rw [toNat_getField_setField hdef field ht]
      refine mod_eq_mod_iff.mpr fun j hj ↦ ?_
      have hj' := hall j (by omega)
      rw [if_pos hj] at hj'
      rw [hseen j (by omega), hj']

section

variable {ι : Type} [DecidableEq ι] (int) (layout : ι → Field w)

/-- A sequence of `set_param` calls, each on a field of the layout. -/
def setParams (calls : List (Write ι)) (field : BitVec w) : BitVec w :=
  calls.foldl (fun field c ↦ setField int (layout c.i) c.value field) field

/-- In whatever order the calls are made, and on whatever content: every call
touches its own field only, the last value of each field is read back, and the
order does not matter as long as the last values are the same, which they are
when each field is set once. -/
structure Independent (calls : List (Write ι)) : Prop where
  touches : ∀ order, order.Perm calls → ∀ field pre c post, order = pre ++ c :: post →
    TouchesOnly int (layout c.i) c.value (setParams int layout pre field)
  reads : ∀ field i c, lastWrite i calls = some c → ∀ t, (layout i).n ≤ t →
    (getField t (layout i) (setParams int layout calls field)).toNat =
      c.value.toNat % 2 ^ (layout i).n
  sameLast : ∀ order, order.Perm calls → (∀ i, lastWrite i order = lastWrite i calls) →
    ∀ field, setParams int layout order field = setParams int layout calls field
  anyOrder : (calls.map Write.i).Nodup → ∀ order, order.Perm calls →
    ∀ field, setParams int layout order field = setParams int layout calls field

/-- The call as a write of what the shift leaves of its value. -/
def seenWrite (c : Write ι) : Write ι := ⟨c.i, w, seen int (layout c.i) c.value⟩

variable {int layout}

theorem Exact.seen_takes (h : Exact int f value) : f.Takes (seen int f value) := by
  rw [Field.Takes, mod_lt_two_pow_iff]
  intro j hj hm
  rw [getLsbD_seen h.defined, h.carried_eq j (by omega)]
  simp [Nat.not_lt.mpr hj]

theorem Exact.seen_mod (h : Exact int f value) :
    (seen int f value).toNat % 2 ^ f.n = value.toNat % 2 ^ f.n := by
  have hfits := f.fits
  refine mod_eq_mod_iff.mpr fun j hj ↦ ?_
  have hw : f.s + j < w := by omega
  rw [getLsbD_seen h.defined, h.carried_eq j hw, decide_eq_true hw, decide_eq_true hj]
  rfl

omit [DecidableEq ι] in
theorem setParams_eq {calls : List (Write ι)} (h : ∀ c ∈ calls, Exact int (layout c.i) c.value)
    (field : BitVec w) :
    setParams int layout calls field =
      writeAll layout (calls.map (seenWrite int layout)) field := by
  induction calls generalizing field with
  | nil => rfl
  | cons c calls ih =>
      have hhead : setField int (layout c.i) c.value field = _ :=
        setField_eq (h c List.mem_cons_self).defined field
      change setParams int layout calls (setField int (layout c.i) c.value field) = _
      rw [ih (fun d hd ↦ h d (List.mem_cons_of_mem c hd)), hhead]
      rfl

theorem lastWrite_map (i : ι) (calls : List (Write ι)) :
    lastWrite i (calls.map (seenWrite int layout)) =
      (lastWrite i calls).map (seenWrite int layout) := by
  rw [lastWrite, lastWrite, List.filter_map, List.getLast?_map]
  rfl

omit [DecidableEq ι] in
theorem touchesOnly_of_exact (h : Exact int f value) (field : BitVec w) :
    TouchesOnly int f value field := by
  rw [touchesOnly_iff]
  refine ⟨h.defined, fun j hw ↦ ?_⟩
  rw [h.carried_eq j hw]
  split_ifs with hj
  · rw [decide_eq_true hj, Bool.true_and]
  · rw [decide_eq_false hj, Bool.false_and]
    exact fun hset ↦ absurd hset Bool.false_ne_true

omit [DecidableEq ι] in
theorem exact_of_touchesOnly (h : TouchesOnly int f value (0 : BitVec w)) : Exact int f value := by
  obtain ⟨hdef, hall⟩ := (touchesOnly_iff int f value 0).mp h
  refine ⟨hdef, fun j hw ↦ ?_⟩
  have hj' := hall j hw
  split_ifs at hj' with hj
  · rw [hj', decide_eq_true hj, Bool.true_and]
  · rw [decide_eq_false hj, Bool.false_and]
    cases hbit : carried int value f.s j with
    | false => rfl
    | true => simpa using hj' hbit

theorem Independent.of_exact {calls : List (Write ι)}
    (hdisj : Pairwise fun i k ↦ (layout i).Disjoint (layout k))
    (h : ∀ c ∈ calls, Exact int (layout c.i) c.value) : Independent int layout calls := by
  have hperm {order : List (Write ι)} (hp : order.Perm calls) :
      ∀ c ∈ order, Exact int (layout c.i) c.value := fun c hc ↦ h c (hp.mem_iff.mp hc)
  have htakes {order : List (Write ι)} (ho : ∀ c ∈ order, Exact int (layout c.i) c.value) :
      ∀ c ∈ order.map (seenWrite int layout), (layout c.i).Takes c.value :=
    List.forall_mem_map.mpr fun c hc ↦ (ho c hc).seen_takes
  have hlast (order : List (Write ι)) (hp : order.Perm calls)
      (hsame : ∀ i, lastWrite i order = lastWrite i calls) (field : BitVec w) :
      setParams int layout order field = setParams int layout calls field := by
    rw [setParams_eq (hperm hp), setParams_eq h]
    refine writeAll_congr (htakes (hperm hp)) (htakes h) hdisj (fun i ↦ ?_) field
    rw [lastWrite_map, lastWrite_map, hsame]
  refine ⟨?_, ?_, hlast, ?_⟩
  · intro order hp field pre c post heq
    exact touchesOnly_of_exact (hperm hp c (by simp [heq])) _
  · intro field i c hc t ht
    have hc' : lastWrite i (calls.map (seenWrite int layout)) = some (seenWrite int layout c) := by
      rw [lastWrite_map, hc]
      rfl
    obtain ⟨hmem, hi⟩ : c ∈ calls ∧ c.i = i := by
      simpa using List.mem_of_getLast? hc
    subst hi
    rw [getField_eq, setParams_eq h, toNat_get_writeAll (htakes h) hdisj field hc' ht]
    exact (h c hmem).seen_mod
  · intro hnodup order hp
    exact hlast order hp (lastWrite_perm hp hnodup)

theorem Independent.exact {calls : List (Write ι)} (h : Independent int layout calls)
    {c : Write ι} (hc : c ∈ calls) : Exact int (layout c.i) c.value := by
  obtain ⟨pre, post, rfl⟩ := List.append_of_mem hc
  have hfirst : (c :: (pre ++ post)).Perm (pre ++ c :: post) := List.perm_middle.symm
  exact exact_of_touchesOnly (h.touches _ hfirst 0 [] c (pre ++ post) rfl)

theorem independent_iff {calls : List (Write ι)}
    (hdisj : Pairwise fun i k ↦ (layout i).Disjoint (layout k)) :
    Independent int layout calls ↔ ∀ c ∈ calls, Exact int (layout c.i) c.value :=
  ⟨fun h _ hc ↦ h.exact hc, .of_exact hdisj⟩

end

/-- In a field no wider than the promoted value only the bits of the value
count that go past the field and do not fall out of the word. -/
theorem exact_iff_of_le (hw : w ≤ max int v) (hs : f.s < max int v) :
    Exact int f value ↔ value.toNat % 2 ^ (w - f.s) < 2 ^ f.n := by
  rw [mod_lt_two_pow_iff]
  constructor
  · intro h j hj hlt
    have hbit := h.carried_eq j (by omega)
    rwa [carried_of_lt value (by omega), decide_eq_false (Nat.not_lt.mpr hj),
      Bool.false_and] at hbit
  · intro hnone
    refine ⟨hs, fun j hj ↦ ?_⟩
    rw [carried_of_lt value (by omega)]
    by_cases hn : j < f.n
    · rw [decide_eq_true hn, Bool.true_and]
    · rw [hnone j (by omega) (by omega), Bool.and_false]

/-- The fields of a byte. -/
theorem independent_byte_iff {ι : Type} [DecidableEq ι] {layout : ι → Field 8}
    (hdisj : Pairwise fun i k ↦ (layout i).Disjoint (layout k)) {calls : List (Write ι)} :
    Independent 32 layout calls ↔
      ∀ c ∈ calls, c.value.toNat % 2 ^ (8 - (layout c.i).s) < 2 ^ (layout c.i).n := by
  rw [independent_iff hdisj]
  refine forall₂_congr fun c _ ↦ exact_iff_of_le (by omega) ?_
  have hfits := (layout c.i).fits
  omega

/-- One call is exact if and only if its shift is defined, the field gets the
bits of the value, and whatever else is joined is set already; calls on
disjoint fields are independent of each other, for every order and every
previous content, if and only if nothing else is joined by any.  In a field no
wider than the promoted value that are the bits of the value past the field. -/
theorem setParam_independent_iff {w : ℕ} (int : ℕ) {ι : Type} [DecidableEq ι]
    (layout : ι → Field w) (hdisj : Pairwise fun i k ↦ (layout i).Disjoint (layout k))
    (calls : List (Write ι)) :
    (∀ (i : ι) {v : ℕ} (value : BitVec v) (field : BitVec w),
      TouchesOnly int (layout i) value field ↔
        (layout i).s < max int v ∧ ∀ j, (layout i).s + j < w →
          if j < (layout i).n then carried int value (layout i).s j = value.getLsbD j
          else carried int value (layout i).s j = true →
            field.getLsbD ((layout i).s + j) = true) ∧
    (Independent int layout calls ↔ ∀ c ∈ calls, (layout c.i).s < max int c.width ∧
      ∀ j, (layout c.i).s + j < w → carried int c.value (layout c.i).s j =
        (decide (j < (layout c.i).n) && c.value.getLsbD j)) ∧
    ((∀ c ∈ calls, w ≤ max int c.width ∧ (layout c.i).s < max int c.width) →
      (Independent int layout calls ↔
        ∀ c ∈ calls, c.value.toNat % 2 ^ (w - (layout c.i).s) < 2 ^ (layout c.i).n)) := by
  refine ⟨fun i _ value field ↦ touchesOnly_iff int (layout i) value field, ?_, fun hle ↦ ?_⟩
  · rw [independent_iff hdisj]
    exact forall₂_congr fun c _ ↦ ⟨fun h ↦ ⟨h.defined, h.carried_eq⟩, fun h ↦ ⟨h.1, h.2⟩⟩
  · rw [independent_iff hdisj]
    exact forall₂_congr fun c hc ↦ exact_iff_of_le (hle c hc).1 (hle c hc).2

/-- The value 2 in a field of one bit at the bottom of a byte sets the bit above. -/
theorem setParam_two : ¬ ∀ {w v : ℕ} (f : Field w) (value : BitVec v) (field : BitVec w),
    TouchesOnly 32 f value field := by
  intro h
  have hbit := (h (⟨1, 0, by decide⟩ : Field 8) (2 : Byte) 0).outside
  exact absurd hbit (by decide)

/-! ## The requests of the master -/

inductive PinmodeField
  | mode
  | pin
  deriving DecidableEq, Repr

def pinmodeLayout : PinmodeField → Field 8
  | .mode => ⟨2, 6, by decide⟩
  | .pin => ⟨6, 0, by decide⟩

inductive PwmField
  | prescaler
  | timer
  | channel
  deriving DecidableEq, Repr

/-- The fields of `prescaler_timer_channel`; `timer_channel` has the last two. -/
def pwmLayout : PwmField → Field 8
  | .prescaler => ⟨3, 3, by decide⟩
  | .timer => ⟨2, 1, by decide⟩
  | .channel => ⟨1, 0, by decide⟩

theorem pinmodeLayout_disjoint :
    Pairwise fun i k ↦ (pinmodeLayout i).Disjoint (pinmodeLayout k) := by
  intro i k hne j hi hk
  cases i <;> cases k <;> simp only [Field.Has, pinmodeLayout, ne_eq, not_true_eq_false] at * <;>
    omega

theorem pwmLayout_disjoint : Pairwise fun i k ↦ (pwmLayout i).Disjoint (pwmLayout k) := by
  intro i k hne j hi hk
  cases i <;> cases k <;> simp only [Field.Has, pwmLayout, ne_eq, not_true_eq_false] at * <;> omega

def pinModeCalls (pin mode : Byte) : List (Write PinmodeField) := [⟨.pin, 8, pin⟩, ⟨.mode, 8, mode⟩]

def initPwmCalls (timer channel prescale : Byte) : List (Write PwmField) :=
  [⟨.timer, 8, timer⟩, ⟨.channel, 8, channel⟩, ⟨.prescaler, 8, prescale⟩]

def pwmDutyCalls (timer channel : Byte) : List (Write PwmField) :=
  [⟨.timer, 8, timer⟩, ⟨.channel, 8, channel⟩]

open Arduino

theorem pinModeMsg_eq (pin mode : Byte) :
    (pinModeMsg pin mode).modePin = setParams 32 pinmodeLayout (pinModeCalls pin mode) 0 := by
  rw [pinModeMsg, maskMode_eq, maskPin_eq]
  rfl

theorem initPwmMsg_eq (timer channel prescale : Byte) :
    (initPwmMsg timer channel prescale).prescalerTimerChannel =
      setParams 32 pwmLayout (initPwmCalls timer channel prescale) 0 := by
  rw [initPwmMsg, pwmInit_maskPrescaler_eq, pwmInit_maskTimer_eq, pwmInit_maskChannel_eq]
  rfl

theorem pwmDutyMsg_eq (timer channel duty : Byte) :
    (pwmDutyMsg timer channel duty).timerChannel =
      setParams 32 pwmLayout (pwmDutyCalls timer channel) 0 := by
  rw [pwmDutyMsg, pwmDuty_maskTimer_eq, pwmDuty_maskChannel_eq]
  rfl

/-- The mode is at the top of its byte, where what is too large falls out. -/
theorem pinMode_independent_iff (pin mode : Byte) :
    Independent 32 pinmodeLayout (pinModeCalls pin mode) ↔ pin.toNat < 64 := by
  have hpin := pin.isLt
  rw [independent_byte_iff pinmodeLayout_disjoint]
  simp only [pinModeCalls, List.forall_mem_cons, List.not_mem_nil, IsEmpty.forall_iff, implies_true,
    and_true, pinmodeLayout]
  omega

theorem initPwm_independent_iff (timer channel prescale : Byte) :
    Independent 32 pwmLayout (initPwmCalls timer channel prescale) ↔
      timer.toNat % 128 < 4 ∧ channel.toNat < 2 ∧ prescale.toNat % 32 < 8 := by
  have hchannel := channel.isLt
  rw [independent_byte_iff pwmLayout_disjoint]
  simp only [initPwmCalls, List.forall_mem_cons, List.not_mem_nil, IsEmpty.forall_iff, implies_true,
    and_true, pwmLayout]
  omega

theorem pwmDuty_independent_iff (timer channel : Byte) :
    Independent 32 pwmLayout (pwmDutyCalls timer channel) ↔
      timer.toNat % 128 < 4 ∧ channel.toNat < 2 := by
  have hchannel := channel.isLt
  rw [independent_byte_iff pwmLayout_disjoint]
  simp only [pwmDutyCalls, List.forall_mem_cons, List.not_mem_nil, IsEmpty.forall_iff, implies_true,
    and_true, pwmLayout]
  omega

/-- The call for `HBRIDGE_A`, and timer 0 with a channel number out of range. -/
theorem setParam_independent_iff_initPwm :
    Independent 32 pwmLayout (initPwmCalls 2 1 1) ∧
      ¬ Independent 32 pwmLayout (initPwmCalls 0 2 1) := by
  constructor
  · exact ((setParam_independent_iff 32 pwmLayout pwmLayout_disjoint _).2.2 (by decide)).mpr
      (by decide)
  · intro h
    have hall := ((setParam_independent_iff 32 pwmLayout pwmLayout_disjoint _).2.2 (by decide)).mp h
    exact absurd (hall ⟨.channel, 8, 2⟩ (by simp [initPwmCalls])) (by decide)

end Rover.Messages
