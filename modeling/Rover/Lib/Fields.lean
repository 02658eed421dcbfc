import Mathlib.Data.List.Count
import Mathlib.Data.List.Induction
import Mathlib.Data.List.Nodup
import Mathlib.Logic.Pairwise
import Rover.Lib.BitField

/-!
# Writes of any value to the fields of a word

A value that is too large for its field changes other bits of the word, unless
they are set already.  When every value stays inside its field, or falls out of
the word, a sequence of writes to disjoint fields is determined by the last
value of each field.
-/

namespace BitField

variable {w v : ℕ}

/-! ## Values that are too large -/

/-- Reading always gives the low bits of the value. -/
theorem toNat_get_put {n s t : ℕ} (value : BitVec v) (field : BitVec w) (hfit : s + n ≤ w)
    (ht : n ≤ t) : ((get n s (put n s value field)).setWidth t).toNat = value.toNat % 2 ^ n := by
  apply Nat.eq_of_testBit_eq
  intro i
  rw [BitVec.testBit_toNat, Nat.testBit_mod_two_pow, BitVec.testBit_toNat, BitVec.getLsbD_setWidth,
    getLsbD_get, getLsbD_put]
  by_cases hi : i < n
  · have hw : s + i < w := by omega
    have hit : i < t := by omega
    simp [hi, hw, hit]
  · simp [hi]

/-- Other bits are kept exactly when the bits of the value that go past the
field, and do not fall out of the word, are set already. -/
theorem put_keeps_iff {n s : ℕ} (value : BitVec v) (field : BitVec w) :
    put n s value field &&& ~~~(mask w n s) = field &&& ~~~(mask w n s) ↔
      ∀ j, n ≤ j → s + j < w → value.getLsbD j = true → field.getLsbD (s + j) = true := by
  have hbit (x : BitVec w) (j : ℕ) (hw : j < w) : (x &&& ~~~(mask w n s)).getLsbD j =
      (x.getLsbD j && !(decide (s ≤ j) && decide (j < s + n))) := by
    rw [BitVec.getLsbD_and, BitVec.getLsbD_not, getLsbD_mask]
    simp [hw]
  constructor
  · intro heq j hj hw hset
    have hsame := congrArg (BitVec.getLsbD · (s + j)) heq
    simp only [hbit _ _ hw, getLsbD_put] at hsame
    have hout : ¬ s + j < s + n := by omega
    simpa [hout, hw, hset] using hsame.symm
  · intro hset
    apply BitVec.eq_of_getLsbD_eq
    intro j hw
    rw [hbit _ _ hw, hbit _ _ hw, getLsbD_put]
    by_cases hin : s ≤ j ∧ j < s + n
    · simp [hin]
    · by_cases hs : s ≤ j
      · have hj : s + (j - s) = j := by omega
        have hkept := hset (j - s) (by omega) (by omega)
        rw [hj] at hkept
        cases hv : value.getLsbD (j - s) with
        | false => simp [hs]
        | true => simp [hs, hw, hkept hv]
      · simp [hs]

theorem mod_lt_two_pow_iff {n m : ℕ} (value : BitVec v) :
    value.toNat % 2 ^ m < 2 ^ n ↔ ∀ j, n ≤ j → j < m → value.getLsbD j = false := by
  have hbit (j : ℕ) : (value.toNat % 2 ^ m).testBit j = (decide (j < m) && value.getLsbD j) :=
    Nat.testBit_mod_two_pow ..
  constructor
  · intro hlt j hj hm
    have hnone := Nat.testBit_lt_two_pow (hlt.trans_le (Nat.pow_le_pow_right Nat.two_pos hj))
    rw [hbit] at hnone
    simpa [hm] using hnone
  · intro hnone
    apply Nat.lt_pow_two_of_testBit
    intro j hj
    rw [hbit]
    by_cases hm : j < m
    · simp [hm, hnone j hj hm]
    · simp [hm]

/-! ## Fields of one word -/

/-- A field that lies inside the word. -/
structure Field (w : ℕ) where
  n : ℕ
  s : ℕ
  fits : s + n ≤ w

namespace Field

def Has (f : Field w) (j : ℕ) : Prop := f.s ≤ j ∧ j < f.s + f.n

def Disjoint (f g : Field w) : Prop := ∀ j, f.Has j → ¬ g.Has j

/-- No bit of the value goes past the field into the rest of the word. -/
def Takes (f : Field w) (value : BitVec v) : Prop := value.toNat % 2 ^ (w - f.s) < 2 ^ f.n

theorem getLsbD_put_of_takes {f : Field w} {value : BitVec v} (h : f.Takes value)
    (field : BitVec w) {j : ℕ} (hj : ¬ f.Has j) :
    (put f.n f.s value field).getLsbD j = field.getLsbD j := by
  have hnone := (mod_lt_two_pow_iff value).mp h
  have hout : ¬ (f.s ≤ j ∧ j < f.s + f.n) := hj
  rw [getLsbD_put]
  by_cases hs : f.s ≤ j
  · by_cases hw : j < w
    · have hbit : value.getLsbD (j - f.s) = false := hnone _ (by omega) (by omega)
      have hlt : ¬ j < f.s + f.n := by omega
      simp [hbit, hlt]
    · simp [hw, BitVec.getLsbD_of_ge field j (by omega)]
  · simp [hs]

theorem getLsbD_put_of_has {f : Field w} (value : BitVec v) (field : BitVec w) {j : ℕ}
    (hj : f.Has j) : (put f.n f.s value field).getLsbD j = value.getLsbD (j - f.s) := by
  obtain ⟨hs, hlt⟩ := hj
  have hw : j < w := hlt.trans_le f.fits
  rw [getLsbD_put]
  simp [hs, hlt, hw]

end Field

/-- A write of a value, of whatever width, to the field `i` of a layout. -/
structure Write (ι : Type) where
  i : ι
  width : ℕ
  value : BitVec width

section

variable {ι : Type} (layout : ι → Field w)

def Write.apply (c : Write ι) (word : BitVec w) : BitVec w :=
  put (layout c.i).n (layout c.i).s c.value word

def writeAll (cs : List (Write ι)) (word : BitVec w) : BitVec w :=
  cs.foldl (fun word c ↦ c.apply layout word) word

theorem writeAll_concat (cs : List (Write ι)) (c : Write ι) (word : BitVec w) :
    writeAll layout (cs ++ [c]) word = c.apply layout (writeAll layout cs word) :=
  List.foldl_append ..

variable {layout}

theorem getLsbD_writeAll_of_not {cs : List (Write ι)} (h : ∀ c ∈ cs, (layout c.i).Takes c.value)
    (word : BitVec w) {j : ℕ} (hj : ∀ c ∈ cs, ¬ (layout c.i).Has j) :
    (writeAll layout cs word).getLsbD j = word.getLsbD j := by
  induction cs using List.reverseRecOn with
  | nil => rfl
  | append_singleton cs c ih =>
      have hrest := ih (fun d hd ↦ h d (by simp [hd])) (fun d hd ↦ hj d (by simp [hd]))
      rw [writeAll_concat, Write.apply, Field.getLsbD_put_of_takes (h c (by simp)) _
        (hj c (by simp)), hrest]

variable [DecidableEq ι]

def lastWrite (i : ι) (cs : List (Write ι)) : Option (Write ι) :=
  (cs.filter fun c ↦ c.i = i).getLast?

theorem lastWrite_concat (i : ι) (cs : List (Write ι)) (c : Write ι) :
    lastWrite i (cs ++ [c]) = if c.i = i then some c else lastWrite i cs := by
  by_cases h : c.i = i <;> simp [lastWrite, List.filter_append, h]

/-- A bit of field `i` has the last value written to `i`. -/
theorem getLsbD_writeAll {cs : List (Write ι)} (h : ∀ c ∈ cs, (layout c.i).Takes c.value)
    (hdisj : Pairwise fun i k ↦ (layout i).Disjoint (layout k)) (word : BitVec w) {i : ι} {j : ℕ}
    (hj : (layout i).Has j) :
    (writeAll layout cs word).getLsbD j =
      (lastWrite i cs).elim (word.getLsbD j) fun c ↦ c.value.getLsbD (j - (layout i).s) := by
  induction cs using List.reverseRecOn with
  | nil => rfl
  | append_singleton cs c ih =>
      have hrest := ih fun d hd ↦ h d (by simp [hd])
      rw [writeAll_concat, lastWrite_concat, Write.apply]
      by_cases hi : c.i = i
      · subst hi
        rw [if_pos rfl, Field.getLsbD_put_of_has _ _ hj]
        rfl
      · have hout : ¬ (layout c.i).Has j := fun hc ↦ hdisj hi j hc hj
        rw [if_neg hi, Field.getLsbD_put_of_takes (h c (by simp)) _ hout, hrest]

/-- The last values decide the word, in whatever order they were written. -/
theorem writeAll_congr {cs cs' : List (Write ι)} (h : ∀ c ∈ cs, (layout c.i).Takes c.value)
    (h' : ∀ c ∈ cs', (layout c.i).Takes c.value)
    (hdisj : Pairwise fun i k ↦ (layout i).Disjoint (layout k))
    (hlast : ∀ i, lastWrite i cs = lastWrite i cs') (word : BitVec w) :
    writeAll layout cs word = writeAll layout cs' word := by
  apply BitVec.eq_of_getLsbD_eq
  intro j _hj
  by_cases hi : ∃ i, (layout i).Has j
  · obtain ⟨i, hi⟩ := hi
    rw [getLsbD_writeAll h hdisj word hi, getLsbD_writeAll h' hdisj word hi, hlast]
  · have hnone (c : Write ι) : ¬ (layout c.i).Has j := fun hc ↦ hi ⟨c.i, hc⟩
    rw [getLsbD_writeAll_of_not h word fun c _ ↦ hnone c,
      getLsbD_writeAll_of_not h' word fun c _ ↦ hnone c]

theorem toNat_get_writeAll {cs : List (Write ι)} (h : ∀ c ∈ cs, (layout c.i).Takes c.value)
    (hdisj : Pairwise fun i k ↦ (layout i).Disjoint (layout k)) (word : BitVec w) {i : ι}
    {c : Write ι} (hlast : lastWrite i cs = some c) {t : ℕ} (ht : (layout i).n ≤ t) :
    ((get (layout i).n (layout i).s (writeAll layout cs word)).setWidth t).toNat =
      c.value.toNat % 2 ^ (layout i).n := by
  apply Nat.eq_of_testBit_eq
  intro j
  rw [BitVec.testBit_toNat, Nat.testBit_mod_two_pow, BitVec.testBit_toNat, BitVec.getLsbD_setWidth,
    getLsbD_get]
  by_cases hj : j < (layout i).n
  · have hhas : (layout i).Has ((layout i).s + j) := ⟨by omega, by omega⟩
    have hjt : j < t := by omega
    rw [getLsbD_writeAll h hdisj word hhas, hlast]
    simp [hj, hjt]
  · simp [hj]

/-- Where each field is written once at most, a field's only write is its last. -/
theorem lastWrite_perm {cs cs' : List (Write ι)} (hperm : List.Perm cs' cs)
    (hnodup : (cs.map Write.i).Nodup) (i : ι) : lastWrite i cs' = lastWrite i cs := by
  have hfilter := hperm.filter fun c ↦ c.i = i
  have hshort : (cs.filter fun c ↦ c.i = i).length ≤ 1 := by
    have hcount := List.nodup_iff_count_le_one.mp hnodup i
    rw [List.count, List.countP_map, List.countP_eq_length_filter] at hcount
    exact hcount
  rw [lastWrite, lastWrite]
  rcases hcs : cs.filter fun c ↦ c.i = i with _ | ⟨c, _ | ⟨c', rest⟩⟩
  · rw [hcs] at hfilter
    rw [hfilter.eq_nil, hcs]
  · rw [hcs] at hfilter
    rw [hfilter.eq_singleton, hcs]
  · rw [hcs] at hshort
    simp at hshort

end

end BitField
