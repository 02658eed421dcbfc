import Mathlib.Algebra.BigOperators.Group.List.Basic
import Mathlib.Algebra.Order.Ring.Rat
import Mathlib.Data.List.GetD
import Rover.Lib.Cyclic

/-!
# The averaging filter

A ring of the last inputs and a ring of the last outputs, with one index for
both.  What `operator()` makes of the ring of inputs depends on the arithmetic:
the values may be of any type that can be averaged.
-/

namespace Rover.Dsp

/-- `std::accumulate` from 0 on, divided by the number of samples. -/
class Averaging (α : Type) where
  average : List α → α

/-- Exact arithmetic, in which the order of the samples does not matter. -/
instance : Averaging ℚ := ⟨fun samples ↦ samples.sum / samples.length⟩

/-- The arithmetic of `double`. -/
instance : Averaging Float := ⟨fun samples ↦ samples.foldl (· + ·) 0 / .ofNat samples.length⟩

open Averaging (average)

structure AveragingFilter (α : Type) where
  samples : List α
  output : List α
  samplesIdx : BitVec 32
  size : BitVec 32
  deriving Repr

namespace AveragingFilter

variable {α : Type}

def ofSize (size : BitVec 32) : AveragingFilter α := ⟨[], [], 0, size⟩

def prime (input : α) (f : AveragingFilter α) : AveragingFilter α :=
  if f.samples.isEmpty then
    { f with
      samples := List.replicate f.size.toNat input
      output := List.replicate f.size.toNat input }
  else f

/-- `operator()`.  A write outside the vectors, which is undefined there, is
dropped here. -/
def feed [Averaging α] (input : α) (f : AveragingFilter α) : α × AveragingFilter α :=
  let f := f.prime input
  let samples := f.samples.set f.samplesIdx.toNat input
  let sample0 := average samples
  (sample0,
    { f with
      samples := samples
      output := f.output.set f.samplesIdx.toNat sample0
      samplesIdx := BitVec.ofNat 32 ((f.samplesIdx + 1).toNat % samples.length) })

/-- The remainder is taken of an `unsigned`, so the index is never negative. -/
def last [Zero α] (relIdx : BitVec 32) (f : AveragingFilter α) : α :=
  f.output.getD ((f.samplesIdx - 1 + relIdx) % f.size).toNat 0

/-! ## Whole runs -/

def feedAll [Averaging α] : List α → AveragingFilter α → List α × AveragingFilter α
  | [], f => ([], f)
  | input :: inputs, f =>
      let (sample0, f) := f.feed input
      let (later, f) := feedAll inputs f
      (sample0 :: later, f)

section

variable [Averaging α]

theorem feedAll_append (xs ys : List α) (f : AveragingFilter α) :
    feedAll (xs ++ ys) f =
      ((feedAll xs f).1 ++ (feedAll ys (feedAll xs f).2).1, (feedAll ys (feedAll xs f).2).2) := by
  induction xs generalizing f with
  | nil => rfl
  | cons x xs ih => simp [feedAll, ih]

theorem length_feedAll (xs : List α) (f : AveragingFilter α) :
    (feedAll xs f).1.length = xs.length := by
  induction xs generalizing f with
  | nil => rfl
  | cons x xs ih => simp [feedAll, ih]

end

/-- The filter has returned `ys`, and its rings were filled with `x`. -/
structure After [Zero α] (n : BitVec 32) (x : α) (ys : List α) (f : AveragingFilter α) : Prop where
  size_eq : f.size = n
  samples_length : f.samples.length = n.toNat
  output_length : f.output.length = n.toNat
  samplesIdx_eq : f.samplesIdx.toNat = ys.length % n.toNat
  holds : Cyclic.Holds n.toNat (fun _ ↦ x) ys (f.output.getD · 0)

theorem prime_eq_self {f : AveragingFilter α} (h : 0 < f.samples.length) (input : α) :
    f.prime input = f := by
  rw [prime, if_neg]
  intro hempty
  rw [List.isEmpty_iff.mp hempty] at h
  exact absurd h (Nat.lt_irrefl 0)

theorem prime_ofSize (n : BitVec 32) (x : α) :
    (ofSize n).prime x = ⟨List.replicate n.toNat x, List.replicate n.toNat x, 0, n⟩ := rfl

theorem after_prime [Zero α] (n : BitVec 32) (x : α) : After n x [] ((ofSize n).prime x) where
  size_eq := rfl
  samples_length := List.length_replicate
  output_length := List.length_replicate
  samplesIdx_eq := (Nat.zero_mod _).symm
  holds := Cyclic.holds_nil fun _ hi ↦ List.getD_replicate _ hi

/-- The first call averages the fill. -/
theorem feed_first [Averaging α] (n : BitVec 32) (x : α) :
    ((ofSize n).feed x).1 = average (List.replicate n.toNat x) := by
  have hset : (List.replicate n.toNat x).set 0 x = List.replicate n.toNat x := by
    rw [List.set_replicate_self]
  simp only [feed, prime_ofSize]
  rw [show (0 : BitVec 32).toNat = 0 from rfl, hset]

section

variable [Zero α] [Averaging α]

theorem feed_prime {n : BitVec 32} (hn : 0 < n.toNat) (x : α) :
    ((ofSize n).prime x).feed x = (ofSize n).feed x := by
  have hself : ((ofSize n).prime x).prime x = (ofSize n).prime x :=
    prime_eq_self (by rwa [(after_prime n x).samples_length]) x
  simp only [feed, hself]

/-- The index moves on by one, and past the end to the start. -/
theorem toNat_succ_mod {i size : BitVec 32} (hi : i.toNat < size.toNat) :
    (BitVec.ofNat 32 ((i + 1).toNat % size.toNat)).toNat = (i.toNat + 1) % size.toNat := by
  have hlt := size.isLt
  have hone : (1 : BitVec 32).toNat = 1 := rfl
  have hsucc : (i + 1).toNat = i.toNat + 1 := by
    rw [BitVec.toNat_add, hone]
    exact Nat.mod_eq_of_lt (by omega)
  rw [hsucc, BitVec.toNat_ofNat]
  exact Nat.mod_eq_of_lt ((Nat.mod_lt _ (by omega)).trans hlt)

theorem After.feed {n : BitVec 32} {x : α} {ys : List α} {f : AveragingFilter α}
    (hn : 0 < n.toNat) (h : After n x ys f) (input : α) :
    After n x (ys ++ [(f.feed input).1]) (f.feed input).2 := by
  have hself : f.prime input = f := prime_eq_self (by rwa [h.samples_length]) input
  have hidx : f.samplesIdx.toNat < n.toNat := by
    rw [h.samplesIdx_eq]
    exact Nat.mod_lt _ hn
  simp only [AveragingFilter.feed, hself]
  constructor
  case size_eq => exact h.size_eq
  case samples_length => rw [List.length_set, h.samples_length]
  case output_length => rw [List.length_set, h.output_length]
  case samplesIdx_eq =>
    rw [List.length_set, h.samples_length, toNat_succ_mod hidx, h.samplesIdx_eq, Nat.mod_add_mod,
      List.length_append, List.length_singleton]
  case holds =>
    rw [h.samplesIdx_eq]
    exact h.holds.set h.output_length hn _

theorem After.feedAll {n : BitVec 32} {x : α} (hn : 0 < n.toNat) (inputs : List α) {ys : List α}
    {f : AveragingFilter α} (h : After n x ys f) :
    After n x (ys ++ (feedAll inputs f).1) (feedAll inputs f).2 := by
  induction inputs generalizing ys f with
  | nil => simpa [AveragingFilter.feedAll] using h
  | cons input inputs ih =>
      have hlater := ih (h.feed hn input)
      rwa [List.append_assoc] at hlater

theorem after_feedAll {n : BitVec 32} (hn : 0 < n.toNat) (x : α) (inputs : List α) :
    After n x (feedAll (x :: inputs) (ofSize n)).1 (feedAll (x :: inputs) (ofSize n)).2 := by
  have hfirst := (after_prime n x).feed hn x
  rw [feed_prime hn] at hfirst
  exact hfirst.feedAll hn inputs

end

/-! ## Looking back -/

/-- The value returned `back` calls before the last one, or by the first call
when there were not that many. -/
def lookBack [Zero α] (back : ℕ) (returned : List α) : α :=
  if back < returned.length then returned.getD (returned.length - 1 - back) 0
  else returned.getD 0 0

/-- The place in the rings that `last` reads after `m` calls, before the
remainder is taken. -/
def place (n m : ℕ) (r : ℤ) : ℤ := (m % n : ℕ) - 1 + r

/-- The slot that `last` reads. -/
def slot (n m : ℕ) (r : ℤ) : ℕ := (place n m r % 2 ^ 32).toNat % n

theorem toNat_last_index {n r : BitVec 32} {m : ℕ} {f : AveragingFilter α}
    (hsize : f.size = n) (hidx : f.samplesIdx.toNat = m % n.toNat) :
    ((f.samplesIdx - 1 + r) % f.size).toNat = slot n.toNat m r.toInt := by
  have hone : (1 : BitVec 32).toNat = 1 := rfl
  rw [BitVec.toNat_umod, hsize, BitVec.toNat_add, BitVec.toNat_sub, hidx, hone, slot, place,
    BitVec.toInt_eq_toNat_cond]
  congr 1
  have hlt := r.isLt
  split_ifs <;> omega

section

variable [Zero α] [Averaging α]

/-- `last` reads the value of the latest call that wrote its slot, or the first
input when no call has. -/
theorem last_feedAll {n : BitVec 32} (hn : 0 < n.toNat) {inputs : List α} (hne : inputs ≠ [])
    (r : BitVec 32) :
    last r (feedAll inputs (ofSize n)).2 =
      if slot n.toNat inputs.length r.toInt < inputs.length then
        (feedAll inputs (ofSize n)).1.getD
          (Cyclic.latest n.toNat inputs.length (slot n.toNat inputs.length r.toInt)) 0
      else inputs.getD 0 0 := by
  obtain ⟨x, inputs, rfl⟩ := List.exists_cons_of_ne_nil hne
  have hafter := after_feedAll hn x inputs
  have hlen := length_feedAll (x :: inputs) (ofSize n)
  have hidx := hafter.samplesIdx_eq
  have hread := hafter.holds (slot n.toNat (x :: inputs).length r.toInt) (Nat.mod_lt _ hn)
  rw [hlen] at hidx hread
  rw [last, toNat_last_index hafter.size_eq hidx]
  refine hread.trans ?_
  split_ifs with hslot
  · have hlt := (Cyclic.latest_spec (Nat.mod_lt _ hn) hslot).1.trans_eq hlen.symm
    exact (List.getD_eq_getElem _ _ hlt).trans (List.getD_eq_getElem _ _ hlt).symm
  · rfl

/-! ### Inputs that tell two calls apart -/

/-- A value among others can be seen in the average, at each place of the ring. -/
def TellsApart (α : Type) [Averaging α] (n : ℕ) (a b : α) : Prop :=
  ∀ i < n, average ((List.replicate n a).set i b) ≠ average (List.replicate n a)

theorem tellsApart_rat {n : ℕ} (hn : 0 < n) : TellsApart ℚ n 0 1 := by
  intro i hi
  have hne : (n : ℚ) ≠ 0 := by exact_mod_cast hn.ne'
  change (_ / _ : ℚ) ≠ (_ / _ : ℚ)
  rw [List.length_set, List.length_replicate, List.sum_set, List.length_replicate, if_pos hi]
  simpa using hne

theorem foldl_zeros {s : Float} (hs : s + 0 = s) (k : ℕ) :
    (List.replicate k 0).foldl (· + ·) s = s := by
  induction k with
  | zero => rfl
  | succ k ih => rw [List.replicate_succ, List.foldl_cons, hs, ih]

theorem tellsApart_float {n : ℕ} (h : (1 : Float) / .ofNat n ≠ 0 / .ofNat n) :
    TellsApart Float n 0 1 := by
  intro i hi
  have hzero : (0 : Float) + 0 = 0 := by decide +kernel
  have hone : (0 : Float) + 1 = 1 := by decide +kernel
  have hstay : (1 : Float) + 0 = 1 := by decide +kernel
  change List.foldl _ _ _ / _ ≠ List.foldl _ _ _ / _
  rw [List.length_set, List.length_replicate, foldl_zeros hzero,
    List.set_eq_take_append_cons_drop, List.length_replicate, if_pos hi, List.take_replicate,
    List.drop_replicate, List.foldl_append, foldl_zeros hzero, List.foldl_cons, hone,
    foldl_zeros hstay]
  exact h

/-- The two filters of the battery. -/
example : TellsApart Float 5 0 1 ∧ TellsApart Float 250 0 1 :=
  ⟨tellsApart_float (by decide +kernel), tellsApart_float (by decide +kernel)⟩

section

variable {n : BitVec 32} {a x : α} {ys : List α} {f : AveragingFilter α}

theorem feed_same (hn : 0 < n.toNat) (h : After n x ys f)
    (hsame : f.samples = List.replicate n.toNat a) :
    (f.feed a).1 = average (List.replicate n.toNat a) ∧
      (f.feed a).2.samples = List.replicate n.toNat a := by
  have hself : f.prime a = f := prime_eq_self (by rwa [h.samples_length]) a
  have hset : f.samples.set f.samplesIdx.toNat a = List.replicate n.toNat a := by
    rw [hsame, List.set_replicate_self]
  simp only [feed, hself, hset]
  exact ⟨trivial, trivial⟩

theorem feed_pulse (hn : 0 < n.toNat) (h : After n x ys f)
    (hsame : f.samples = List.replicate n.toNat a) (b : α) :
    ∃ i < n.toNat, (f.feed b).1 = average ((List.replicate n.toNat a).set i b) := by
  have hself : f.prime b = f := prime_eq_self (by rwa [h.samples_length]) b
  refine ⟨f.samplesIdx.toNat, ?_, ?_⟩
  · rw [h.samplesIdx_eq]
    exact Nat.mod_lt _ hn
  · simp only [feed, hself, hsame]

theorem feedAll_same (hn : 0 < n.toNat) (j : ℕ) (h : After n x ys f)
    (hsame : f.samples = List.replicate n.toNat a) :
    (feedAll (List.replicate j a) f).1 =
        List.replicate j (average (List.replicate n.toNat a)) ∧
      (feedAll (List.replicate j a) f).2.samples = List.replicate n.toNat a := by
  induction j generalizing ys f with
  | zero => exact ⟨rfl, hsame⟩
  | succ j ih =>
      obtain ⟨hreturned, hsamples⟩ := feed_same hn h hsame
      obtain ⟨hlater, hend⟩ := ih (h.feed hn a) hsamples
      simp only [List.replicate_succ, feedAll]
      exact ⟨by rw [hreturned, hlater], hend⟩

end

theorem feedAll_pulse {n : BitVec 32} (hn : 0 < n.toNat) (a b : α) (j k : ℕ) :
    ∃ i < n.toNat, ∃ later,
      (feedAll (List.replicate (j + 1) a ++ b :: List.replicate k a) (ofSize n)).1 =
        List.replicate (j + 1) (average (List.replicate n.toNat a)) ++
          average ((List.replicate n.toNat a).set i b) :: later := by
  have hafter := after_prime n a
  obtain ⟨hreturned, hsamples⟩ := feedAll_same hn (j + 1) hafter rfl
  have hstart : feedAll (List.replicate (j + 1) a) (ofSize n) =
      feedAll (List.replicate (j + 1) a) ((ofSize n).prime a) := by
    simp only [List.replicate_succ, feedAll, feed_prime hn]
  obtain ⟨i, hi, hpulse⟩ :=
    feed_pulse hn (hafter.feedAll hn (List.replicate (j + 1) a)) hsamples b
  refine ⟨i, hi, ?_⟩
  rw [feedAll_append, hstart, hreturned]
  simp only [feedAll, hpulse]
  exact ⟨_, rfl⟩

/-- Some inputs tell any two calls apart. -/
theorem exists_returned_ne {n : BitVec 32} (hn : 0 < n.toNat) {a b : α}
    (hab : TellsApart α n.toNat a b) {i j m : ℕ} (hij : i < j) (hj : j < m) :
    ∃ inputs : List α, inputs.length = m ∧
      (feedAll inputs (ofSize n)).1.getD i 0 ≠ (feedAll inputs (ofSize n)).1.getD j 0 := by
  obtain ⟨j, rfl⟩ := Nat.exists_eq_add_one_of_ne_zero (by omega : j ≠ 0)
  obtain ⟨place, hplace, later, hpulse⟩ := feedAll_pulse hn a b j (m - 1 - (j + 1))
  refine ⟨List.replicate (j + 1) a ++ b :: List.replicate (m - 1 - (j + 1)) a, ?_, ?_⟩
  · simp only [List.length_append, List.length_replicate, List.length_cons]
    omega
  · rw [hpulse, List.getD_append _ _ _ _ (by simpa using hij), List.getD_replicate _ hij,
      List.getD_append_right _ _ _ _ (by simp), List.length_replicate, Nat.sub_self,
      List.getD_cons_zero]
    exact (hab place hplace).symm

theorem returned_eq_iff {n : BitVec 32} (hn : 0 < n.toNat) {a b : α}
    (hab : TellsApart α n.toNat a b) {i j m : ℕ} (hi : i < m) (hj : j < m) :
    (∀ inputs : List α, inputs.length = m →
      (feedAll inputs (ofSize n)).1.getD i 0 = (feedAll inputs (ofSize n)).1.getD j 0) ↔
      i = j := by
  constructor
  · intro hall
    rcases Nat.lt_trichotomy i j with hlt | heq | hlt
    · obtain ⟨inputs, hlen, hne⟩ := exists_returned_ne hn hab hlt hj
      exact absurd (hall inputs hlen) hne
    · exact heq
    · obtain ⟨inputs, hlen, hne⟩ := exists_returned_ne hn hab hlt hi
      exact absurd (hall inputs hlen) hne.symm
  · rintro rfl inputs -
    rfl

end

/-! ### Where `last` reads the right call -/

section

variable {n m : ℕ} {r : ℤ}

theorem place_bounds (hn : 0 < n) (hr : -n < r ∧ r ≤ 0) :
    -(n : ℤ) ≤ place n m r ∧ place n m r < n := by
  have hlt := Nat.mod_lt m hn
  unfold place
  omega

theorem slot_of_nonneg (hn : 0 < n ∧ n < 2 ^ 32) (hr : -n < r ∧ r ≤ 0) (h : 0 ≤ place n m r) :
    (slot n m r : ℤ) = place n m r := by
  obtain ⟨-, hlt⟩ := place_bounds (m := m) hn.1 hr
  have hmod : place n m r % 2 ^ 32 = place n m r := Int.emod_eq_of_lt h (by omega)
  rw [slot, hmod, Nat.mod_eq_of_lt (by omega)]
  omega

theorem slot_of_neg (hn : 0 < n ∧ n < 2 ^ 32) (hr : -n < r ∧ r ≤ 0) (h : place n m r < 0) :
    (slot n m r : ℤ) = (2 ^ 32 + place n m r) % n := by
  obtain ⟨hge, -⟩ := place_bounds (m := m) hn.1 hr
  have hmod : place n m r % 2 ^ 32 = 2 ^ 32 + place n m r := by
    rw [← Int.add_emod_left]
    exact Int.emod_eq_of_lt (by omega) (by omega)
  rw [slot, hmod, Int.natCast_mod, Int.toNat_of_nonneg (by omega)]

/-- The call whose value is asked for. -/
def due (m back : ℕ) : ℕ := if back < m then m - 1 - back else 0

theorem due_lt (hm : 0 < m) (back : ℕ) : due m back < m := by
  unfold due
  split_ifs <;> omega

/-- The ring is not yet full. -/
theorem latest_eq_due_of_lt (hn : 0 < n ∧ n < 2 ^ 32) (hr : -n < r ∧ r ≤ 0) (hmn : m < n)
    (hslot : slot n m r < m) :
    Cyclic.latest n m (slot n m r) = due m (-r).toNat ↔ 0 ≤ place n m r ∨ slot n m r = 0 := by
  have hplace : place n m r = m - 1 + r := by rw [place, Nat.mod_eq_of_lt hmn]
  rw [Cyclic.latest_eq hslot (by omega) (Nat.mod_eq_of_lt (by omega))]
  unfold due
  by_cases hback : 0 ≤ place n m r
  · have hread := slot_of_nonneg hn hr hback
    split_ifs <;> omega
  · rw [if_neg (by omega), or_iff_right hback]

/-- The ring has been full. -/
theorem latest_eq_due_of_le (hn : 0 < n ∧ n < 2 ^ 32) (hr : -n < r ∧ r ≤ 0) (hmn : n ≤ m) :
    Cyclic.latest n m (slot n m r) = due m (-r).toNat ↔ 0 ≤ place n m r ∨ n ∣ 2 ^ 32 := by
  have hslotlt : slot n m r < n := Nat.mod_lt _ hn.1
  have hdue : due m (-r).toNat = m - 1 - (-r).toNat := if_pos (by omega)
  have hcongr : ((m - 1 - (-r).toNat : ℕ) : ℤ) % n = place n m r % n := by
    have hdecomp := Nat.mod_add_div m n
    have heq : ((m - 1 - (-r).toNat : ℕ) : ℤ) = place n m r + n * (m / n : ℕ) := by
      unfold place
      omega
    rw [heq, Int.add_mul_emod_self_left]
  have hcall : Cyclic.latest n m (slot n m r) = m - 1 - (-r).toNat ↔
      (slot n m r : ℤ) = place n m r % n := by
    rw [← hcongr]
    constructor
    · intro h
      have hof := (Cyclic.latest_spec hslotlt (by omega : slot n m r < m)).2.2
      rw [h] at hof
      exact_mod_cast hof.symm
    · intro h
      apply Cyclic.latest_eq (by omega) (by omega)
      exact_mod_cast h.symm
  rw [hdue, hcall]
  obtain ⟨-, hlt⟩ := place_bounds (m := m) hn.1 hr
  by_cases hback : 0 ≤ place n m r
  · rw [slot_of_nonneg hn hr hback, Int.emod_eq_of_lt hback hlt]
    exact iff_of_true rfl (Or.inl hback)
  · rw [slot_of_neg hn hr (by omega), Int.emod_eq_emod_iff_emod_sub_eq_zero, add_sub_cancel_right,
      ← Int.dvd_iff_emod_eq_zero, or_iff_right hback]
    norm_cast

/-- A slot that was not written is read only when the first call is asked for. -/
theorem due_of_unwritten (hn : 0 < n ∧ n < 2 ^ 32) (hr : -n < r ∧ r ≤ 0)
    (hslot : m ≤ slot n m r) : ¬ 0 ≤ place n m r ∧ due m (-r).toNat = 0 := by
  have hslotlt : slot n m r < n := Nat.mod_lt _ hn.1
  have hplace : place n m r = m - 1 + r := by rw [place, Nat.mod_eq_of_lt (by omega)]
  have hback : ¬ 0 ≤ place n m r := by
    intro hback
    have hread := slot_of_nonneg hn hr hback
    omega
  exact ⟨hback, if_neg (by omega)⟩

end

/-- After `m` calls `last r` does not go back over the start of the ring; or
the ring was full and its size divides the modulus of `unsigned`; or it was not
and the slot read is the first one, or holds the fill, which is the average of
as many copies of it. -/
def LooksBack (α : Type) [Averaging α] (n m : ℕ) (r : ℤ) : Prop :=
  0 ≤ place n m r ∨ n ≤ m ∧ n ∣ 2 ^ 32 ∨
    m < n ∧ (slot n m r = 0 ∨ m ≤ slot n m r ∧ ∀ x : α, average (List.replicate n x) = x)

theorem looksBack_iff_of_written (α : Type) [Averaging α] {n m : ℕ} {r : ℤ}
    (hn : 0 < n ∧ n < 2 ^ 32) (hr : -n < r ∧ r ≤ 0) (hslot : slot n m r < m) :
    LooksBack α n m r ↔ Cyclic.latest n m (slot n m r) = due m (-r).toNat := by
  have hwritten : ¬ m ≤ slot n m r := by omega
  rcases Nat.lt_or_ge m n with hmn | hmn
  · have hfull : ¬ n ≤ m := by omega
    rw [latest_eq_due_of_lt hn hr hmn hslot, LooksBack, and_iff_right hmn]
    simp only [hwritten, hfull, false_and, or_false, false_or]
  · have hshort : ¬ m < n := by omega
    rw [latest_eq_due_of_le hn hr hmn, LooksBack, and_iff_right hmn]
    simp only [hshort, false_and, or_false]

theorem looksBack_iff_of_unwritten (α : Type) [Averaging α] {n m : ℕ} {r : ℤ}
    (hn : 0 < n ∧ n < 2 ^ 32) (hr : -n < r ∧ r ≤ 0) (hm : 0 < m) (hslot : m ≤ slot n m r) :
    LooksBack α n m r ↔ ∀ x : α, average (List.replicate n x) = x := by
  have hslotlt : slot n m r < n := Nat.mod_lt _ hn.1
  have hback := (due_of_unwritten hn hr hslot).1
  have hne : slot n m r ≠ 0 := by omega
  have hshort : m < n := by omega
  have hfull : ¬ n ≤ m := by omega
  simp only [LooksBack, hback, hne, hslot, hshort, hfull, false_and, false_or, true_and]

/-- For every number of calls, `last` returns what it should whatever the
inputs were, if and only if it looks back to the right call.  The arithmetic is
any in which a value can be seen in the average. -/
theorem last_eq_lookBack_iff [Zero α] [Averaging α] {n r : BitVec 32} (hn : 0 < n.toNat)
    (hr : -(n.toNat : ℤ) < r.toInt ∧ r.toInt ≤ 0) {m : ℕ} (hm : 0 < m) {a b : α}
    (hab : TellsApart α n.toNat a b) :
    (∀ inputs : List α, inputs.length = m →
      last r (feedAll inputs (ofSize n)).2 =
        lookBack (-r.toInt).toNat (feedAll inputs (ofSize n)).1) ↔
      LooksBack α n.toNat m r.toInt := by
  have hback (inputs : List α) (hlen : inputs.length = m) :
      lookBack (-r.toInt).toNat (feedAll inputs (ofSize n)).1 =
        (feedAll inputs (ofSize n)).1.getD (due m (-r.toInt).toNat) 0 := by
    rw [lookBack, due, length_feedAll, hlen]
    split_ifs <;> rfl
  have hne (inputs : List α) (hlen : inputs.length = m) : inputs ≠ [] := by
    rintro rfl
    exact absurd hlen.symm hm.ne'
  rcases Nat.lt_or_ge (slot n.toNat m r.toInt) m with hslot | hslot
  · rw [looksBack_iff_of_written α ⟨hn, n.isLt⟩ hr hslot,
      ← returned_eq_iff (i := Cyclic.latest n.toNat m (slot n.toNat m r.toInt)) hn hab
        (Cyclic.latest_spec (Nat.mod_lt _ hn) hslot).1 (due_lt hm (-r.toInt).toNat)]
    refine forall₂_congr fun inputs hlen ↦ ?_
    have hlast := last_feedAll hn (hne inputs hlen) r
    rw [hlen, if_pos hslot] at hlast
    rw [hlast, hback inputs hlen]
  · -- the slot holds the first input, and the first call is asked for
    rw [looksBack_iff_of_unwritten α ⟨hn, n.isLt⟩ hr hm hslot]
    have hread (x : α) (inputs : List α) (hlen : (x :: inputs).length = m) :
        last r (feedAll (x :: inputs) (ofSize n)).2 =
            lookBack (-r.toInt).toNat (feedAll (x :: inputs) (ofSize n)).1 ↔
          average (List.replicate n.toNat x) = x := by
      have hlast := last_feedAll hn (hne _ hlen) r
      rw [hlen, if_neg (by omega)] at hlast
      rw [hlast, hback _ hlen, (due_of_unwritten ⟨hn, n.isLt⟩ hr hslot).2, ← feed_first n x]
      exact eq_comm
    constructor
    · intro hall x
      have hlen : (x :: List.replicate (m - 1) x).length = m := by
        rw [List.length_cons, List.length_replicate]
        omega
      exact (hread x _ hlen).mp (hall _ hlen)
    · intro hfill inputs hlen
      obtain ⟨x, inputs, rfl⟩ := List.exists_cons_of_ne_nil (hne inputs hlen)
      exact (hread x inputs hlen).mpr (hfill x)

/-- The slope of the battery voltage looks 60 calls back in a ring of 250: this
is right after the 61st call. -/
theorem last_eq_lookBack_slope :
    last (-60) (feedAll ((List.range 61).map Nat.cast) (ofSize 250)).2 =
      lookBack 60 (feedAll ((List.range 61).map (Nat.cast : ℕ → ℚ)) (ofSize 250)).1 :=
  (last_eq_lookBack_iff (n := 250) (r := -60) (m := 61) (by decide) (by decide) (by decide)
    (tellsApart_rat (by decide))).mpr (Or.inl (by decide)) _
    (by rw [List.length_map, List.length_range])

/-- When the ring of a filter of size 3 has just been filled, even the last
value is taken from the wrong slot. -/
theorem last_ne_lookBack :
    last 0 (feedAll [0, 0, (3 : ℚ)] (ofSize 3)).2 ≠
      lookBack 0 (feedAll [0, 0, (3 : ℚ)] (ofSize 3)).1 := by
  decide +kernel

/-- The average of eight times the same `double` need not be that number. -/
example : average (List.replicate 8 (0.1 : Float)) ≠ 0.1 := by decide +kernel

end AveragingFilter
end Rover.Dsp
