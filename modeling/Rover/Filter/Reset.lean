import Rover.Filter
import Rover.Lib.Runs

/-!
# Resetting the filter

`reset` empties the rings and changes their size, but it leaves the index where
it was.  The next call fills the rings again and writes at that index.
-/

namespace Rover.Dsp.AveragingFilter

open Averaging (average)
open Runs

variable {α : Type}

def reset (size : BitVec 32) (f : AveragingFilter α) : AveragingFilter α :=
  { f with samples := [], output := [], size := size }

def isInitialized (f : AveragingFilter α) : Bool := !f.samples.isEmpty

inductive Op (α : Type)
  | feed (input : α)
  | last (relIdx : BitVec 32)
  | reset (size : BitVec 32)

def step [Averaging α] (f : AveragingFilter α) : Op α → AveragingFilter α
  | .feed input => (f.feed input).2
  | .last _ => f
  | .reset size => f.reset size

def result [Zero α] [Averaging α] (f : AveragingFilter α) : Op α → Option α
  | .feed input => some (f.feed input).1
  | .last relIdx => some (f.last relIdx)
  | .reset _ => none

def results [Zero α] [Averaging α] : List (Op α) → AveragingFilter α → List α
  | [], _ => []
  | op :: ops, f => (f.result op).toList ++ results ops (f.step op)

/-- The state after a run of a filter constructed with size `n`. -/
def after [Averaging α] (n : BitVec 32) (ops : List (Op α)) : AveragingFilter α :=
  ops.foldl step (ofSize n)

/-- The accesses of the call to the two vectors are in bounds. -/
def InBounds (f : AveragingFilter α) : Op α → Prop
  | .feed input =>
      f.samplesIdx.toNat < (f.prime input).samples.length ∧
        f.samplesIdx.toNat < (f.prime input).output.length
  | .last relIdx => ((f.samplesIdx - 1 + relIdx) % f.size).toNat < f.output.length
  | .reset _ => True

/-- Sizes are positive, and `last` is called after `operator()`; `fed` says
whether that was called since the construction or the last reset. -/
def WellFormed : Bool → List (Op α) → Prop
  | _, [] => True
  | _, .feed _ :: ops => WellFormed true ops
  | fed, .last _ :: ops => fed = true ∧ WellFormed fed ops
  | _, .reset size :: ops => 0 < size.toNat ∧ WellFormed false ops

def NoReset (ops : List (Op α)) : Prop := ∀ size, .reset size ∉ ops

/-- After the reset, whatever is called until the next one is in bounds. -/
def Confined [Averaging α] (size : BitVec 32) (f : AveragingFilter α) : Prop :=
  ∀ later, WellFormed false later → NoReset later → Along step InBounds (f.reset size) later

/-- Whatever average `operator()` computes, the calls after the reset return
until the next one what they return from a new filter. -/
def Fresh [Zero α] (size : BitVec 32) (f : AveragingFilter α) : Prop :=
  ∀ [Averaging α] (later : List (Op α)), WellFormed false later → NoReset later →
    Along step InBounds (f.reset size) later ∧
      results later (f.reset size) = results later (ofSize size)

/-- The reset finds the index inside the new size. -/
def Harmless (size : BitVec 32) (f : AveragingFilter α) : Prop :=
  f.samplesIdx.toNat < size.toNat

/-! ## Accesses in bounds -/

/-- The rings are empty or have their size, and the index lies inside it. -/
structure Good (f : AveragingFilter α) : Prop where
  idx_lt : f.samplesIdx.toNat < f.size.toNat
  rings : f.samples = [] ∧ f.output = [] ∨
    f.samples.length = f.size.toNat ∧ f.output.length = f.size.toNat

section

variable {f : AveragingFilter α}

theorem good_ofSize {n : BitVec 32} (hn : 0 < n.toNat) : Good (ofSize n : AveragingFilter α) :=
  ⟨hn, Or.inl ⟨rfl, rfl⟩⟩

theorem Good.prime (h : Good f) (input : α) :
    (f.prime input).samples.length = f.size.toNat ∧
      (f.prime input).output.length = f.size.toNat := by
  rcases h.rings with ⟨hsamples, -⟩ | hfull
  · rw [AveragingFilter.prime, if_pos (by rw [hsamples]; rfl)]
    exact ⟨List.length_replicate, List.length_replicate⟩
  · rw [prime_eq_self (by rw [hfull.1]; exact Nat.zero_lt_of_lt h.idx_lt)]
    exact hfull

theorem prime_frame (input : α) (f : AveragingFilter α) :
    (f.prime input).samplesIdx = f.samplesIdx ∧ (f.prime input).size = f.size := by
  unfold AveragingFilter.prime
  split_ifs <;> exact ⟨rfl, rfl⟩

/-- What `operator()` does to a filter whose index is in bounds. -/
theorem Good.feed [Averaging α] (h : Good f) (input : α) :
    (f.feed input).2.size = f.size ∧
      (f.feed input).2.samplesIdx.toNat = (f.samplesIdx.toNat + 1) % f.size.toNat ∧
      (f.feed input).2.samples = (f.prime input).samples.set f.samplesIdx.toNat input ∧
      (f.feed input).2.output =
        (f.prime input).output.set f.samplesIdx.toNat (f.feed input).1 := by
  obtain ⟨hidx, hsize⟩ := prime_frame input f
  simp only [AveragingFilter.feed, hidx, List.length_set, (h.prime input).1]
  exact ⟨hsize, toNat_succ_mod h.idx_lt, trivial, trivial⟩

theorem Good.after_feed [Averaging α] (h : Good f) (input : α) :
    Good (f.feed input).2 ∧ (f.feed input).2.samples.length = f.size.toNat := by
  obtain ⟨hsize, hidx, hsamples, houtput⟩ := h.feed input
  obtain ⟨hlen, hlen'⟩ := h.prime input
  have hsamples' : (f.feed input).2.samples.length = f.size.toNat := by
    rw [hsamples, List.length_set, hlen]
  refine ⟨⟨?_, Or.inr ⟨by rw [hsamples', hsize], ?_⟩⟩, hsamples'⟩
  · rw [hidx, hsize]
    exact Nat.mod_lt _ (Nat.zero_lt_of_lt h.idx_lt)
  · rw [houtput, List.length_set, hlen', hsize]

theorem Good.inBounds_feed (h : Good f) (input : α) : InBounds f (.feed input) := by
  obtain ⟨hsamples, houtput⟩ := h.prime input
  exact ⟨by rw [hsamples]; exact h.idx_lt, by rw [houtput]; exact h.idx_lt⟩

theorem Good.inBounds_last (h : Good f) (hfed : f.isInitialized = true) (relIdx : BitVec 32) :
    InBounds f (.last relIdx) := by
  rcases h.rings with ⟨hsamples, -⟩ | ⟨-, houtput⟩
  · rw [isInitialized, hsamples] at hfed
    cases hfed
  · rw [InBounds, houtput, BitVec.toNat_umod]
    exact Nat.mod_lt _ (Nat.zero_lt_of_lt h.idx_lt)

theorem Harmless.good {size : BitVec 32} (h : Harmless size f) : Good (f.reset size) :=
  ⟨h, Or.inl ⟨rfl, rfl⟩⟩

theorem isInitialized_of_length (h : 0 < f.samples.length) : f.isInitialized = true := by
  rw [isInitialized, List.isEmpty_eq_false_iff.mpr (List.length_pos_iff.mp h)]
  rfl

theorem Good.isInitialized_feed [Averaging α] (h : Good f) (input : α) :
    (f.feed input).2.isInitialized = true := by
  apply isInitialized_of_length
  rw [(h.after_feed input).2]
  exact Nat.zero_lt_of_lt h.idx_lt

/-- A run whose resets are harmless makes no access out of bounds. -/
theorem Good.run [Averaging α] {fed : Bool} {ops : List (Op α)} (h : Good f)
    (hfed : fed = true → f.isInitialized = true) (hops : WellFormed fed ops)
    (hresets : ∀ pre size post, ops = pre ++ .reset size :: post →
      Harmless size (pre.foldl step f)) :
    Along step InBounds f ops ∧ Good (ops.foldl step f) := by
  induction ops generalizing f fed with
  | nil => exact ⟨trivial, h⟩
  | cons op ops ih =>
      have hlater : ∀ pre size post, ops = pre ++ .reset size :: post →
          Harmless size (pre.foldl step (f.step op)) := fun pre size post heq ↦
        hresets (op :: pre) size post (by rw [heq, List.cons_append])
      cases op with
      | feed input =>
          obtain ⟨hrun, hend⟩ := ih (h.after_feed input).1
            (fun _ ↦ h.isInitialized_feed input) hops hlater
          exact ⟨⟨h.inBounds_feed input, hrun⟩, hend⟩
      | last relIdx =>
          obtain ⟨hrun, hend⟩ := ih h hfed hops.2 hlater
          exact ⟨⟨h.inBounds_last (hfed hops.1) relIdx, hrun⟩, hend⟩
      | reset size =>
          have hgood := (hresets [] size ops rfl).good
          obtain ⟨hrun, hend⟩ := ih hgood (fun hfalse ↦ Bool.noConfusion hfalse) hops.2 hlater
          exact ⟨⟨trivial, hrun⟩, hend⟩

theorem Harmless.confined [Averaging α] {size : BitVec 32} (h : Harmless size f) :
    Confined size f := by
  intro later hwell hlater
  refine (h.good.run (fun hfalse ↦ Bool.noConfusion hfalse) hwell ?_).1
  rintro pre size' post rfl
  exact absurd (by simp) (hlater size')

/-- The first call after the reset writes at the index. -/
theorem Confined.harmless [Inhabited α] [Averaging α] {size : BitVec 32} (h : Confined size f) :
    Harmless size f := by
  have hfirst := (h [.feed default] trivial (fun _ hmem ↦ by simp at hmem)).1.1
  change f.samplesIdx.toNat < (List.replicate size.toNat (default : α)).length at hfirst
  rwa [List.length_replicate] at hfirst

/-! ## A reset filter against a new one -/

theorem fresh_of_zero [Zero α] {size : BitVec 32} (hsize : 0 < size.toNat)
    (hzero : f.samplesIdx = 0) :
    Fresh size f := by
  have heq : f.reset size = ofSize size := by
    rw [reset, hzero]
    rfl
  have hharmless : Harmless size f := by
    rw [Harmless, hzero]
    exact hsize
  intro _ later hwell hlater
  exact ⟨hharmless.confined later hwell hlater, by rw [heq]⟩

/-- What a filter holds that was given one input and nothing else. -/
theorem Good.feeds [Averaging α] {x : α} (h : Good f)
    (hsame : (f.prime x).samples = List.replicate f.size.toNat x) (k : ℕ) :
    ∃ g, (List.replicate (k + 1) (.feed x)).foldl step f = g ∧ Good g ∧ g.size = f.size ∧
      g.samplesIdx.toNat = (f.samplesIdx.toNat + (k + 1)) % f.size.toNat ∧
      g.samples = List.replicate f.size.toNat x := by
  induction k with
  | zero =>
      obtain ⟨hsize, hidx, hsamples, -⟩ := h.feed x
      refine ⟨(f.feed x).2, rfl, (h.after_feed x).1, hsize, hidx, ?_⟩
      rw [hsamples, hsame, List.set_replicate_self]
  | succ k ih =>
      obtain ⟨g, hg, hgood, hsize, hidx, hsamples⟩ := ih
      obtain ⟨hsize', hidx', hsamples', -⟩ := hgood.feed x
      have hself : g.prime x = g := by
        apply prime_eq_self
        rw [hsamples, List.length_replicate]
        exact Nat.zero_lt_of_lt h.idx_lt
      refine ⟨(g.feed x).2, ?_, (hgood.after_feed x).1, hsize'.trans hsize, ?_, ?_⟩
      · rw [List.replicate_succ', List.foldl_append, hg]
        rfl
      · rw [hidx', hsize, hidx, Nat.mod_add_mod, Nat.add_assoc]
      · rw [hsamples', hself, hsamples, List.set_replicate_self]

theorem wellFormed_feeds (x y : α) (fed : Bool) (k : ℕ) :
    WellFormed fed (List.replicate k (.feed x) ++ [.feed y]) := by
  induction k generalizing fed with
  | zero => trivial
  | succ k ih => exact ih true

section

variable [Zero α] [Averaging α]

theorem results_append (xs ys : List (Op α)) (f : AveragingFilter α) :
    results (xs ++ ys) f = results xs f ++ results ys (xs.foldl step f) := by
  induction xs generalizing f with
  | nil => rfl
  | cons op xs ih =>
      rw [List.cons_append, results, results, ih, List.append_assoc, List.foldl_cons]

theorem length_results_feeds (x : α) (k : ℕ) (f : AveragingFilter α) :
    (results (List.replicate k (.feed x)) f).length = k := by
  induction k generalizing f with
  | zero => rfl
  | succ k ih =>
      rw [List.replicate_succ, results, List.length_append, ih]
      exact Nat.add_comm 1 k

/-- The call after the same calls of two filters that return the same. -/
theorem feed_eq_of_results {x y : α} {k : ℕ} {f g : AveragingFilter α}
    (h : results (List.replicate k (.feed x) ++ [.feed y]) f =
      results (List.replicate k (.feed x) ++ [.feed y]) g) :
    (((List.replicate k (.feed x)).foldl step f).feed y).1 =
      (((List.replicate k (.feed x)).foldl step g).feed y).1 := by
  rw [results_append, results_append] at h
  have hlast := (List.append_inj h (by rw [length_results_feeds, length_results_feeds])).2
  exact (List.cons.inj hlast).1

end

/-- The average that sees only the first slot. -/
theorem feed_head {x y : α} (h : Good f) (hsame : f.samples = List.replicate f.size.toNat x) :
    (@feed α ⟨fun samples ↦ samples.getD 0 y⟩ y f).1 = if f.samplesIdx.toNat = 0 then y else x := by
  have hpos := Nat.zero_lt_of_lt h.idx_lt
  have hself : f.prime y = f := prime_eq_self (by rwa [hsame, List.length_replicate]) y
  change ((f.prime y).samples.set (f.prime y).samplesIdx.toNat y).getD 0 y = _
  rw [hself, hsame]
  split_ifs with hzero
  · rw [hzero, List.getD_eq_getElem _ _ (by simpa using hpos)]
    exact List.getElem_set_self _
  · rw [List.getD_eq_getElem _ _ (by simpa using hpos), List.getElem_set_ne hzero,
      List.getElem_replicate]

/-- If the index is not at the start, the calls that lead it there tell the
filter from a new one. -/
theorem Fresh.samplesIdx_eq [Zero α] [Nontrivial α] {size : BitVec 32} (h : Fresh size f) :
    f.samplesIdx = 0 := by
  obtain ⟨x, y, hxy⟩ := exists_pair_ne α
  by_contra hne
  let head : Averaging α := ⟨fun samples ↦ samples.getD 0 y⟩
  have hlt : Harmless size f := by
    have hfirst := (h [.feed x] trivial (fun _ hmem ↦ by simp at hmem)).1.1.1
    change f.samplesIdx.toNat < (List.replicate size.toNat x).length at hfirst
    rwa [List.length_replicate] at hfirst
  have hpos : 0 < f.samplesIdx.toNat :=
    Nat.pos_of_ne_zero fun h0 ↦ hne (BitVec.eq_of_toNat_eq h0)
  rw [Harmless] at hlt
  obtain ⟨k, hk⟩ : ∃ k, size.toNat = f.samplesIdx.toNat + (k + 1) :=
    ⟨size.toNat - f.samplesIdx.toNat - 1, by omega⟩
  obtain ⟨g, hg, hgood, hsize, hidx, hsamples⟩ := (Harmless.good hlt).feeds (x := x) rfl k
  obtain ⟨g', hg', hgood', hsize', hidx', hsamples'⟩ :=
    (good_ofSize (α := α) (Nat.zero_lt_of_lt hlt)).feeds (x := x) rfl k
  have hresults := (h (List.replicate (k + 1) (.feed x) ++ [.feed y])
    (wellFormed_feeds x y false _) (fun size' hmem ↦ by simp at hmem)).2
  have hcall := feed_eq_of_results hresults
  rw [hg, hg', feed_head hgood (by rw [hsamples, hsize]),
    feed_head hgood' (by rw [hsamples', hsize'])] at hcall
  -- the reset filter is at the first slot, the new one is not
  have hstart : g.samplesIdx.toNat = 0 := by
    rw [hidx]
    change (f.samplesIdx.toNat + (k + 1)) % size.toNat = 0
    rw [← hk, Nat.mod_self]
  have hlater : g'.samplesIdx.toNat ≠ 0 := by
    rw [hidx']
    change (0 + (k + 1)) % size.toNat ≠ 0
    rw [Nat.mod_eq_of_lt (by omega)]
    omega
  rw [if_pos hstart, if_neg hlater] at hcall
  exact hxy hcall.symm

end

/-! ## Whole runs -/

/-- Every access of the run is in bounds, and until the next reset the filter
returns what a new one returns. -/
structure Sound [Zero α] [Averaging α] (n : BitVec 32) (ops : List (Op α)) : Prop where
  in_bounds : Along step InBounds (ofSize n) ops
  idx_lt : ∀ pre, pre <+: ops → (after n pre).isInitialized = true →
    (after n pre).samplesIdx.toNat < (after n pre).size.toNat
  fresh : ∀ pre size later post, ops = pre ++ .reset size :: (later ++ post) → NoReset later →
    results later ((after n pre).reset size) = results later (ofSize size)

theorem WellFormed.of_append {fed : Bool} {xs : List (Op α)} (ys : List (Op α))
    (h : WellFormed fed (xs ++ ys)) : WellFormed fed xs := by
  induction xs generalizing fed with
  | nil => trivial
  | cons op xs ih =>
      cases op with
      | feed input => exact @ih true h
      | last relIdx => exact ⟨h.1, ih h.2⟩
      | reset size => exact ⟨h.1, ih h.2⟩

theorem WellFormed.size_pos {fed : Bool} {pre : List (Op α)} {size : BitVec 32}
    {post : List (Op α)}
    (h : WellFormed fed (pre ++ .reset size :: post)) : 0 < size.toNat := by
  induction pre generalizing fed with
  | nil => exact h.1
  | cons op pre ih =>
      cases op with
      | feed input => exact @ih true h
      | last relIdx => exact ih h.2
      | reset size' => exact ih h.2

section

variable [Averaging α] {n : BitVec 32} {ops : List (Op α)}

/-- The accesses of a run are in bounds when each of its resets finds the index
inside the new size. -/
theorem along_inBounds (hn : 0 < n.toNat) (hops : WellFormed false ops)
    (hresets : ∀ pre size post, ops = pre ++ .reset size :: post → Harmless size (after n pre)) :
    Along step InBounds (ofSize n) ops ∧
      ∀ pre, pre <+: ops → (after n pre).samplesIdx.toNat < (after n pre).size.toNat := by
  refine ⟨((good_ofSize hn).run (fun hfalse ↦ Bool.noConfusion hfalse) hops hresets).1, ?_⟩
  rintro pre ⟨rest, rfl⟩
  have hpre : ∀ pre' size post, pre = pre' ++ .reset size :: post →
      Harmless size (after n pre') := fun pre' size post heq ↦
    hresets pre' size (post ++ rest) (by simp [heq])
  exact ((good_ofSize hn).run (fun hfalse ↦ Bool.noConfusion hfalse) (hops.of_append rest)
    hpre).2.idx_lt

theorem sound_of_zero [Zero α] (hn : 0 < n.toNat) (hops : WellFormed false ops)
    (hresets : ∀ pre size post, ops = pre ++ .reset size :: post →
      (after n pre).samplesIdx = 0) : Sound n ops := by
  have hharmless : ∀ pre size post, ops = pre ++ .reset size :: post →
      Harmless size (after n pre) := by
    intro pre size post heq
    have hpos : 0 < size.toNat := (heq ▸ hops).size_pos
    rw [Harmless, hresets pre size post heq]
    exact hpos
  obtain ⟨hbounds, hidx⟩ := along_inBounds hn hops hharmless
  refine ⟨hbounds, fun pre hpre _ ↦ hidx pre hpre, fun pre size later post heq _ ↦ ?_⟩
  have hsame : (after n pre).reset size = ofSize size := by
    rw [reset, hresets pre size (later ++ post) heq]
    rfl
  rw [hsame]

end

/-- A run is sound when each of its resets finds the index at the start, and a
reset makes the filter a new one for every way to average if and only if it
does.  The accesses alone are in bounds as long as each reset finds the index
inside the new size, and that a reset must do. -/
theorem sound_of_harmless_resets [Zero α] [Nontrivial α] [Averaging α] {n : BitVec 32}
    (hn : 0 < n.toNat) {ops : List (Op α)} (hops : WellFormed false ops) :
    ((∀ pre size post, ops = pre ++ .reset size :: post → (after n pre).samplesIdx = 0) →
        Sound n ops) ∧
      ((∀ pre size post, ops = pre ++ .reset size :: post → Harmless size (after n pre)) →
        Along step InBounds (ofSize n) ops) ∧
      ∀ pre size post, ops = pre ++ .reset size :: post →
        (Fresh size (after n pre) ↔ (after n pre).samplesIdx = 0) ∧
          (Confined size (after n pre) ↔ Harmless size (after n pre)) := by
  refine ⟨sound_of_zero hn hops, fun hresets ↦ (along_inBounds hn hops hresets).1, ?_⟩
  rintro pre size post rfl
  have : Inhabited α := ⟨0⟩
  exact ⟨⟨fun h ↦ h.samplesIdx_eq, fun h ↦ fresh_of_zero hops.size_pos h⟩,
    fun h ↦ h.harmless, fun h ↦ h.confined⟩

/-- The index has gone once around the ring. -/
theorem sound_of_harmless_resets_grow :
    Sound 2 [.feed (1 : Float), .feed 2, .reset 3, .feed 3, .last 0] := by
  have hops : WellFormed false [.feed (1 : Float), .feed 2, .reset 3, .feed 3, .last 0] :=
    ⟨by decide, rfl, trivial⟩
  have : Nontrivial Float := ⟨0, 1, by decide +kernel⟩
  refine (sound_of_harmless_resets (by decide) hops).1 fun pre size post heq ↦ ?_
  obtain rfl : pre = [.feed 1, .feed 2] := by
    rcases pre with _ | ⟨a, _ | ⟨b, _ | ⟨c, _ | ⟨d, _ | ⟨e, pre⟩⟩⟩⟩⟩ <;> simp_all
  decide +kernel

/-- The third slot of a ring of two is written. -/
theorem shrink_not_sound :
    WellFormed false [.feed (0 : ℚ), .feed 0, .reset 2, .feed 0] ∧
      ¬ Sound 3 [.feed (0 : ℚ), .feed 0, .reset 2, .feed 0] := by
  refine ⟨⟨by decide, trivial⟩, fun h ↦ ?_⟩
  obtain ⟨-, -, -, ⟨hlt, -⟩, -⟩ := h.in_bounds
  exact absurd hlt (by decide +kernel)

end Rover.Dsp.AveragingFilter
