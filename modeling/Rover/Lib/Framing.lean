import Mathlib.Data.List.Basic
import Mathlib.Data.List.Infix
import Mathlib.Data.List.Flatten

/-!
# Self-delimiting frames in a stream

A framer collects symbols until the collected list satisfies `complete`, gives
that list out as a frame and starts again.  A list is a frame when it is
complete and no shorter nonempty prefix of it is; a stream that is a sequence
of frames is then cut into exactly these, at whatever places it is interrupted.
-/

namespace Framing

variable {α : Type*} (complete : List α → Bool)

/-- One symbol: the collected part afterwards, and the frame it completes. -/
def step (p : List α) (a : α) : List α × Option (List α) :=
  if complete (p ++ [a]) then ([], some (p ++ [a])) else (p ++ [a], none)

def feed : List α → List α → List α × List (List α)
  | p, [] => (p, [])
  | p, a :: as =>
      let r := step complete p a
      let t := feed r.1 as
      (t.1, r.2.toList ++ t.2)

/-- A complete list none of whose shorter nonempty prefixes is complete. -/
structure IsFrame (f : List α) : Prop where
  ne_nil : f ≠ []
  is_complete : complete f = true
  not_complete : ∀ p, p ≠ [] → p <+: f → p ≠ f → complete p = false

variable {complete}

theorem step_of_complete {p : List α} {a : α} (h : complete (p ++ [a]) = true) :
    step complete p a = ([], some (p ++ [a])) := by
  simp [step, h]

theorem step_of_not_complete {p : List α} {a : α} (h : complete (p ++ [a]) = false) :
    step complete p a = (p ++ [a], none) := by
  simp [step, h]

@[simp] theorem feed_nil (p : List α) : feed complete p [] = (p, []) := rfl

theorem feed_cons (p : List α) (a : α) (as : List α) :
    feed complete p (a :: as) =
      ((feed complete (step complete p a).1 as).1,
        (step complete p a).2.toList ++ (feed complete (step complete p a).1 as).2) := rfl

theorem feed_append (p xs ys : List α) :
    feed complete p (xs ++ ys) =
      ((feed complete (feed complete p xs).1 ys).1,
        (feed complete p xs).2 ++ (feed complete (feed complete p xs).1 ys).2) := by
  induction xs generalizing p with
  | nil => simp
  | cons a xs ih =>
      rw [List.cons_append, feed_cons, feed_cons, ih]
      simp

theorem IsFrame.feed_of_ssubset {f p q : List α} (hf : IsFrame complete f)
    (hpre : p ++ q <+: f) (hne : p ++ q ≠ f) :
    feed complete p q = (p ++ q, []) := by
  induction q generalizing p with
  | nil => simp
  | cons a q ih =>
      have hsplit : p ++ a :: q = (p ++ [a]) ++ q := by simp
      have hlong : (p ++ [a]) ++ q <+: f := hsplit ▸ hpre
      have hneq : p ++ [a] ≠ f := by
        rintro rfl
        have hle := hlong.length_le
        rcases q with _ | ⟨b, q⟩
        · exact hne rfl
        · simp at hle
      have hshort : p ++ [a] <+: f := (List.prefix_append _ _).trans hlong
      have hnot : complete (p ++ [a]) = false :=
        hf.not_complete _ (by simp) hshort hneq
      rw [feed_cons, step_of_not_complete hnot, ih hlong (hsplit ▸ hne)]
      simp

theorem IsFrame.feed_rest {f p q : List α} (hf : IsFrame complete f)
    (heq : p ++ q = f) (hq : q ≠ []) : feed complete p q = ([], [f]) := by
  obtain ⟨q, a, rfl⟩ : ∃ q' a, q = q' ++ [a] := by
    simpa using List.eq_nil_or_concat q |>.resolve_left hq
  subst heq
  have hinside : feed complete p q = (p ++ q, []) := by
    refine hf.feed_of_ssubset ⟨[a], by simp⟩ ?_
    intro h
    have hlen := congrArg List.length h
    simp at hlen
  have hlast : complete ((p ++ q) ++ [a]) = true := by
    simpa using hf.is_complete
  rw [feed_append, hinside, feed_cons, step_of_complete hlast]
  simp

theorem IsFrame.feed_self {f : List α} (hf : IsFrame complete f) :
    feed complete [] f = ([], [f]) :=
  hf.feed_rest (by simp) hf.ne_nil

theorem feed_frames {fs : List (List α)} (hfs : ∀ f ∈ fs, IsFrame complete f) :
    feed complete [] fs.flatten = ([], fs) := by
  induction fs with
  | nil => simp
  | cons f fs ih =>
      have hhead := hfs f (by simp)
      have htail := ih fun g hg ↦ hfs g (by simp [hg])
      rw [List.flatten_cons, feed_append, hhead.feed_self, htail]
      simp

/-- At an interruption the collected part is empty or a shorter prefix of one
of the frames. -/
theorem feed_prefix_frames {fs : List (List α)} (hfs : ∀ f ∈ fs, IsFrame complete f)
    {x : List α} (hx : x <+: fs.flatten) :
    (feed complete [] x).1 = [] ∨
      ∃ f ∈ fs, (feed complete [] x).1 <+: f ∧ (feed complete [] x).1 ≠ f := by
  induction fs generalizing x with
  | nil =>
      have hnil : x = [] := by simpa using hx
      simp [hnil]
  | cons f fs ih =>
      have hhead := hfs f (by simp)
      rw [List.flatten_cons] at hx
      rcases List.prefix_or_prefix_of_prefix hx (List.prefix_append f _) with hshort | ⟨y, rfl⟩
      · by_cases heq : x = f
        · exact Or.inl (by rw [heq, hhead.feed_self])
        · have hin : feed complete [] x = (x, []) := by
            simpa using hhead.feed_of_ssubset (p := []) (by simpa using hshort) (by simpa using heq)
          exact Or.inr ⟨f, by simp, by simpa [hin] using hshort, by simpa [hin] using heq⟩
      · have hy : y <+: fs.flatten := (List.prefix_append_right_inj f).mp hx
        have hrest := ih (fun g hg ↦ hfs g (by simp [hg])) hy
        have hskip : (feed complete [] (f ++ y)).1 = (feed complete [] y).1 := by
          rw [feed_append, hhead.feed_self]
        rw [hskip]
        rcases hrest with hnil | ⟨g, hg, hpre, hne⟩
        · exact Or.inl hnil
        · exact Or.inr ⟨g, by simp [hg], hpre, hne⟩

variable (complete) in
theorem flatten_feed (p xs : List α) :
    (feed complete p xs).2.flatten ++ (feed complete p xs).1 = p ++ xs := by
  induction xs generalizing p with
  | nil => simp
  | cons a xs ih =>
      rw [feed_cons]
      cases hc : complete (p ++ [a]) with
      | true =>
          rw [step_of_complete hc]
          simpa using ih []
      | false =>
          rw [step_of_not_complete hc]
          simpa using ih (p ++ [a])

theorem complete_of_mem_feed {p xs f : List α} (hf : f ∈ (feed complete p xs).2) :
    complete f = true := by
  induction xs generalizing p with
  | nil => simp at hf
  | cons a xs ih =>
      rw [feed_cons] at hf
      cases hc : complete (p ++ [a]) with
      | true =>
          rw [step_of_complete hc] at hf
          rcases List.mem_append.mp hf with hnow | hlater
          · have heq : f = p ++ [a] := by simpa using hnow
            rw [heq, hc]
          · exact ih hlater
      | false =>
          rw [step_of_not_complete hc] at hf
          exact ih (by simpa using hf)

end Framing
