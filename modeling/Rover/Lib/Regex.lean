import Mathlib.Data.List.TakeWhile
import Mathlib.Tactic.Common

/-!
# Regular expressions with captures

The part of the ECMAScript expressions that repeats single classes of
characters.  A match is found by backtracking: `run` lists the ways to match a
beginning of the text in the order in which they are tried.
-/

namespace Regex

inductive Expr (α : Type*)
  | bol
  | eol
  | char (c : α)
  | many (least : ℕ) (greedy : Bool) (p : α → Bool)
  | group (e : Expr α)
  | seq (e₁ e₂ : Expr α)

/-- The text matched, what the groups captured, and the text that follows. -/
structure Match (α : Type*) where
  text : List α
  groups : List (List α)
  rest : List α

variable {α : Type*}

def Match.append (m m' : Match α) : Match α :=
  ⟨m.text ++ m'.text, m.groups ++ m'.groups, m'.rest⟩

/-- The lengths that a repetition tries. -/
def lengths (least most : ℕ) (greedy : Bool) : List ℕ :=
  let ns := List.range' least (most + 1 - least)
  if greedy then ns.reverse else ns

section

variable [DecidableEq α]

namespace Expr

/-- `start` tells whether the text is at the beginning of the whole. -/
def run : Expr α → Bool → List α → List (Match α)
  | .bol, start, s => if start then [⟨[], [], s⟩] else []
  | .eol, _, s => if s = [] then [⟨[], [], s⟩] else []
  | .char _, _, [] => []
  | .char c, _, d :: s => if d = c then [⟨[d], [], s⟩] else []
  | .many least greedy p, _, s =>
      (lengths least (s.takeWhile p).length greedy).map fun n ↦ ⟨s.take n, [], s.drop n⟩
  | .group e, start, s => (e.run start s).map fun m ↦ { m with groups := m.text :: m.groups }
  | .seq e₁ e₂, start, s =>
      (e₁.run start s).flatMap fun m ↦ (e₂.run (start && m.text.isEmpty) m.rest).map m.append

/-- `regex_match`: the whole text has to match. -/
def fullMatch (e : Expr α) (s : List α) : Option (Match α) :=
  (e.run true s).find? fun m ↦ m.rest = []

/-- `regex_search`: the first place where a match starts. -/
def search (e : Expr α) : Bool → List α → Option (Match α)
  | start, [] => (e.run start []).head?
  | start, c :: s =>
      match (e.run start (c :: s)).head? with
      | some m => some m
      | none => search e false s

theorem mem_run_seq {e₁ e₂ : Expr α} {start : Bool} {s : List α} {m : Match α} :
    m ∈ (Expr.seq e₁ e₂).run start s ↔ ∃ m₁ ∈ e₁.run start s,
      ∃ m₂ ∈ e₂.run (start && m₁.text.isEmpty) m₁.rest, m₁.append m₂ = m := by
  simp only [run, List.mem_flatMap, List.mem_map]

/-- A match is a beginning of the text. -/
theorem text_append_rest {e : Expr α} {start : Bool} {s : List α} {m : Match α}
    (h : m ∈ e.run start s) : m.text ++ m.rest = s := by
  induction e generalizing start s m with
  | bol =>
      rw [run] at h
      split_ifs at h
      · rw [List.mem_singleton.mp h, List.nil_append]
      · exact absurd h List.not_mem_nil
  | eol =>
      rw [run] at h
      split_ifs at h
      · rw [List.mem_singleton.mp h, List.nil_append]
      · exact absurd h List.not_mem_nil
  | char c =>
      cases s with
      | nil => exact absurd h List.not_mem_nil
      | cons d s =>
          rw [run] at h
          split_ifs at h
          · rw [List.mem_singleton.mp h, List.singleton_append]
          · exact absurd h List.not_mem_nil
  | many least greedy p =>
      rw [run] at h
      obtain ⟨n, -, rfl⟩ := List.mem_map.mp h
      exact List.take_append_drop n s
  | group e ih =>
      rw [run] at h
      obtain ⟨m', hm', rfl⟩ := List.mem_map.mp h
      have hsplit := ih hm'
      exact hsplit
  | seq e₁ e₂ ih₁ ih₂ =>
      obtain ⟨m₁, hm₁, m₂, hm₂, rfl⟩ := mem_run_seq.mp h
      rw [Match.append, List.append_assoc, ih₂ hm₂, ih₁ hm₁]

end Expr

end

/-! ## Repetitions -/

/-- A text that a repetition of the class does not go on with. -/
def Stops (p : α → Bool) (s : List α) : Prop := ∀ c, s.head? = some c → p c = false

section

variable {p : α → Bool} {w t : List α}

theorem stops_nil : Stops p [] := fun c hc ↦ by simp at hc

theorem takeWhile_word (hw : ∀ c ∈ w, p c = true) (ht : Stops p t) :
    (w ++ t).takeWhile p = w := by
  rw [List.takeWhile_append_of_pos hw]
  cases t with
  | nil => rw [List.takeWhile_nil, List.append_nil]
  | cons c t => rw [List.takeWhile_cons_of_neg (by rw [ht c rfl]; decide), List.append_nil]

theorem lengths_greedy {least most : ℕ} (h : least ≤ most) :
    lengths least most true = most :: (List.range' least (most - least)).reverse := by
  rw [lengths, if_pos rfl, show most + 1 - least = most - least + 1 by omega,
    List.range'_1_concat, List.reverse_append, Nat.add_sub_cancel' h]
  rfl

variable [DecidableEq α]

/-- A greedy repetition first takes all it can; every other try leaves a
character of its class. -/
theorem run_many_greedy (least : ℕ) (start : Bool) (hw : ∀ c ∈ w, p c = true) (ht : Stops p t)
    (h : least ≤ w.length) :
    ∃ others, (Expr.many least true p).run start (w ++ t) = ⟨w, [], t⟩ :: others ∧
      ∀ m ∈ others, ¬ Stops p m.rest := by
  refine ⟨_, by
    rw [Expr.run, takeWhile_word hw ht, lengths_greedy h, List.map_cons, List.take_left,
      List.drop_left], ?_⟩
  intro m hm hstops
  obtain ⟨n, hn, rfl⟩ := List.mem_map.mp hm
  obtain ⟨i, hi, rfl⟩ := List.mem_range'.mp (List.mem_reverse.mp hn)
  have hlt : least + 1 * i < w.length := by omega
  have hhead : ((w ++ t).drop (least + 1 * i)).head? = some w[least + 1 * i] := by
    rw [List.head?_drop, List.getElem?_append_left hlt, List.getElem?_eq_getElem hlt]
  have hnot := hstops _ hhead
  rw [hw _ (List.getElem_mem hlt)] at hnot
  exact Bool.false_ne_true hnot.symm

/-- A lazy repetition takes a word only after every beginning of it, and each of
these leaves a character of the word. -/
theorem run_many_lazy (least : ℕ) (start : Bool) (t : List α) (hw : ∀ c ∈ w, p c = true)
    (h : least ≤ w.length) :
    ∃ earlier later, (Expr.many least false p).run start (w ++ t) =
        earlier ++ ⟨w, [], t⟩ :: later ∧
      ∀ m ∈ earlier, ∃ c ∈ w.drop least, m.rest.head? = some c := by
  have hlen : w.length ≤ ((w ++ t).takeWhile p).length := by
    rw [List.takeWhile_append_of_pos hw, List.length_append]
    omega
  obtain ⟨k, hk⟩ := Nat.exists_eq_add_of_le hlen
  have hrange : lengths least ((w ++ t).takeWhile p).length false =
      List.range' least (w.length - least) ++ w.length :: List.range' (w.length + 1) k := by
    rw [lengths, if_neg Bool.false_ne_true, hk, ← List.range'_succ,
      show w.length + k + 1 - least = (w.length - least) + (k + 1) by omega, ← List.range'_append_1,
      Nat.add_sub_cancel' h]
  refine ⟨_, _, by
    rw [Expr.run, hrange, List.map_append, List.map_cons, List.take_left, List.drop_left], ?_⟩
  intro m hm
  obtain ⟨n, hn, rfl⟩ := List.mem_map.mp hm
  obtain ⟨hle, hlt⟩ := List.mem_range'_1.mp hn
  have hlt' : n < w.length := by omega
  refine ⟨w[n], List.mem_drop_iff_getElem.mpr ⟨n - least, by omega, ?_⟩, ?_⟩
  · simp only [Nat.add_sub_cancel' hle]
  · rw [List.head?_drop, List.getElem?_append_left hlt', List.getElem?_eq_getElem hlt']

theorem run_many_of_stops {least : ℕ} (start greedy : Bool) (h : 0 < least) (ht : Stops p t) :
    (Expr.many least greedy p).run start t = [] := by
  have hnone : t.takeWhile p = [] := takeWhile_word (w := []) (by simp) ht
  have hlengths : lengths least 0 greedy = [] := by
    rw [lengths, show 0 + 1 - least = 0 by omega]
    cases greedy <;> rfl
  rw [Expr.run, hnone, List.length_nil, hlengths, List.map_nil]

end

/-! ## Columns -/

section

variable (sep : α → Bool)

/-- The words between the separators. -/
def fields (s : List α) : List (List α) := (s.splitOnP sep).filter (· ≠ [])

/-- A word. -/
def column : Expr α := .group (.many 1 true fun c ↦ !sep c)

/-- `n + 1` words with separators between them. -/
def columns : ℕ → Expr α
  | 0 => .seq (column sep) (.many 0 true sep)
  | n + 1 => .seq (column sep) (.seq (.many 1 true sep) (columns n))

variable {sep} {w t : List α}

theorem fields_nil : fields sep [] = [] := by
  rw [fields, List.splitOnP_nil]
  rfl

theorem fields_cons_sep {c : α} (hc : sep c = true) (s : List α) :
    fields sep (c :: s) = fields sep s := by
  rw [fields, List.splitOnP_cons_eq_if_modifyHead, if_pos hc]
  rfl

theorem fields_append_sep {u : List α} (hu : ∀ c ∈ u, sep c = true) (s : List α) :
    fields sep (u ++ s) = fields sep s := by
  induction u with
  | nil => rfl
  | cons c u ih =>
      rw [List.cons_append, fields_cons_sep (hu c List.mem_cons_self),
        ih fun d hd ↦ hu d (List.mem_cons_of_mem c hd)]

theorem splitOnP_word (hw : ∀ c ∈ w, sep c = false) (ht : Stops (fun c ↦ !sep c) t) :
    ∃ others, (w ++ t).splitOnP sep = w :: others ∧ others.filter (· ≠ []) = fields sep t := by
  induction w with
  | nil =>
      cases t with
      | nil => exact ⟨[], List.splitOnP_nil .., fields_nil.symm⟩
      | cons c t =>
          have hc : sep c = true := by simpa using ht c rfl
          refine ⟨t.splitOnP sep, ?_, (fields_cons_sep hc t).symm⟩
          rw [List.nil_append, List.splitOnP_cons_eq_if_modifyHead, if_pos hc]
  | cons c w ih =>
      obtain ⟨others, hsplit, hothers⟩ := ih fun d hd ↦ hw d (List.mem_cons_of_mem c hd)
      refine ⟨others, ?_, hothers⟩
      rw [List.cons_append, List.splitOnP_cons_eq_if_modifyHead, if_neg (by rw [hw c List.mem_cons_self]; decide),
        hsplit]
      rfl

theorem fields_word (hne : w ≠ []) (hw : ∀ c ∈ w, sep c = false)
    (ht : Stops (fun c ↦ !sep c) t) : fields sep (w ++ t) = w :: fields sep t := by
  obtain ⟨others, hsplit, hothers⟩ := splitOnP_word hw ht
  rw [fields, hsplit, List.filter_cons_of_pos (by simpa using hne), hothers]

theorem length_fields_le_cons (sep : α → Bool) (c : α) (s : List α) :
    (fields sep s).length ≤ (fields sep (c :: s)).length := by
  cases hc : sep c with
  | true => rw [fields_cons_sep hc]
  | false =>
      obtain ⟨h, others, hsplit⟩ := List.exists_cons_of_ne_nil (List.splitOnP_ne_nil sep s)
      have hcons : fields sep (c :: s) = (c :: h) :: others.filter (· ≠ []) := by
        rw [fields, List.splitOnP_cons_eq_if_modifyHead, hc, if_neg Bool.false_ne_true, hsplit]
        rfl
      rw [fields, hsplit, hcons, List.length_cons, List.filter_cons]
      split
      · exact le_rfl
      · exact Nat.le_succ _

/-! ### Matching columns -/

theorem exists_span (p : α → Bool) (s : List α) :
    ∃ w t, s = w ++ t ∧ (∀ c ∈ w, p c = true) ∧ Stops p t := by
  refine ⟨s.takeWhile p, s.dropWhile p, List.takeWhile_append_dropWhile.symm,
    fun c hc ↦ List.mem_takeWhile_imp hc, fun c hc ↦ ?_⟩
  have hnot := List.head?_dropWhile_not p s
  rw [hc] at hnot
  simpa using hnot

theorem Stops.not {p : α → Bool} {s : List α} (h : ¬ Stops p s) : Stops (fun c ↦ !p c) s := by
  intro c hc
  by_contra hne
  apply h
  intro d hd
  obtain rfl : d = c := Option.some.inj (hd.symm.trans hc)
  simpa using hne

theorem Stops.eq_nil {p : α → Bool} {s : List α} (h : Stops p s) (h' : Stops (fun c ↦ !p c) s) :
    s = [] := by
  cases s with
  | nil => rfl
  | cons c s =>
      have hc : (!p c) = false := h' c rfl
      rw [h c rfl] at hc
      exact absurd hc (by decide)

variable [DecidableEq α]

theorem run_column (start : Bool) (hne : w ≠ []) (hw : ∀ c ∈ w, sep c = false)
    (ht : Stops (fun c ↦ !sep c) t) :
    ∃ others, (column sep).run start (w ++ t) = ⟨w, [w], t⟩ :: others ∧
      ∀ m ∈ others, Stops sep m.rest := by
  obtain ⟨others, hrun, hothers⟩ := run_many_greedy 1 start
    (by simpa using hw) ht (List.length_pos_iff.mpr hne)
  refine ⟨others.map fun m ↦ { m with groups := m.text :: m.groups }, ?_, ?_⟩
  · rw [column, Expr.run, hrun]
    rfl
  · intro m hm
    obtain ⟨m', hm', rfl⟩ := List.mem_map.mp hm
    simpa using Stops.not (hothers m' hm')

theorem run_columns_of_stops (n : ℕ) (start : Bool) (ht : Stops (fun c ↦ !sep c) t) :
    (columns sep n).run start t = [] := by
  have hcolumn : (column sep).run start t = [] := by
    rw [column, Expr.run, run_many_of_stops start true Nat.one_pos ht, List.map_nil]
  cases n with
  | zero => rw [columns, Expr.run, hcolumn, List.flatMap_nil]
  | succ n => rw [columns, Expr.run, hcolumn, List.flatMap_nil]

/-- Separators and more columns: the separators are all taken. -/
theorem run_sep_columns (n : ℕ) (start : Bool) {u v : List α} (hu : ∀ c ∈ u, sep c = true)
    (hv : Stops sep v) (hne : u ≠ []) :
    (Expr.seq (.many 1 true sep) (columns sep n)).run start (u ++ v) =
      ((columns sep n).run (start && u.isEmpty) v).map (Match.append ⟨u, [], v⟩) := by
  obtain ⟨others, hrun, hothers⟩ := run_many_greedy 1 start hu hv
    (List.length_pos_iff.mpr hne)
  have hnone : others.flatMap (fun m ↦
      ((columns sep n).run (start && m.text.isEmpty) m.rest).map m.append) = [] := by
    refine List.flatMap_eq_nil_iff.mpr fun m hm ↦ ?_
    rw [run_columns_of_stops n _ (Stops.not (hothers m hm)), List.map_nil]
  rw [Expr.run, hrun, List.flatMap_cons, hnone, List.append_nil]

/-- Where a word starts, the columns are the next words. -/
theorem run_columns (n : ℕ) (start : Bool) {s : List α} (hs : Stops sep s) :
    ((columns sep n).run start s).head?.map Match.groups =
      if n < (fields sep s).length then some ((fields sep s).take (n + 1)) else none := by
  induction n generalizing start s with
  | zero =>
      obtain ⟨w, t, rfl, hw, ht⟩ := exists_span (fun c ↦ !sep c) s
      have hw' : ∀ c ∈ w, sep c = false := by simpa using hw
      by_cases hne : w = []
      · subst hne
        rw [List.nil_append] at hs ⊢
        rw [hs.eq_nil ht, run_columns_of_stops 0 start stops_nil, fields_nil]
        rfl
      obtain ⟨others, hcolumn, -⟩ := run_column start hne hw' ht
      obtain ⟨u, v, rfl, hu, hv⟩ := exists_span sep t
      obtain ⟨more, hrun, -⟩ := run_many_greedy 0 (start && w.isEmpty) hu hv
        (Nat.zero_le _)
      rw [fields_word hne hw' ht, List.length_cons, if_pos (Nat.succ_pos _), columns, Expr.run, hcolumn,
        List.flatMap_cons, hrun]
      rfl
  | succ n ih =>
      obtain ⟨w, t, rfl, hw, ht⟩ := exists_span (fun c ↦ !sep c) s
      have hw' : ∀ c ∈ w, sep c = false := by simpa using hw
      by_cases hne : w = []
      · subst hne
        rw [List.nil_append] at hs ⊢
        rw [hs.eq_nil ht, run_columns_of_stops (n + 1) start stops_nil, fields_nil]
        rfl
      obtain ⟨others, hcolumn, hothers⟩ := run_column start hne hw' ht
      -- a word that is cut short is not followed by a separator
      have hnone : others.flatMap (fun m ↦ ((Expr.seq (.many 1 true sep) (columns sep n)).run
          (start && m.text.isEmpty) m.rest).map m.append) = [] := by
        refine List.flatMap_eq_nil_iff.mpr fun m hm ↦ ?_
        rw [Expr.run, run_many_of_stops _ true Nat.one_pos (hothers m hm), List.flatMap_nil,
          List.map_nil]
      rw [fields_word hne hw' ht, columns, Expr.run, hcolumn, List.flatMap_cons, hnone,
        List.append_nil]
      obtain ⟨u, v, rfl, hu, hv⟩ := exists_span sep t
      by_cases hgap : u = []
      · subst hgap
        rw [List.nil_append] at ht ⊢
        rw [hv.eq_nil ht, fields_nil, Expr.run, run_many_of_stops _ true Nat.one_pos stops_nil]
        rfl
      · rw [run_sep_columns n _ hu hv hgap, fields_append_sep hu, List.map_map, List.head?_map,
          Option.map_map, List.length_cons, List.take_succ_cons]
        have hrest := ih (start && w.isEmpty && u.isEmpty) hv
        cases hhead : ((columns sep n).run (start && w.isEmpty && u.isEmpty) v).head? with
        | none =>
            rw [hhead] at hrest
            split_ifs at hrest with hmany
            · simp at hrest
            · rw [if_neg (by omega)]
              rfl
        | some m =>
            rw [hhead] at hrest
            split_ifs at hrest with hmany
            · rw [if_pos (by omega), ← Option.some.inj hrest]
              rfl
            · simp at hrest

/-- A search for columns finds the first words, if there are enough. -/
theorem search_columns (n : ℕ) (start : Bool) (s : List α) :
    ((columns sep n).search start s).map Match.groups =
      if n < (fields sep s).length then some ((fields sep s).take (n + 1)) else none := by
  induction s generalizing start with
  | nil =>
      rw [Expr.search]
      exact run_columns n start stops_nil
  | cons c s ih =>
      cases hc : sep c with
      | true =>
          have hstops : Stops (fun c ↦ !sep c) (c :: s) := by
            intro d hd
            obtain rfl : c = d := Option.some.inj hd
            simp [hc]
          rw [Expr.search, run_columns_of_stops n start hstops, fields_cons_sep hc]
          exact ih false
      | false =>
          have hstops : Stops sep (c :: s) := by
            intro d hd
            obtain rfl : c = d := Option.some.inj hd
            exact hc
          have hrun := run_columns n start hstops
          rw [Expr.search]
          cases hhead : ((columns sep n).run start (c :: s)).head? with
          | some m =>
              rw [hhead] at hrun
              exact hrun
          | none =>
              rw [hhead] at hrun
              have hlen := length_fields_le_cons sep c s
              split_ifs at hrun with hmany
              · simp at hrun
              · rw [if_neg hmany]
                refine (ih false).trans (if_neg ?_)
                omega

end

end Regex
