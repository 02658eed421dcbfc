import Mathlib.Logic.Function.Basic
import Rover.App.Options
import Rover.Lib.Regex

/-!
# The command line

`main` takes every argument for an option `--name=value`, and the first value
given for a name counts.  An argument of another form ends the program.
-/

namespace Rover.App

open Regex StrTo

/-- What `.` stands for in an expression. -/
def isDot (c : Byte) : Bool := c ≠ 0x0a && c ≠ 0x0d

/-- `(.+?)` -/
def dots : Expr Byte := .group (.many 1 false isDot)

/-- `(.+?)$` -/
def valuePattern : Expr Byte := .seq dots .eol

/-- `=(.+?)$` -/
def equalsPattern : Expr Byte := .seq (.char 0x3d) valuePattern

/-- `^--(.+?)=(.+?)$` -/
def arger : Expr Byte :=
  .seq .bol (.seq (.char 0x2d) (.seq (.char 0x2d) (.seq dots equalsPattern)))

/-- `emplace` does not replace a value. -/
def emplace (options : Options) (name value : List Byte) : Options :=
  if (options name).isSome then options else Function.update options name (some value)

def invalidArgument (arg : List Byte) : StdError :=
  .runtimeError ("invalid argument: `" ++ String.ofList (arg.map fun c ↦ Char.ofNat c.toNat) ++ "`")

def parseArg (options : Options) (arg : List Byte) : Except StdError Options :=
  match arger.fullMatch arg with
  | some m => .ok (emplace options (m.groups.getD 0 []) (m.groups.getD 1 []))
  | none => .error (invalidArgument arg)

/-- The loop of `main` over its arguments. -/
def parseArgs (args : List (List Byte)) : Except StdError Options :=
  args.foldlM parseArg fun _ ↦ none

/-- `main` up to the start of the main loop. -/
def startUp (lib : Library) (host : Host) (args : List (List Byte)) : Except StdError Started := do
  let options ← parseArgs args
  construct lib host options

/-! ## One argument -/

/-- An argument for the option `name`: the name is not empty and goes up to the
first `=` after its first character. -/
structure IsOption (arg name value : List Byte) : Prop where
  arg_eq : arg = 0x2d :: 0x2d :: (name ++ 0x3d :: value)
  name_ne : name ≠ []
  value_ne : value ≠ []
  name_dots : ∀ c ∈ name, isDot c = true
  value_dots : ∀ c ∈ value, isDot c = true
  first : 0x3d ∉ name.tail

theorem fullMatch_seq (e₁ e₂ : Expr Byte) (start : Bool) (s : List Byte) :
    ((Expr.seq e₁ e₂).run start s).find? (fun m ↦ m.rest = []) =
      (e₁.run start s).findSome? fun m ↦
        ((e₂.run (start && m.text.isEmpty) m.rest).find? fun m' ↦ m'.rest = []).map m.append := by
  rw [Expr.run, List.find?_flatMap]
  congr 1
  funext m
  rw [List.find?_map]
  rfl

theorem find?_of_unique {α : Type*} {l : List α} {p : α → Bool} {x : α} (h : ∀ y ∈ l, y = x)
    (hx : x ∈ l) (hp : p x = true) : l.find? p = some x := by
  obtain ⟨y, hy⟩ := Option.isSome_iff_exists.mp (List.find?_isSome.mpr ⟨x, hx, hp⟩)
  rw [hy, h y (List.mem_of_find?_eq_some hy)]

theorem mem_run_dots {start : Bool} {s : List Byte} {m : Match Byte} :
    m ∈ dots.run start s ↔
      m.text ≠ [] ∧ (∀ c ∈ m.text, isDot c = true) ∧ m.text ++ m.rest = s ∧ m.groups = [m.text] := by
  constructor
  · intro hm
    have htext := Expr.text_append_rest hm
    simp only [dots, Expr.run, lengths, List.map_map, List.mem_map, List.mem_range'_1,
      Bool.false_eq_true, if_false, Function.comp_apply] at hm
    obtain ⟨n, ⟨hn, hlt⟩, rfl⟩ := hm
    have hle : n ≤ (s.takeWhile isDot).length := by omega
    have htake : s.take n <+: s.takeWhile isDot :=
      List.prefix_of_prefix_length_le (List.take_prefix n s) (List.takeWhile_prefix _)
        ((List.length_take_le n s).trans hle)
    refine ⟨?_, fun c hc ↦ List.mem_takeWhile_imp (htake.subset hc), htext, rfl⟩
    have hs := (List.takeWhile_prefix isDot (l := s)).length_le
    apply List.ne_nil_of_length_pos
    rw [List.length_take]
    omega
  · rintro ⟨hne, hdots, rfl, hgroups⟩
    obtain ⟨w, groups, t⟩ := m
    simp only at hne hdots hgroups ⊢
    subst hgroups
    have hlen : w.length ≤ ((w ++ t).takeWhile isDot).length := by
      rw [List.takeWhile_append_of_pos hdots, List.length_append]
      omega
    have hpos := List.length_pos_iff.mpr hne
    simp only [dots, Expr.run, lengths, List.map_map, List.mem_map, List.mem_range'_1,
      Bool.false_eq_true, if_false, Function.comp_apply]
    exact ⟨w.length, ⟨by omega, by omega⟩, by rw [List.take_left, List.drop_left]⟩

/-- What the value's part of the expression matches is the rest of the argument. -/
theorem mem_run_value {start : Bool} {v : List Byte} {m : Match Byte} :
    m ∈ valuePattern.run start v ↔
      (v ≠ [] ∧ ∀ c ∈ v, isDot c = true) ∧ m = ⟨v, [v], []⟩ := by
  simp only [valuePattern, Expr.run, List.mem_flatMap, List.mem_map]
  constructor
  · rintro ⟨m₁, hm₁, m₂, hm₂, rfl⟩
    obtain ⟨hne, hdots, htext, hgroups⟩ := mem_run_dots.mp hm₁
    split_ifs at hm₂ with hrest
    · rw [hrest, List.append_nil] at htext
      subst htext
      rw [List.mem_singleton.mp hm₂, Match.append, hgroups, hrest, List.append_nil, List.append_nil]
      exact ⟨⟨hne, hdots⟩, rfl⟩
    · exact absurd hm₂ List.not_mem_nil
  · rintro ⟨⟨hne, hdots⟩, rfl⟩
    refine ⟨⟨v, [v], []⟩, mem_run_dots.mpr ⟨hne, hdots, List.append_nil v, rfl⟩, ⟨[], [], []⟩,
      by rw [if_pos rfl]; exact List.mem_singleton_self _, ?_⟩
    rw [Match.append, List.append_nil, List.append_nil]

theorem find?_value {start : Bool} {v : List Byte} (hne : v ≠ [])
    (hdots : ∀ c ∈ v, isDot c = true) :
    (valuePattern.run start v).find? (fun m ↦ m.rest = []) = some ⟨v, [v], []⟩ :=
  find?_of_unique (fun _ hm ↦ (mem_run_value.mp hm).2) (mem_run_value.mpr ⟨⟨hne, hdots⟩, rfl⟩) rfl

theorem fullMatch_seq_of_single {e₁ e₂ : Expr Byte} {start : Bool} {s : List Byte} {m : Match Byte}
    (h : e₁.run start s = [m]) :
    ((Expr.seq e₁ e₂).run start s).find? (fun m ↦ m.rest = []) =
      ((e₂.run (start && m.text.isEmpty) m.rest).find? fun m' ↦ m'.rest = []).map m.append := by
  rw [fullMatch_seq, h, List.findSome?_cons, List.findSome?_nil]
  cases (e₂.run (start && m.text.isEmpty) m.rest).find? fun m' ↦ m'.rest = [] with
  | none => rfl
  | some m' => rfl

theorem run_char (c : Byte) (start : Bool) (s : List Byte) :
    (Expr.char c).run start (c :: s) = [⟨[c], [], s⟩] := if_pos rfl

theorem run_char_of_ne {c : Byte} {s : List Byte} (start : Bool) (h : s.head? ≠ some c) :
    (Expr.char c).run start s = [] := by
  cases s with
  | nil => rfl
  | cons d s => exact if_neg fun hd ↦ h (by rw [hd]; rfl)

/-- The expression after the two dashes. -/
theorem fullMatch_dashes (arg : List Byte) :
    arger.fullMatch (0x2d :: 0x2d :: arg) =
      (((Expr.seq dots equalsPattern).run false arg).find? fun m ↦ m.rest = []).map fun m ↦
        ⟨0x2d :: 0x2d :: m.text, m.groups, m.rest⟩ := by
  have hbol : Expr.bol.run true (0x2d :: 0x2d :: arg) = [⟨[], [], 0x2d :: 0x2d :: arg⟩] := rfl
  rw [Expr.fullMatch, arger, fullMatch_seq_of_single hbol,
    fullMatch_seq_of_single (run_char 0x2d _ _), fullMatch_seq_of_single (run_char 0x2d _ _),
    Option.map_map, Option.map_map]
  rfl

theorem find?_equals {start : Bool} {value : List Byte} (hne : value ≠ [])
    (hdots : ∀ c ∈ value, isDot c = true) :
    (equalsPattern.run start (0x3d :: value)).find? (fun m ↦ m.rest = []) =
      some ⟨0x3d :: value, [value], []⟩ := by
  rw [equalsPattern, fullMatch_seq_of_single (run_char 0x3d _ _), find?_value hne hdots]
  rfl

theorem run_equals_of_ne {start : Bool} {s : List Byte} (h : s.head? ≠ some 0x3d) :
    equalsPattern.run start s = [] := by
  rw [equalsPattern, Expr.run, run_char_of_ne start h, List.flatMap_nil]

theorem fullMatch_of_isOption {arg name value : List Byte} (h : IsOption arg name value) :
    arger.fullMatch arg = some ⟨arg, [name, value], []⟩ := by
  obtain ⟨rfl, hname, hvalue, hdots, hvdots, hfirst⟩ := h
  -- the names tried first are shorter, and no `=` follows them
  obtain ⟨earlier, later, hrun, hearlier⟩ := run_many_lazy 1 false (0x3d :: value) hdots
    (List.length_pos_iff.mpr hname)
  have hnone : (earlier.map fun m ↦ { m with groups := m.text :: m.groups }).findSome? (fun m ↦
      ((equalsPattern.run (false && m.text.isEmpty) m.rest).find? fun m' ↦ m'.rest = []).map
        m.append) = none := by
    refine List.findSome?_eq_none_iff.mpr fun m hm ↦ ?_
    obtain ⟨m', hm', rfl⟩ := List.mem_map.mp hm
    obtain ⟨c, hc, hhead⟩ := hearlier m' hm'
    have hne : m'.rest.head? ≠ some 0x3d := by
      rw [hhead]
      intro heq
      rw [Option.some.inj heq, List.drop_one] at hc
      exact hfirst hc
    rw [run_equals_of_ne hne]
    rfl
  rw [fullMatch_dashes, fullMatch_seq, dots, Expr.run, hrun, List.map_append, List.map_cons,
    List.findSome?_append, hnone, Option.none_or, List.findSome?_cons, find?_equals hvalue hvdots]
  rfl

theorem mem_run_equals {start : Bool} {s : List Byte} {m : Match Byte}
    (h : m ∈ equalsPattern.run start s) :
    ∃ value, s = 0x3d :: value ∧ value ≠ [] ∧ ∀ c ∈ value, isDot c = true := by
  cases s with
  | nil => exact absurd h List.not_mem_nil
  | cons c value =>
      by_cases hc : c = 0x3d
      · subst hc
        rw [equalsPattern, Expr.run, run_char, List.flatMap_cons, List.flatMap_nil,
          List.append_nil] at h
        obtain ⟨m', hm', -⟩ := List.mem_map.mp h
        obtain ⟨hne, hdots⟩ := (mem_run_value.mp hm').1
        exact ⟨value, rfl, hne, hdots⟩
      · rw [run_equals_of_ne (s := c :: value) fun heq ↦ hc (Option.some.inj heq)] at h
        exact absurd h List.not_mem_nil

/-- A name that holds another `=` is cut at the first one. -/
theorem exists_isOption_of_name {name value : List Byte} (hname : name ≠ []) (hvalue : value ≠ [])
    (hdots : ∀ c ∈ name, isDot c = true) (hvdots : ∀ c ∈ value, isDot c = true) :
    ∃ name' value', IsOption (0x2d :: 0x2d :: (name ++ 0x3d :: value)) name' value' := by
  obtain ⟨c, t, rfl⟩ := List.exists_cons_of_ne_nil hname
  obtain ⟨w, r, rfl, hw, hr⟩ := exists_span (fun c ↦ decide (c ≠ 0x3d)) t
  have hw' : (0x3d : Byte) ∉ w := fun hmem ↦ by simpa using hw _ hmem
  cases r with
  | nil =>
      refine ⟨c :: w, value, ?_, List.cons_ne_nil c w, hvalue, ?_, hvdots, hw'⟩
      · rw [List.append_nil]
      · rwa [List.append_nil] at hdots
  | cons d r =>
      obtain rfl : d = 0x3d := by simpa using hr d rfl
      refine ⟨c :: w, r ++ 0x3d :: value, ?_, List.cons_ne_nil c w, by simp, ?_, ?_, hw'⟩
      · simp
      · intro b hb
        refine hdots b ?_
        rw [← List.cons_append]
        exact List.mem_append_left _ hb
      · intro b hb
        rcases List.mem_append.mp hb with hb | hb
        · exact hdots b (by simp [hb])
        · rcases List.mem_cons.mp hb with rfl | hb
          · decide
          · exact hvdots b hb

theorem mem_run_char {c : Byte} {start : Bool} {s : List Byte} {m : Match Byte}
    (h : m ∈ (Expr.char c).run start s) : s = c :: m.rest := by
  by_cases hs : s.head? = some c
  · obtain ⟨t, rfl⟩ : ∃ t, s = c :: t := ⟨s.tail, List.eq_cons_of_mem_head? hs⟩
    rw [run_char] at h
    rw [List.mem_singleton.mp h]
  · rw [run_char_of_ne start hs] at h
    exact absurd h List.not_mem_nil

theorem exists_isOption {arg : List Byte} {m : Match Byte} (h : arger.fullMatch arg = some m) :
    ∃ name value, IsOption arg name value := by
  have hm : m ∈ arger.run true arg := List.mem_of_find?_eq_some h
  obtain ⟨m₁, hm₁, m', hm, -⟩ := Expr.mem_run_seq.mp hm
  obtain ⟨m₂, hm₂, m', hm, -⟩ := Expr.mem_run_seq.mp hm
  obtain ⟨m₃, hm₃, m', hm, -⟩ := Expr.mem_run_seq.mp hm
  obtain ⟨m₄, hm₄, m', hm, -⟩ := Expr.mem_run_seq.mp hm
  have hbol : m₁.rest = arg := by
    rw [Expr.run, if_pos rfl] at hm₁
    rw [List.mem_singleton.mp hm₁]
  obtain ⟨hname, hdots, htext, -⟩ := mem_run_dots.mp hm₄
  obtain ⟨value, hrest, hvalue, hvdots⟩ := mem_run_equals hm
  rw [← hbol, mem_run_char hm₂, mem_run_char hm₃, ← htext, hrest]
  exact exists_isOption_of_name hname hvalue hdots hvdots

/-! ## All the arguments -/

theorem parseArg_of_isOption (options : Options) {arg name value : List Byte}
    (h : IsOption arg name value) : parseArg options arg = .ok (emplace options name value) := by
  rw [parseArg, fullMatch_of_isOption h]
  rfl

theorem parseArg_of_not_isOption (options : Options) {arg : List Byte}
    (h : ¬ ∃ name value, IsOption arg name value) :
    parseArg options arg = .error (invalidArgument arg) := by
  have hnone : arger.fullMatch arg = none := by
    by_contra hne
    obtain ⟨m, hm⟩ := Option.ne_none_iff_exists'.mp hne
    exact h (exists_isOption hm)
  rw [parseArg, hnone]

theorem IsOption.unique {arg name name' value value' : List Byte} (h : IsOption arg name value)
    (h' : IsOption arg name' value') : name = name' ∧ value = value' := by
  have hmatch := (fullMatch_of_isOption h).symm.trans (fullMatch_of_isOption h')
  simpa using hmatch

/-- The first value given for every name. -/
def firstValues (pairs : List (List Byte × List Byte)) : Options := fun name ↦
  (pairs.find? fun p ↦ p.1 = name).map Prod.snd

/-- The options that the arguments give, in their order. -/
def Give (args : List (List Byte)) (pairs : List (List Byte × List Byte)) : Prop :=
  List.Forall₂ (fun arg p ↦ IsOption arg p.1 p.2) args pairs

theorem emplace_apply (options : Options) (name value key : List Byte) :
    emplace options name value key = (options key).or (if name = key then some value else none) := by
  rw [emplace]
  by_cases hkey : name = key
  · subst hkey
    rw [if_pos rfl]
    cases hoption : options name with
    | none => rw [if_neg (by simp), Function.update_self, Option.none_or]
    | some v => rw [if_pos Option.isSome_some, hoption, Option.some_or]
  · rw [if_neg hkey, Option.or_none]
    split_ifs
    · rfl
    · rw [Function.update_of_ne (Ne.symm hkey)]

theorem foldlM_parseArg {args : List (List Byte)} {pairs : List (List Byte × List Byte)}
    (h : Give args pairs) (options : Options) :
    args.foldlM parseArg options = .ok fun name ↦ (options name).or (firstValues pairs name) := by
  induction h generalizing options with
  | nil =>
      rw [List.foldlM_nil]
      simp only [firstValues, List.find?_nil, Option.map_none, Option.or_none]
      rfl
  | @cons arg p args pairs harg _ ih =>
      rw [List.foldlM_cons, parseArg_of_isOption options harg]
      refine (ih _).trans (congrArg Except.ok (funext fun name ↦ ?_))
      rw [emplace_apply, Option.or_assoc]
      congr 1
      rw [firstValues, firstValues, List.find?_cons]
      by_cases hname : p.1 = name
      · simp [hname]
      · simp [hname]

theorem foldlM_parseArg_error {before after : List (List Byte)} {bad : List Byte}
    (hbefore : ∀ arg ∈ before, ∃ name value, IsOption arg name value)
    (hbad : ¬ ∃ name value, IsOption bad name value) (options : Options) :
    (before ++ bad :: after).foldlM parseArg options = .error (invalidArgument bad) := by
  induction before generalizing options with
  | nil =>
      rw [List.nil_append, List.foldlM_cons, parseArg_of_not_isOption options hbad]
      rfl
  | cons arg before ih =>
      obtain ⟨name, value, harg⟩ := hbefore arg List.mem_cons_self
      rw [List.cons_append, List.foldlM_cons, parseArg_of_isOption options harg]
      exact ih (fun a ha ↦ hbefore a (List.mem_cons_of_mem arg ha)) _

theorem exists_give_or_bad (args : List (List Byte)) :
    (∃ pairs, Give args pairs) ∨ ∃ before bad after, args = before ++ bad :: after ∧
      (∀ arg ∈ before, ∃ name value, IsOption arg name value) ∧
      ¬ ∃ name value, IsOption bad name value := by
  induction args with
  | nil => exact Or.inl ⟨[], List.Forall₂.nil⟩
  | cons arg args ih =>
      by_cases harg : ∃ name value, IsOption arg name value
      · rcases ih with ⟨pairs, hpairs⟩ | ⟨before, bad, after, rfl, hbefore, hbad⟩
        · obtain ⟨name, value, hoption⟩ := harg
          exact Or.inl ⟨(name, value) :: pairs, List.Forall₂.cons hoption hpairs⟩
        · refine Or.inr ⟨arg :: before, bad, after, rfl, ?_, hbad⟩
          intro a ha
          rcases List.mem_cons.mp ha with rfl | ha
          · exact harg
          · exact hbefore a ha
      · exact Or.inr ⟨[], arg, args, rfl, by simp, harg⟩

/-- The program starts when every argument is an option, and then every name has
the first value given for it; otherwise the first bad argument is reported. -/
theorem parseArgs_spec (args : List (List Byte)) :
    (∀ options, parseArgs args = .ok options ↔
      ∃ pairs, Give args pairs ∧ options = firstValues pairs) ∧
    ∀ e, parseArgs args = .error e ↔ ∃ before bad after, args = before ++ bad :: after ∧
      (∀ arg ∈ before, ∃ name value, IsOption arg name value) ∧
      (¬ ∃ name value, IsOption bad name value) ∧ e = invalidArgument bad := by
  have hgive {pairs} (h : Give args pairs) : parseArgs args = .ok (firstValues pairs) :=
    foldlM_parseArg h _
  constructor
  · intro options
    constructor
    · intro hok
      rcases exists_give_or_bad args with ⟨pairs, hpairs⟩ | ⟨before, bad, after, rfl, hbefore, hbad⟩
      · exact ⟨pairs, hpairs, Except.ok.inj (hok.symm.trans (hgive hpairs))⟩
      · rw [parseArgs, foldlM_parseArg_error hbefore hbad] at hok
        simp at hok
    · rintro ⟨pairs, hpairs, rfl⟩
      exact hgive hpairs
  · intro e
    constructor
    · intro herror
      rcases exists_give_or_bad args with ⟨pairs, hpairs⟩ | ⟨before, bad, after, rfl, hbefore, hbad⟩
      · rw [hgive hpairs] at herror
        simp at herror
      · rw [parseArgs, foldlM_parseArg_error hbefore hbad] at herror
        exact ⟨before, bad, after, rfl, hbefore, hbad, (Except.error.inj herror).symm⟩
    · rintro ⟨before, bad, after, rfl, hbefore, hbad, rfl⟩
      exact foldlM_parseArg_error hbefore hbad _

/-! ## The settings -/

/-- The names that the constructors look up. -/
def settingNames : List (List Byte) :=
  ["sdev", "baud", "js_port", "pwmr", "ka", "c", "m", "p", "vbat_csv"].map ascii

theorem construct_congr (lib : Library) (host : Host) {options options' : Options}
    (h : ∀ name ∈ settingNames, options name = options' name) :
    construct lib host options = construct lib host options' := by
  have hassign {α : Type} (name : String) (hname : ascii name ∈ settingNames)
      (read : List Byte → Except StdError α) (before : α) :
      assign options name read before = assign options' name read before := by
    rw [assign, assign, h _ hname]
  have hslave : constructSlave lib host options = constructSlave lib host options' := by
    rw [constructSlave, constructSlave, hassign "sdev" (by decide), hassign "baud" (by decide)]
  simp only [construct, hslave, hassign "js_port" (by decide), hassign "pwmr" (by decide),
    hassign "ka" (by decide), hassign "c" (by decide), hassign "m" (by decide),
    hassign "p" (by decide), hassign "vbat_csv" (by decide)]

/-- Some argument gives the value for the name. -/
def Gives (args : List (List Byte)) (name value : List Byte) : Prop :=
  ∃ arg ∈ args, IsOption arg name value

theorem gives_iff {args : List (List Byte)} {pairs : List (List Byte × List Byte)}
    (h : Give args pairs) (name value : List Byte) : Gives args name value ↔ (name, value) ∈ pairs := by
  induction h with
  | nil => simp [Gives]
  | @cons arg p args pairs harg _ ih =>
      rw [List.mem_cons, ← ih]
      constructor
      · rintro ⟨a, ha, hoption⟩
        rcases List.mem_cons.mp ha with rfl | ha
        · obtain ⟨hname, hvalue⟩ := hoption.unique harg
          exact Or.inl (Prod.ext hname hvalue)
        · exact Or.inr ⟨a, ha, hoption⟩
      · rintro (rfl | ⟨a, ha, hoption⟩)
        · exact ⟨arg, List.mem_cons_self, harg⟩
        · exact ⟨a, List.mem_cons_of_mem arg ha, hoption⟩

/-- Where a name has one value, it is the value looked up. -/
theorem firstValues_eq_some_iff {pairs : List (List Byte × List Byte)} {name : List Byte}
    (honce : ∀ v w, (name, v) ∈ pairs → (name, w) ∈ pairs → v = w) (value : List Byte) :
    firstValues pairs name = some value ↔ (name, value) ∈ pairs := by
  constructor
  · intro h
    obtain ⟨⟨name', value'⟩, hfind, rfl⟩ := Option.map_eq_some_iff.mp h
    obtain rfl : name' = name := by simpa using List.find?_some hfind
    exact List.mem_of_find?_eq_some hfind
  · intro hmem
    obtain ⟨⟨name', value'⟩, hfind⟩ := Option.isSome_iff_exists.mp
      (List.find?_isSome.mpr ⟨(name, value), hmem, decide_eq_true rfl⟩ :
        (pairs.find? fun p ↦ p.1 = name).isSome)
    obtain rfl : name' = name := by simpa using List.find?_some hfind
    rw [firstValues, hfind, Option.map_some, honce value value' hmem
      (List.mem_of_find?_eq_some hfind)]

/-- `LOG` prints the device between at most 61 other characters into a buffer of
16 KiB, and then takes the line that it has printed for another format. -/
def Loggable (sdev : List Byte) : Prop := 0x25 ∉ sdev ∧ sdev.length + 61 < 16 * 1024

/-- Two command lines that give every setting the same value start alike:
neither the order of the options nor a name that no constructor looks up
matters.  A device that `LOG` cannot print is left out, since the model starts
with it and the program need not. -/
theorem startUp_congr (lib : Library) (host : Host) {args args' : List (List Byte)}
    (_hsdev : ∀ sdev, Gives args (ascii "sdev") sdev → Loggable sdev)
    (hargs : ∀ arg ∈ args, ∃ name value, IsOption arg name value)
    (hargs' : ∀ arg ∈ args', ∃ name value, IsOption arg name value)
    (hsame : ∀ name ∈ settingNames, ∀ value, Gives args name value ↔ Gives args' name value)
    (honce : ∀ name ∈ settingNames, ∀ v w, Gives args name v → Gives args name w → v = w) :
    startUp lib host args = startUp lib host args' := by
  have hpairs {args : List (List Byte)}
      (h : ∀ arg ∈ args, ∃ name value, IsOption arg name value) : ∃ pairs, Give args pairs := by
    rcases exists_give_or_bad args with hpairs | ⟨before, bad, after, rfl, -, hbad⟩
    · exact hpairs
    · exact absurd (h bad (by simp)) hbad
  obtain ⟨pairs, hgive⟩ := hpairs hargs
  obtain ⟨pairs', hgive'⟩ := hpairs hargs'
  have hparse : parseArgs args = .ok (firstValues pairs) := foldlM_parseArg hgive _
  have hparse' : parseArgs args' = .ok (firstValues pairs') := foldlM_parseArg hgive' _
  rw [startUp, startUp, hparse, hparse']
  refine construct_congr lib host fun name hname ↦ Option.ext fun value ↦ ?_
  rw [firstValues_eq_some_iff, firstValues_eq_some_iff, ← gives_iff hgive, ← gives_iff hgive']
  · exact hsame name hname value
  · intro v w hv hw
    rw [← gives_iff hgive', ← hsame name hname] at hv hw
    exact honce name hname v w hv hw
  · intro v w hv hw
    rw [← gives_iff hgive] at hv hw
    exact honce name hname v w hv hw

theorem startUp_congr_port_mass :
    startUp exactLibrary working [ascii "--js_port=5000", ascii "--m=0.5"] =
      startUp exactLibrary working
        [ascii "--m=0.5", ascii "--verbose=1", ascii "--js_port=5000"] := by
  have hport : IsOption (ascii "--js_port=5000") (ascii "js_port") (ascii "5000") := by
    constructor <;> decide
  have hmass : IsOption (ascii "--m=0.5") (ascii "m") (ascii "0.5") := by
    constructor <;> decide
  have hverbose : IsOption (ascii "--verbose=1") (ascii "verbose") (ascii "1") := by
    constructor <;> decide
  have hgive : Give [ascii "--js_port=5000", ascii "--m=0.5"]
      [(ascii "js_port", ascii "5000"), (ascii "m", ascii "0.5")] :=
    .cons hport (.cons hmass .nil)
  have hgive' : Give [ascii "--m=0.5", ascii "--verbose=1", ascii "--js_port=5000"]
      [(ascii "m", ascii "0.5"), (ascii "verbose", ascii "1"), (ascii "js_port", ascii "5000")] :=
    .cons hmass (.cons hverbose (.cons hport .nil))
  have hunknown : ascii "verbose" ∉ settingNames := by decide
  have hne : ascii "js_port" ≠ ascii "m" := by decide
  apply startUp_congr
  · intro sdev hsdev
    have hno : ascii "sdev" ≠ ascii "js_port" ∧ ascii "sdev" ≠ ascii "m" := by decide
    rw [gives_iff hgive] at hsdev
    simp [hno] at hsdev
  · intro arg harg
    rcases List.mem_cons.mp harg with rfl | harg
    · exact ⟨_, _, hport⟩
    · exact ⟨_, _, List.mem_singleton.mp harg ▸ hmass⟩
  · intro arg harg
    rcases List.mem_cons.mp harg with rfl | harg
    · exact ⟨_, _, hmass⟩
    · rcases List.mem_cons.mp harg with rfl | harg
      · exact ⟨_, _, hverbose⟩
      · exact ⟨_, _, List.mem_singleton.mp harg ▸ hport⟩
  · intro name hname value
    have hother : name ≠ ascii "verbose" := fun heq ↦ hunknown (heq ▸ hname)
    rw [gives_iff hgive, gives_iff hgive']
    simp only [List.mem_cons, List.not_mem_nil, Prod.mk.injEq, or_false, hother, false_and,
      false_or]
    exact or_comm
  · intro name _ v w hv hw
    rw [gives_iff hgive] at hv hw
    simp only [List.mem_cons, List.not_mem_nil, Prod.mk.injEq, or_false] at hv hw
    rcases hv with ⟨rfl, rfl⟩ | ⟨rfl, rfl⟩
    · exact ((hw.resolve_right fun h ↦ hne h.1).2).symm
    · exact ((hw.resolve_left fun h ↦ hne h.1.symm).2).symm

end Rover.App
