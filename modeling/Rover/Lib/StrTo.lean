import Mathlib.Data.Rat.Defs
import Mathlib.Algebra.Field.Rat
import Rover.Lib.IStream

/-!
# Strings to numbers

`std::stoul` and `std::stof` in the "C" locale.  Both skip white space, convert
the longest beginning that is a number and ignore what follows; they throw when
there is no such beginning, or when the type cannot hold the number.  Which
`float` is nearest to a number is left to a parameter.
-/

namespace StrTo

open IStream

/-- The standard exceptions, with their `what()`. -/
inductive StdError
  | invalidArgument (what : String)
  | outOfRange (what : String)
  | runtimeError (what : String)
  deriving DecidableEq, Repr

/-- `unsigned long` has `w` bits. -/
def stoul (w : ℕ) (str : List (BitVec 8)) : Except StdError (BitVec w) :=
  let n := scan (str.dropWhile isSpace)
  if n.digits = [] then .error (.invalidArgument "stoul")
  else if n.limit w false < n.value then .error (.outOfRange "stoul")
  else .ok (n.result w false)

/-- `int` has 32 bits. -/
def stoi (str : List (BitVec 8)) : Except StdError ℤ :=
  let n := scan (str.dropWhile isSpace)
  if n.digits = [] then .error (.invalidArgument "stoi")
  else if n.limit 32 true < n.value then .error (.outOfRange "stoi")
  else .ok (if n.negative then -n.value else n.value)

/-- A floating-point value; the sign of zero is not kept. -/
inductive FloatValue
  | finite (value : ℚ)
  | infinite (negative : Bool)
  | nan
  deriving DecidableEq, Repr

def lower (c : BitVec 8) : BitVec 8 := if 65 ≤ c.toNat ∧ c.toNat ≤ 90 then c + 32 else c

def startsWith (word : List (BitVec 8)) (r : List (BitVec 8)) : Bool :=
  word.isPrefixOf (r.map lower)

def isHexDigit (c : BitVec 8) : Bool :=
  isDigit c || (97 ≤ (lower c).toNat && (lower c).toNat ≤ 102)

def digitValue (c : BitVec 8) : ℕ := if isDigit c then c.toNat - 48 else (lower c).toNat - 87

/-- Digits with at most one radix point among them. -/
structure Mantissa where
  ints : List (BitVec 8)
  fracs : List (BitVec 8)
  rest : List (BitVec 8)

def mantissa (isDigit : BitVec 8 → Bool) (r : List (BitVec 8)) : Mantissa :=
  let ints := r.takeWhile isDigit
  match r.dropWhile isDigit with
  | [] => ⟨ints, [], []⟩
  | c :: r =>
      if c = 0x2e then ⟨ints, r.takeWhile isDigit, r.dropWhile isDigit⟩
      else ⟨ints, [], c :: r⟩

/-- The exponent after its letter; without digits there is none. -/
def exponent (letter : BitVec 8) : List (BitVec 8) → ℤ
  | [] => 0
  | c :: r =>
      if lower c = letter then
        let n := scan r
        if n.negative then -n.value else n.value
      else 0

def number (base : ℕ) (isDigit : BitVec 8 → Bool) (letter : BitVec 8) (power : ℚ)
    (r : List (BitVec 8)) : Option ℚ :=
  let m := mantissa isDigit r
  let digits := m.ints ++ m.fracs
  if digits = [] then none
  else some ((digits.foldl (fun v c ↦ base * v + digitValue c) 0 : ℕ) *
    power ^ exponent letter m.rest / (base : ℚ) ^ m.fracs.length)

/-- After `0x` a hexadecimal number is tried; without one the `0` stands alone. -/
def magnitude (r : List (BitVec 8)) : Option FloatValue :=
  if startsWith [0x69, 0x6e, 0x66] r then some (.infinite false)
  else if startsWith [0x6e, 0x61, 0x6e] r then some .nan
  else if startsWith [0x30, 0x78] r then
    some (.finite ((number 16 isHexDigit 0x70 2 (r.drop 2)).getD 0))
  else (number 10 isDigit 0x65 10 r).map .finite

def sign : List (BitVec 8) → Bool × List (BitVec 8)
  | [] => (false, [])
  | c :: r => if c = 0x2d then (true, r) else if c = 0x2b then (false, r) else (false, c :: r)

/-- `round` gives the `float` for a number, or nothing where `strtof` reports
that it is out of range. -/
def stof (round : ℚ → Option ℚ) (str : List (BitVec 8)) : Except StdError FloatValue :=
  let (negative, r) := sign (str.dropWhile isSpace)
  match magnitude r with
  | none => .error (.invalidArgument "stof")
  | some .nan => .ok .nan
  | some (.infinite _) => .ok (.infinite negative)
  | some (.finite q) =>
      match round (if negative then -q else q) with
      | none => .error (.outOfRange "stof")
      | some x => .ok (.finite x)

/-! ## Texts that begin like no number -/

/-- The characters a number may begin with, after white space. -/
def begins (c : BitVec 8) : Bool :=
  isSpace c || c == 0x2d || c == 0x2b || c == 0x2e || isDigit c || lower c == 0x69 ||
    lower c == 0x6e

theorem number_cons_of_not {c : BitVec 8} (hdigit : isDigit c = false) (hdot : c ≠ 0x2e)
    (r : List (BitVec 8)) : number 10 isDigit 0x65 10 (c :: r) = none := by
  have hnone : (mantissa isDigit (c :: r)).ints ++ (mantissa isDigit (c :: r)).fracs = [] := by
    rw [mantissa, List.takeWhile_cons_of_neg (by simp [hdigit]),
      List.dropWhile_cons_of_neg (by simp [hdigit])]
    simp only [if_neg hdot, List.append_nil]
  rw [number, if_pos hnone]

theorem sign_cons_of_not {c : BitVec 8} (hminus : c ≠ 0x2d) (hplus : c ≠ 0x2b)
    (r : List (BitVec 8)) : sign (c :: r) = (false, c :: r) := by
  rw [sign, if_neg hminus, if_neg hplus]

theorem startsWith_cons_of_ne {a c : BitVec 8} (h : lower c ≠ a) (word r : List (BitVec 8)) :
    startsWith (a :: word) (c :: r) = false := by
  have hne : (a == lower c) = false := beq_eq_false_iff_ne.mpr h.symm
  simp only [startsWith, List.map_cons, List.isPrefixOf_cons_cons, hne, Bool.false_and]

theorem lower_ne_zero_digit {c : BitVec 8} (h : isDigit c = false) : lower c ≠ 0x30 := by
  intro heq
  have hnat := congrArg BitVec.toNat heq
  have h30 : (0x30 : BitVec 8).toNat = 48 := rfl
  simp only [isDigit, Bool.and_eq_false_iff, decide_eq_false_iff_not] at h
  rw [lower] at hnat
  split at hnat
  · have h32 : (32 : BitVec 8).toNat = 32 := rfl
    rw [BitVec.toNat_add] at hnat
    omega
  · omega

theorem stof_cons_of_not {c : BitVec 8} (h : begins c = false) (round : ℚ → Option ℚ)
    (r : List (BitVec 8)) : stof round (c :: r) = .error (.invalidArgument "stof") := by
  simp only [begins, Bool.or_eq_false_iff, beq_eq_false_iff_ne] at h
  obtain ⟨⟨⟨⟨⟨⟨hspace, hminus⟩, hplus⟩, hdot⟩, hdigit⟩, hinf⟩, hnan⟩ := h
  have hsign : sign ((c :: r).dropWhile isSpace) = (false, c :: r) := by
    rw [List.dropWhile_cons_of_neg (by simp [hspace]), sign_cons_of_not hminus hplus]
  have hmagnitude : magnitude (c :: r) = none := by
    rw [magnitude, startsWith_cons_of_ne hinf, startsWith_cons_of_ne hnan,
      startsWith_cons_of_ne (lower_ne_zero_digit hdigit), number_cons_of_not hdigit hdot]
    rfl
  simp only [stof, hsign, hmagnitude]

end StrTo
