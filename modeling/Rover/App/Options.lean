import Rover.App.Handlers
import Rover.Lib.StrTo

/-!
# The options of the application

The constructors of `main_app` and of its `ArduinoSlave` take their settings
from a map of strings, each with a default.  The option for the battery log is
read too, but its value is not stored as the name of the file.
-/

namespace Rover.App

open Arduino StrTo

abbrev Options := List Byte → Option (List Byte)

/-- The C++ library that the program is built with: the width of `unsigned long`
and the rounding of `strtof`. -/
structure Library where
  ulongWidth : ℕ
  roundFloat : ℚ → Option ℚ

/-- The calls of the constructors that can fail, each with its exception or the
text of `errno`. -/
structure Host where
  serialOpen : List Byte → BitVec 32 → Except String Unit
  bind : BitVec 16 → Except StdError Unit
  socketpair : Except String Unit

/-- What the constructors leave behind: the settings, the log file that was
opened and the requests made to the slave. -/
structure Started where
  sdev : List Byte
  baud : BitVec 32
  udpBindPort : BitVec 16
  pwmRange : BitVec 32
  pwmPower : FloatValue
  heatTransferKa : FloatValue
  specificHeat : FloatValue
  mass : FloatValue
  vbatCsv : List Byte
  requests : List Request

/-- `if (options.count(name)) x = read(options[name])`, where `x` was `before`. -/
def assign {α : Type} (options : Options) (name : String)
    (read : List Byte → Except StdError α) (before : α) : Except StdError α :=
  match options (ascii name) with
  | none => .ok before
  | some value => read value

variable (lib : Library) (host : Host)

def toUnsigned (w : ℕ) (value : List Byte) : Except StdError (BitVec w) :=
  (stoul lib.ulongWidth value).map fun n ↦ n.setWidth w

def toDouble (value : List Byte) : Except StdError FloatValue := stof lib.roundFloat value

def check (text : String) (result : Except String Unit) : Except StdError Unit :=
  result.mapError fun errno ↦ .runtimeError (text ++ errno)

def output : Byte := 1

def setupRequests : List Request :=
  [.pinMode 3 output, .pinMode 5 output, .pinMode 6 output, .pinMode 9 output, .pinMode 10 output,
    .initPwm 2 1 1, .initPwm 0 1 1, .initPwm 0 0 1, .initPwm 1 0 1, .initPwm 1 1 1]

/-- The constructor of `ArduinoSlave`, with the device and the baud rate.  The
line that it logs is left out. -/
def constructSlave (options : Options) : Except StdError (List Byte × BitVec 32) := do
  let sdev ← assign options "sdev" .ok (ascii "/dev/serial0")
  let baud ← assign options "baud" (toUnsigned lib 32) 19200
  check "Failed to open serial device: " (host.serialOpen sdev baud)
  .ok (sdev, baud)

/-- The constructor of `main_app`. -/
def construct (options : Options) : Except StdError Started := do
  let (sdev, baud) ← constructSlave lib host options
  let udpBindPort ← assign options "js_port" (toUnsigned lib 16) 11223
  let pwmRange ← assign options "pwmr" (toUnsigned lib 32) 255
  let heatTransferKa ← assign options "ka" (toDouble lib) (.finite (1 / 1000000))
  let specificHeat ← assign options "c" (toDouble lib) (.finite (466 / 1000))
  let mass ← assign options "m" (toDouble lib) (.finite (6 / 100))
  let pwmPower ← assign options "p" (toDouble lib) (.finite (12 / 10000))
  host.bind udpBindPort
  check "Failed to create socketpair! Error=" host.socketpair
  let vbatCsv := ascii "vbat.csv"
  -- the source assigns to `PWM_POWER` here, not to the file name
  let pwmPower ← assign options "vbat_csv" (toDouble lib) pwmPower
  .ok { sdev, baud, udpBindPort, pwmRange, pwmPower, heatTransferKa, specificHeat, mass, vbatCsv,
        requests := setupRequests }

/-! ## What a successful construction has read -/

theorem bind_eq_ok {ε α β : Type} {x : Except ε α} {f : α → Except ε β} {b : β} :
    x >>= f = .ok b ↔ ∃ a, x = .ok a ∧ f a = .ok b := by
  cases x with
  | error e => simp [bind, Except.bind]
  | ok a => simp [bind, Except.bind]

variable {lib host}

/-- Every setting with the options that it was read from. -/
structure ReadFrom (lib : Library) (options : Options) (r : Started) : Prop where
  sdev : assign options "sdev" .ok (ascii "/dev/serial0") = .ok r.sdev
  baud : assign options "baud" (toUnsigned lib 32) 19200 = .ok r.baud
  udpBindPort : assign options "js_port" (toUnsigned lib 16) 11223 = .ok r.udpBindPort
  pwmRange : assign options "pwmr" (toUnsigned lib 32) 255 = .ok r.pwmRange
  heatTransferKa :
    assign options "ka" (toDouble lib) (.finite (1 / 1000000)) = .ok r.heatTransferKa
  specificHeat : assign options "c" (toDouble lib) (.finite (466 / 1000)) = .ok r.specificHeat
  mass : assign options "m" (toDouble lib) (.finite (6 / 100)) = .ok r.mass
  pwmPower : ∃ before, assign options "p" (toDouble lib) (.finite (12 / 10000)) = .ok before ∧
    assign options "vbat_csv" (toDouble lib) before = .ok r.pwmPower
  vbatCsv : r.vbatCsv = ascii "vbat.csv"

theorem readFrom_of_construct {options : Options} {r : Started}
    (h : construct lib host options = .ok r) : ReadFrom lib options r := by
  simp only [construct, constructSlave, bind_eq_ok] at h
  obtain ⟨_, ⟨sdev, hsdev, baud, hbaud, -, -, hslave⟩, port, hport, range, hrange, ka, hka, heat,
    hheat, mass, hmass, before, hbefore, -, -, -, -, power, hpower, hr⟩ := h
  obtain rfl := Except.ok.inj hslave
  obtain rfl := Except.ok.inj hr
  exact ⟨hsdev, hbaud, hport, hrange, hka, hheat, hmass, ⟨before, hbefore, hpower⟩, rfl⟩

theorem assign_congr {α : Type} {options options' : Options} {name : String}
    {read : List Byte → Except StdError α} {before x x' : α}
    (hsame : options (ascii name) = options' (ascii name))
    (h : assign options name read before = .ok x)
    (h' : assign options' name read before = .ok x') : x = x' := by
  rw [assign, hsame] at h
  exact Except.ok.inj (h.symm.trans h')

theorem assign_of_none {α : Type} {options : Options} {name : String}
    {read : List Byte → Except StdError α} {before x : α} (hnone : options (ascii name) = none)
    (h : assign options name read before = .ok x) : before = x := by
  rw [assign, hnone] at h
  exact Except.ok.inj h

theorem assign_of_some {α : Type} {options : Options} {name : String}
    {read : List Byte → Except StdError α} {before x : α} {value : List Byte}
    (hsome : options (ascii name) = some value)
    (h : assign options name read before = .ok x) : read value = .ok x := by
  rw [assign, hsome] at h
  exact h

/-- A name that begins like no number cannot be given for the log file. -/
theorem ReadFrom.begins {options : Options} {r : Started} (h : ReadFrom lib options r) {c : Byte}
    {name : List Byte} (hgiven : options (ascii "vbat_csv") = some (c :: name)) :
    StrTo.begins c = true := by
  obtain ⟨before, -, hpower⟩ := h.pwmPower
  by_contra hnot
  have herror : toDouble lib (c :: name) = .error (.invalidArgument "stof") :=
    stof_cons_of_not (Bool.eq_false_iff.mpr hnot) lib.roundFloat name
  rw [assign_of_some hgiven hpower] at herror
  simp at herror

/-- Two runs whose settings depend on their own options only, and which open
the log files they were given. -/
structure Independent (options options' : Options) (r r' : Started) : Prop where
  pwmPower : options (ascii "p") = options' (ascii "p") → r.pwmPower = r'.pwmPower
  pwmRange : options (ascii "pwmr") = options' (ascii "pwmr") → r.pwmRange = r'.pwmRange
  heatTransferKa :
    options (ascii "ka") = options' (ascii "ka") → r.heatTransferKa = r'.heatTransferKa
  specificHeat : options (ascii "c") = options' (ascii "c") → r.specificHeat = r'.specificHeat
  mass : options (ascii "m") = options' (ascii "m") → r.mass = r'.mass
  udpBindPort :
    options (ascii "js_port") = options' (ascii "js_port") → r.udpBindPort = r'.udpBindPort
  vbatCsv : options (ascii "vbat_csv") = options' (ascii "vbat_csv") → r.vbatCsv = r'.vbatCsv
  opens : ∀ name, options (ascii "vbat_csv") = some name → r.vbatCsv = name
  opens' : ∀ name, options' (ascii "vbat_csv") = some name → r'.vbatCsv = name

section

variable {options options' : Options} {r r' : Started}

/-- The file is `vbat.csv` whatever is given, and that name itself cannot be given. -/
theorem ReadFrom.vbatCsv_ne (h : ReadFrom lib options r) {name : List Byte}
    (hgiven : options (ascii "vbat_csv") = some name) : r.vbatCsv ≠ name := by
  intro heq
  rw [← heq, h.vbatCsv] at hgiven
  exact absurd (h.begins hgiven) (by decide)

theorem ReadFrom.pwmPower_congr (h : ReadFrom lib options r) (h' : ReadFrom lib options' r')
    (hnone : options (ascii "vbat_csv") = none) (hnone' : options' (ascii "vbat_csv") = none)
    (hsame : options (ascii "p") = options' (ascii "p")) : r.pwmPower = r'.pwmPower := by
  obtain ⟨before, hbefore, hpower⟩ := h.pwmPower
  obtain ⟨before', hbefore', hpower'⟩ := h'.pwmPower
  calc r.pwmPower = before := (assign_of_none hnone hpower).symm
    _ = before' := assign_congr hsame hbefore hbefore'
    _ = r'.pwmPower := assign_of_none hnone' hpower'

theorem ReadFrom.independent (h : ReadFrom lib options r) (h' : ReadFrom lib options' r')
    (hnone : options (ascii "vbat_csv") = none) (hnone' : options' (ascii "vbat_csv") = none) :
    Independent options options' r r' where
  pwmPower := h.pwmPower_congr h' hnone hnone'
  pwmRange hsame := assign_congr hsame h.pwmRange h'.pwmRange
  heatTransferKa hsame := assign_congr hsame h.heatTransferKa h'.heatTransferKa
  specificHeat hsame := assign_congr hsame h.specificHeat h'.specificHeat
  mass hsame := assign_congr hsame h.mass h'.mass
  udpBindPort hsame := assign_congr hsame h.udpBindPort h'.udpBindPort
  vbatCsv _ := h.vbatCsv.trans h'.vbatCsv.symm
  opens name hgiven := by simp [hnone] at hgiven
  opens' name hgiven := by simp [hnone'] at hgiven

/-- The settings of the handlers. -/
structure Uses (r : Started) (c : Config) : Prop where
  pwmRange : r.pwmRange = c.pwmRange
  pwmPower : r.pwmPower = .finite c.pwmPower
  heatTransferKa : r.heatTransferKa = .finite c.heatTransferKa
  specificHeat : r.specificHeat = .finite c.specificHeat
  mass : r.mass = .finite c.mass

/-- Without options the handlers run with the defaults of `Config`. -/
theorem ReadFrom.uses_default (h : ReadFrom lib options r) (hnone : ∀ name, options name = none) :
    Uses r {} := by
  obtain ⟨before, hbefore, hpower⟩ := h.pwmPower
  exact ⟨(assign_of_none (hnone _) h.pwmRange).symm,
    ((assign_of_none (hnone _) hbefore).trans (assign_of_none (hnone _) hpower)).symm,
    (assign_of_none (hnone _) h.heatTransferKa).symm,
    (assign_of_none (hnone _) h.specificHeat).symm, (assign_of_none (hnone _) h.mass).symm⟩

/-- Of two option maps with which the application starts, the settings are
independent and the log files are the ones given if and only if neither map
gives a log file. -/
theorem options_independent_iff {host host' : Host} (h : construct lib host options = .ok r)
    (h' : construct lib host' options' = .ok r') :
    Independent options options' r r' ↔
      options (ascii "vbat_csv") = none ∧ options' (ascii "vbat_csv") = none := by
  have hread := readFrom_of_construct h
  have hread' := readFrom_of_construct h'
  constructor
  · intro hind
    constructor
    · cases hgiven : options (ascii "vbat_csv") with
      | none => rfl
      | some name => exact absurd (hind.opens name hgiven) (hread.vbatCsv_ne hgiven)
    · cases hgiven : options' (ascii "vbat_csv") with
      | none => rfl
      | some name => exact absurd (hind.opens' name hgiven) (hread'.vbatCsv_ne hgiven)
  · rintro ⟨hnone, hnone'⟩
    exact hread.independent hread' hnone hnone'

end

/-- A machine on which every call succeeds. -/
def working : Host := ⟨fun _ _ ↦ .ok (), fun _ ↦ .ok (), .ok ()⟩

/-- An `unsigned long` of 64 bits, and no rounding, as for 0 and 0.5. -/
def exactLibrary : Library := ⟨64, some⟩

def given (name value : String) : Options := fun key ↦
  if key = ascii name then some (ascii value) else none

theorem options_independent_iff_port : ∃ r r',
    construct exactLibrary working (given "js_port" "5000") = .ok r ∧
    construct exactLibrary working (given "m" "0.5") = .ok r' ∧
    Independent (given "js_port" "5000") (given "m" "0.5") r r' := by
  obtain ⟨r, h⟩ : ∃ r, construct exactLibrary working (given "js_port" "5000") = .ok r := ⟨_, rfl⟩
  obtain ⟨r', h'⟩ : ∃ r, construct exactLibrary working (given "m" "0.5") = .ok r := ⟨_, rfl⟩
  exact ⟨r, r', h, h', (options_independent_iff h h').mpr ⟨by decide, by decide⟩⟩

/-- With `--vbat_csv=0` the motor's power constant is 0, and the file is the default one. -/
theorem vbat_csv_sets_power : ¬ ∀ (lib : Library) (host host' : Host) (options options' : Options)
    (r r' : Started), construct lib host options = .ok r → construct lib host' options' = .ok r' →
      Independent options options' r r' := by
  intro hall
  obtain ⟨r, h, hpower⟩ : ∃ r, construct exactLibrary working (fun _ ↦ none) = .ok r ∧
      r.pwmPower = .finite (12 / 10000) := ⟨_, rfl, rfl⟩
  obtain ⟨r', h', hpower'⟩ : ∃ r, construct exactLibrary working (given "vbat_csv" "0") = .ok r ∧
      r.pwmPower = .finite 0 := ⟨_, rfl, by decide +kernel⟩
  have hsame := (hall exactLibrary working working _ _ r r' h h').pwmPower (by decide)
  rw [hpower, hpower'] at hsame
  exact absurd hsame (by decide +kernel)

end Rover.App
