import Rover.App.Monitors
import Rover.Lib.Decimal
import Rover.Lib.Regex
import Rover.Lib.StrTo

/-!
# The wireless table

`handle_timer` reads `/proc/net/wireless` and takes two columns of its third
line.  Where they are no numbers, `std::stoi` throws, and nothing on the way
out of `main` catches it.
-/

namespace Rover.App

open IStream StrTo Regex Messages

def isBlank (c : Byte) : Bool := c = 0x20

/-- `([^ ]+)[ ]+` ten times, and then `([^ ]+)[ ]*`. -/
def wirelessPattern : Expr Byte := columns isBlank 10

def readWirelessLine (line : List Byte) (found : Option (ℤ × ℤ)) :
    Except StdError (Option (ℤ × ℤ)) :=
  match wirelessPattern.search true line with
  | none => .ok found
  | some baseMatch =>
      let cols := baseMatch.text :: baseMatch.groups
      if 4 ≤ cols.length then do
        let wifiQuality ← stoi (cols.getD 3 [])
        let wifiSignal ← stoi (cols.getD 4 [])
        .ok (some (wifiQuality, wifiSignal))
      else .ok found

/-- The loop over the lines, which are numbered from `lineN` on. -/
def readWirelessLines : ℕ → List (List Byte) → Option (ℤ × ℤ) →
    Except StdError (Option (ℤ × ℤ))
  | _, [], found => .ok found
  | lineN, line :: lines, found => do
      let found ← if lineN = 2 then readWirelessLine line found else .ok found
      readWirelessLines (lineN + 1) lines found

def readWireless (file : List Byte) : Except StdError (Option (ℤ × ℤ)) :=
  readWirelessLines 0 (getlines file) none

/-- The last part of `handle_timer`, with the file as it is then. -/
def pollWireless (file : List Byte) (a : MainApp) : Except StdError MainApp :=
  let a := { a with timerCxWlan := a.timerCxWlan + 1 }
  if timerCiWlan ≤ a.timerCxWlan then
    let a := { a with timerCxWlan := 0 }
    match readWireless file with
    | .error e => .error e
    | .ok none => .ok a
    | .ok (some (wifiQuality, wifiSignal)) =>
        .ok { a with wifiQuality := wifiQuality, wifiSignal := wifiSignal }
  else .ok a

/-! ## What a file gives -/

/-- The two values in the columns of a line. -/
def readColumns (cols : List (List Byte)) : Except StdError (Option (ℤ × ℤ)) := do
  let wifiQuality ← stoi (cols.getD 2 [])
  let wifiSignal ← stoi (cols.getD 3 [])
  .ok (some (wifiQuality, wifiSignal))

theorem readWirelessLine_none (line : List Byte) :
    readWirelessLine line none =
      if 10 < (fields isBlank line).length then readColumns (fields isBlank line)
      else .ok none := by
  have hsearch : (wirelessPattern.search true line).map Match.groups = _ :=
    search_columns 10 true line
  rw [readWirelessLine]
  cases hmatch : wirelessPattern.search true line with
  | none =>
      rw [hmatch] at hsearch
      split_ifs at hsearch with hmany
      · simp at hsearch
      · rw [if_neg hmany]
  | some m =>
      rw [hmatch] at hsearch
      split_ifs at hsearch with hmany
      · have hgroups : m.groups = (fields isBlank line).take 11 := Option.some.inj hsearch
        have hcol {k : ℕ} (hk : k < 11) : m.groups.getD k [] = (fields isBlank line).getD k [] := by
          rw [hgroups, List.getD_eq_getElem?_getD, List.getElem?_take_of_lt hk,
            ← List.getD_eq_getElem?_getD]
        have hlen : 4 ≤ (m.text :: m.groups).length := by
          rw [hgroups, List.length_cons, List.length_take]
          omega
        rw [if_pos hmany, readColumns, ← hcol (by decide), ← hcol (by decide)]
        simp only [if_pos hlen, List.getD_cons_succ]
      · simp at hsearch

theorem readWirelessLines_of_gt {lineN : ℕ} (h : 2 < lineN) (lines : List (List Byte))
    (found : Option (ℤ × ℤ)) : readWirelessLines lineN lines found = .ok found := by
  induction lines generalizing lineN with
  | nil => rfl
  | cons line lines ih =>
      rw [readWirelessLines, if_neg (by omega)]
      exact ih (by omega)

/-- Only the third line counts, and only when it has all its columns. -/
theorem readWireless_eq (file : List Byte) :
    readWireless file =
      match (getlines file)[2]? with
      | none => .ok none
      | some line =>
          if 10 < (fields isBlank line).length then readColumns (fields isBlank line)
          else .ok none := by
  rw [readWireless]
  match getlines file with
  | [] => rfl
  | [_] => rfl
  | [_, _] => rfl
  | _ :: _ :: line :: lines =>
      change readWirelessLine line none >>= (fun found ↦ readWirelessLines 3 lines found) = _
      rw [readWirelessLine_none]
      change _ = if _ then _ else _
      generalize (if 10 < (fields isBlank line).length then readColumns (fields isBlank line)
        else Except.ok none) = found
      cases found with
      | error e => rfl
      | ok found => exact readWirelessLines_of_gt (by decide) lines found

/-! ## Exceptions -/

/-- The columns hold numbers of type `int`. -/
def IsNumber (col : List Byte) : Prop := (scan (col.dropWhile isSpace)).Fits 32 true

instance (col : List Byte) : Decidable (IsNumber col) :=
  inferInstanceAs (Decidable (Numeral.Fits ..))

theorem not_isOk_error {α : Type} (e : StdError) :
    ¬ ∃ v, (.error e : Except StdError α) = .ok v := by
  simp

theorem stoi_isOk_iff (col : List Byte) : (∃ v, stoi col = .ok v) ↔ IsNumber col := by
  rw [stoi, IsNumber, Numeral.Fits]
  generalize scan (col.dropWhile isSpace) = n
  by_cases hdigits : n.digits = []
  · rw [if_pos hdigits]
    exact iff_of_false (not_isOk_error _) fun h ↦ h.1 hdigits
  by_cases hlimit : n.limit 32 true < n.value
  · rw [if_neg hdigits, if_pos hlimit]
    exact iff_of_false (not_isOk_error _) fun h ↦ absurd h.2 (not_le.mpr hlimit)
  · rw [if_neg hdigits, if_neg hlimit]
    exact iff_of_true ⟨_, rfl⟩ ⟨hdigits, not_lt.mp hlimit⟩

theorem readColumns_isOk_iff (cols : List (List Byte)) :
    (∃ w, readColumns cols = .ok w) ↔
      IsNumber (cols.getD 2 []) ∧ IsNumber (cols.getD 3 []) := by
  rw [← stoi_isOk_iff, ← stoi_isOk_iff, readColumns]
  cases stoi (cols.getD 2 []) with
  | error e => exact iff_of_false (not_isOk_error e) fun h ↦ not_isOk_error e h.1
  | ok quality =>
      cases stoi (cols.getD 3 []) with
      | error e => exact iff_of_false (not_isOk_error e) fun h ↦ not_isOk_error e h.2
      | ok signal => exact iff_of_true ⟨_, rfl⟩ ⟨⟨_, rfl⟩, _, rfl⟩

/-- A file that `handle_timer` gets through: a third line with all its columns
has numbers in the two that are read. -/
def Readable (file : List Byte) : Prop :=
  ∀ line, (getlines file)[2]? = some line → 10 < (fields isBlank line).length →
    IsNumber ((fields isBlank line).getD 2 []) ∧ IsNumber ((fields isBlank line).getD 3 [])

theorem readWireless_isOk_iff (file : List Byte) :
    (∃ w, readWireless file = .ok w) ↔ Readable file := by
  rw [readWireless_eq, Readable]
  cases (getlines file)[2]? with
  | none => exact iff_of_true ⟨_, rfl⟩ fun line h ↦ by simp at h
  | some line =>
      dsimp only
      split_ifs with hmany
      · rw [readColumns_isOk_iff]
        constructor
        · rintro h line' hline' -
          rwa [← Option.some.inj hline']
        · exact fun h ↦ h line rfl hmany
      · refine iff_of_true ⟨_, rfl⟩ fun line' hline' hmany' ↦ ?_
        rw [← Option.some.inj hline'] at hmany'
        exact absurd hmany' hmany

/-! ## Whole runs -/

/-- What the file adds to the readings. -/
def Readings.withFile (r : Readings) (file : List Byte) : Readings :=
  { r with wireless := (readWireless file).toOption.join }

/-- A message with the readings of its handler, where the file is given as such. -/
abbrev FileMsg := QueueMsg × Readings × List Byte

def FileMsg.plain (x : FileMsg) : QueueMsg × Readings := (x.1, x.2.1.withFile x.2.2)

/-- The parts of `handle_timer` before the wireless table. -/
def beforeWlan (r : Readings) (a : MainApp) : MainApp × List Arduino.Request :=
  let (a, stops) := handleTimerWdt a
  let a := handleTimerThr a
  let a := handleTimerFan r a
  let (a, samples) := handleTimerBatt r a
  (handleTimerSlaveTrx r a, stops ++ samples)

def handleFile (x : FileMsg) (a : MainApp) : Except StdError (MainApp × List Arduino.Request) :=
  match x.1 with
  | .timer _ =>
      let (a, requests) := beforeWlan x.2.1 a
      (pollWireless x.2.2 a).map fun a ↦ (a, requests)
  | m => .ok (handle m x.2.1 a)

/-- The messages one after the other, until an exception ends the program. -/
def runFiles (msgs : List FileMsg) (a : MainApp) :
    Except StdError (MainApp × List Arduino.Request) :=
  msgs.foldlM (fun s x ↦ (handleFile x s.1).map fun t ↦ (t.1, s.2 ++ t.2)) (a, [])

/-- The files as they are at the timer messages. -/
def files (msgs : List FileMsg) : List (List Byte) :=
  msgs.filterMap fun x ↦ match x.1 with | .timer _ => some x.2.2 | _ => none

theorem pollWireless_eq (r : Readings) (file : List Byte) (a : MainApp) :
    pollWireless file a =
      if timerCiWlan ≤ a.timerCxWlan + 1 then
        (readWireless file).map fun w ↦ handleTimerWlan { r with wireless := w } a
      else .ok (handleTimerWlan (r.withFile file) a) := by
  unfold pollWireless handleTimerWlan
  dsimp only
  split_ifs with hdue
  · cases readWireless file with
    | error e => rfl
    | ok w => cases w <;> rfl
  · rfl

theorem handleTimer_eq (r : Readings) (a : MainApp) :
    handleTimer r a = (handleTimerWlan r (beforeWlan r a).1, (beforeWlan r a).2) := by
  unfold handleTimer beforeWlan
  dsimp only

/-- The parts before the wireless table do not look at it. -/
theorem beforeWlan_wireless (r : Readings) (w : Option (ℤ × ℤ)) (a : MainApp) :
    beforeWlan { r with wireless := w } a = beforeWlan r a := by
  unfold beforeWlan handleTimerFan handleTimerBatt handleTimerSlaveTrx
  dsimp only

theorem timerCxWlan_beforeWlan (r : Readings) (a : MainApp) :
    (beforeWlan r a).1.timerCxWlan = a.timerCxWlan := by
  have hwlan : (beforeWlan r a).1.monitors.wlan = a.monitors.wlan := by
    unfold beforeWlan
    dsimp only
    rw [handleTimerSlaveTrx_monitors, handleTimerBatt_monitors, handleTimerFan_monitors,
      handleTimerThr_monitors, handleTimerWdt_monitors]
  have hcx (b : MainApp) : b.timerCxWlan = b.monitors.wlan.1 := rfl
  rw [hcx, hcx, hwlan]

theorem handleFile_timer (time : BitVec 64) (r : Readings) (file : List Byte) (a : MainApp) :
    handleFile (.timer time, r, file) a =
      if timerCiWlan ≤ a.timerCxWlan + 1 then
        (readWireless file).map fun w ↦ handleTimer { r with wireless := w } a
      else .ok (handleTimer (r.withFile file) a) := by
  have hfile : handleFile (.timer time, r, file) a =
      (pollWireless file (beforeWlan r a).1).map fun b ↦ (b, (beforeWlan r a).2) := by
    unfold handleFile
    dsimp only
  have htimer (w : Option (ℤ × ℤ)) : handleTimer { r with wireless := w } a =
      (handleTimerWlan { r with wireless := w } (beforeWlan r a).1, (beforeWlan r a).2) := by
    rw [handleTimer_eq, beforeWlan_wireless]
  rw [hfile, pollWireless_eq r, timerCxWlan_beforeWlan, Readings.withFile, htimer]
  by_cases hdue : timerCiWlan ≤ a.timerCxWlan + 1
  · rw [if_pos hdue, if_pos hdue]
    cases readWireless file with
    | error e => exact Except.map_error ..
    | ok w => exact congrArg Except.ok (htimer w).symm
  · rw [if_neg hdue, if_neg hdue]
    exact Except.map_ok ..

theorem handleFile_isOk_iff (x : FileMsg) (a : MainApp) :
    (∃ t, handleFile x a = .ok t) ↔
      ∀ time, x.1 = .timer time → timerCiWlan ≤ a.timerCxWlan + 1 → Readable x.2.2 := by
  obtain ⟨m, r, file⟩ := x
  cases m with
  | js data => exact iff_of_true ⟨_, rfl⟩ fun time h ↦ by simp at h
  | tty => exact iff_of_true ⟨_, rfl⟩ fun time h ↦ by simp at h
  | timer time =>
      rw [handleFile_timer]
      split_ifs with hdue
      · rw [← readWireless_isOk_iff]
        cases readWireless file with
        | error e =>
            exact iff_of_false (not_isOk_error e) fun h ↦ not_isOk_error e (h time rfl hdue)
        | ok w => exact iff_of_true ⟨_, rfl⟩ fun _ _ _ ↦ ⟨w, rfl⟩
      · exact iff_of_true ⟨_, rfl⟩ fun _ _ h ↦ absurd h hdue

theorem handleFile_eq_handle {x : FileMsg} {a : MainApp} {t : MainApp × List Arduino.Request}
    (h : handleFile x a = .ok t) : t = handle x.plain.1 x.plain.2 a := by
  obtain ⟨m, r, file⟩ := x
  cases m with
  | js data => exact (Except.ok.inj h).symm
  | tty => exact (Except.ok.inj h).symm
  | timer time =>
      rw [handleFile_timer] at h
      have hgoal : handle (FileMsg.plain (.timer time, r, file)).1
          (FileMsg.plain (.timer time, r, file)).2 a = handleTimer (r.withFile file) a := rfl
      rw [hgoal]
      split_ifs at h
      · rw [Readings.withFile]
        cases hread : readWireless file with
        | error e =>
            rw [hread] at h
            exact absurd ⟨_, h⟩ (not_isOk_error e)
        | ok w =>
            rw [hread] at h
            exact (Except.ok.inj h).symm
      · exact (Except.ok.inj h).symm

theorem readings_plain (msgs : List FileMsg) :
    (readings (msgs.map FileMsg.plain)).length = (files msgs).length := by
  induction msgs with
  | nil => rfl
  | cons x msgs ih =>
      obtain ⟨m, r, file⟩ := x
      cases m with
      | js data => exact ih
      | tty => exact ih
      | timer time => exact congrArg Nat.succ ih

theorem runFiles_concat (msgs : List FileMsg) (x : FileMsg) (a : MainApp) :
    runFiles (msgs ++ [x]) a =
      runFiles msgs a >>= fun s ↦ (handleFile x s.1).map fun t ↦ (t.1, s.2 ++ t.2) := by
  rw [runFiles, List.foldlM_append]
  congr 1
  funext s
  rw [List.foldlM_cons]
  simp only [List.foldlM_nil, bind_pure]

theorem files_concat (msgs : List FileMsg) (x : FileMsg) :
    files (msgs ++ [x]) = files msgs ++ match x.1 with | .timer _ => [x.2.2] | _ => [] := by
  rw [files, List.filterMap_append]
  congr 1
  obtain ⟨m, r, file⟩ := x
  cases m <;> rfl

theorem forall_files_concat (P : List Byte → Prop) (msgs : List FileMsg) (x : FileMsg) :
    (∀ file ∈ Sampling.multiples 100 (files (msgs ++ [x])), P file) ↔
      (∀ file ∈ Sampling.multiples 100 (files msgs), P file) ∧
        ∀ time, x.1 = .timer time → 100 ∣ (files msgs).length + 1 → P x.2.2 := by
  obtain ⟨m, r, file⟩ := x
  rw [files_concat]
  cases m with
  | js data => simp
  | tty => simp
  | timer time =>
      rw [Sampling.multiples_concat, List.forall_mem_append]
      refine and_congr_right fun _ ↦ ?_
      split_ifs with hdvd
      · simp [hdvd]
      · simp [hdvd]

section

variable (c : Config) (vbat vbatSlope : ℚ)

/-- Every hundredth timer message reads the file. -/
theorem wlanDue_run (msgs : List FileMsg) :
    timerCiWlan ≤ (run (msgs.map FileMsg.plain) (initial c vbat vbatSlope)).1.timerCxWlan + 1 ↔
      100 ∣ (files msgs).length + 1 := by
  have hrun := congrArg (fun m ↦ m.wlan.1)
    (monitors_run_initial c vbat vbatSlope (msgs.map FileMsg.plain))
  have hcx : (run (msgs.map FileMsg.plain) (initial c vbat vbatSlope)).1.timerCxWlan =
      BitVec.ofNat 32 ((readings (msgs.map FileMsg.plain)).length % 100) := hrun
  rw [hcx, readings_plain, Sampling.le_succ_iff]
  exact Sampling.due_iff_dvd (by decide) _

/-- The main loop gets through the messages if and only if the file can be read
at every hundredth timer message, and it then does what it does with the
readings alone. -/
theorem runFiles_spec (msgs : List FileMsg) :
    ((∃ s, runFiles msgs (initial c vbat vbatSlope) = .ok s) ↔
        ∀ file ∈ Sampling.multiples 100 (files msgs), Readable file) ∧
      ∀ s, runFiles msgs (initial c vbat vbatSlope) = .ok s →
        s = run (msgs.map FileMsg.plain) (initial c vbat vbatSlope) := by
  induction msgs using List.reverseRecOn with
  | nil =>
      refine ⟨iff_of_true ⟨_, rfl⟩ fun file h ↦ absurd h List.not_mem_nil, fun s hs ↦ ?_⟩
      exact (Except.ok.inj hs).symm
  | append_singleton msgs x ih =>
      obtain ⟨hok, heq⟩ := ih
      rw [runFiles_concat, forall_files_concat, ← hok]
      cases hrun : runFiles msgs (initial c vbat vbatSlope) with
      | error e =>
          exact ⟨iff_of_false (not_isOk_error e) fun h ↦ not_isOk_error e h.1,
            fun s hs ↦ absurd ⟨s, hs⟩ (not_isOk_error e)⟩
      | ok s =>
          have hs : s = _ := heq s hrun
          have hstep := handleFile_isOk_iff x s.1
          have hself : ∃ u, (.ok s : Except StdError _) = .ok u := ⟨s, rfl⟩
          rw [hs, wlanDue_run, ← hs] at hstep
          rw [List.map_append, List.map_singleton, run_append, run_cons, run_nil, ← hs,
            and_iff_right hself, ← hstep]
          change ((∃ u, (handleFile x s.1).map _ = .ok u) ↔ _) ∧
            ∀ u, (handleFile x s.1).map _ = .ok u → _
          cases hfile : handleFile x s.1 with
          | error e =>
              exact ⟨iff_of_false (not_isOk_error e) (not_isOk_error e),
                fun u hu ↦ absurd ⟨u, hu⟩ (not_isOk_error e)⟩
          | ok t =>
              refine ⟨iff_of_true ⟨_, rfl⟩ ⟨_, rfl⟩, fun u hu ↦ ?_⟩
              rw [← Except.ok.inj hu, handleFile_eq_handle hfile, List.append_nil]

end

/-! ## The table of the kernel -/

theorem getlines_line {line : List Byte} (h : 0x0a ∉ line) (rest : List Byte) :
    getlines (line ++ 0x0a :: rest) = line :: getlines rest := by
  induction line with
  | nil => rfl
  | cons c line ih =>
      rw [List.mem_cons, not_or] at h
      rw [List.cons_append, getlines, if_neg (Ne.symm h.1), ih h.2]

theorem stoi_intText {l : ℤ} (hl : -2 ^ 31 ≤ l ∧ l < 2 ^ 31) {rest : List Byte}
    (h : Decimal.Ends rest) : stoi (Decimal.intText l ++ rest) = .ok l := by
  obtain ⟨hne, -, hvalue⟩ := Decimal.digits_spec l.natAbs
  have hspace : (Decimal.intText l ++ rest).dropWhile isSpace = Decimal.intText l ++ rest :=
    Decimal.dropWhile_intText l rest
  have hlimit : ¬ (⟨decide (l < 0), Decimal.digits l.natAbs, rest⟩ : Numeral).limit 32 true <
      (⟨decide (l < 0), Decimal.digits l.natAbs, rest⟩ : Numeral).value := by
    simp only [Numeral.value, hvalue, Numeral.limit, if_true, decide_eq_true_eq]
    split_ifs <;> omega
  rw [stoi, hspace, Decimal.scan_intText l h, if_neg hne, if_neg hlimit]
  simp only [Numeral.value, hvalue, decide_eq_true_eq]
  split_ifs
  · exact congrArg Except.ok (by omega)
  · exact congrArg Except.ok (by omega)

/-- A column of the table. -/
structure Word where
  text : List Byte
  ne_nil : text ≠ []
  solid : ∀ c ∈ text, isBlank c = false ∧ c ≠ 0x0a

/-- Columns, each after at least one blank. -/
def cells : List (ℕ × Word) → List Byte
  | [] => []
  | (gap, word) :: rest => List.replicate (gap + 1) 0x20 ++ (word.text ++ cells rest)

/-- The line of a device: its name, its status, the quality and the level of
the signal with the mark that tells whether they are new, and what follows. -/
structure Entry where
  indent : ℕ
  interface : Word
  status : ℕ × Word
  quality : ℤ
  qualityCell : ℕ × Word
  signal : ℤ
  signalCell : ℕ × Word
  others : List (ℕ × Word)
  trailing : ℕ
  quality_range : -2 ^ 31 ≤ quality ∧ quality < 2 ^ 31
  signal_range : -2 ^ 31 ≤ signal ∧ signal < 2 ^ 31
  quality_eq : ∃ mark, Decimal.Ends mark ∧ qualityCell.2.text = Decimal.intText quality ++ mark
  signal_eq : ∃ mark, Decimal.Ends mark ∧ signalCell.2.text = Decimal.intText signal ++ mark
  others_length : 7 ≤ others.length

namespace Entry

def row (e : Entry) : List (ℕ × Word) := e.status :: e.qualityCell :: e.signalCell :: e.others

def text (e : Entry) : List Byte :=
  List.replicate e.indent 0x20 ++
    (e.interface.text ++ (cells e.row ++ List.replicate e.trailing 0x20))

theorem isBlank_replicate (n : ℕ) : ∀ c ∈ List.replicate n (0x20 : Byte), isBlank c = true := by
  intro c hc
  rw [List.eq_of_mem_replicate hc]
  rfl

theorem stops_cells (ws : List (ℕ × Word)) (n : ℕ) :
    Stops (fun c ↦ !isBlank c) (cells ws ++ List.replicate n 0x20) := by
  intro c hc
  have hblank : c = 0x20 := by
    cases ws with
    | nil =>
        rw [cells, List.nil_append] at hc
        exact List.eq_of_mem_replicate (List.mem_of_mem_head? hc)
    | cons w ws =>
        rw [cells, List.replicate_succ] at hc
        exact (Option.some.inj hc).symm
  rw [hblank]
  rfl

theorem fields_cells (ws : List (ℕ × Word)) (n : ℕ) :
    fields isBlank (cells ws ++ List.replicate n 0x20) = ws.map fun w ↦ w.2.text := by
  induction ws with
  | nil =>
      have hnil := fields_append_sep (isBlank_replicate n) []
      rwa [List.append_nil, fields_nil] at hnil
  | cons w ws ih =>
      rw [cells, List.append_assoc, fields_append_sep (isBlank_replicate _), List.append_assoc,
        fields_word w.2.ne_nil (fun c hc ↦ (w.2.solid c hc).1) (stops_cells ws n), ih,
        List.map_cons]

theorem fields_text (e : Entry) :
    fields isBlank e.text = e.interface.text :: e.row.map fun w ↦ w.2.text := by
  rw [text, fields_append_sep (isBlank_replicate _),
    fields_word e.interface.ne_nil (fun c hc ↦ (e.interface.solid c hc).1) (stops_cells _ _),
    fields_cells]

theorem newline_not_mem_replicate (n : ℕ) : (0x0a : Byte) ∉ List.replicate n (0x20 : Byte) := by
  intro h
  exact absurd (List.eq_of_mem_replicate h) (by decide)

theorem newline_not_mem_cells (ws : List (ℕ × Word)) : 0x0a ∉ cells ws := by
  induction ws with
  | nil => exact List.not_mem_nil
  | cons w ws ih =>
      rw [cells, List.mem_append, List.mem_append, not_or, not_or]
      exact ⟨newline_not_mem_replicate _, fun h ↦ (w.2.solid _ h).2 rfl, ih⟩

theorem newline_not_mem_text (e : Entry) : 0x0a ∉ e.text := by
  rw [text, List.mem_append, List.mem_append, List.mem_append, not_or, not_or, not_or]
  exact ⟨newline_not_mem_replicate _, fun h ↦ (e.interface.solid _ h).2 rfl,
    newline_not_mem_cells _, newline_not_mem_replicate _⟩

end Entry

/-- Of a table with two lines of headings, the quality and the signal of the
first device are read, however wide its columns are. -/
theorem readWireless_table {heading heading' : List Byte} (h : 0x0a ∉ heading)
    (h' : 0x0a ∉ heading') (e : Entry) (more : List Byte) :
    readWireless (heading ++ 0x0a :: (heading' ++ 0x0a :: (e.text ++ 0x0a :: more))) =
      .ok (some (e.quality, e.signal)) := by
  have hlen := e.others_length
  obtain ⟨mark, hends, hquality⟩ := e.quality_eq
  obtain ⟨mark', hends', hsignal⟩ := e.signal_eq
  rw [readWireless_eq, getlines_line h, getlines_line h', getlines_line e.newline_not_mem_text]
  change (if 10 < (fields isBlank e.text).length then readColumns (fields isBlank e.text)
    else .ok none) = _
  rw [e.fields_text, if_pos]
  · change (do
      let wifiQuality ← stoi e.qualityCell.2.text
      let wifiSignal ← stoi e.signalCell.2.text
      .ok (some (wifiQuality, wifiSignal))) = _
    rw [hquality, hsignal, stoi_intText e.quality_range hends,
      stoi_intText e.signal_range hends']
    rfl
  · simp only [Entry.row, List.map_cons, List.length_cons, List.length_map]
    omega

def zeroWord : Word := ⟨ascii "0", by decide, by decide⟩

def wlan0 : Entry where
  indent := 1
  interface := ⟨ascii "wlan0:", by decide, by decide⟩
  status := (0, ⟨ascii "0000", by decide, by decide⟩)
  quality := 58
  qualityCell := (2, ⟨ascii "58.", by decide, by decide⟩)
  signal := -52
  signalCell := (1, ⟨ascii "-52.", by decide, by decide⟩)
  others := [(1, ⟨ascii "-256", by decide, by decide⟩), (7, zeroWord), (5, zeroWord), (5, zeroWord),
    (3, ⟨ascii "321", by decide, by decide⟩), (5, zeroWord), (7, zeroWord)]
  trailing := 0
  quality_range := by decide
  signal_range := by decide
  quality_eq := ⟨ascii ".", fun c hc ↦ by obtain rfl : 0x2e = c := Option.some.inj hc; rfl, rfl⟩
  signal_eq := ⟨ascii ".", fun c hc ↦ by obtain rfl : 0x2e = c := Option.some.inj hc; rfl, rfl⟩
  others_length := le_rfl

theorem readWireless_table_wlan0 :
    readWireless (ascii "Inter-|" ++ 0x0a :: (ascii " face |" ++ 0x0a :: (wlan0.text ++ [0x0a]))) =
      .ok (some (58, -52)) :=
  readWireless_table (by decide) (by decide) wlan0 []

end Rover.App
