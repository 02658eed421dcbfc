import Rover.App.Inputs

/-!
# Datagrams

`run_udp` gives the whole buffer to the handler, whatever the size of the
datagram at its start.  So what a short datagram does depends on what earlier
ones left behind it, and on the stack after the buffer.
-/

namespace Rover.App

open Messages IStream

/-! ## What a command line does -/

def ledValue (cmdline : List Byte) (pwm : BitVec 32) : Option (BitVec 32) :=
  if firstWord cmdline = ascii "led" then
    some (((clean (afterWord cmdline)).num 32 false).1.getD pwm)
  else none

theorem handleCmd_eq (cmdline : List Byte) (pwm : BitVec 32) (a : MainApp) :
    handleCmd cmdline pwm a =
      match ledValue cmdline pwm with
      | some value => setLed value a
      | none => { app := a } := by
  obtain ⟨hword, hrest⟩ := word_start cmdline
  by_cases h : firstWord cmdline = ascii "led"
  · have hne : firstWord cmdline ≠ [] := by
      rw [h]
      decide
    simp only [handleCmd, hword, hrest hne, h, ledValue, if_true]
  · simp only [handleCmd, hword, h, ledValue, if_false]

theorem ledValue_eq_of_handleCmd {cmdline cmdline' : List Byte} {pwm pwm' : BitVec 32} {a : MainApp}
    (h : handleCmd cmdline pwm a = handleCmd cmdline' pwm' a) :
    ledValue cmdline pwm = ledValue cmdline' pwm' := by
  rw [handleCmd_eq, handleCmd_eq] at h
  have happ := congrArg (fun o ↦ o.app.ledPwm) h
  have hreq := congrArg (fun o ↦ o.requests.length) h
  cases h₁ : ledValue cmdline pwm with
  | none =>
      cases h₂ : ledValue cmdline' pwm' with
      | none => rfl
      | some value' => simp [h₁, h₂, setLed] at hreq
  | some value =>
      cases h₂ : ledValue cmdline' pwm' with
      | none => simp [h₁, h₂, setLed] at hreq
      | some value' =>
          simp only [h₁, h₂, setLed] at happ
          rw [happ]

/-- A command line that is complete says all that is needed: a `led` command
is followed by something. -/
def Complete (e : List Byte) : Prop := firstWord e = ascii "led" → blank (afterWord e) = false

instance (e : List Byte) : Decidable (Complete e) := inferInstanceAs (Decidable (_ → _))

theorem complete_iff (e : List Byte) :
    Complete e ↔ ∀ pwm pwm', ledValue e pwm = ledValue e pwm' := by
  by_cases h : firstWord e = ascii "led"
  · simp only [Complete, h, true_imp_iff, ledValue, if_true]
    cases hb : blank (afterWord e) with
    | false => simp [num_clean hb]
    | true =>
        rw [num_clean_of_blank hb]
        simp only [Bool.true_eq_false, Option.getD_none, Option.some.injEq, false_iff]
        intro hall
        exact absurd (hall 0 1) (by decide)
  · simp [Complete, h, ledValue]

/-- The command at the start of a longer line is settled by these bytes: the
first word is there and is not `led`, or cannot become `led`, or its number is
there and ends before them or is too large for more digits to matter. -/
def Settled (d : List Byte) : Prop :=
  (afterWord d = [] → ¬ firstWord d <+: ascii "led") ∧
    (afterWord d ≠ [] → firstWord d = ascii "led" → blank (afterWord d) = false ∧
      ((scan ((afterWord d).dropWhile isSpace)).rest ≠ [] ∨
        (scan ((afterWord d).dropWhile isSpace)).Saturated 32))

instance (d : List Byte) : Decidable (Settled d) := inferInstanceAs (Decidable (_ ∧ _))

theorem num_append_of_settled {r : List Byte} (hblank : blank r = false)
    (h : (scan (r.dropWhile isSpace)).rest ≠ [] ∨ (scan (r.dropWhile isSpace)).Saturated 32)
    (more : List Byte) :
    ((clean (r ++ more)).num 32 false).1 =
      some ((scan (r.dropWhile isSpace)).result 32 false) := by
  have hne : r.dropWhile isSpace ≠ [] := by simpa [blank] using hblank
  have hdrop := dropWhile_append_of_ne_nil hne more
  have hblank' : blank (r ++ more) = false := by
    rw [blank, hdrop]
    simp [hne]
  rw [num_clean hblank', hdrop]
  by_cases hrest : (scan (r.dropWhile isSpace)).rest = []
  · have hsat := h.resolve_left fun hn ↦ hn hrest
    rw [scan_append_of_end hne hrest, Numeral.result_of_saturated (by decide) hsat,
      Numeral.result_of_saturated (by decide) (hsat.append _ _)]
  · rw [scan_append_of_rest hrest]
    rfl

theorem ledValue_append_of_settled {d : List Byte} (h : Settled d) (more more' : List Byte)
    (pwm pwm' : BitVec 32) : ledValue (d ++ more) pwm = ledValue (d ++ more') pwm' := by
  by_cases hend : afterWord d = []
  · -- the word goes on, but cannot become `led`
    have hnot := h.1 hend
    have hne : firstWord d ≠ [] := by
      intro hnil
      rw [hnil] at hnot
      exact hnot List.nil_prefix
    have hnone (more : List Byte) (pwm : BitVec 32) : ledValue (d ++ more) pwm = none := by
      have hword : firstWord (d ++ more) ≠ ascii "led" := by
        rw [(word_append_of_end hne hend more).1]
        intro heq
        exact hnot ⟨_, heq⟩
      rw [ledValue, if_neg hword]
    rw [hnone, hnone]
  · obtain ⟨hword, hafter⟩ := word_append_of_after hend more
    obtain ⟨hword', hafter'⟩ := word_append_of_after hend more'
    by_cases hled : firstWord d = ascii "led"
    · obtain ⟨hblank, hnum⟩ := h.2 hend hled
      simp only [ledValue, hword, hword', hafter, hafter', hled, if_true,
        num_append_of_settled hblank hnum, Option.getD_some]
    · simp only [ledValue, hword, hword', hled, if_false]

theorem ledValue_completed {d : List Byte} (hend : afterWord d = []) {s : List Byte}
    (h : firstWord d ++ s = ascii "led") (pwm : BitVec 32) :
    ledValue (d ++ (s ++ ascii " 1")) pwm = some 1 := by
  obtain ⟨hword, hafter⟩ : firstWord (d ++ (s ++ ascii " 1")) = ascii "led" ∧
      afterWord (d ++ (s ++ ascii " 1")) = ascii " 1" := by
    by_cases hne : firstWord d = []
    · obtain ⟨hword, hafter⟩ := word_append_of_blank (blank_of_firstWord hne) (s ++ ascii " 1")
      rw [hne, List.nil_append] at h
      rw [hword, hafter, h]
      exact ⟨by decide, by decide⟩
    · obtain ⟨hword, hafter⟩ := word_append_of_end hne hend (s ++ ascii " 1")
      have hs : s.dropWhile (!isSpace ·) = [] := by
        rw [List.dropWhile_eq_nil_iff]
        intro c hc
        have hmem : c ∈ ascii "led" := h ▸ List.mem_append_right _ hc
        have hall : ∀ c ∈ ascii "led", (!isSpace c) = true := by decide
        exact hall c hmem
      obtain ⟨htake, hdrop, -⟩ := append_of_dropWhile_eq_nil hs (ascii " 1")
      have hend' : (ascii " 1").takeWhile (!isSpace ·) = [] := by decide
      rw [hword, hafter, htake, hdrop, hend', List.append_nil]
      exact ⟨h, by decide⟩
  have hnum : ((clean (ascii " 1")).num 32 false).1 = some 1 := by decide
  rw [ledValue, if_pos hword, hafter, hnum, Option.getD_some]

theorem settled_of_ledValue {d : List Byte}
    (h : ∀ more more', (0 : Byte) ∉ more → (0 : Byte) ∉ more' → ∀ pwm pwm',
      ledValue (d ++ more) pwm = ledValue (d ++ more') pwm') : Settled d := by
  have hnil : (0 : Byte) ∉ ([] : List Byte) := List.not_mem_nil
  refine ⟨fun hend hpre ↦ ?_, fun hend hled ↦ ?_⟩
  · obtain ⟨s, hs⟩ := hpre
    have hzero : (0 : Byte) ∉ s ++ ascii " 1" := by
      intro hmem
      rcases List.mem_append.mp hmem with hmem | hmem
      · have hled : (0 : Byte) ∈ ascii "led" := hs ▸ List.mem_append_right _ hmem
        exact absurd hled (by decide)
      · exact absurd hmem (by decide)
    have heq := h [] (s ++ ascii " 1") hnil hzero 0 0
    rw [ledValue_completed hend hs, List.append_nil] at heq
    by_cases hled : firstWord d = ascii "led"
    · rw [ledValue, if_pos hled, hend, num_clean_of_blank rfl] at heq
      exact absurd heq (by decide)
    · rw [ledValue, if_neg hled] at heq
      exact absurd heq (by simp)
  · have hblank : blank (afterWord d) = false := by
      refine (complete_iff d).mpr (fun pwm pwm' ↦ ?_) hled
      simpa using h [] [] hnil hnil pwm pwm'
    refine ⟨hblank, ?_⟩
    by_contra hnot
    obtain ⟨hrest, hsat⟩ := not_or.mp hnot
    rw [not_not] at hrest
    have hne : (afterWord d).dropWhile isSpace ≠ [] := by simpa [blank] using hblank
    -- one more digit changes the number
    have heq := h [] (ascii "1") hnil (by decide) 0 0
    obtain ⟨hword, hafter⟩ := word_append_of_after hend (ascii "1")
    have hblank' : blank (afterWord d ++ ascii "1") = false := by
      rw [blank, dropWhile_append_of_ne_nil hne]
      simp [hne]
    rw [ledValue, ledValue, List.append_nil, hword, hafter, if_pos hled, if_pos hled,
      num_clean hblank, num_clean hblank', dropWhile_append_of_ne_nil hne,
      scan_append_of_end hne hrest] at heq
    exact Numeral.result_ne_of_not_saturated (by decide) hsat _ (Option.some.inj heq)

/-! ## What a datagram does -/

/-- The bytes of a datagram decide what it does, whatever is in memory behind
them. -/
structure SelfContained (d : List Byte) : Prop where
  ne_nil : d ≠ []
  digits : isDigit (d.getD 0 0) = true → 16 ≤ d.length
  terminated : isDigit (d.getD 0 0) = false → 0 ∈ d → Complete (d.takeWhile (· ≠ 0))
  unterminated : isDigit (d.getD 0 0) = false → 0 ∉ d → Settled d

theorem not_isDigit (c : Byte) :
    (decide (c.toNat < 0x30) || decide (0x39 < c.toNat)) = !isDigit c := by
  simp only [isDigit, Bool.not_and, ← decide_not, not_le]

theorem handleUdp_of_digit {data : List Byte} (h : isDigit (data.getD 0 0) = true)
    (pwm : BitVec 32) (a : MainApp) :
    handleUdp data pwm a = { app := a, queued := [.js (jsOfDatagram data)] } := by
  rw [handleUdp, not_isDigit, h]
  rfl

theorem handleUdp_of_not_digit {data : List Byte} (h : isDigit (data.getD 0 0) = false)
    (pwm : BitVec 32) (a : MainApp) :
    handleUdp data pwm a = handleCmd (data.takeWhile (· ≠ 0)) pwm a := by
  rw [handleUdp, not_isDigit, h]
  rfl

theorem getD_zero_append {d : List Byte} (h : d ≠ []) (t : List Byte) :
    (d ++ t).getD 0 0 = d.getD 0 0 := by
  obtain ⟨c, d, rfl⟩ := List.exists_cons_of_ne_nil h
  rfl

theorem takeWhile_append_of_mem {d : List Byte} (h : 0 ∈ d) (t : List Byte) :
    (d ++ t).takeWhile (· ≠ 0) = d.takeWhile (· ≠ 0) := by
  refine takeWhile_append_of_ne_nil (fun hnil ↦ ?_) t
  have hall := List.dropWhile_eq_nil_iff.mp hnil 0 h
  simp at hall

theorem takeWhile_append_of_not_mem {d : List Byte} (h : 0 ∉ d) (t : List Byte) :
    (d ++ t).takeWhile (· ≠ 0) = d ++ t.takeWhile (· ≠ 0) := by
  refine (append_of_dropWhile_eq_nil ?_ t).1
  rw [List.dropWhile_eq_nil_iff]
  intro c hc
  have hne : c ≠ 0 := fun heq ↦ h (heq ▸ hc)
  simpa using hne

theorem takeWhile_zeros {more : List Byte} (h : 0 ∉ more) (n : ℕ) :
    (more ++ List.replicate (n + 1) 0).takeWhile (· ≠ 0) = more := by
  rw [takeWhile_append_of_not_mem h, List.replicate_succ, List.takeWhile_cons]
  simp

theorem fourDigits_append {d : List Byte} {i : ℕ} (h : i + 4 ≤ d.length) (t : List Byte) :
    fourDigits (d ++ t) i = fourDigits d i := by
  have hget (k : ℕ) (hk : k < 4) : (d ++ t).getD (i + k) 0 = d.getD (i + k) 0 :=
    List.getD_append _ _ _ _ (by omega)
  simp only [fourDigits, hget 0 (by omega), hget 1 (by omega), hget 2 (by omega),
    hget 3 (by omega)]

theorem handleUdp_append_of_selfContained {d : List Byte} (h : SelfContained d) (t t' : List Byte)
    (pwm pwm' : BitVec 32) (a : MainApp) :
    handleUdp (d ++ t) pwm a = handleUdp (d ++ t') pwm' a := by
  have hfirst := getD_zero_append h.ne_nil t
  have hfirst' := getD_zero_append h.ne_nil t'
  cases hd : isDigit (d.getD 0 0) with
  | true =>
      have hlen := h.digits hd
      have hjs (t : List Byte) : jsOfDatagram (d ++ t) = jsOfDatagram d := by
        simp only [jsOfDatagram]
        rw [fourDigits_append (by omega), fourDigits_append (by omega),
          fourDigits_append (by omega), fourDigits_append (by omega)]
      rw [handleUdp_of_digit (by rw [hfirst, hd]), handleUdp_of_digit (by rw [hfirst', hd]), hjs,
        hjs]
  | false =>
      rw [handleUdp_of_not_digit (by rw [hfirst, hd]),
        handleUdp_of_not_digit (by rw [hfirst', hd])]
      by_cases hzero : (0 : Byte) ∈ d
      · rw [takeWhile_append_of_mem hzero, takeWhile_append_of_mem hzero, handleCmd_eq,
          handleCmd_eq, (complete_iff _).mp (h.terminated hd hzero) pwm pwm']
      · rw [takeWhile_append_of_not_mem hzero, takeWhile_append_of_not_mem hzero, handleCmd_eq,
          handleCmd_eq, ledValue_append_of_settled (h.unterminated hd hzero) _ _ pwm pwm']

def behind (more : List Byte) : List Byte := more ++ List.replicate (1023 + 1) 0

theorem fourDigits_ne {data data' : List Byte} {i n : ℕ} (hn : i ≤ n ∧ n < i + 4)
    (h0 : data.getD n 0 = 0) (h1 : data'.getD n 0 = 1)
    (hsame : ∀ j ≠ n, data.getD j 0 = data'.getD j 0) : fourDigits data i ≠ fourDigits data' i := by
  intro heq
  have hcase : n = i + 0 ∨ n = i + 1 ∨ n = i + 2 ∨ n = i + 3 := by omega
  rcases hcase with hk | hk | hk | hk
  · rw [hk] at h0 h1
    simp only [fourDigits, h0, h1, hsame (i + 1) (by omega), hsame (i + 2) (by omega),
      hsame (i + 3) (by omega)] at heq
    grind
  · rw [hk] at h0 h1
    simp only [fourDigits, h0, h1, hsame (i + 0) (by omega), hsame (i + 2) (by omega),
      hsame (i + 3) (by omega)] at heq
    grind
  · rw [hk] at h0 h1
    simp only [fourDigits, h0, h1, hsame (i + 0) (by omega), hsame (i + 1) (by omega),
      hsame (i + 3) (by omega)] at heq
    grind
  · rw [hk] at h0 h1
    simp only [fourDigits, h0, h1, hsame (i + 0) (by omega), hsame (i + 1) (by omega),
      hsame (i + 2) (by omega)] at heq
    grind

theorem jsOfDatagram_ne {d : List Byte} (h : d.length < 16) :
    jsOfDatagram (d ++ behind [0]) ≠ jsOfDatagram (d ++ behind [1]) := by
  have hat (b : Byte) : (d ++ behind [b]).getD d.length 0 = b := by
    rw [List.getD_append_right _ _ _ _ le_rfl, Nat.sub_self]
    rfl
  have hsame : ∀ j ≠ d.length, (d ++ behind [0]).getD j 0 = (d ++ behind [1]).getD j 0 := by
    intro j hj
    rcases Nat.lt_or_gt_of_ne hj with hlt | hgt
    · rw [List.getD_append _ _ _ _ hlt, List.getD_append _ _ _ _ hlt]
    · rw [List.getD_append_right _ _ _ _ hgt.le, List.getD_append_right _ _ _ _ hgt.le]
      obtain ⟨k, hk⟩ : ∃ k, j - d.length = k + 1 := ⟨j - d.length - 1, by omega⟩
      rw [hk]
      rfl
  have hne (i : ℕ) (hi : i ≤ d.length ∧ d.length < i + 4) :=
    fourDigits_ne hi (hat 0) (hat 1) hsame
  intro heq
  simp only [jsOfDatagram, JsData.mk.injEq, BitVec.sub_left_inj] at heq
  obtain ⟨hlx, hrx, hly, hry⟩ := heq
  rcases (by omega : d.length < 4 ∨ 4 ≤ d.length ∧ d.length < 8 ∨
    8 ≤ d.length ∧ d.length < 12 ∨ 12 ≤ d.length) with hd | hd | hd | hd
  · exact hne 0 (by omega) hlx
  · exact hne 4 (by omega) hly
  · exact hne 8 (by omega) hrx
  · exact hne 12 (by omega) hry

theorem selfContained_of_handleUdp {d : List Byte}
    (h : ∀ more more' pwm pwm' a,
      handleUdp (d ++ behind more) pwm a = handleUdp (d ++ behind more') pwm' a) :
    SelfContained d := by
  have hcmd (hne : d ≠ []) (hd : isDigit (d.getD 0 0) = false) (more more' : List Byte)
      (pwm pwm' : BitVec 32) :
      ledValue ((d ++ behind more).takeWhile (· ≠ 0)) pwm =
        ledValue ((d ++ behind more').takeWhile (· ≠ 0)) pwm' := by
    have heq := h more more' pwm pwm' (initial {} 0 0)
    rw [handleUdp_of_not_digit (by rw [getD_zero_append hne, hd]),
      handleUdp_of_not_digit (by rw [getD_zero_append hne, hd])] at heq
    exact ledValue_eq_of_handleCmd heq
  have hne : d ≠ [] := by
    rintro rfl
    have heq := h [] (ascii "led 1") 0 0 (initial {} 0 0)
    exact absurd (congrArg (fun o ↦ o.requests) heq) (by decide +kernel)
  refine ⟨hne, fun hd ↦ ?_, fun hd hzero ↦ ?_, fun hd hzero ↦ ?_⟩
  · by_contra hlen
    have heq := h [0] [1] 0 0 (initial {} 0 0)
    rw [handleUdp_of_digit (by rw [getD_zero_append hne, hd]),
      handleUdp_of_digit (by rw [getD_zero_append hne, hd])] at heq
    have hjs := congrArg (fun o ↦ o.queued) heq
    simp only [List.cons.injEq, QueueMsg.js.injEq, and_true] at hjs
    exact jsOfDatagram_ne (by omega) hjs
  · refine (complete_iff _).mpr fun pwm pwm' ↦ ?_
    have heq := hcmd hne hd [] [] pwm pwm'
    rwa [takeWhile_append_of_mem hzero] at heq
  · refine settled_of_ledValue fun more more' hmore hmore' pwm pwm' ↦ ?_
    have heq := hcmd hne hd more more' pwm pwm'
    rwa [takeWhile_append_of_not_mem hzero, takeWhile_append_of_not_mem hzero, behind, behind,
      takeWhile_zeros hmore, takeWhile_zeros hmore'] at heq

/-! ## One round of `run_udp` -/

theorem memory_recvfrom {received : Option (List Byte)}
    (hlen : (received.getD []).length ≤ 1024) (s : UdpStack) :
    (s.recvfrom received).rcvRawBuffer ++ (s.recvfrom received).beyond =
      received.getD [] ++
        (s.rcvRawBuffer.drop (received.getD []).length ++ s.beyond) := by
  cases received with
  | none => rfl
  | some d =>
      have hd : d.length ≤ 1024 := hlen
      have hsize := s.size_eq
      have htake : (d ++ s.rcvRawBuffer.drop d.length).take 1024 =
          d ++ s.rcvRawBuffer.drop d.length := by
        apply List.take_of_length_le
        rw [List.length_append, List.length_drop]
        omega
      simp only [UdpStack.recvfrom, htake, List.append_assoc, Option.getD_some]

theorem exists_stack {n : ℕ} (hn : n ≤ 1024) (more : List Byte) :
    ∃ s : UdpStack, s.rcvRawBuffer.drop n ++ s.beyond = behind more := by
  refine ⟨⟨List.replicate n 0 ++ (behind more).take (1024 - n), (behind more).drop (1024 - n), ?_⟩,
    ?_⟩
  · simp only [behind, List.length_append, List.length_take, List.length_replicate]
    omega
  · simp

/-- What two handlings have in common that do the same to two applications. -/
structure SameEffect (a a' : MainApp) (o o' : Outcome) : Prop where
  queued : o.queued = o'.queued
  requests : o.requests = o'.requests
  app : ∃ led : Option (BitVec 32), o.app = { a with ledPwm := led.getD a.ledPwm } ∧
    o'.app = { a' with ledPwm := led.getD a'.ledPwm }

theorem SameEffect.eq {a : MainApp} {o o' : Outcome} (h : SameEffect a a o o') : o = o' := by
  obtain ⟨led, happ, happ'⟩ := h.app
  cases o
  cases o'
  rw [Outcome.mk.injEq]
  exact ⟨happ.trans happ'.symm, h.requests, h.queued⟩

/-- The handler does not look at the application. -/
theorem sameEffect_handleUdp (data : List Byte) (pwm : BitVec 32) (a a' : MainApp) :
    SameEffect a a' (handleUdp data pwm a) (handleUdp data pwm a') := by
  cases hd : isDigit (data.getD 0 0) with
  | true =>
      rw [handleUdp_of_digit hd, handleUdp_of_digit hd]
      exact ⟨rfl, rfl, none, rfl, rfl⟩
  | false =>
      rw [handleUdp_of_not_digit hd, handleUdp_of_not_digit hd, handleCmd_eq, handleCmd_eq]
      cases ledValue (data.takeWhile (· ≠ 0)) pwm with
      | none => exact ⟨rfl, rfl, none, rfl, rfl⟩
      | some value => exact ⟨rfl, rfl, some value, rfl, rfl⟩

/-- What `run_udp` does in a round does not depend on the earlier rounds, nor
on what the stack held or the application has come to. -/
def HistoryIndependent (received : Option (List Byte)) : Prop :=
  ∀ (s s' : UdpStack) (history history' : List (Option (List Byte))) pwm pwm' a a',
    SameEffect a a' (runUdp received (s.after history) pwm a)
      (runUdp received (s'.after history') pwm' a')

/-- A round of `run_udp` is determined by the datagram exactly when the
datagram is self-contained; an empty one and an error never are. -/
theorem historyIndependent_iff (received : Option (List Byte))
    (hlen : (received.getD []).length ≤ 1024) :
    HistoryIndependent received ↔ SelfContained (received.getD []) := by
  constructor
  · intro h
    refine selfContained_of_handleUdp fun more more' pwm pwm' a ↦ ?_
    obtain ⟨s, hs⟩ := exists_stack hlen more
    obtain ⟨s', hs'⟩ := exists_stack hlen more'
    have heq := (h s s' [] [] pwm pwm' a a).eq
    simp only [runUdp, UdpStack.after, List.foldl_nil] at heq
    rwa [memory_recvfrom hlen, memory_recvfrom hlen, hs, hs'] at heq
  · intro h s s' history history' pwm pwm' a a'
    simp only [runUdp]
    rw [memory_recvfrom hlen, memory_recvfrom hlen,
      handleUdp_append_of_selfContained h _ _ pwm pwm']
    exact sameEffect_handleUdp _ pwm' a a'

def restDatagram : List Byte := ascii "1500150015001500"

theorem historyIndependent_restDatagram : HistoryIndependent (some restDatagram) :=
  (historyIndependent_iff (some restDatagram) (by decide)).mpr
    ⟨by decide, by decide, by decide, by decide⟩

def blankStack : UdpStack := ⟨List.replicate 1024 0, [], List.length_replicate⟩

/-- After a datagram that drives at full speed, an error of `recvfrom` and an
empty datagram drive again; after nothing they do nothing. -/
theorem recvfrom_error_repeats :
    (runUdp none (blankStack.after [some (ascii "1500200015002000")]) 0 (initial {} 0 0)).queued =
        [.js { leftY := 500, rightY := 500 }] ∧
      (runUdp (some []) (blankStack.after [some (ascii "1500200015002000")]) 0
        (initial {} 0 0)).queued = [.js { leftY := 500, rightY := 500 }] ∧
      (runUdp none (blankStack.after []) 0 (initial {} 0 0)).queued = [] ∧
      (runUdp (some []) (blankStack.after []) 0 (initial {} 0 0)).queued = [] ∧
      ¬ HistoryIndependent none ∧ ¬ HistoryIndependent (some []) := by
  have hnone : (runUdp none (blankStack.after [some (ascii "1500200015002000")]) 0
      (initial {} 0 0)).queued = [.js { leftY := 500, rightY := 500 }] := by decide +kernel
  have hempty : (runUdp (some []) (blankStack.after [some (ascii "1500200015002000")]) 0
      (initial {} 0 0)).queued = [.js { leftY := 500, rightY := 500 }] := by decide +kernel
  have hnone' : (runUdp none (blankStack.after []) 0 (initial {} 0 0)).queued = [] := by
    decide +kernel
  have hempty' : (runUdp (some []) (blankStack.after []) 0 (initial {} 0 0)).queued = [] := by
    decide +kernel
  refine ⟨hnone, hempty, hnone', hempty', fun h ↦ ?_, fun h ↦ ?_⟩
  · have heq := h blankStack blankStack [some (ascii "1500200015002000")] [] 0 0 (initial {} 0 0)
      (initial {} 0 0)
    rw [heq.queued, hnone'] at hnone
    exact absurd hnone (by decide)
  · have heq := h blankStack blankStack [some (ascii "1500200015002000")] [] 0 0 (initial {} 0 0)
      (initial {} 0 0)
    rw [heq.queued, hempty'] at hempty
    exact absurd hempty (by decide)

end Rover.App
