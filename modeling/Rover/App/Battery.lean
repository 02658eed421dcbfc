import Rover.App.Monitors
import Rover.App.Watchdog
import Rover.Filter.Average

/-!
# The battery

Every sample of the battery goes through a short and a long moving average.
The voltage reported is the short one, the slope is taken between two values of
the long one, and the log gets a row of it whenever the second has changed.
-/

namespace Rover.Dsp.AveragingFilter

theorem window_append (n : ℕ) {inputs : List ℚ} {k : ℕ} (hk : k < inputs.length) (more : List ℚ) :
    window n (inputs ++ more) k = window n inputs k := by
  have hk' : k < (inputs ++ more).length := by
    rw [List.length_append]
    omega
  rw [← window_take n hk, ← window_take n hk', List.take_append_of_le_length hk]

/-! ## Where the slope looks in a ring of 250 -/

/-- The call whose value `last` returns, when the fill counts as the first. -/
def call (n m : ℕ) (r : ℤ) : ℕ :=
  if slot n m r < m then Cyclic.latest n m (slot n m r) else 0

theorem call_lt {n m : ℕ} {r : ℤ} (hn : 0 < n) (hm : 0 < m) : call n m r < m := by
  unfold call
  split_ifs with hslot
  · exact (Cyclic.latest_spec (Nat.mod_lt _ hn) hslot).1
  · exact hm

theorem mean_replicate {n : ℕ} (hn : 0 < n) (x : ℚ) : mean (List.replicate n x) = x := by
  have hne : (n : ℚ) ≠ 0 := by exact_mod_cast hn.ne'
  rw [mean, List.sum_replicate, List.length_replicate, nsmul_eq_mul, mul_div_cancel_left₀ x hne]

/-- In exact arithmetic the first call returns the fill. -/
theorem last_feedAll_call {n : BitVec 32} (hn : 0 < n.toNat) {inputs : List ℚ} (hne : inputs ≠ [])
    (r : BitVec 32) :
    last r (feedAll inputs (ofSize n)).2 =
      (feedAll inputs (ofSize n)).1.getD (call n.toNat inputs.length r.toInt) 0 := by
  rw [last_feedAll hn hne, call]
  split_ifs
  · rfl
  · obtain ⟨x, inputs, rfl⟩ := List.exists_cons_of_ne_nil hne
    exact ((feed_first n x).trans (mean_replicate hn x)).symm

theorem call_zero_of_dvd {m : ℕ} (hm : 0 < m) (h : 250 ∣ m) : call 250 m 0 = m - 205 := by
  have hplace : place 250 m 0 = -1 := by
    unfold place
    omega
  have hslot : slot 250 m 0 = 45 := by
    rw [slot, hplace]
    rfl
  rw [call, hslot, if_pos (by omega)]
  exact Cyclic.latest_eq (by omega) (by omega) (by omega)

theorem call_zero_of_not_dvd {m : ℕ} (h : ¬ 250 ∣ m) : call 250 m 0 = m - 1 := by
  have hplace : place 250 m 0 = ((m % 250 - 1 : ℕ) : ℤ) := by
    unfold place
    omega
  have hslot : slot 250 m 0 = m % 250 - 1 := by
    rw [slot, hplace]
    omega
  rw [call, hslot, if_pos (by omega)]
  exact Cyclic.latest_eq (by omega) (by omega) (by omega)

theorem call_sixty_of_lt {m : ℕ} (h : 60 < m % 250) : call 250 m (-60) = m - 61 := by
  have hplace : place 250 m (-60) = ((m % 250 - 61 : ℕ) : ℤ) := by
    unfold place
    omega
  have hslot : slot 250 m (-60) = m % 250 - 61 := by
    rw [slot, hplace]
    omega
  rw [call, hslot, if_pos (by omega)]
  exact Cyclic.latest_eq (by omega) (by omega) (by omega)

/-- The remainder of the `unsigned` index by 250 is that of a place 46 slots further on. -/
theorem call_sixty_of_le {m : ℕ} (h : m % 250 ≤ 60) : call 250 m (-60) = m - 15 := by
  have hslot : slot 250 m (-60) = (m % 250 + 235) % 250 := by
    unfold slot place
    omega
  rw [call, hslot]
  split_ifs
  · exact Cyclic.latest_eq (by omega) (by omega) (by omega)
  · omega

end Rover.Dsp.AveragingFilter

namespace Rover.App

open Arduino Dsp AveragingFilter Sampling

/-- The voltages of the samples. -/
def volts (samples : List Readings) : List ℚ := samples.map fun r ↦ voltage r.rawBatt

/-- The value of the long average at sample `j`. -/
def smooth (samples : List Readings) (j : ℕ) : ℚ := mean (window 250 (volts samples) j)

/-! ## The log -/

/-- The second of the sample before number `j`; before the first one it is 0. -/
def secondBefore (samples : List Readings) (j : ℕ) : ℤ :=
  (0 :: samples.map Readings.sEpoch).getD j 0

/-- A row for every sample in another second than the sample before. -/
def rows (samples : List Readings) : List (ℤ × ℚ × ℚ) :=
  (List.range samples.length).filterMap fun j ↦
    if secondBefore samples j ≠ secondBefore samples (j + 1) then
      some (secondBefore samples (j + 1), (volts samples).getD j 0, smooth samples j)
    else none

theorem length_volts (samples : List Readings) : (volts samples).length = samples.length :=
  List.length_map _

theorem volts_append (xs ys : List Readings) : volts (xs ++ ys) = volts xs ++ volts ys :=
  List.map_append

section

variable (samples : List Readings) (r : Readings)

theorem smooth_append {j : ℕ} (hj : j < samples.length) :
    smooth (samples ++ [r]) j = smooth samples j := by
  rw [smooth, volts_append, window_append _ (by rwa [length_volts]), smooth]

theorem secondBefore_append {j : ℕ} (hj : j ≤ samples.length) :
    secondBefore (samples ++ [r]) j = secondBefore samples j := by
  rw [secondBefore, secondBefore, List.map_append, ← List.cons_append]
  exact List.getD_append _ _ _ _ (by rw [List.length_cons, List.length_map]; omega)

theorem secondBefore_concat : secondBefore (samples ++ [r]) (samples.length + 1) = r.sEpoch := by
  rw [secondBefore, List.map_append, ← List.cons_append,
    List.getD_append_right _ _ _ _ (by rw [List.length_cons, List.length_map])]
  simp

theorem rows_concat :
    rows (samples ++ [r]) =
      rows samples ++
        if secondBefore samples samples.length ≠ r.sEpoch then
          [(r.sEpoch, voltage r.rawBatt, smooth (samples ++ [r]) samples.length)]
        else [] := by
  have hlen : (samples ++ [r]).length = samples.length + 1 := by simp
  have hlast : (volts (samples ++ [r])).getD samples.length 0 = voltage r.rawBatt := by
    rw [volts_append, List.getD_append_right _ _ _ _ (length_volts samples).le, length_volts,
      Nat.sub_self]
    rfl
  rw [rows, hlen, List.range_succ, List.filterMap_append]
  congr 1
  · refine List.filterMap_congr fun j hj ↦ ?_
    have hlt := List.mem_range.mp hj
    rw [secondBefore_append samples r hlt.le, secondBefore_append samples r hlt,
      smooth_append samples r hlt, volts_append,
      List.getD_append _ _ _ _ (by rwa [length_volts])]
  · rw [List.filterMap_cons, List.filterMap_nil, secondBefore_append samples r le_rfl,
      secondBefore_concat, hlast]
    split_ifs <;> rfl

/-- The second of the last row is that of the last sample, and no two rows in
a row are of the same second. -/
theorem rows_seconds :
    (0 :: (rows samples).map Prod.fst).getLast? = some (secondBefore samples samples.length) ∧
      (0 :: (rows samples).map Prod.fst).IsChain (· ≠ ·) := by
  induction samples using List.reverseRecOn with
  | nil => exact ⟨rfl, .singleton 0⟩
  | append_singleton samples r ih =>
      obtain ⟨hlast, hchain⟩ := ih
      rw [rows_concat, List.map_append, ← List.cons_append, List.length_append,
        List.length_singleton, secondBefore_concat]
      split_ifs with hnew
      · refine ⟨List.getLast?_concat .., List.isChain_append.mpr ⟨hchain, .singleton _, ?_⟩⟩
        intro x hx y hy
        rw [hlast, Option.mem_some_iff] at hx
        obtain rfl : r.sEpoch = y := by simpa using hy
        exact hx ▸ hnew
      · rw [List.map_nil, List.append_nil, hlast, not_not.mp hnew]
        exact ⟨rfl, hchain⟩

end

/-! ## The samples taken -/

/-- The state of the battery part after these samples. -/
structure Sampled (samples : List Readings) (b : Battery) : Prop where
  vbatfb : b.vbatfb = (feedAll (volts samples) (ofSize 5)).2
  vbatfb2 : b.vbatfb2 = (feedAll (volts samples) (ofSize 250)).2
  vbatS0 : b.vbatS0 = secondBefore samples samples.length
  vbatCsv : b.vbatCsv = rows samples

theorem Battery.vbatSlope_sample (b : Battery) (r : Readings) :
    (b.sample r).vbatSlope =
      1000 * ((b.sample r).vbatfb2.last 0 - (b.sample r).vbatfb2.last (-60)) / 10 := rfl

theorem feed_feedAll {n : BitVec 32} (hn : 0 < n.toNat) (samples : List Readings) (r : Readings) :
    ((feedAll (volts samples) (ofSize n)).2.feed (voltage r.rawBatt)).1 =
        mean (window n.toNat (volts (samples ++ [r])) samples.length) ∧
      ((feedAll (volts samples) (ofSize n)).2.feed (voltage r.rawBatt)).2 =
        (feedAll (volts (samples ++ [r])) (ofSize n)).2 := by
  have happend := feedAll_append (volts samples) [voltage r.rawBatt] (ofSize n)
  have hlen := length_volts samples
  have hlt : samples.length < (volts (samples ++ [r])).length := by
    rw [length_volts, List.length_append]
    exact Nat.lt_succ_self _
  have hmean := getD_feedAll hn hlt
  rw [volts_append] at hmean ⊢
  change (feedAll (volts samples ++ [voltage r.rawBatt]) _).1.getD _ 0 = _ at hmean
  constructor
  · rw [happend, List.getD_append_right _ _ _ _ (by rw [length_feedAll, hlen]), length_feedAll,
      hlen, Nat.sub_self] at hmean
    exact hmean
  · exact (congrArg Prod.snd happend).symm

theorem Sampled.sample {samples : List Readings} {b : Battery} (h : Sampled samples b)
    (r : Readings) : Sampled (samples ++ [r]) (b.sample r) := by
  obtain ⟨-, hshort⟩ := feed_feedAll (n := 5) (by decide) samples r
  obtain ⟨hsmooth, hlong⟩ := feed_feedAll (n := 250) (by decide) samples r
  constructor
  · rw [← hshort, ← h.vbatfb]
    rfl
  · rw [← hlong, ← h.vbatfb2]
    rfl
  · rw [List.length_append, List.length_singleton, secondBefore_concat]
    rfl
  · have hlog : (b.sample r).vbatCsv = b.log r := rfl
    rw [hlog, rows_concat, Battery.log, h.vbatS0, h.vbatCsv, h.vbatfb2, hsmooth]
    split_ifs with hsame
    · rfl
    · rw [List.append_nil]

theorem sampled_foldl (vbat vbatSlope : ℚ) (samples : List Readings) :
    Sampled samples (samples.foldl Battery.sample { vbat := vbat, vbatSlope := vbatSlope }) := by
  induction samples using List.reverseRecOn with
  | nil => exact ⟨rfl, rfl, rfl, rfl⟩
  | append_singleton samples r ih =>
      rw [List.foldl_append]
      exact ih.sample r

section

variable (c : Config) (vbat vbatSlope : ℚ) (msgs : List (QueueMsg × Readings))

theorem battery_run :
    (run msgs (initial c vbat vbatSlope)).1.monitors.batt.2 =
      (battSamples msgs).foldl Battery.sample { vbat := vbat, vbatSlope := vbatSlope } := by
  rw [monitors_run_initial]

/-- In exact arithmetic the voltage is the mean of the last five samples, in
which the first one stands for those before it, and lies in their range. -/
theorem battery_voltage (c : Config) (vbat vbatSlope : ℚ) (msgs : List (QueueMsg × Readings)) :
    let samples := battSamples msgs
    let a := (run msgs (initial c vbat vbatSlope)).1
    a.vbat = (if samples = [] then vbat
      else mean (window 5 (volts samples) (samples.length - 1))) ∧
    ∀ lo hi : ℚ, samples ≠ [] →
      (∀ j < samples.length, samples.length ≤ j + 5 →
        lo ≤ (volts samples).getD j 0 ∧ (volts samples).getD j 0 ≤ hi) →
      lo ≤ a.vbat ∧ a.vbat ≤ hi := by
  have hvbat : (run msgs (initial c vbat vbatSlope)).1.vbat = _ :=
    congrArg Battery.vbat (battery_run c vbat vbatSlope msgs)
  rcases List.eq_nil_or_concat (battSamples msgs) with hnil | ⟨before, r, hsamples⟩
  · rw [hnil] at hvbat ⊢
    exact ⟨hvbat, fun _ _ hne ↦ absurd rfl hne⟩
  · have hmean := (feed_feedAll (n := 5) (by decide) before r).1
    have hlen : (before ++ [r]).length - 1 = before.length := by simp
    rw [← (sampled_foldl vbat vbatSlope before).vbatfb] at hmean
    rw [List.concat_eq_append] at hsamples
    rw [hsamples, List.foldl_append] at hvbat
    dsimp only
    rw [hsamples, if_neg (by simp), hlen]
    refine ⟨hvbat.trans hmean, fun lo hi _ hrange ↦ ?_⟩
    rw [hvbat.trans hmean]
    apply mean_bounds
    · rw [← List.length_pos_iff, length_window]
      decide
    · intro x hx
      obtain ⟨j, hj, hnear, rfl⟩ := exists_of_mem_window hx
      apply hrange j
      · rw [List.length_append, List.length_singleton]
        omega
      · rw [List.length_append, List.length_singleton]
        exact hnear

/-- The sample whose average the slope takes for the latest one, and the one
that it takes for the sample 60 before, after `k` samples. -/
def slopeSamples (k : ℕ) : ℕ × ℕ :=
  (if 250 ∣ k then k - 205 else k - 1, if k % 250 ≤ 60 then k - 15 else k - 61)

theorem slopeSamples_spec {k : ℕ} (hk : 0 < k) :
    slopeSamples k = (call 250 k 0, call 250 k (-60)) := by
  refine Prod.ext ?_ ?_
  · dsimp only [slopeSamples]
    split_ifs with hdvd
    · exact (call_zero_of_dvd hk hdvd).symm
    · exact (call_zero_of_not_dvd hdvd).symm
  · dsimp only [slopeSamples]
    split_ifs with hle
    · exact (call_sixty_of_le hle).symm
    · exact (call_sixty_of_lt (not_le.mp hle)).symm

theorem last_smooth {samples : List Readings} (hne : samples ≠ []) (r : BitVec 32) :
    (feedAll (volts samples) (ofSize 250)).2.last r =
      smooth samples (call 250 samples.length r.toInt) := by
  have hlen := length_volts samples
  have hpos : 0 < samples.length := List.length_pos_iff.mpr hne
  have hne' : volts samples ≠ [] := by
    rw [← List.length_pos_iff, hlen]
    exact hpos
  rw [last_feedAll_call (by decide) hne', hlen]
  refine (getD_feedAll (by decide) ?_).trans rfl
  rw [hlen]
  exact call_lt (by decide) hpos

/-- In exact arithmetic the slope is the difference of two values of the long
average, times 100.  From the last 189 of each 250 samples on it looks 60 samples
back, as it should.  From the other 61 it looks 14 back; and at every 250th sample
it takes for the latest value one that is 204 samples old. -/
theorem battery_slope (c : Config) (vbat vbatSlope : ℚ) (msgs : List (QueueMsg × Readings)) :
    let samples := battSamples msgs
    (run msgs (initial c vbat vbatSlope)).1.vbatSlope =
      if samples = [] then vbatSlope
      else 100 * (smooth samples (slopeSamples samples.length).1 -
        smooth samples (slopeSamples samples.length).2) := by
  have hslope : (run msgs (initial c vbat vbatSlope)).1.vbatSlope = _ :=
    congrArg Battery.vbatSlope (battery_run c vbat vbatSlope msgs)
  rcases List.eq_nil_or_concat (battSamples msgs) with hnil | ⟨before, r, hsamples⟩
  · rw [hnil] at hslope ⊢
    exact hslope
  · rw [List.concat_eq_append] at hsamples
    have hlong := (sampled_foldl vbat vbatSlope (before ++ [r])).vbatfb2
    rw [List.foldl_append] at hlong
    rw [hsamples, List.foldl_append] at hslope
    have hne : before ++ [r] ≠ [] := by simp
    have hzero := last_smooth hne 0
    have hsixty := last_smooth hne (-60)
    rw [← hlong] at hzero hsixty
    dsimp only
    rw [hsamples, if_neg hne, slopeSamples_spec (List.length_pos_iff.mpr hne)]
    refine (hslope.trans (Battery.vbatSlope_sample _ r)).trans ?_
    refine (congrArg₂ (fun x y ↦ 1000 * (x - y) / 10) hzero hsixty).trans ?_
    dsimp only
    rw [mul_div_right_comm, show (1000 : ℚ) / 10 = 100 by norm_num]
    rfl

/-- The log gets a row for every sample in another second than the sample before
it, with its voltage and its long average, and no two rows in a row are of the
same second.  The numbers are exact here; the file, to which the rows are
appended, has six digits of each. -/
theorem battery_log (c : Config) (vbat vbatSlope : ℚ) (msgs : List (QueueMsg × Readings)) :
    let a := (run msgs (initial c vbat vbatSlope)).1
    a.vbatCsv = rows (battSamples msgs) ∧ (0 :: a.vbatCsv.map Prod.fst).IsChain (· ≠ ·) := by
  have hrows : (run msgs (initial c vbat vbatSlope)).1.vbatCsv = rows (battSamples msgs) :=
    (congrArg Battery.vbatCsv (battery_run c vbat vbatSlope msgs)).trans
      (sampled_foldl vbat vbatSlope _).vbatCsv
  refine ⟨hrows, ?_⟩
  rw [hrows]
  exact (rows_seconds _).2

end

/-! ## When samples are asked for -/

theorem requests_handleTimerBatt (r : Readings) (a : MainApp) :
    (handleTimerBatt r a).2 =
      if timerCiBatt ≤ a.timerCxBatt + 1 then [.analogRead pinBatt] else [] := by
  unfold handleTimerBatt
  dsimp only
  split_ifs <;> rfl

theorem requests_handleTimer (r : Readings) (a : MainApp) :
    (handleTimer r a).2 =
      (handleTimerWdt a).2 ++
        if timerCiBatt ≤ a.timerCxBatt + 1 then [.analogRead pinBatt] else [] := by
  have hbatt : (handleTimerFan r (handleTimerThr (handleTimerWdt a).1)).monitors.batt =
      a.monitors.batt := by
    rw [handleTimerFan_monitors, handleTimerThr_monitors, handleTimerWdt_monitors]
  have hcx : (handleTimerFan r (handleTimerThr (handleTimerWdt a).1)).timerCxBatt =
      a.timerCxBatt := congrArg Prod.fst hbatt
  unfold handleTimer
  dsimp only
  rw [requests_handleTimerBatt, hcx]

theorem analogRead_not_mem_wdt (a : MainApp) : .analogRead pinBatt ∉ (handleTimerWdt a).2 := by
  unfold handleTimerWdt
  dsimp only
  split_ifs
  · change _ ∉ stop
    decide
  · exact List.not_mem_nil

/-- The timer messages since the last one whose sample was taken. -/
def timersSinceSample (msgs : List (QueueMsg × Readings)) : ℕ :=
  (taken timerCiBatt answered (readings msgs)).2

/-- The battery is asked at exactly the timer messages from the thousandth one
on after the last sample, as long as the counter does not wrap around: so no
two samples are closer than that, a failed read is repeated with every message,
and without failures the samples are those of every thousandth message. -/
theorem battery_schedule (c : Config) (vbat vbatSlope : ℚ) (msgs : List (QueueMsg × Readings)) :
    (∀ pre time r post, msgs = pre ++ (.timer time, r) :: post →
      (.analogRead pinBatt ∈ (handleTimer r (run pre (initial c vbat vbatSlope)).1).2 ↔
        1000 ≤ (timersSinceSample pre + 1) % 2 ^ 32)) ∧
      1000 * (battSamples msgs).length + timersSinceSample msgs ≤ (readings msgs).length ∧
      ((∀ r ∈ readings msgs, r.rawBatt ≠ 0xffff) →
        battSamples msgs = multiples 1000 (readings msgs)) := by
  have happart : timerCiBatt.toNat * (taken timerCiBatt answered (readings msgs)).1.length +
      (taken timerCiBatt answered (readings msgs)).2 ≤ (readings msgs).length :=
    mul_length_taken_le _
  refine ⟨fun pre time r post _ ↦ ?_, happart, fun hall ↦ ?_⟩
  · have hcx : (run pre (initial c vbat vbatSlope)).1.timerCxBatt =
        BitVec.ofNat 32 (timersSinceSample pre) :=
      congrArg (fun m ↦ m.batt.1) (monitors_run_initial c vbat vbatSlope pre)
    have hdue : timerCiBatt ≤ BitVec.ofNat 32 (timersSinceSample pre) + 1 ↔
        1000 ≤ (timersSinceSample pre + 1) % 2 ^ 32 := le_succ_iff _
    rw [requests_handleTimer, List.mem_append, or_iff_right (analogRead_not_mem_wdt _), hcx,
      ← hdue]
    split_ifs with h
    · exact iff_of_true (List.mem_singleton_self _) h
    · exact iff_of_false List.not_mem_nil h
  · have hok : ∀ r ∈ readings msgs, answered r = true := fun r hr ↦ decide_eq_true (hall r hr)
    rw [battSamples, taken_congr hok, taken_of_accepting (by decide)]
    rfl

end Rover.App
