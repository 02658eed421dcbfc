import Mathlib.Data.List.TakeDrop
import Mathlib.Logic.Function.Iterate
import Rover.Link.Line

/-!
# What `recv` does to a line

Reading takes bytes that have arrived and changes nothing else, so it commutes
with everything the environment does.  A run of `recv` is therefore described
by the line as it evolves when nothing is read: `recv` succeeds at the first
poll at which enough bytes have arrived, and takes the first of them.
-/

namespace Rover.Link

open Arduino

variable {π : Type} (hal : Slave.Hal π)

namespace Wire

theorem arrived_prefix_step (w : Wire π) (e : Event) : w.arrived <+: (w.step hal e).arrived := by
  cases e with
  | arrive n => exact List.prefix_append _ _
  | loop n => exact List.prefix_rfl
  | loseRequest i n => exact List.prefix_rfl
  | loseReply i n => exact List.prefix_rfl

theorem step_read (w : Wire π) (e : Event) {n : ℕ} (hn : n ≤ w.arrived.length) :
    (w.read n).step hal e = (w.step hal e).read n := by
  cases e with
  | arrive k =>
      have hdrop : (w.arrived ++ w.out.take k).drop n = w.arrived.drop n ++ w.out.take k :=
        List.drop_append_of_le_length hn
      simp only [step, read, hdrop]
      rfl
  | loop k => rfl
  | loseRequest i k => rfl
  | loseReply i k => rfl

theorem arrived_prefix_act (burst : List Event) (w : Wire π) :
    w.arrived <+: (w.act hal burst).arrived := by
  induction burst generalizing w with
  | nil => exact List.prefix_rfl
  | cons e burst ih => exact (arrived_prefix_step hal w e).trans (ih (w.step hal e))

theorem act_read (burst : List Event) (w : Wire π) {n : ℕ} (hn : n ≤ w.arrived.length) :
    (w.read n).act hal burst = (w.act hal burst).read n := by
  induction burst generalizing w with
  | nil => rfl
  | cons e burst ih =>
      change ((w.read n).step hal e).act hal burst = ((w.step hal e).act hal burst).read n
      rw [step_read hal w e hn, ih]
      exact hn.trans (arrived_prefix_step hal w e).length_le

theorem read_read (m n : ℕ) (w : Wire π) : (w.read m).read n = w.read (m + n) := by
  simp [read, List.drop_drop]

end Wire

namespace Line

theorem arrived_prefix_sleep (l : Line π) : l.wire.arrived <+: (sleep hal l).wire.arrived :=
  Wire.arrived_prefix_act hal _ _

theorem sleep_read (l : Line π) {n : ℕ} (hn : n ≤ l.wire.arrived.length) :
    sleep hal (l.read n) = (sleep hal l).read n := by
  simp only [sleep, read, Wire.act_read hal _ _ hn]

theorem drain_line (size : ℕ) (data : List Byte) (l : Line π) :
    drain (port hal) size data l =
      (size - l.wire.arrived.length, data ++ l.wire.arrived.take size,
        l.read (min size l.wire.arrived.length)) := by
  induction size generalizing data l with
  | zero =>
      simp only [drain, Nat.zero_sub, List.take_zero, List.append_nil, Nat.zero_min]
      rfl
  | succ size ih =>
      rw [drain]
      cases harr : l.wire.arrived with
      | nil =>
          have hread : l.read 0 = l := by simp [read, Wire.read]
          simp [port, harr, hread]
      | cons c rest =>
          have hget : serialGetchar l = (c, l.read 1) := by
            simp only [serialGetchar, harr, List.headD_cons]
            rfl
          have hrest : (l.read 1).wire.arrived = rest := by simp [read, Wire.read, harr]
          have hread : (l.read 1).read (min size rest.length) =
              l.read (min (size + 1) (rest.length + 1)) := by
            simp only [read, Wire.read_read]
            rw [Nat.succ_min_succ, Nat.add_comm]
          simp only [port, harr, List.isEmpty_cons, Bool.not_false, if_true, hget]
          have := ih (data ++ [c]) (l.read 1)
          rw [hrest, hread] at this
          refine this.trans ?_
          simp

theorem drain_read (size n : ℕ) (l : Line π) (hn : n ≤ l.wire.arrived.length) (hsize : n < size) :
    drain (port hal) (size - n) (l.wire.arrived.take n) (l.read n) =
      (size - l.wire.arrived.length, l.wire.arrived.take size,
        l.read (min size l.wire.arrived.length)) := by
  have harr : (l.read n).wire.arrived = l.wire.arrived.drop n := rfl
  have hrest : size - n - (l.wire.arrived.drop n).length = size - l.wire.arrived.length := by
    rw [List.length_drop]
    omega
  have htake : l.wire.arrived.take n ++ (l.wire.arrived.drop n).take (size - n) =
      l.wire.arrived.take size := by
    rw [← List.take_add]
    congr 1
    omega
  have hread : (l.read n).read (min (size - n) (l.wire.arrived.drop n).length) =
      l.read (min size l.wire.arrived.length) := by
    simp only [read, Wire.read_read]
    rw [List.length_drop]
    congr 2
    omega
  rw [drain_line, harr, hrest, htake, hread]

/-- How a run of `recv` for `size` bytes ends, in terms of the line `l` when
nothing is read: `left + 1` polls, one before each sleep. -/
structure Polled (l : Line π) (left size : ℕ) (r : Bool × List Byte × Line π) : Prop where
  success : r.1 = true → ∃ k ≤ left, size ≤ ((sleep hal)^[k] l).wire.arrived.length ∧
    (∀ i < k, ((sleep hal)^[i] l).wire.arrived.length < size) ∧
    r.2.1 = ((sleep hal)^[k] l).wire.arrived.take size ∧ r.2.2 = ((sleep hal)^[k] l).read size
  failure : r.1 = false → ((sleep hal)^[left] l).wire.arrived.length < size ∧
    ∃ m ≤ ((sleep hal)^[left + 1] l).wire.arrived.length,
      r.2.2 = ((sleep hal)^[left + 1] l).read m

theorem polled_of_le {l : Line π} {left size : ℕ} (hle : size ≤ l.wire.arrived.length) :
    Polled hal l left size (true, l.wire.arrived.take size, l.read size) :=
  ⟨fun _ ↦ ⟨0, Nat.zero_le _, hle, by simp, rfl, rfl⟩, by simp⟩

theorem Polled.of_sleep {l : Line π} {left size : ℕ} {r : Bool × List Byte × Line π}
    (hlt : l.wire.arrived.length < size) (h : Polled hal (sleep hal l) left size r) :
    Polled hal l (left + 1) size r := by
  refine ⟨fun hok ↦ ?_, h.failure⟩
  obtain ⟨k, hk, hle, hbefore, hrest⟩ := h.success hok
  refine ⟨k + 1, by omega, hle, fun i hi ↦ ?_, hrest⟩
  cases i with
  | zero => exact hlt
  | succ i => exact hbefore i (by omega)

theorem recvLoop_polled (left size n : ℕ) (l : Line π)
    (hn : n ≤ l.wire.arrived.length) (hsize : n < size) :
    Polled hal l left size
      (recvLoop (port hal) left (size - n) (l.wire.arrived.take n) (l.read n)) := by
  -- induction on the polls left; `n` is what the polls so far have taken
  induction left generalizing n l with
  | zero =>
      rw [recvLoop_zero, drain_read hal size n l hn hsize]
      by_cases hdone : size - l.wire.arrived.length = 0
      · have hle : size ≤ l.wire.arrived.length := by omega
        simp only [hdone, if_true, Nat.min_eq_left hle]
        exact polled_of_le hal hle
      · have hlt : l.wire.arrived.length < size := by omega
        simp only [hdone, if_false, Nat.min_eq_right hlt.le]
        refine ⟨by simp, fun _ ↦ ⟨hlt, l.wire.arrived.length, ?_, sleep_read hal l le_rfl⟩⟩
        exact (arrived_prefix_sleep hal l).length_le
  | succ left ih =>
      rw [recvLoop_succ, drain_read hal size n l hn hsize]
      by_cases hdone : size - l.wire.arrived.length = 0
      · have hle : size ≤ l.wire.arrived.length := by omega
        simp only [hdone, if_true, Nat.min_eq_left hle]
        exact polled_of_le hal hle
      · have hlt : l.wire.arrived.length < size := by omega
        have hpre := arrived_prefix_sleep hal l
        have htake : l.wire.arrived.take size =
            (sleep hal l).wire.arrived.take l.wire.arrived.length := by
          rw [List.take_of_length_le hlt.le]
          exact List.prefix_iff_eq_take.mp hpre
        have hsleep : (port hal).sleep (l.read l.wire.arrived.length) =
            (sleep hal l).read l.wire.arrived.length := sleep_read hal l le_rfl
        simp only [hdone, if_false, Nat.min_eq_right hlt.le, htake, hsleep]
        exact (ih l.wire.arrived.length (sleep hal l) hpre.length_le hlt).of_sleep hal hlt

/-- A failed `recv` has polled 52 times and slept 52 times. -/
theorem recv_polled (size : ℕ) (hsize : size ≠ 0) (d : ArduinoSlave (Line π)) :
    Polled hal d.port 51 size ((recv (port hal) size d).1, (recv (port hal) size d).2.1,
      (recv (port hal) size d).2.2.port) := by
  have h := recvLoop_polled hal 51 size 0 d.port (Nat.zero_le _) (Nat.pos_of_ne_zero hsize)
  have hread : d.port.read 0 = d.port := by simp [read, Wire.read]
  rw [Nat.sub_zero, List.take_zero, hread] at h
  simpa [recv, hsize] using h

/-! ## Attempts -/

theorem serialFlush_read (l : Line π) {n : ℕ} (hn : n ≤ l.wire.arrived.length) :
    serialFlush hal (l.read n) = serialFlush hal l := by
  simp only [serialFlush, read, Wire.act_read hal _ _ hn]
  rfl

def fail (msg : List Byte) (l : Line π) : Line π := after hal msg 52 l

/-- How a call with `n` attempts ends, in terms of the line when nothing is
read. -/
structure Attempted (l : Line π) (msg : List Byte) (size n : ℕ)
    (r : Option (List Byte) × Line π) : Prop where
  success : ∀ data, r.1 = some data → ∃ j < n, ∃ k ≤ 51,
    (∀ i < j, (after hal msg 51 ((fail hal msg)^[i] l)).wire.arrived.length < size) ∧
    size ≤ (after hal msg k ((fail hal msg)^[j] l)).wire.arrived.length ∧
    (∀ i < k, (after hal msg i ((fail hal msg)^[j] l)).wire.arrived.length < size) ∧
    data = (after hal msg k ((fail hal msg)^[j] l)).wire.arrived.take size ∧
    r.2 = (after hal msg k ((fail hal msg)^[j] l)).read size
  failure : r.1 = none →
    (∀ i < n, (after hal msg 51 ((fail hal msg)^[i] l)).wire.arrived.length < size) ∧
    ∃ m ≤ ((fail hal msg)^[n] l).wire.arrived.length, r.2 = ((fail hal msg)^[n] l).read m

theorem send_port (msg : List Byte) (d : ArduinoSlave (Line π)) {l : Line π} {m : ℕ}
    (hm : m ≤ l.wire.arrived.length) (hport : d.port = l.read m) :
    (send (port hal) msg d).port = after hal msg 0 l := by
  change putAll hal msg (serialFlush hal d.port) = _
  rw [hport, serialFlush_read hal l hm]
  rfl

theorem attempts_attempted (msg : List Byte) (size n : ℕ) (hsize : size ≠ 0)
    (d : ArduinoSlave (Line π)) {l : Line π} {m : ℕ}
    (hm : m ≤ l.wire.arrived.length) (hport : d.port = l.read m) :
    Attempted hal l msg size n ((attempts (port hal) false size n msg d).1,
      (attempts (port hal) false size n msg d).2.port) := by
  induction n generalizing d l m with
  | zero =>
      refine ⟨fun data h ↦ ?_, fun _ ↦ ⟨fun i hi ↦ ?_, m, hm, hport⟩⟩
      · simp [attempts] at h
      · exact absurd hi (Nat.not_lt_zero i)
  | succ n ih =>
      have hpoll := recv_polled hal size hsize (send (port hal) msg d)
      rw [send_port hal msg d hm hport] at hpoll
      rw [attempts_succ]
      by_cases hok : (recv (port hal) size (send (port hal) msg d)).1 = true
      · simp only [hok, if_true]
        refine ⟨fun data hdata ↦ ?_, by simp⟩
        obtain ⟨k, hk, hle, hfirst, htake, hline⟩ := hpoll.success hok
        refine ⟨0, Nat.succ_pos n, k, hk, by simp, hle, hfirst, ?_, hline⟩
        exact (Option.some.inj hdata).symm.trans htake
      · have hfalse : (recv (port hal) size (send (port hal) msg d)).1 = false := by
          simpa using hok
        obtain ⟨hshort, m', hm', hline⟩ := hpoll.failure hfalse
        have hrest := ih (recv (port hal) size (send (port hal) msg d)).2.2
          (l := fail hal msg l) hm' hline
        simp only [hfalse, Bool.false_eq_true, if_false]
        have hall : ∀ {j : ℕ}, (∀ i < j,
              (after hal msg 51 ((fail hal msg)^[i] (fail hal msg l))).wire.arrived.length < size) →
            ∀ i < j + 1,
              (after hal msg 51 ((fail hal msg)^[i] l)).wire.arrived.length < size := by
          intro j hj i hi
          cases i with
          | zero => exact hshort
          | succ i => exact hj i (by omega)
        refine ⟨fun data hdata ↦ ?_, fun hnone ↦ ?_⟩
        · obtain ⟨j, hj, k, hk, hbefore, hle, hfirst, htake, hport'⟩ := hrest.success data hdata
          exact ⟨j + 1, by omega, k, hk, hall hbefore, hle, hfirst, htake, hport'⟩
        · obtain ⟨hbefore, m'', hm'', hport'⟩ := hrest.failure hnone
          exact ⟨hall hbefore, m'', hm'', hport'⟩

theorem perform_attempted (q : Request) (d : ArduinoSlave (Line π)) :
    Attempted hal d.port q.bytes q.rspSize d.maxRetry
      ((perform (port hal) q d).1, (perform (port hal) q d).2.port) := by
  have hread : d.port = d.port.read 0 := by simp [read, Wire.read]
  rw [perform_eq]
  exact attempts_attempted hal q.bytes q.rspSize d.maxRetry (rspSize_ne_zero q) d
    (Nat.zero_le _) hread

def FailedBefore (q : Request) (l : Line π) (i : ℕ) : Prop :=
  ∀ h < i, (after hal q.bytes 51 ((fail hal q.bytes)^[h] l)).wire.arrived.length < q.rspSize

/-- Attempt `i` of a call is made, and ends with the `k`th sleep: either all
polls have failed, or the one after that sleep accepts. -/
structure Ends (q : Request) (l : Line π) (i k : ℕ) : Prop where
  made : FailedBefore hal q l i
  ends : (k = 52 ∧
      (after hal q.bytes 51 ((fail hal q.bytes)^[i] l)).wire.arrived.length < q.rspSize) ∨
    (k ≤ 51 ∧ q.rspSize ≤ (after hal q.bytes k ((fail hal q.bytes)^[i] l)).wire.arrived.length ∧
      ∀ j < k, (after hal q.bytes j ((fail hal q.bytes)^[i] l)).wire.arrived.length < q.rspSize)

section

variable {R : Wire π → Wire π → Prop} (hrefl : ∀ w, R w w)
  (htrans : ∀ {u v w}, R u v → R v w → R u w)

include hrefl htrans

theorem rel_fail_iterate {q : Request} {l : Line π} {n : ℕ}
    (h : ∀ i < n, ∀ k, Ends hal q l i k →
      R ((fail hal q.bytes)^[i] l).wire (after hal q.bytes k ((fail hal q.bytes)^[i] l)).wire)
    {i : ℕ} (hi : i ≤ n) (hfailed : FailedBefore hal q l i) :
    R l.wire ((fail hal q.bytes)^[i] l).wire := by
  induction i with
  | zero => exact hrefl _
  | succ i ih =>
      have hmade : FailedBefore hal q l i := fun j hj ↦ hfailed j (by omega)
      rw [Function.iterate_succ_apply']
      exact htrans (ih (by omega) hmade)
        (h i (by omega) 52 ⟨hmade, Or.inl ⟨rfl, hfailed i (by omega)⟩⟩)

theorem rel_perform (hread : ∀ {u w n}, R u w → R u (w.read n)) (q : Request)
    (d : ArduinoSlave (Line π))
    (h : ∀ i < d.maxRetry, ∀ k, Ends hal q d.port i k →
      R ((fail hal q.bytes)^[i] d.port).wire
        (after hal q.bytes k ((fail hal q.bytes)^[i] d.port)).wire) :
    R d.port.wire (perform (port hal) q d).2.port.wire := by
  have hcall := perform_attempted hal q d
  cases hr : (perform (port hal) q d).1 with
  | some data =>
      obtain ⟨j, hj, k, hk, hfailed, hle, hfirst, -, hport⟩ := hcall.success data hr
      change (perform (port hal) q d).2.port = _ at hport
      rw [hport]
      exact hread (htrans (rel_fail_iterate hal hrefl htrans h hj.le hfailed)
        (h j hj k ⟨hfailed, Or.inr ⟨hk, hle, hfirst⟩⟩))
  | none =>
      obtain ⟨hfailed, m, -, hport⟩ := hcall.failure hr
      change (perform (port hal) q d).2.port = _ at hport
      rw [hport]
      exact hread (rel_fail_iterate hal hrefl htrans h le_rfl hfailed)

end

end Line
end Rover.Link
