import Mathlib.Data.List.Count
import Mathlib.Data.List.Induction
import Mathlib.Data.List.Infix
import Rover.Link.Attempts

/-!
# The statistics of the link

Every call holds the mutex from its first attempt to its last, so what the
threads do is some sequence of whole calls.  The two counters are compared with
what has been seen of the attempts since the last snapshot.
-/

namespace Rover.Arduino

inductive LinkOp
  | call (q : Request)
  | getTransactionStats
  deriving DecidableEq, Repr

inductive Seen
  | called
  | attempt (ok : Bool)
  | snapshot (rx tx : BitVec 32)
  deriving DecidableEq, Repr

namespace Seen

def isCalled : Seen → Bool
  | called => true
  | _ => false

def isAttempt : Seen → Bool
  | attempt _ => true
  | _ => false

def isSnapshot : Seen → Bool
  | snapshot .. => true
  | _ => false

end Seen

/-! ## Counting what was seen -/

def calls (seen : List Seen) : ℕ := seen.countP Seen.isCalled

/-- The number of transmissions. -/
def sent (seen : List Seen) : ℕ := seen.countP Seen.isAttempt

def answered (seen : List Seen) : ℕ := seen.count (.attempt true)

def failed (seen : List Seen) : ℕ := seen.count (.attempt false)

theorem sent_eq (seen : List Seen) : sent seen = answered seen + failed seen := by
  induction seen with
  | nil => rfl
  | cons x seen ih =>
      simp only [sent, answered, failed, List.countP_cons, List.count_cons] at ih ⊢
      cases x with
      | called => simpa [Seen.isAttempt] using ih
      | attempt ok => cases ok <;> simp [Seen.isAttempt] <;> omega
      | snapshot rx tx => simpa [Seen.isAttempt] using ih

/-- The part after the last snapshot, the latest first. -/
def sinceSnapshot (seen : List Seen) : List Seen :=
  seen.reverse.takeWhile fun x ↦ !x.isSnapshot

theorem sinceSnapshot_append (seen : List Seen) {new : List Seen}
    (h : ∀ x ∈ new, x.isSnapshot = false) :
    sinceSnapshot (seen ++ new) = new.reverse ++ sinceSnapshot seen := by
  rw [sinceSnapshot, List.reverse_append, List.takeWhile_append_of_pos]
  · rfl
  · intro x hx
    rw [h x (List.mem_reverse.mp hx)]
    rfl

theorem sinceSnapshot_concat (seen : List Seen) (rx tx : BitVec 32) :
    sinceSnapshot (seen ++ [.snapshot rx tx]) = [] := by
  rw [sinceSnapshot, List.reverse_concat, List.takeWhile_cons_of_neg]
  exact Bool.false_ne_true

/-- The pairs that the snapshots returned. -/
def snapshots (seen : List Seen) : List (BitVec 32 × BitVec 32) :=
  seen.filterMap fun
    | .snapshot rx tx => some (rx, tx)
    | _ => none

/-! ## Runs -/

/-- What is seen of a call. -/
def callSeen (outcomes : List Bool) : List Seen := .called :: outcomes.map .attempt

variable {σ : Type} (P : SerialPort σ)

/-- What is seen of one operation, and the state that it leaves. -/
def LinkOp.act : LinkOp → ArduinoSlave σ → List Seen × ArduinoSlave σ
  | .call q, d => (callSeen (callOutcomes P q d), (Arduino.call P q d).2)
  | .getTransactionStats, d =>
      let ((rx, tx), d) := Arduino.getTransactionStats d
      ([.snapshot rx tx], d)

/-- The operations in the order in which the threads `ι` got the mutex. -/
def observe {ι : Type} (ops : List (ι × LinkOp)) (d : ArduinoSlave σ) :
    List Seen × ArduinoSlave σ :=
  ops.foldl (fun s op ↦ (s.1 ++ (op.2.act P s.2).1, (op.2.act P s.2).2)) ([], d)

theorem observe_concat {ι : Type} (ops : List (ι × LinkOp)) (i : ι) (op : LinkOp)
    (d : ArduinoSlave σ) :
    observe P (ops ++ [(i, op)]) d =
      ((observe P ops d).1 ++ (op.act P (observe P ops d).2).1,
        (op.act P (observe P ops d).2).2) := by
  rw [observe, List.foldl_append]
  rfl

/-! ## What a call adds to the counters -/

section

variable {size : ℕ} (hsize : size ≠ 0)

include hsize

theorem recv_counters (d : ArduinoSlave σ) :
    (recv P size d).2.2.transactionSent = d.transactionSent ∧
      (recv P size d).2.2.transactionReceived =
        if (recv P size d).1 then d.transactionReceived + 1 else d.transactionReceived := by
  rw [recv, if_neg hsize]
  exact ⟨rfl, rfl⟩

theorem attempts_counters (n : ℕ) (msg : List Byte) (d : ArduinoSlave σ) :
    (attempts P false size n msg d).2.transactionSent =
        d.transactionSent + BitVec.ofNat 32 (outcomes P false size n msg d).length ∧
      (attempts P false size n msg d).2.transactionReceived =
        d.transactionReceived + BitVec.ofNat 32 ((outcomes P false size n msg d).count true) := by
  induction n generalizing d with
  | zero => exact ⟨(BitVec.add_zero _).symm, (BitVec.add_zero _).symm⟩
  | succ n ih =>
      obtain ⟨hsent, hreceived⟩ := recv_counters P hsize (send P msg d)
      have hsend : (send P msg d).transactionSent = d.transactionSent + 1 := rfl
      have hsend' : (send P msg d).transactionReceived = d.transactionReceived := rfl
      rw [attempts_succ, outcomes_succ]
      cases hok : (recv P size (send P msg d)).1 with
      | true =>
          rw [hok, if_pos rfl, hsend'] at hreceived
          rw [hsend] at hsent
          exact ⟨hsent, hreceived⟩
      | false =>
          rw [hok, if_neg Bool.false_ne_true, hsend'] at hreceived
          rw [hsend] at hsent
          obtain ⟨hrest, hrest'⟩ := ih (recv P size (send P msg d)).2.2
          simp only [Bool.false_eq_true, if_false]
          rw [hrest, hrest', hsent, hreceived, List.length_cons, List.count_cons_of_ne (by decide),
            Nat.add_comm, BitVec.ofNat_add, BitVec.add_assoc]
          exact ⟨rfl, rfl⟩

end

theorem call_counters (q : Request) (d : ArduinoSlave σ) :
    (call P q d).2.transactionSent =
        d.transactionSent + BitVec.ofNat 32 (callOutcomes P q d).length ∧
      (call P q d).2.transactionReceived =
        d.transactionReceived + BitVec.ofNat 32 ((callOutcomes P q d).count true) := by
  rw [call_snd, perform_eq, callOutcomes_eq]
  exact attempts_counters P (rspSize_ne_zero q) d.maxRetry q.bytes d

/-- At most one attempt of a call succeeds. -/
theorem count_outcomes_le (size n : ℕ) (msg : List Byte) (d : ArduinoSlave σ) :
    (outcomes P false size n msg d).count true ≤ 1 := by
  cases n with
  | zero => exact Nat.zero_le 1
  | succ n =>
      obtain ⟨k, ok, -, heq, -⟩ := outcomes_shape P size n msg d
      rw [heq, List.count_append, List.count_replicate]
      cases ok <;> simp

section

variable (outcomes : List Bool)

theorem not_isSnapshot_callSeen : ∀ x ∈ callSeen outcomes, x.isSnapshot = false := by
  intro x hx
  rcases List.mem_cons.mp hx with rfl | hx
  · rfl
  · obtain ⟨ok, -, rfl⟩ := List.mem_map.mp hx
    rfl

theorem calls_callSeen : calls (callSeen outcomes) = 1 := by
  rw [calls, callSeen, List.countP_cons, List.countP_map, List.countP_eq_zero.mpr]
  · rfl
  · intro ok _
    exact Bool.false_ne_true

theorem sent_callSeen : sent (callSeen outcomes) = outcomes.length := by
  rw [sent, callSeen, List.countP_cons, List.countP_map]
  exact List.countP_eq_length.mpr fun _ _ ↦ rfl

theorem answered_callSeen : answered (callSeen outcomes) = outcomes.count true := by
  rw [answered, callSeen, List.count_cons_of_ne (by decide)]
  exact List.count_map_of_injective outcomes Seen.attempt (fun _ _ h ↦ Seen.attempt.inj h) true

end

/-! ## The books -/

section

variable (xs ys : List Seen)

theorem calls_append : calls (xs ++ ys) = calls xs + calls ys := List.countP_append

theorem sent_append : sent (xs ++ ys) = sent xs + sent ys := List.countP_append

theorem answered_append : answered (xs ++ ys) = answered xs + answered ys := List.count_append

theorem snapshots_append : snapshots (xs ++ ys) = snapshots xs ++ snapshots ys :=
  List.filterMap_append

end

theorem snapshots_callSeen (outcomes : List Bool) : snapshots (callSeen outcomes) = [] := by
  rw [snapshots, List.filterMap_eq_nil_iff]
  intro x hx
  rcases List.mem_cons.mp hx with rfl | hx
  · rfl
  · obtain ⟨ok, -, rfl⟩ := List.mem_map.mp hx
    rfl

/-- A call adds itself and its attempts to what was seen since the snapshot. -/
theorem since_call (seen : List Seen) (outcomes : List Bool) :
    calls (sinceSnapshot (seen ++ callSeen outcomes)) = calls (sinceSnapshot seen) + 1 ∧
      sent (sinceSnapshot (seen ++ callSeen outcomes)) =
        sent (sinceSnapshot seen) + outcomes.length ∧
      answered (sinceSnapshot (seen ++ callSeen outcomes)) =
        answered (sinceSnapshot seen) + outcomes.count true := by
  rw [sinceSnapshot_append seen (not_isSnapshot_callSeen outcomes), calls_append, sent_append,
    answered_append, ← calls_callSeen outcomes, ← sent_callSeen outcomes,
    ← answered_callSeen outcomes, calls, sent, answered, List.countP_reverse, List.countP_reverse,
    List.count_reverse]
  exact ⟨Nat.add_comm _ _, Nat.add_comm _ _, Nat.add_comm _ _⟩

/-- The counters stand for the attempts since the last snapshot. -/
structure Counted (seen : List Seen) (d : ArduinoSlave σ) : Prop where
  sent_eq : d.transactionSent = BitVec.ofNat 32 (sent (sinceSnapshot seen))
  answered_eq : d.transactionReceived = BitVec.ofNat 32 (answered (sinceSnapshot seen))
  answered_le : answered (sinceSnapshot seen) ≤ calls (sinceSnapshot seen)

namespace Counted

variable {seen : List Seen} {d : ArduinoSlave σ} (h : Counted seen d)

include h

theorem call (q : Request) :
    Counted (seen ++ callSeen (callOutcomes P q d)) (call P q d).2 := by
  obtain ⟨hcalls, hsent, hanswered⟩ := since_call seen (callOutcomes P q d)
  obtain ⟨hcounter, hcounter'⟩ := call_counters P q d
  refine ⟨?_, ?_, ?_⟩
  · rw [hcounter, h.sent_eq, hsent, BitVec.ofNat_add]
  · rw [hcounter', h.answered_eq, hanswered, BitVec.ofNat_add]
  · have hle : (callOutcomes P q d).count true ≤ 1 := by
      rw [callOutcomes_eq]
      exact count_outcomes_le P _ _ _ d
    have hbefore := h.answered_le
    rw [hanswered, hcalls]
    omega

omit h in
theorem snapshot (seen : List Seen) (rx tx : BitVec 32) (d : ArduinoSlave σ) :
    Counted (seen ++ [.snapshot rx tx]) (getTransactionStats d).2 := by
  refine ⟨?_, ?_, ?_⟩ <;> rw [sinceSnapshot_concat]
  · rfl
  · rfl
  · exact le_rfl

/-- The pair that a snapshot returns, as long as the counters have not wrapped
around. -/
theorem getTransactionStats_eq (hfew : sent (sinceSnapshot seen) < 2 ^ 32) :
    (getTransactionStats d).1.2.toNat = sent (sinceSnapshot seen) ∧
      (getTransactionStats d).1.1.toNat = answered (sinceSnapshot seen) := by
  have hle : answered (sinceSnapshot seen) ≤ sent (sinceSnapshot seen) := by
    rw [Arduino.sent_eq]
    exact Nat.le_add_right _ _
  rw [getTransactionStats, h.sent_eq, h.answered_eq, BitVec.toNat_ofNat, BitVec.toNat_ofNat]
  exact ⟨Nat.mod_eq_of_lt hfew, Nat.mod_eq_of_lt (hle.trans_lt hfew)⟩

end Counted

/-- The pairs returned so far and what was seen since the last one are all that
was seen. -/
structure Balanced (seen : List Seen) : Prop where
  sent_eq : ((snapshots seen).map fun pair ↦ pair.2.toNat).sum + sent (sinceSnapshot seen) =
    sent seen
  answered_eq : ((snapshots seen).map fun pair ↦ pair.1.toNat).sum +
    answered (sinceSnapshot seen) = answered seen

namespace Balanced

variable {seen : List Seen} (h : Balanced seen)

include h

theorem call (outcomes : List Bool) : Balanced (seen ++ callSeen outcomes) := by
  obtain ⟨-, hsent, hanswered⟩ := since_call seen outcomes
  constructor
  · rw [snapshots_append, snapshots_callSeen, List.append_nil, hsent, sent_append, sent_callSeen,
      ← Nat.add_assoc, h.sent_eq]
  · rw [snapshots_append, snapshots_callSeen, List.append_nil, hanswered, answered_append,
      answered_callSeen, ← Nat.add_assoc, h.answered_eq]

theorem snapshot {rx tx : BitVec 32} (htx : tx.toNat = sent (sinceSnapshot seen))
    (hrx : rx.toNat = answered (sinceSnapshot seen)) :
    Balanced (seen ++ [.snapshot rx tx]) := by
  have hpairs : snapshots (seen ++ [.snapshot rx tx]) = snapshots seen ++ [(rx, tx)] :=
    snapshots_append seen [.snapshot rx tx]
  constructor
  · rw [hpairs, List.map_append, List.sum_append, sinceSnapshot_concat, sent_append, ← h.sent_eq,
      ← htx]
    rfl
  · rw [hpairs, List.map_append, List.sum_append, sinceSnapshot_concat, answered_append,
      ← h.answered_eq, ← hrx]
    rfl

end Balanced

section

variable {ι : Type} (s : σ) (ops : List (ι × LinkOp))

/-- At no time have there been 2 ^ 32 transmissions since the last snapshot. -/
def FewBetweenSnapshots : Prop :=
  ∀ before, before <+: ops → sent (sinceSnapshot (observe P before { port := s }).1) < 2 ^ 32

theorem counted_observe :
    Counted (observe P ops { port := s }).1 (observe P ops { port := s }).2 := by
  induction ops using List.reverseRecOn with
  | nil => exact ⟨rfl, rfl, le_rfl⟩
  | append_singleton ops op ih =>
      obtain ⟨i, op⟩ := op
      rw [observe_concat]
      cases op with
      | call q => exact ih.call P q
      | getTransactionStats => exact Counted.snapshot _ _ _ _

variable {ops}

theorem balanced_observe (hfew : FewBetweenSnapshots P s ops) :
    Balanced (observe P ops { port := s }).1 := by
  induction ops using List.reverseRecOn with
  | nil => exact ⟨rfl, rfl⟩
  | append_singleton ops op ih =>
      obtain ⟨i, op⟩ := op
      have hbefore : FewBetweenSnapshots P s ops := fun before hpre ↦
        hfew before (hpre.trans (List.prefix_append _ _))
      rw [observe_concat]
      cases op with
      | call q => exact (ih hbefore).call _
      | getTransactionStats =>
          obtain ⟨htx, hrx⟩ := (counted_observe P s ops).getTransactionStats_eq
            (hbefore ops (List.prefix_refl _))
          exact (ih hbefore).snapshot htx hrx

end

/-- Each snapshot returns the transmissions since the last one, less the failed
ones for those received, and no attempt of the run is lost or counted twice. -/
theorem statistics_account {ι : Type} (s : σ) (ops : List (ι × LinkOp))
    (hfew : FewBetweenSnapshots P s ops) :
    (∀ before i after, ops = before ++ (i, .getTransactionStats) :: after →
      ∀ rx tx, (getTransactionStats (observe P before { port := s }).2).1 = (rx, tx) →
        tx.toNat = sent (sinceSnapshot (observe P before { port := s }).1) ∧
          (tx.toNat : ℤ) - rx.toNat =
            failed (sinceSnapshot (observe P before { port := s }).1) ∧
          rx.toNat ≤ tx.toNat ∧
          rx.toNat ≤ calls (sinceSnapshot (observe P before { port := s }).1)) ∧
      ((snapshots (observe P ops { port := s }).1).map fun pair ↦ pair.2.toNat).sum +
          (observe P ops { port := s }).2.transactionSent.toNat =
        sent (observe P ops { port := s }).1 ∧
      ((snapshots (observe P ops { port := s }).1).map fun pair ↦ pair.1.toNat).sum +
          (observe P ops { port := s }).2.transactionReceived.toNat =
        answered (observe P ops { port := s }).1 := by
  constructor
  · rintro before i after rfl rx tx hpair
    have hcounted := counted_observe P s before
    obtain ⟨htx, hrx⟩ := hcounted.getTransactionStats_eq (hfew before (List.prefix_append _ _))
    have hle := hcounted.answered_le
    have hsplit := sent_eq (sinceSnapshot (observe P before { port := s }).1)
    rw [hpair] at htx hrx
    dsimp only at htx hrx
    refine ⟨htx, ?_, ?_, ?_⟩
    · omega
    · omega
    · omega
  · have hbalanced := balanced_observe P s hfew
    obtain ⟨htx, hrx⟩ := (counted_observe P s ops).getTransactionStats_eq
      (hfew ops (List.prefix_refl _))
    exact ⟨(congrArg _ htx).trans hbalanced.sent_eq, (congrArg _ hrx).trans hbalanced.answered_eq⟩

/-- A port on which each attempt is answered or not as it is written down. -/
def scripted : SerialPort (List Bool) where
  serialFlush s := s.tail
  serialPutchar _ s := s
  serialDataAvail s := (s.headD false, s)
  serialGetchar s := (0, s)
  sleep s := s

/-- One thread makes two calls, and another takes a snapshot after each. -/
def sampleOps : List (ℕ × LinkOp) :=
  [(0, .call (.pinMode 13 1)), (1, .getTransactionStats), (0, .call (.analogRead 14)),
    (1, .getTransactionStats)]

def sampleScript : List Bool := [false, false, true, false, false, false, false, false]

theorem statistics_account_sampleOps :
    (getTransactionStats (observe scripted (sampleOps.take 1) { port := sampleScript }).2).1.2.toNat
        = 2 ∧
      ((snapshots (observe scripted sampleOps { port := sampleScript }).1).map
          fun pair ↦ pair.2.toNat).sum +
        (observe scripted sampleOps { port := sampleScript }).2.transactionSent.toNat = 7 := by
  have hfew : FewBetweenSnapshots scripted sampleScript sampleOps := by
    intro before hpre
    have hall : ∀ before ∈ sampleOps.inits,
        sent (sinceSnapshot (observe scripted before { port := sampleScript }).1) < 2 ^ 32 := by
      decide +kernel
    exact hall before ((List.mem_inits _ _).mpr hpre)
  obtain ⟨hpairs, hsent, -⟩ := statistics_account scripted sampleScript sampleOps hfew
  exact ⟨(hpairs (sampleOps.take 1) 1 (sampleOps.drop 2) rfl _ _ rfl).1.trans (by decide +kernel),
    hsent.trans (by decide +kernel)⟩

end Rover.Arduino
