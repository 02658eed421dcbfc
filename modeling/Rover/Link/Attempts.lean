import Rover.Arduino

/-!
# The attempts of a call

A call transmits its request again until `recv` succeeds or the attempts are
used up.  What goes out is recorded by the port itself, where every flush
starts a transmission.
-/

namespace Rover.Arduino

open Messages

variable {σ : Type} (P : SerialPort σ)

/-- What `recv` returns in each round of the retry loop. -/
def outcomes (overlay : Bool) (size : ℕ) : ℕ → List Byte → ArduinoSlave σ → List Bool
  | 0, _, _ => []
  | n + 1, msg, d =>
      let d := send P msg d
      let (ok, data, d) := recv P size d
      ok ::
        if ok then []
        else outcomes overlay size n (if overlay then data ++ msg.drop data.length else msg) d

/-- The attempts of a call, each with its success. -/
def callOutcomes (q : Request) (d : ArduinoSlave σ) : List Bool :=
  outcomes P q.overlay q.rspSize d.maxRetry q.bytes d

theorem outcomes_succ (size n : ℕ) (msg : List Byte) (d : ArduinoSlave σ) :
    outcomes P false size (n + 1) msg d =
      if (recv P size (send P msg d)).1 then [true]
      else false :: outcomes P false size n msg (recv P size (send P msg d)).2.2 := by
  rw [outcomes]
  cases hok : (recv P size (send P msg d)).1 <;> simp [hok]

theorem outcomes_overlay (n : ℕ) (msg : List Byte) (d : ArduinoSlave σ) :
    outcomes P true 1 n msg d = outcomes P false 1 n msg d := by
  induction n generalizing d with
  | zero => rfl
  | succ n ih =>
      rw [outcomes, outcomes_succ]
      cases hok : (recv P 1 (send P msg d)).1 with
      | true => simp [hok]
      | false =>
          simp only [hok, overlay_of_failed P msg hok, if_true, if_false, Bool.false_eq_true]
          rw [ih]

theorem callOutcomes_eq (q : Request) (d : ArduinoSlave σ) :
    callOutcomes P q d = outcomes P false q.rspSize d.maxRetry q.bytes d := by
  cases q with
  | analogRead pin => rfl
  | pinMode pin mode => exact outcomes_overlay P _ _ _
  | initPwm timer channel prescale => exact outcomes_overlay P _ _ _
  | pwmDuty timer channel duty => exact outcomes_overlay P _ _ _

/-- All attempts but the last have failed, and the last one succeeds unless it
is the last that is allowed. -/
theorem outcomes_shape (size n : ℕ) (msg : List Byte) (d : ArduinoSlave σ) :
    ∃ k ok, k < n + 1 ∧ outcomes P false size (n + 1) msg d = List.replicate k false ++ [ok] ∧
      (ok = true ∨ k = n) := by
  induction n generalizing d with
  | zero =>
      rw [outcomes_succ]
      cases (recv P size (send P msg d)).1 with
      | true => exact ⟨0, true, by decide, rfl, Or.inl rfl⟩
      | false => exact ⟨0, false, by decide, rfl, Or.inr rfl⟩
  | succ n ih =>
      rw [outcomes_succ]
      cases (recv P size (send P msg d)).1 with
      | true => exact ⟨0, true, by omega, rfl, Or.inl rfl⟩
      | false =>
          obtain ⟨k, ok, hk, heq, hlast⟩ := ih (recv P size (send P msg d)).2.2
          refine ⟨k + 1, ok, by omega, ?_, hlast.imp_right (congrArg (· + 1))⟩
          rw [if_neg Bool.false_ne_true, heq, List.replicate_succ, List.cons_append]

/-! ## The record of a port -/

/-- The port with the transmissions so far, the latest first. -/
def logged : SerialPort (σ × List (List Byte)) where
  serialFlush s := (P.serialFlush s.1, [] :: s.2)
  serialPutchar c s :=
    (P.serialPutchar c s.1, match s.2 with | [] => [[c]] | t :: log => (t ++ [c]) :: log)
  serialDataAvail s := ((P.serialDataAvail s.1).1, (P.serialDataAvail s.1).2, s.2)
  serialGetchar s := ((P.serialGetchar s.1).1, (P.serialGetchar s.1).2, s.2)
  sleep s := (P.sleep s.1, s.2)

def ArduinoSlave.withLog (d : ArduinoSlave σ) (log : List (List Byte)) :
    ArduinoSlave (σ × List (List Byte)) where
  port := (d.port, log)
  maxRetry := d.maxRetry
  transactionSent := d.transactionSent
  transactionReceived := d.transactionReceived

theorem foldl_putchar_logged (msg t : List Byte) (s : σ) (log : List (List Byte)) :
    msg.foldl (fun s c ↦ (logged P).serialPutchar c s) (s, t :: log) =
      (msg.foldl (fun s c ↦ P.serialPutchar c s) s, (t ++ msg) :: log) := by
  induction msg generalizing s t with
  | nil => rw [List.append_nil]; rfl
  | cons c msg ih =>
      rw [List.foldl_cons, List.foldl_cons, List.append_cons]
      exact ih (t ++ [c]) (P.serialPutchar c s)

theorem send_logged (msg : List Byte) (d : ArduinoSlave σ) (log : List (List Byte)) :
    send (logged P) msg (d.withLog log) = (send P msg d).withLog (msg :: log) := by
  have hport := foldl_putchar_logged P msg [] (P.serialFlush d.port) log
  rw [List.nil_append] at hport
  exact congrArg (fun port ↦ (ArduinoSlave.mk port d.maxRetry (d.transactionSent + 1)
    d.transactionReceived)) hport

theorem drain_logged (size : ℕ) (data : List Byte) (s : σ) (log : List (List Byte)) :
    drain (logged P) size data (s, log) =
      ((drain P size data s).1, (drain P size data s).2.1, (drain P size data s).2.2, log) := by
  induction size generalizing data s with
  | zero => rfl
  | succ size ih =>
      rw [drain, drain]
      cases havail : (P.serialDataAvail s).1 with
      | true =>
          simp only [logged, havail, if_true]
          exact ih _ _
      | false => simp [logged, havail]

theorem recvLoop_logged (left size : ℕ) (data : List Byte) (s : σ) (log : List (List Byte)) :
    recvLoop (logged P) left size data (s, log) =
      ((recvLoop P left size data s).1, (recvLoop P left size data s).2.1,
        (recvLoop P left size data s).2.2, log) := by
  induction left generalizing size data s with
  | zero =>
      rw [recvLoop_zero, recvLoop_zero, drain_logged]
      by_cases hdone : (drain P size data s).1 = 0
      · rw [if_pos hdone, if_pos hdone]
      · rw [if_neg hdone, if_neg hdone]
        rfl
  | succ left ih =>
      rw [recvLoop_succ, recvLoop_succ, drain_logged]
      by_cases hdone : (drain P size data s).1 = 0
      · rw [if_pos hdone, if_pos hdone]
      · rw [if_neg hdone, if_neg hdone]
        exact ih _ _ _

theorem recv_logged (size : ℕ) (d : ArduinoSlave σ) (log : List (List Byte)) :
    recv (logged P) size (d.withLog log) =
      ((recv P size d).1, (recv P size d).2.1, (recv P size d).2.2.withLog log) := by
  by_cases hsize : size = 0
  · simp [recv, hsize]
  · simp only [recv, hsize, if_false, ArduinoSlave.withLog, recvLoop_logged]

/-- Each attempt adds one transmission of the request to the record, which
changes nothing else. -/
theorem attempts_logged (size n : ℕ) (msg : List Byte) (d : ArduinoSlave σ)
    (log : List (List Byte)) :
    attempts (logged P) false size n msg (d.withLog log) =
      ((attempts P false size n msg d).1, (attempts P false size n msg d).2.withLog
        (List.replicate (outcomes P false size n msg d).length msg ++ log)) := by
  induction n generalizing d log with
  | zero => rfl
  | succ n ih =>
      rw [attempts_succ, attempts_succ, outcomes_succ, send_logged, recv_logged]
      cases (recv P size (send P msg d)).1 with
      | true => rfl
      | false =>
          simp only [Bool.false_eq_true, if_false]
          rw [ih, List.length_cons, List.replicate_succ', List.append_assoc]
          rfl

theorem perform_logged (q : Request) (d : ArduinoSlave σ) (log : List (List Byte)) :
    perform (logged P) q (d.withLog log) =
      ((perform P q d).1, (perform P q d).2.withLog
        (List.replicate (callOutcomes P q d).length q.bytes ++ log)) := by
  rw [perform_eq, perform_eq, callOutcomes_eq]
  exact attempts_logged P q.rspSize d.maxRetry q.bytes d log

theorem call_logged (q : Request) (d : ArduinoSlave σ) (log : List (List Byte)) :
    call (logged P) q (d.withLog log) =
      ((call P q d).1, (call P q d).2.withLog
        (List.replicate (callOutcomes P q d).length q.bytes ++ log)) := by
  have h := perform_logged P q d log
  cases q with
  | pinMode pin mode => exact congrArg (fun r ↦ (none, r.2)) h
  | initPwm timer channel prescale => exact congrArg (fun r ↦ (none, r.2)) h
  | pwmDuty timer channel duty => exact congrArg (fun r ↦ (none, r.2)) h
  | analogRead pin => simp only [call, analogRead, h]

/-- A call makes as many transmissions as it takes for `recv` to succeed, five
at most, and all of them are the encoded request. -/
theorem call_transmissions (q : Request) (s : σ) (tx rx : BitVec 32) :
    let d : ArduinoSlave σ := { port := s, transactionSent := tx, transactionReceived := rx }
    ∃ k ok, k < 5 ∧ callOutcomes P q d = List.replicate k false ++ [ok] ∧ (ok = true ∨ k = 4) ∧
      call (logged P) q (d.withLog []) =
        ((call P q d).1, (call P q d).2.withLog (List.replicate (k + 1) q.bytes)) := by
  intro d
  obtain ⟨k, ok, hk, houtcomes, hlast⟩ := outcomes_shape P q.rspSize 4 q.bytes d
  have hcall : callOutcomes P q d = List.replicate k false ++ [ok] :=
    (callOutcomes_eq P q d).trans houtcomes
  refine ⟨k, ok, hk, hcall, hlast, ?_⟩
  rw [call_logged, hcall, List.length_append, List.length_replicate, List.length_singleton,
    List.append_nil]

end Rover.Arduino
