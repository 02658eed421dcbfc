import Mathlib.Computability.StateTransition
import Rover.Arduino

/-!
# `recv`, one operation at a time

The loops of `recv` are followed operation by operation over the driver's own
variables: the remaining `size`, the output pointer, the idle counter and the
caller's buffer.  The run ends for every port, with what the two loop functions
compute; over a schedule of polls and a stream of bytes this says exactly what
was stored and what was consumed.
-/

namespace Rover.Arduino

open StateTransition

variable {σ : Type} (P : SerialPort σ)

/-- The places of `recv` between two operations. -/
inductive Point
  | outer
  | inner
  | body
  | check
  | rest
  | done (rval : Bool)
  deriving DecidableEq, Repr

/-- The variables of a call of `recv`; `data` is how far the output pointer is
from the start of `buffer`. -/
structure Recv (σ : Type) where
  point : Point
  size : ℕ
  idleCounter : BitVec 32
  data : ℕ
  buffer : ℕ → Byte
  slave : ArduinoSlave σ

namespace Recv

def start (size : ℕ) (buffer : ℕ → Byte) (slave : ArduinoSlave σ) : Recv σ :=
  ⟨.outer, size, 0, 0, buffer, slave⟩

def setPort (port : σ) (r : Recv σ) : Recv σ := { r with slave := { r.slave with port := port } }

def step (r : Recv σ) : Option (Recv σ) :=
  match r.point with
  | .outer =>
      if r.size = 0 then some { r with point := .done true } else some { r with point := .inner }
  | .inner =>
      let (avail, port) := P.serialDataAvail r.slave.port
      let r := r.setPort port
      if avail && r.size ≠ 0 then some { r with point := .body }
      else some { r with point := .check }
  | .body =>
      let (c, port) := P.serialGetchar r.slave.port
      let r := r.setPort port
      some { r with
        point := .inner
        buffer := Function.update r.buffer r.data c
        size := r.size - 1
        data := r.data + 1 }
  | .check =>
      if r.size = 0 then
        some { r with
          point := .done true
          slave := { r.slave with transactionReceived := r.slave.transactionReceived + 1 } }
      else some { r with point := .rest }
  | .rest =>
      let r := r.setPort (P.sleep r.slave.port)
      if 50 < r.idleCounter then some { r with point := .done false }
      else some { r with point := .outer, idleCounter := r.idleCounter + 1 }
  | .done _ => none

end Recv

/-- The buffer once `xs` is stored at its start. -/
def fill (buffer : ℕ → Byte) (xs : List Byte) (i : ℕ) : Byte := xs.getD i (buffer i)

theorem fill_of_lt (buffer : ℕ → Byte) {xs : List Byte} {i : ℕ} (h : i < xs.length) :
    fill buffer xs i = xs[i] := List.getD_eq_getElem xs (buffer i) h

theorem fill_of_le (buffer : ℕ → Byte) {xs : List Byte} {i : ℕ} (h : xs.length ≤ i) :
    fill buffer xs i = buffer i := List.getD_eq_default xs (buffer i) h

theorem update_fill (buffer : ℕ → Byte) (xs : List Byte) (c : Byte) :
    Function.update (fill buffer xs) xs.length c = fill buffer (xs ++ [c]) := by
  funext i
  rcases Nat.lt_trichotomy i xs.length with hlt | rfl | hgt
  · rw [Function.update_of_ne hlt.ne, fill_of_lt buffer hlt, fill_of_lt buffer (by simp; omega),
      List.getElem_append_left hlt]
  · rw [Function.update_self, fill_of_lt buffer (by simp)]
    simp
  · rw [Function.update_of_ne hgt.ne', fill_of_le buffer hgt.le, fill_of_le buffer (by simp; omega)]

/-! ## The run of the loops -/

namespace Recv

/-- The call at a point, with `xs` stored so far. -/
def storing (buffer : ℕ → Byte) (d : ArduinoSlave σ) (point : Point) (size : ℕ)
    (idleCounter : BitVec 32) (xs : List Byte) (port : σ) : Recv σ :=
  ⟨point, size, idleCounter, xs.length, fill buffer xs, { d with port := port }⟩

/-- The call has returned `ok` with `xs` stored. -/
structure Returned (buffer : ℕ → Byte) (r : Recv σ) (ok : Bool) (xs : List Byte)
    (d : ArduinoSlave σ) : Prop where
  point : r.point = .done ok
  data : r.data = xs.length
  buffer : r.buffer = fill buffer xs
  slave : r.slave = d

theorem Returned.step_eq {buffer : ℕ → Byte} {r : Recv σ} {ok : Bool} {xs : List Byte}
    {d : ArduinoSlave σ} (h : Returned buffer r ok xs d) : r.step P = none := by
  rw [step, h.point]

variable (buffer : ℕ → Byte) (d : ArduinoSlave σ)

theorem reaches_drain (size : ℕ) (idleCounter : BitVec 32) (xs : List Byte) (s : σ) :
    Reaches (step P) (storing buffer d .inner size idleCounter xs s)
      (storing buffer d .check (drain P size xs s).1 idleCounter (drain P size xs s).2.1
        (drain P size xs s).2.2) := by
  induction size generalizing xs s with
  | zero => exact .single (by simp [step, storing, setPort, drain])
  | succ size ih =>
      rw [drain]
      cases havail : (P.serialDataAvail s).1 with
      | false => exact .single (by simp [step, storing, setPort, havail])
      | true =>
          have hpoll : storing buffer d .body (size + 1) idleCounter xs (P.serialDataAvail s).2 ∈
              step P (storing buffer d .inner (size + 1) idleCounter xs s) := by
            simp [step, storing, setPort, havail]
          have hread : storing buffer d .inner size idleCounter
                (xs ++ [(P.serialGetchar (P.serialDataAvail s).2).1])
                (P.serialGetchar (P.serialDataAvail s).2).2 ∈
              step P (storing buffer d .body (size + 1) idleCounter xs
                (P.serialDataAvail s).2) := by
            simp [step, storing, setPort, update_fill]
          simp only [havail, if_true]
          exact .head hpoll (.head hread (ih _ _))

theorem reaches_round (size : ℕ) (hsize : size ≠ 0) (idleCounter : BitVec 32) (xs : List Byte)
    (s : σ) :
    Reaches (step P) (storing buffer d .outer size idleCounter xs s)
      (storing buffer d .check (drain P size xs s).1 idleCounter (drain P size xs s).2.1
        (drain P size xs s).2.2) := by
  have henter : storing buffer d .inner size idleCounter xs s ∈
      step P (storing buffer d .outer size idleCounter xs s) := by
    simp [step, storing, hsize]
  exact .head henter (reaches_drain P buffer d size idleCounter xs s)

/-- A round that gets all that is awaited is the last one. -/
theorem round_done {size : ℕ} (hsize : size ≠ 0) (idleCounter : BitVec 32) (xs : List Byte) (s : σ)
    (hdone : (drain P size xs s).1 = 0) :
    ∃ r, Reaches (step P) (storing buffer d .outer size idleCounter xs s) r ∧
      Returned buffer r true (drain P size xs s).2.1 { d with
        port := (drain P size xs s).2.2
        transactionReceived := d.transactionReceived + 1 } := by
  have hround := reaches_round P buffer d size hsize idleCounter xs s
  rw [hdone] at hround
  exact ⟨_, hround.tail rfl, rfl, rfl, rfl, rfl⟩

/-- Any other round ends with a sleep, after which the idle counter is tested
and incremented. -/
theorem round_rest {size : ℕ} (hsize : size ≠ 0) (idleCounter : BitVec 32) (xs : List Byte) (s : σ)
    (hrest : (drain P size xs s).1 ≠ 0) :
    Reaches (step P) (storing buffer d .outer size idleCounter xs s)
      (storing buffer d (if 50 < idleCounter then .done false else .outer) (drain P size xs s).1
        (if 50 < idleCounter then idleCounter else idleCounter + 1) (drain P size xs s).2.1
        (P.sleep (drain P size xs s).2.2)) := by
  have hcheck : storing buffer d .rest (drain P size xs s).1 idleCounter (drain P size xs s).2.1
      (drain P size xs s).2.2 ∈ step P (storing buffer d .check (drain P size xs s).1 idleCounter
        (drain P size xs s).2.1 (drain P size xs s).2.2) := if_neg hrest
  apply ((reaches_round P buffer d size hsize idleCounter xs s).tail hcheck).tail
  split
  · exact if_pos ‹_›
  · exact if_neg ‹_›

/-- From the test of the outer loop the call runs to its end, with what
`recvLoop` computes. -/
theorem reaches_recvLoop (left size : ℕ) (hleft : left ≤ 51) (hsize : size ≠ 0) (xs : List Byte)
    (s : σ) :
    let out := recvLoop P left size xs s
    ∃ r, Reaches (step P) (storing buffer d .outer size (BitVec.ofNat 32 (51 - left)) xs s) r ∧
      Returned buffer r out.1 out.2.1 { d with
        port := out.2.2
        transactionReceived :=
          if out.1 then d.transactionReceived + 1 else d.transactionReceived } := by
  induction left generalizing size xs s with
  | zero =>
      rw [recvLoop_zero]
      by_cases hdone : (drain P size xs s).1 = 0
      · rw [if_pos hdone]
        exact round_done P buffer d hsize _ xs s hdone
      · rw [if_neg hdone]
        exact ⟨_, round_rest P buffer d hsize _ xs s hdone, rfl, rfl, rfl, rfl⟩
  | succ left ih =>
      rw [recvLoop_succ]
      by_cases hdone : (drain P size xs s).1 = 0
      · rw [if_pos hdone]
        exact round_done P buffer d hsize _ xs s hdone
      · rw [if_neg hdone]
        have hagain := round_rest P buffer d hsize (BitVec.ofNat 32 (51 - (left + 1))) xs s hdone
        have hidle : ¬ 50 < BitVec.ofNat 32 (51 - (left + 1)) := by
          rw [BitVec.lt_def, BitVec.toNat_ofNat]
          have h50 : (50 : BitVec 32).toNat = 50 := rfl
          omega
        have hcount : BitVec.ofNat 32 (51 - (left + 1)) + 1 = BitVec.ofNat 32 (51 - left) := by
          have hnat : 51 - left = 51 - (left + 1) + 1 := by omega
          rw [hnat, BitVec.ofNat_add]
          rfl
        rw [if_neg hidle, if_neg hidle, hcount] at hagain
        obtain ⟨r, hreach, hreturned⟩ := ih (drain P size xs s).1 (by omega) hdone
          (drain P size xs s).2.1 (P.sleep (drain P size xs s).2.2)
        exact ⟨r, hagain.trans hreach, hreturned⟩

/-- A call of `recv` ends, and as the function `recv` says. -/
theorem eval_start (size : ℕ) :
    ∃ r, r ∈ eval (step P) (start size buffer d) ∧
      Returned buffer r (recv P size d).1 (recv P size d).2.1 (recv P size d).2.2 := by
  by_cases hsize : size = 0
  · have hskip : { start 0 buffer d with point := .done true } ∈ step P (start 0 buffer d) := rfl
    rw [hsize]
    exact ⟨_, mem_eval.mpr ⟨.single hskip, rfl⟩, rfl, rfl, rfl, rfl⟩
  · obtain ⟨r, hreach, hreturned⟩ :=
      reaches_recvLoop P buffer d 51 size le_rfl hsize [] d.port
    refine ⟨r, mem_eval.mpr ⟨hreach, hreturned.step_eq P⟩, ?_⟩
    simpa only [recv, hsize, if_false] using hreturned

end Recv

/-! ## Schedules of polls -/

/-- What the polls of a port find, one after the other, and the bytes that come
in.  The port reports no errors. -/
structure Schedule where
  avail : ℕ → Bool
  bytes : ℕ → Byte

/-- The polls made, the bytes taken from the stream and the sleeps. -/
structure Cursor where
  polls : ℕ := 0
  taken : ℕ := 0
  sleeps : ℕ := 0
  deriving DecidableEq, Repr

namespace Schedule

def port (S : Schedule) : SerialPort Cursor where
  serialFlush s := s
  serialPutchar _ s := s
  serialDataAvail s := (S.avail s.polls, { s with polls := s.polls + 1 })
  serialGetchar s := (S.bytes s.taken, { s with taken := s.taken + 1 })
  sleep s := { s with sleeps := s.sleeps + 1 }

/-- The next `n` bytes of the stream. -/
def next (S : Schedule) (s : Cursor) (n : ℕ) : List Byte :=
  (List.range n).map fun i ↦ S.bytes (s.taken + i)

variable (S : Schedule)

theorem length_next (s : Cursor) (n : ℕ) : (S.next s n).length = n := by simp [next]

theorem next_add (s s' : Cursor) (m n : ℕ) (h : s'.taken = s.taken + m) :
    S.next s (m + n) = S.next s m ++ S.next s' n := by
  simp only [next, List.range_add, List.map_append, List.map_map, h]
  congr 1
  apply List.map_congr_left
  intro i _hi
  simp only [Function.comp_apply, Nat.add_assoc]

/-- From `s` to `s'` the next `k` bytes of the stream were taken and stored. -/
structure Took (s : Cursor) (xs : List Byte) (k : ℕ) (ys : List Byte) (s' : Cursor) : Prop where
  stored : ys = xs ++ S.next s k
  taken : s'.taken = s.taken + k

variable {S} in
theorem Took.trans {s s' s'' : Cursor} {xs ys zs : List Byte} {k l : ℕ}
    (h : S.Took s xs k ys s') (h' : S.Took s' ys l zs s'') : S.Took s xs (k + l) zs s'' := by
  constructor
  · rw [h'.stored, h.stored, S.next_add s s' k l h.taken, List.append_assoc]
  · rw [h'.taken, h.taken, Nat.add_assoc]

theorem drain_of_quiet (size : ℕ) (xs : List Byte) {s : Cursor} (h : S.avail s.polls = false) :
    drain S.port (size + 1) xs s = (size + 1, xs, { s with polls := s.polls + 1 }) := by
  simp [drain, port, h]

theorem drain_of_avail (size : ℕ) (xs : List Byte) {s : Cursor} (h : S.avail s.polls = true) :
    drain S.port (size + 1) xs s = drain S.port size (xs ++ [S.bytes s.taken])
      { s with polls := s.polls + 1, taken := s.taken + 1 } := by
  rw [drain]
  exact if_pos h

theorem drain_took (size : ℕ) (xs : List Byte) (s : Cursor) :
    ∃ k, k + (drain S.port size xs s).1 = size ∧
      S.Took s xs k (drain S.port size xs s).2.1 (drain S.port size xs s).2.2 ∧
      (drain S.port size xs s).2.2.sleeps = s.sleeps := by
  induction size generalizing xs s with
  | zero => exact ⟨0, rfl, ⟨by simp [drain, next], rfl⟩, rfl⟩
  | succ size ih =>
      cases havail : S.avail s.polls with
      | false =>
          rw [drain_of_quiet S size xs havail]
          exact ⟨0, Nat.zero_add _, ⟨by simp [next], rfl⟩, rfl⟩
      | true =>
          rw [drain_of_avail S size xs havail]
          obtain ⟨k, hsize, htook, hsleeps⟩ := ih (xs ++ [S.bytes s.taken])
            { s with polls := s.polls + 1, taken := s.taken + 1 }
          have hone : S.Took s xs 1 (xs ++ [S.bytes s.taken])
              { s with polls := s.polls + 1, taken := s.taken + 1 } := ⟨by simp [next], rfl⟩
          exact ⟨1 + k, by omega, hone.trans htook, hsleeps⟩

/-- Each round but the last takes part of what is awaited and sleeps once. -/
theorem recvLoop_took (left size : ℕ) (hsize : size ≠ 0) (xs : List Byte) (s : Cursor) :
    ∃ k, S.Took s xs k (recvLoop S.port left size xs s).2.1 (recvLoop S.port left size xs s).2.2 ∧
      (recvLoop S.port left size xs s).2.2.sleeps ≤ s.sleeps + (left + 1) ∧
      (if (recvLoop S.port left size xs s).1 then k = size else k < size) := by
  induction left generalizing size xs s with
  | zero =>
      obtain ⟨k, hk, htook, hsleeps⟩ := drain_took S size xs s
      rw [recvLoop_zero]
      by_cases hdone : (drain S.port size xs s).1 = 0
      · simp only [hdone, if_true]
        exact ⟨k, htook, by omega, by omega⟩
      · simp only [hdone, if_false, Bool.false_eq_true]
        exact ⟨k, ⟨htook.stored, htook.taken⟩, Nat.succ_le_succ hsleeps.le, by omega⟩
  | succ left ih =>
      obtain ⟨k, hk, htook, hsleeps⟩ := drain_took S size xs s
      rw [recvLoop_succ]
      by_cases hdone : (drain S.port size xs s).1 = 0
      · simp only [hdone, if_true]
        exact ⟨k, htook, by omega, by omega⟩
      · simp only [hdone, if_false]
        obtain ⟨l, htook', hsleeps', hend⟩ := ih (drain S.port size xs s).1 hdone
          (drain S.port size xs s).2.1 (S.port.sleep (drain S.port size xs s).2.2)
        have hslept : (S.port.sleep (drain S.port size xs s).2.2).sleeps =
            (drain S.port size xs s).2.2.sleeps + 1 := rfl
        have hsleep : S.Took s xs k (drain S.port size xs s).2.1
            (S.port.sleep (drain S.port size xs s).2.2) := ⟨htook.stored, htook.taken⟩
        refine ⟨k + l, hsleep.trans htook', by omega, ?_⟩
        split at hend
        · rw [if_pos ‹_›]
          omega
        · rw [if_neg ‹_›]
          omega

theorem recv_took (size : ℕ) (d : ArduinoSlave Cursor) :
    ∃ k, S.Took d.port [] k (recv S.port size d).2.1 (recv S.port size d).2.2.port ∧
      (recv S.port size d).2.2.port.sleeps ≤ d.port.sleeps + 52 ∧
      (if (recv S.port size d).1 then k = size else k < size) := by
  by_cases hsize : size = 0
  · rw [hsize]
    exact ⟨0, ⟨rfl, rfl⟩, Nat.le_add_right _ _, rfl⟩
  · have h := recvLoop_took S 51 size hsize [] d.port
    simpa only [recv, hsize, if_false] using h

end Schedule

theorem recv_slave (size : ℕ) (d : ArduinoSlave σ) :
    (recv P size d).2.2 = { d with
      port := (recv P size d).2.2.port
      transactionReceived :=
        if (recv P size d).1 = true ∧ 0 < size then d.transactionReceived + 1
        else d.transactionReceived } := by
  by_cases hsize : size = 0
  · simp [recv, hsize]
  · simp [recv, hsize, Nat.pos_of_ne_zero hsize]

/-- For every size and every schedule, `recv` ends after at most 52 sleeps; it
stores the bytes it takes from the stream, in order and nowhere else, all `size`
of them exactly when it returns true, and counts a transaction just then. -/
theorem recv_exact (S : Schedule) (size : ℕ) (buffer : ℕ → Byte) (d : ArduinoSlave Cursor) :
    ∃ ok r, r ∈ eval (Recv.step S.port) (Recv.start size buffer d) ∧ r.point = .done ok ∧
      r.slave.port.sleeps ≤ d.port.sleeps + 52 ∧
      r.slave.port.taken = d.port.taken + r.data ∧
      (∀ i < r.data, r.buffer i = S.bytes (d.port.taken + i)) ∧
      (∀ i, r.data ≤ i → r.buffer i = buffer i) ∧
      (ok = true ↔ r.data = size) ∧ (ok = false ↔ r.data < size) ∧
      r.slave = { d with
        port := r.slave.port
        transactionReceived :=
          if ok = true ∧ 0 < size then d.transactionReceived + 1 else d.transactionReceived } := by
  obtain ⟨r, heval, hpoint, hdata, hbuffer, hslave⟩ := Recv.eval_start S.port buffer d size
  obtain ⟨k, htook, hsleeps, hend⟩ := S.recv_took size d
  have hstored : (recv S.port size d).2.1 = S.next d.port k := htook.stored
  have hk : r.data = k := by rw [hdata, hstored, S.length_next]
  rw [← hslave] at hsleeps
  have htaken : r.slave.port.taken = d.port.taken + k := hslave ▸ htook.taken
  refine ⟨(recv S.port size d).1, r, heval, hpoint, hsleeps, hk ▸ htaken, ?_, ?_, ?_, ?_, ?_⟩
  · intro i hi
    have hlt : i < (S.next d.port k).length := by rwa [S.length_next, ← hk]
    rw [hbuffer, hstored, fill_of_lt buffer hlt]
    simp [Schedule.next]
  · intro i hi
    rw [hbuffer, fill_of_le buffer (by rwa [← hdata])]
  · cases hok : (recv S.port size d).1 with
    | true => simpa [hok, hk] using hend
    | false =>
        rw [hok, if_neg Bool.false_ne_true] at hend
        simp only [Bool.false_eq_true, false_iff]
        omega
  · cases hok : (recv S.port size d).1 with
    | true =>
        rw [hok, if_pos rfl] at hend
        simp only [Bool.true_eq_false, false_iff]
        omega
    | false => simpa [hok, hk] using hend
  · rw [hslave]
    exact recv_slave S.port size d

end Rover.Arduino
