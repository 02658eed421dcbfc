import Rover.Slave.Framing

/-!
# What a binary message was made of

The receiver is followed from one byte, and from one end of `loop()`, to the
next, so that its states inside a call of `loop()` are seen too.  Whatever the
bytes are, a partly received binary message is held completely: the text state,
which shares the buffer and wraps the index, never hands anything on.
-/

namespace Rover.Slave

open Messages

namespace Receiver

/-- What happens to the receiver: the loop reads a byte, or finds none left. -/
inductive Event
  | received (rb : Byte)
  | loopEnd
  deriving DecidableEq, Repr

namespace Event

def step : Event → Receiver → Receiver × Option Call
  | received rb, r => r.readByte rb
  | loopEnd, r => (r.idle, none)

def byte? : Event → Option Byte
  | received rb => some rb
  | loopEnd => none

end Event

def after (es : List Event) (r : Receiver) : Receiver := es.foldl (fun r e ↦ (e.step r).1) r

def bytesOf (es : List Event) : List Byte := es.filterMap Event.byte?

def callsOf : List Event → Receiver → List Call
  | [], _ => []
  | e :: es, r => (e.step r).2.toList ++ callsOf es (e.step r).1

/-- The events of one call of `loop()`. -/
def loopEvents (avail : List Byte) : List Event := avail.map .received ++ [.loopEnd]

@[simp] theorem after_nil (r : Receiver) : after [] r = r := rfl

@[simp] theorem after_cons (e : Event) (es : List Event) (r : Receiver) :
    after (e :: es) r = after es (e.step r).1 := rfl

theorem after_append (xs ys : List Event) (r : Receiver) :
    after (xs ++ ys) r = after ys (after xs r) := List.foldl_append ..

theorem after_concat (es : List Event) (e : Event) (r : Receiver) :
    after (es ++ [e]) r = (e.step (after es r)).1 := after_append es [e] r

theorem callsOf_append (xs ys : List Event) (r : Receiver) :
    callsOf (xs ++ ys) r = callsOf xs r ++ callsOf ys (after xs r) := by
  induction xs generalizing r with
  | nil => rfl
  | cons e xs ih =>
      rw [List.cons_append, callsOf, callsOf, ih, after_cons, List.append_assoc]

theorem bytesOf_concat (es : List Event) (e : Event) :
    bytesOf (es ++ [e]) = bytesOf es ++ e.byte?.toList := by
  rw [bytesOf, List.filterMap_append]
  cases e <;> rfl

theorem readAll_eq (avail : List Byte) (r : Receiver) :
    r.readAll avail = (after (avail.map .received) r, callsOf (avail.map .received) r) := by
  induction avail generalizing r with
  | nil => rfl
  | cons rb avail ih =>
      rw [readAll_cons, ih]
      rfl

theorem loop_eq_events (avail : List Byte) (r : Receiver) :
    r.loop avail = (after (loopEvents avail) r, callsOf (loopEvents avail) r) := by
  rw [loop_eq, readAll_eq, loopEvents, after_concat, callsOf_append]
  simp [callsOf, Event.step]

/-- Any run of `loop()` is a run of events. -/
theorem run_eq_events (cs : List (List Byte)) (r : Receiver) :
    r.run cs = (after (cs.flatMap loopEvents) r, callsOf (cs.flatMap loopEvents) r) := by
  induction cs generalizing r with
  | nil => rfl
  | cons avail cs ih =>
      rw [run_cons, loop_eq_events, ih, List.flatMap_cons, after_append, callsOf_append]

/-- Any list of events happens during some run of `loop()`: the completed calls
and the bytes read so far in the current one. -/
theorem events_eq_loops (es : List Event) :
    ∃ (cs : List (List Byte)) (avail : List Byte),
      es = cs.flatMap loopEvents ++ avail.map .received := by
  induction es using List.reverseRecOn with
  | nil => exact ⟨[], [], rfl⟩
  | append_singleton es e ih =>
      obtain ⟨cs, avail, heq⟩ := ih
      rw [heq]
      cases e with
      | received rb => exact ⟨cs, avail ++ [rb], by simp⟩
      | loopEnd => exact ⟨cs ++ [avail], [], by simp [loopEvents]⟩

/-! ## The message in the buffer -/

/-- The index, the countdown and the first buffer byte fit together. -/
structure Coupled (r : Receiver) : Prop where
  waitType : r.serialState = .waitType → r.serialDataIdx = 0
  waitBody : r.serialState = .waitBody →
    1 ≤ (r.serialData 0).toNat ∧ (r.serialData 0).toNat ≤ 6 ∧ 1 ≤ r.expectedSize.toNat ∧
      r.serialDataIdx.toNat + r.expectedSize.toNat = msgSize (r.serialData 0)

/-- In the text state nothing is known of the buffer; in the others it holds
the bytes `p` of the message begun. -/
def Keeps (r : Receiver) (p : List Byte) : Prop :=
  r.serialState = .waitTextBody ∨ r.Holding p

theorem Holding.isBinary {r : Receiver} {t : Byte} {rest : List Byte} (h : r.Holding (t :: rest))
    (hstate : r.serialState ≠ .waitTextBody) : t.toNat < msgSizeByType.length := by
  by_contra htext
  exact hstate (by simpa [Awaits, htext] using h.awaits)

/-- A message of type 0 is complete with its type byte, so it is never held. -/
theorem Holding.body {r : Receiver} {t : Byte} {rest : List Byte} (h : r.Holding (t :: rest))
    (hbin : t.toNat < msgSizeByType.length) :
    1 ≤ (r.serialData 0).toNat ∧ (r.serialData 0).toNat ≤ 6 ∧ 1 ≤ r.expectedSize.toNat ∧
      r.serialDataIdx.toNat + r.expectedSize.toNat = msgSize (r.serialData 0) := by
  have hzero : r.serialData 0 = t := h.data 0 (by simp)
  obtain ⟨-, hne, hsize⟩ : r.serialState = .waitBody ∧ r.expectedSize ≠ 0 ∧
      r.expectedSize.toNat + (rest.length + 1) = msgSize t := by
    simpa [Awaits, hbin] using h.awaits
  have hpos : 1 ≤ r.expectedSize.toNat :=
    Nat.one_le_iff_ne_zero.mpr fun h0 ↦ hne (BitVec.eq_of_toNat_eq (by simpa using h0))
  have hidx : r.serialDataIdx.toNat = rest.length + 1 := by
    rw [h.idx, BitVec.toNat_ofNat, Nat.mod_eq_of_lt h.length_lt, List.length_cons]
  have htype : 1 ≤ t.toNat := by
    apply Nat.one_le_iff_ne_zero.mpr
    intro h0
    have hone : msgSize t = 1 := by
      rw [msgSize, h0]
      rfl
    omega
  have hlt : t.toNat < 7 := hbin
  rw [hzero]
  exact ⟨htype, by omega, hpos, by omega⟩

theorem coupled_of_keeps {r : Receiver} {p : List Byte} (h : r.Keeps p) : r.Coupled := by
  constructor
  · intro hstate
    have hhold := h.resolve_left (by simp [hstate])
    obtain rfl := hhold.eq_nil hstate
    exact hhold.idx
  · intro hstate
    have hhold := h.resolve_left (by simp [hstate])
    cases p with
    | nil => exact absurd (hstate.symm.trans hhold.awaits) (by decide)
    | cons t rest => exact hhold.body (hhold.isBinary (by simp [hstate]))

theorem readByte_text {r : Receiver} (hstate : r.serialState = .waitTextBody) (rb : Byte) :
    ((r.readByte rb).1.serialState = .waitTextBody ∨ (r.readByte rb).1.Holding []) ∧
      ∀ data, (r.readByte rb).2 ≠ some (.processMessage data) := by
  by_cases hrb : rb = serialTextMsgDelimiter
  · simp only [readByte, Receiver.store, hstate, hrb, if_true]
    exact ⟨Or.inr ((holding_nil_iff _).mpr ⟨rfl, rfl⟩), fun data ↦ by simp⟩
  · simp only [readByte, Receiver.store, hstate, hrb, if_false]
    exact ⟨Or.inl trivial, fun data ↦ by simp⟩

theorem Holding.reads_of_ne_text {r : Receiver} {p : List Byte} (h : r.Holding p)
    (hstate : r.serialState ≠ .waitTextBody) (rb : Byte) : Reads p rb (r.readByte rb) := by
  cases p with
  | nil => exact reads_type rb h
  | cons t rest => exact reads_body rb (h.isBinary hstate) h

/-- One event either ends what was collected or adds its byte to it. -/
theorem keeps_step {r : Receiver} {p : List Byte} (h : r.Keeps p) (e : Event) :
    (e.step r).1.Keeps (p ++ e.byte?.toList) ∨ (e.step r).1.Holding [] := by
  by_cases htext : r.serialState = .waitTextBody
  · cases e with
    | received rb => exact (readByte_text htext rb).1.imp_left Or.inl
    | loopEnd =>
        by_cases hf : r.idleFires = true
        · exact Or.inr ((holding_nil_iff _).mpr (by simp [Event.step, idle, hf]))
        · exact Or.inl (Or.inl (by simp [Event.step, idle, hf, htext]))
  · have hhold : r.Holding p := h.resolve_left htext
    cases e with
    | received rb =>
        have hnext := (hhold.reads_of_ne_text htext rb).holding
        cases hc : messageComplete (p ++ [rb]) with
        | true =>
            rw [Framing.step_of_complete hc] at hnext
            exact Or.inr hnext
        | false =>
            rw [Framing.step_of_not_complete hc] at hnext
            exact Or.inl (Or.inr hnext)
    | loopEnd =>
        have hnext := hhold.idle
        by_cases hf : r.idleFires = true
        · rw [if_pos hf] at hnext
          exact Or.inr hnext
        · rw [if_neg hf, ← List.append_nil p] at hnext
          exact Or.inl (Or.inr hnext)

/-- A handled binary message is what was collected, with the byte just read. -/
theorem call_of_keeps {r : Receiver} {p : List Byte} (h : r.Keeps p) {e : Event} {data : Buffer}
    (hcall : (e.step r).2 = some (.processMessage data)) :
    IsBinaryFrame (p ++ e.byte?.toList) ∧ StartsWith data (p ++ e.byte?.toList) := by
  cases e with
  | loopEnd => simp [Event.step] at hcall
  | received rb =>
      change (r.readByte rb).2 = _ at hcall
      have htext : r.serialState ≠ .waitTextBody := fun htext ↦
        (readByte_text htext rb).2 data hcall
      have hreads := (h.resolve_left htext).reads_of_ne_text htext rb
      cases hc : messageComplete (p ++ [rb]) with
      | false =>
          have hquiet := hreads.quiet (by rw [Framing.step_of_not_complete hc])
          simp [hquiet] at hcall
      | true =>
          obtain ⟨c, hsome, hhandles⟩ := hreads.call (p ++ [rb]) (by
            rw [Framing.step_of_complete hc])
          rw [hsome] at hcall
          obtain rfl := Option.some.inj hcall
          obtain ⟨hbin, hdata⟩ := hhandles
          refine ⟨?_, hdata⟩
          change IsBinaryFrame (p ++ [rb])
          cases hf : p ++ [rb] with
          | nil => simp at hf
          | cons t body =>
              rw [hf] at hbin hc
              have hlt : t.toNat < msgSizeByType.length := by simpa [Slave.isBinary] using hbin
              have hlen : body.length + 1 = msgSize t := by
                simpa [messageComplete, hlt] using hc
              exact ⟨t, body, rfl, hlt, by omega⟩

/-! ## Since the receiver last was in `WAIT_TYPE` -/

/-- `mid` is what happened since the receiver was in `WAIT_TYPE` for the last
time, after `pre`. -/
structure LastWaitType (r₀ : Receiver) (pre mid : List Event) : Prop where
  waits : (after pre r₀).serialState = .waitType
  left : ∀ q, q ≠ [] → q <+: mid → (after (pre ++ q) r₀).serialState ≠ .waitType

theorem LastWaitType.here {r₀ : Receiver} {es : List Event}
    (h : (after es r₀).serialState = .waitType) : LastWaitType r₀ es [] :=
  ⟨h, fun _ hne hpre ↦ absurd (List.prefix_nil.mp hpre) hne⟩

theorem LastWaitType.snoc {r₀ : Receiver} {pre mid : List Event} {e : Event}
    (h : LastWaitType r₀ pre mid)
    (hleft : (after (pre ++ (mid ++ [e])) r₀).serialState ≠ .waitType) :
    LastWaitType r₀ pre (mid ++ [e]) := by
  refine ⟨h.waits, fun q hne hpre ↦ ?_⟩
  rcases List.prefix_concat_iff.mp hpre with rfl | hin
  · exact hleft
  · exact h.left q hne hin

/-- In every state the receiver reaches, it keeps the bytes received since it
last was in `WAIT_TYPE`. -/
theorem keeps_since (r₀ : Receiver) (es : List Event) :
    ∃ pre mid, es = pre ++ mid ∧ LastWaitType r₀.setup pre mid ∧
      (after es r₀.setup).Keeps (bytesOf mid) := by
  induction es using List.reverseRecOn with
  | nil => exact ⟨[], [], rfl, .here rfl, Or.inr (holding_setup r₀)⟩
  | append_singleton es e ih =>
      obtain ⟨pre, mid, heq, hlast, hkeeps⟩ := ih
      have hstep := keeps_step hkeeps e
      rw [← after_concat, ← bytesOf_concat] at hstep
      by_cases hstate : (after (es ++ [e]) r₀.setup).serialState = .waitType
      · have hidx : (after (es ++ [e]) r₀.setup).serialDataIdx = 0 := by
          rcases hstep with hkeeps' | hnil
          · exact (coupled_of_keeps hkeeps').waitType hstate
          · exact hnil.idx
        exact ⟨es ++ [e], [], by simp, .here hstate,
          Or.inr ((holding_nil_iff _).mpr ⟨hstate, hidx⟩)⟩
      · have hkeeps' := hstep.resolve_right fun hnil ↦ hstate hnil.awaits
        have heq' : es ++ [e] = pre ++ (mid ++ [e]) := by rw [heq, List.append_assoc]
        rw [heq'] at hstate
        exact ⟨pre, mid ++ [e], heq', hlast.snoc hstate, hkeeps'⟩

end Receiver

/-! ## What `process_message` reads -/

theorem toByte_of_ofByte? {type : Byte} {k : MsgType} (h : MsgType.ofByte? type = some k) :
    k.toByte = type := by
  unfold MsgType.ofByte? at h
  split at h
  case h_8 => simp at h
  all_goals
    rename_i htype
    obtain rfl := Option.some.inj h
    apply BitVec.eq_of_toNat_eq
    rw [htype]
    rfl

/-- The handler reads the type byte and the struct of that type, no more. -/
theorem processMessage_congr {π : Type} (hal : Hal π) {f : List Byte} (hf : IsBinaryFrame f)
    {data data' : Buffer} (h : StartsWith data f) (h' : StartsWith data' f) (b : Board π) :
    processMessage hal data b = processMessage hal data' b := by
  obtain ⟨t, body, rfl, hbin, hlen⟩ := hf
  have hsame (i : ℕ) (hi : i < body.length + 1) :
      data (BitVec.ofNat 8 i) = data' (BitVec.ofNat 8 i) :=
    (h i (by simpa using hi)).trans (h' i (by simpa using hi)).symm
  have htype : data 0 = t := h 0 (by simp)
  have h0 : data 0 = data' 0 := hsame 0 (Nat.succ_pos _)
  have h1 (hsize : 2 ≤ msgSize t) : data 1 = data' 1 := hsame 1 (by omega)
  have h2 (hsize : 3 ≤ msgSize t) : data 2 = data' 2 := hsame 2 (by omega)
  unfold processMessage
  rw [← h0]
  cases hk : MsgType.ofByte? (data 0) with
  | none => rfl
  | some k =>
      rw [← htype, ← toByte_of_ofByte? hk] at h1 h2
      cases k with
      | logInfoRequest => rfl
      | pwmDutyRequest => simp only [h1 (by decide), h2 (by decide)]
      | pinmodeRequest | digitalWriteRequest | digitalReadRequest | analogReadRequest
      | pwmInitRequest => simp only [h1 (by decide)]

namespace Receiver

/-- In every reachable state the index, the countdown and the type byte fit
together, so no subtraction from `expected_size` underflows; and a message that
is handled consists of the bytes received since the receiver last was in
`WAIT_TYPE`, which are all that `process_message` reads. -/
theorem processMessage_fresh (r₀ : Receiver) (es : List Event) :
    let r := after es r₀.setup
    r.Coupled ∧
      (r.serialState = .waitBody → (r.expectedSize - 1).toNat + 1 = r.expectedSize.toNat) ∧
      (∀ rb : Byte, rb.toNat < msgSizeByType.length →
        (msgSizeByType.getD rb.toNat 0 - 1).toNat + 1 = msgSize rb) ∧
      ∀ e data, (e.step r).2 = some (.processMessage data) →
        ∃ pre mid t body, es = pre ++ mid ∧ LastWaitType r₀.setup pre mid ∧
          bytesOf (mid ++ [e]) = t :: body ∧ t.toNat < msgSizeByType.length ∧
          (t :: body).length = msgSize t ∧ StartsWith data (t :: body) ∧
          ∀ {π : Type} (hal : Hal π) (data' : Buffer), StartsWith data' (t :: body) →
            ∀ b, processMessage hal data' b = processMessage hal data b := by
  intro r
  obtain ⟨pre, mid, heq, hlast, hkeeps⟩ := keeps_since r₀ es
  have hcoupled : r.Coupled := coupled_of_keeps hkeeps
  refine ⟨hcoupled, ?_, ?_, ?_⟩
  · intro hstate
    obtain ⟨-, -, hpos, -⟩ := hcoupled.waitBody hstate
    have hsub : (r.expectedSize - 1).toNat = r.expectedSize.toNat - 1 :=
      BitVec.toNat_sub_of_le (by exact hpos)
    omega
  · intro rb hbin
    obtain ⟨hpos, -⟩ := msgSize_pos hbin
    have hsub : (msgSizeByType.getD rb.toNat 0 - 1 : Byte).toNat = msgSize rb - 1 :=
      BitVec.toNat_sub_of_le (by exact hpos)
    omega
  · intro e data hcall
    obtain ⟨hframe, hdata⟩ := call_of_keeps hkeeps hcall
    rw [← bytesOf_concat] at hframe hdata
    have hreads {π : Type} (hal : Hal π) (data' : Buffer)
        (hdata' : StartsWith data' (bytesOf (mid ++ [e]))) (b : Board π) :
        processMessage hal data' b = processMessage hal data b :=
      processMessage_congr hal hframe hdata' hdata b
    obtain ⟨t, body, hbytes, hbin, hlen⟩ := hframe
    obtain ⟨hpos, -⟩ := msgSize_pos hbin
    rw [hbytes] at hdata hreads
    exact ⟨pre, mid, t, body, heq, hlast, hbytes, hbin, by rw [List.length_cons]; omega, hdata,
      hreads⟩

/-- A pin mode message whose two bytes come in different calls of `loop()`. -/
theorem processMessage_fresh_pinMode :
    let es : List Event := [.received 1, .loopEnd]
    ∃ data pre mid,
      ((Event.received 0x43).step (after es zeroed.setup)).2 = some (.processMessage data) ∧
      es = pre ++ mid ∧ LastWaitType zeroed.setup pre mid ∧
      StartsWith data (bytesOf (mid ++ [.received 0x43])) := by
  intro es
  obtain ⟨data, hcall⟩ : ∃ data,
      ((Event.received 0x43).step (after es zeroed.setup)).2 = some (.processMessage data) :=
    ⟨((after es zeroed.setup).store 0x43).serialData, by
      simp [es, Event.step, readByte, store, idle, idleFires, zeroed, setup, msgSizeByType]⟩
  obtain ⟨pre, mid, t, body, heq, hlast, hbytes, -, -, hdata, -⟩ :=
    (processMessage_fresh zeroed es).2.2.2 _ _ hcall
  exact ⟨data, pre, mid, hcall, heq, hlast, hbytes ▸ hdata⟩

end Receiver
end Rover.Slave
