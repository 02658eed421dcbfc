import Mathlib.Data.List.Forall2
import Mathlib.Tactic.IntervalCases
import Rover.Lib.Framing
import Rover.Slave.Loop

/-!
# The receiver cuts its input into frames

The receiver keeps a partly received message in three variables and a buffer.
`Holding r p` says that these variables stand for the collected bytes `p`;
reading a byte then acts as the abstract framer does on `p`, so the handler
calls are the frames of the stream, whatever the calls of `loop()` are.
-/

namespace Rover.Slave

open Messages

def msgSize (t : Byte) : ℕ := (msgSizeByType.getD t.toNat 0).toNat

def isBinary : List Byte → Bool
  | [] => false
  | t :: _ => decide (t.toNat < msgSizeByType.length)

/-- A binary message is complete at its struct size, a text message at the
first delimiter after its first byte. -/
def messageComplete : List Byte → Bool
  | [] => false
  | t :: rest =>
      if t.toNat < msgSizeByType.length then decide (rest.length + 1 = msgSize t)
      else decide (rest.getLast? = some serialTextMsgDelimiter)

def StartsWith (serialData : Buffer) (f : List Byte) : Prop :=
  ∀ i (h : i < f.length), serialData (BitVec.ofNat 8 i) = f[i]

def Call.Handles : Call → List Byte → Prop
  | .processMessage serialData, f => isBinary f = true ∧ StartsWith serialData f
  | .processTextMessage serialData, f => isBinary f = false ∧ StartsWith serialData (f ++ [0])

theorem msgSize_pos {t : Byte} (h : t.toNat < msgSizeByType.length) :
    1 ≤ msgSize t ∧ msgSize t ≤ 3 := by
  have hlt : t.toNat < 7 := h
  unfold msgSize
  interval_cases t.toNat <;> decide

theorem StartsWith.snoc {d : Buffer} {f : List Byte} (h : StartsWith d f) (hlen : f.length < 256)
    (b : Byte) : StartsWith (Function.update d (BitVec.ofNat 8 f.length) b) (f ++ [b]) := by
  intro i hi
  have hi' : i ≤ f.length := by
    rw [List.length_append, List.length_singleton] at hi
    omega
  rcases Nat.lt_or_eq_of_le hi' with hlt | rfl
  · have hne : BitVec.ofNat 8 i ≠ BitVec.ofNat 8 f.length := by
      intro heq
      have hnat := congrArg BitVec.toNat heq
      simp only [BitVec.toNat_ofNat] at hnat
      omega
    rw [Function.update_of_ne hne, h i hlt, List.getElem_append_left hlt]
  · simp

namespace Receiver

def Awaits (r : Receiver) : List Byte → Prop
  | [] => r.serialState = .waitType
  | t :: rest =>
      if t.toNat < msgSizeByType.length then
        r.serialState = .waitBody ∧ r.expectedSize ≠ 0 ∧
          r.expectedSize.toNat + (rest.length + 1) = msgSize t
      else r.serialState = .waitTextBody

/-- The receiver has collected exactly the bytes `p` of a message. -/
structure Holding (r : Receiver) (p : List Byte) : Prop where
  length_lt : p.length < 256
  idx : r.serialDataIdx = BitVec.ofNat 8 p.length
  data : StartsWith r.serialData p
  awaits : r.Awaits p

theorem holding_nil_iff (r : Receiver) :
    r.Holding [] ↔ r.serialState = .waitType ∧ r.serialDataIdx = 0 := by
  constructor
  · intro h
    exact ⟨h.awaits, h.idx⟩
  · rintro ⟨hstate, hidx⟩
    exact ⟨by simp, hidx, fun i hi ↦ absurd hi (by simp), hstate⟩

theorem Holding.eq_nil {r : Receiver} {p : List Byte} (h : r.Holding p)
    (hstate : r.serialState = .waitType) : p = [] := by
  cases p with
  | nil => rfl
  | cons t rest =>
      have hawaits := h.awaits
      by_cases hbin : t.toNat < msgSizeByType.length <;> simp [Awaits, hbin, hstate] at hawaits

theorem holding_setup (r : Receiver) : r.setup.Holding [] :=
  (holding_nil_iff _).mpr ⟨rfl, rfl⟩

theorem Holding.store {r : Receiver} {p : List Byte} (h : r.Holding p) (b : Byte) :
    StartsWith (r.store b).serialData (p ++ [b]) ∧
      (r.store b).serialDataIdx = BitVec.ofNat 8 (p ++ [b]).length := by
  constructor
  · have hdata := h.data.snoc h.length_lt b
    rwa [← h.idx] at hdata
  · change r.serialDataIdx + 1 = _
    rw [h.idx, List.length_append, List.length_singleton, BitVec.ofNat_add]
    rfl

structure Reads (p : List Byte) (b : Byte) (out : Receiver × Option Call) : Prop where
  holding : out.1.Holding (Framing.step messageComplete p b).1
  call : ∀ f, (Framing.step messageComplete p b).2 = some f →
    ∃ c, out.2 = some c ∧ c.Handles f
  quiet : (Framing.step messageComplete p b).2 = none → out.2 = none

theorem reads_frame {p : List Byte} {b : Byte} {r : Receiver} {c : Call}
    (hc : messageComplete (p ++ [b]) = true) (hr : r.Holding []) (hh : c.Handles (p ++ [b])) :
    Reads p b (r, some c) := by
  refine ⟨?_, ?_, ?_⟩ <;> rw [Framing.step_of_complete hc]
  · exact hr
  · rintro f hf
    cases hf
    exact ⟨c, rfl, hh⟩
  · simp

theorem reads_partial {p : List Byte} {b : Byte} {r : Receiver}
    (hc : messageComplete (p ++ [b]) = false) (hr : r.Holding (p ++ [b])) :
    Reads p b (r, none) := by
  refine ⟨?_, ?_, ?_⟩ <;> rw [Framing.step_of_not_complete hc]
  · exact hr
  · simp
  · simp

theorem reads_type {r : Receiver} (b : Byte) (h : r.Holding []) : Reads [] b (r.readByte b) := by
  obtain ⟨hdata, hidx⟩ := h.store b
  have hstate : r.serialState = .waitType := h.awaits
  by_cases hbin : b.toNat < msgSizeByType.length
  · obtain ⟨hpos, hle⟩ := msgSize_pos hbin
    have hsub : (msgSizeByType.getD b.toNat 0 - 1 : Byte).toNat = msgSize b - 1 := by
      change 1 ≤ (msgSizeByType.getD b.toNat 0).toNat at hpos
      rw [BitVec.toNat_sub_of_le (by exact hpos)]
      rfl
    by_cases hone : msgSize b = 1
    · have hzero : (msgSizeByType.getD b.toNat 0 - 1 : Byte) = 0 := by
        apply BitVec.eq_of_toNat_eq
        rw [hsub, hone]
        rfl
      have hc : messageComplete ([] ++ [b]) = true := by
        simp [messageComplete, hbin, hone]
      simp only [readByte, Receiver.store, hstate, hbin, if_true, hzero]
      refine reads_frame hc ((holding_nil_iff _).mpr ⟨rfl, rfl⟩) ⟨?_, hdata⟩
      simpa [isBinary] using hbin
    · have hzero : ¬ (msgSizeByType.getD b.toNat 0 - 1 : Byte) = 0 := by
        intro h0
        rw [h0] at hsub
        simp only [BitVec.ofNat_eq_ofNat, BitVec.toNat_ofNat, Nat.zero_mod] at hsub
        omega
      have hc : messageComplete ([] ++ [b]) = false := by
        simp only [List.nil_append, messageComplete, hbin, if_true, List.length_nil, Nat.zero_add,
          decide_eq_false_iff_not]
        exact fun heq ↦ hone heq.symm
      simp only [readByte, Receiver.store, hstate, hbin, if_true, hzero, if_false]
      refine reads_partial hc ⟨by simp, hidx, hdata, ?_⟩
      simp only [List.nil_append, Awaits, hbin, if_true, List.length_nil, Nat.zero_add]
      exact ⟨trivial, hzero, by rw [hsub]; omega⟩
  · have hc : messageComplete ([] ++ [b]) = false := by
      simp [messageComplete, hbin]
    simp only [readByte, Receiver.store, hstate, hbin, if_false]
    refine reads_partial hc ⟨by simp, hidx, hdata, ?_⟩
    simp [Awaits, hbin]

theorem reads_body {r : Receiver} {t : Byte} {rest : List Byte} (b : Byte)
    (hbin : t.toNat < msgSizeByType.length) (h : r.Holding (t :: rest)) :
    Reads (t :: rest) b (r.readByte b) := by
  obtain ⟨hdata, hidx⟩ := h.store b
  obtain ⟨hstate, hne, hsize⟩ : r.serialState = .waitBody ∧ r.expectedSize ≠ 0 ∧
      r.expectedSize.toNat + (rest.length + 1) = msgSize t := by
    simpa [Awaits, hbin] using h.awaits
  obtain ⟨-, hle⟩ := msgSize_pos hbin
  have hpos : 1 ≤ r.expectedSize.toNat := by
    rcases Nat.eq_zero_or_pos r.expectedSize.toNat with h0 | hpos
    · exact absurd (BitVec.eq_of_toNat_eq (by simpa using h0)) hne
    · exact hpos
  have hsub : (r.expectedSize - 1).toNat = r.expectedSize.toNat - 1 :=
    BitVec.toNat_sub_of_le (by exact hpos)
  by_cases hlast : r.expectedSize - 1 = 0
  · have h1 : r.expectedSize.toNat - 1 = 0 := by
      rw [← hsub, hlast]
      rfl
    have hc : messageComplete (t :: rest ++ [b]) = true := by
      simp only [List.cons_append, messageComplete, hbin, if_true, List.length_append,
        List.length_singleton, decide_eq_true_eq]
      omega
    simp only [readByte, Receiver.store, hstate, hlast, if_true]
    refine reads_frame hc ((holding_nil_iff _).mpr ⟨rfl, rfl⟩) ⟨?_, hdata⟩
    simpa [isBinary] using hbin
  · have h1 : r.expectedSize.toNat - 1 ≠ 0 := by
      rw [← hsub]
      exact fun h0 ↦ hlast (BitVec.eq_of_toNat_eq (by simpa using h0))
    have hc : messageComplete (t :: rest ++ [b]) = false := by
      simp only [List.cons_append, messageComplete, hbin, if_true, List.length_append,
        List.length_singleton, decide_eq_false_iff_not]
      omega
    simp only [readByte, Receiver.store, hstate, hlast, if_false]
    refine reads_partial hc ⟨?_, hidx, hdata, ?_⟩
    · simp only [List.length_append, List.length_cons, List.length_nil]
      omega
    · simp only [List.cons_append, Awaits, hbin, if_true, List.length_append,
        List.length_singleton]
      exact ⟨trivial, hlast, by rw [hsub]; omega⟩

theorem reads_text {r : Receiver} {t : Byte} {rest : List Byte} (b : Byte)
    (htext : ¬ t.toNat < msgSizeByType.length) (h : r.Holding (t :: rest))
    (hroom : (t :: rest).length < 255) : Reads (t :: rest) b (r.readByte b) := by
  obtain ⟨hdata, hidx⟩ := h.store b
  have hstate : r.serialState = .waitTextBody := by
    simpa [Awaits, htext] using h.awaits
  have hlen : (t :: rest ++ [b]).length < 256 := by
    simp only [List.length_append, List.length_singleton]
    omega
  by_cases hb : b = serialTextMsgDelimiter
  · have hc : messageComplete (t :: rest ++ [b]) = true := by
      simp [messageComplete, htext, hb]
    have hterm := hdata.snoc hlen 0
    rw [← hidx] at hterm
    simp only [readByte, Receiver.store, hstate, hb, if_true]
    refine reads_frame (hb ▸ hc) ((holding_nil_iff _).mpr ⟨rfl, rfl⟩) ⟨?_, hb ▸ hterm⟩
    simpa [isBinary] using htext
  · have hc : messageComplete (t :: rest ++ [b]) = false := by
      simp [messageComplete, htext, hb]
    simp only [readByte, Receiver.store, hstate, hb, if_false]
    refine reads_partial hc ⟨hlen, hidx, hdata, ?_⟩
    simp [Awaits, htext]

/-- Reading a byte is a step of the abstract framer, as long as the message
leaves room for its terminator. -/
theorem Holding.reads {r : Receiver} {p : List Byte} (h : r.Holding p) (hroom : p.length < 255)
    (b : Byte) : Reads p b (r.readByte b) := by
  cases p with
  | nil => exact reads_type b h
  | cons t rest =>
      by_cases hbin : t.toNat < msgSizeByType.length
      · exact reads_body b hbin h
      · exact reads_text b hbin h hroom

/-- The bytes collected at any point while `xs` is read leave room for a
terminator. -/
def Roomy (p xs : List Byte) : Prop :=
  ∀ q, q <+: xs → (Framing.feed messageComplete p q).1.length < 255

theorem Roomy.cons {p xs : List Byte} {b : Byte} (h : Roomy p (b :: xs)) :
    p.length < 255 ∧ Roomy (Framing.step messageComplete p b).1 xs := by
  refine ⟨h [] (List.nil_prefix), fun q hq ↦ ?_⟩
  have hlong := h (b :: q) (List.cons_prefix_cons.mpr ⟨rfl, hq⟩)
  rwa [Framing.feed_cons] at hlong

theorem Holding.readAll {r : Receiver} {p xs : List Byte} (h : r.Holding p)
    (hroom : Roomy p xs) :
    (r.readAll xs).1.Holding (Framing.feed messageComplete p xs).1 ∧
      List.Forall₂ Call.Handles (r.readAll xs).2 (Framing.feed messageComplete p xs).2 := by
  induction xs generalizing r p with
  | nil => exact ⟨h, .nil⟩
  | cons b xs ih =>
      obtain ⟨hlen, hrest⟩ := hroom.cons
      have hstep := h.reads hlen b
      obtain ⟨hholds, hcalls⟩ := ih hstep.holding hrest
      rw [readAll_cons, Framing.feed_cons]
      refine ⟨hholds, ?_⟩
      cases hf : (Framing.step messageComplete p b).2 with
      | none =>
          rw [hstep.quiet hf]
          exact hcalls
      | some f =>
          obtain ⟨c, hc, hhandles⟩ := hstep.call f hf
          rw [hc]
          exact .cons hhandles hcalls

theorem Holding.idle {r : Receiver} {p : List Byte} (h : r.Holding p) :
    r.idle.Holding (if r.idleFires then [] else p) := by
  by_cases hf : r.idleFires = true
  · rw [if_pos hf]
    refine (holding_nil_iff _).mpr ?_
    simp [Receiver.idle, hf]
  · rw [if_neg hf]
    have heq : r.idle = { r with serialIdleCount := r.serialIdleCount + 1 } := by
      simp [Receiver.idle, hf]
    rw [heq]
    exact ⟨h.length_lt, h.idx, h.data, by cases p <;> exact h.awaits⟩

end Receiver

/-! ## Streams of frames -/

def IsBinaryFrame (f : List Byte) : Prop :=
  ∃ t body, f = t :: body ∧ t.toNat < msgSizeByType.length ∧ body.length = msgSize t - 1

/-- A first byte from 7 on, any bytes but the delimiter, and the delimiter;
together at most 255 bytes. -/
def IsTextFrame (f : List Byte) : Prop :=
  ∃ t body, f = t :: (body ++ [serialTextMsgDelimiter]) ∧ msgSizeByType.length ≤ t.toNat ∧
    serialTextMsgDelimiter ∉ body ∧ f.length ≤ 255

theorem IsBinaryFrame.isFrame {f : List Byte} (h : IsBinaryFrame f) :
    Framing.IsFrame messageComplete f := by
  obtain ⟨t, body, rfl, hbin, hlen⟩ := h
  obtain ⟨hpos, -⟩ := msgSize_pos hbin
  refine ⟨by simp, ?_, ?_⟩
  · simp only [messageComplete, hbin, if_true, decide_eq_true_eq]
    omega
  · intro p hp hpre hne
    obtain ⟨u, q, rfl⟩ := List.exists_cons_of_ne_nil hp
    obtain ⟨rfl, hq⟩ := List.cons_prefix_cons.mp hpre
    have hshort : q.length ≠ body.length := fun heq ↦ hne (by rw [hq.eq_of_length heq])
    simp only [messageComplete, hbin, if_true, decide_eq_false_iff_not]
    omega

theorem IsTextFrame.isFrame {f : List Byte} (h : IsTextFrame f) :
    Framing.IsFrame messageComplete f := by
  obtain ⟨t, body, rfl, htext, hbody, -⟩ := h
  have hnot : ¬ t.toNat < msgSizeByType.length := Nat.not_lt.mpr htext
  refine ⟨by simp, by simp [messageComplete, hnot], ?_⟩
  intro p hp hpre hne
  obtain ⟨u, q, rfl⟩ := List.exists_cons_of_ne_nil hp
  obtain ⟨rfl, hq⟩ := List.cons_prefix_cons.mp hpre
  have hinside : q <+: body := by
    rcases List.prefix_concat_iff.mp hq with heq | hq
    · exact absurd (by rw [heq]) hne
    · exact hq
  simp only [messageComplete, hnot, if_false, decide_eq_false_iff_not]
  intro hlast
  exact hbody (hinside.subset (List.mem_of_getLast? hlast))

theorem isFrame_of_kind {f : List Byte} (h : IsBinaryFrame f ∨ IsTextFrame f) :
    Framing.IsFrame messageComplete f :=
  h.elim IsBinaryFrame.isFrame IsTextFrame.isFrame

theorem length_le_of_isFrame {f : List Byte} (h : IsBinaryFrame f ∨ IsTextFrame f) :
    f.length ≤ 255 := by
  rcases h with ⟨t, body, rfl, hbin, hlen⟩ | ⟨t, body, rfl, -, -, hlen⟩
  · obtain ⟨-, hle⟩ := msgSize_pos hbin
    rw [List.length_cons]
    omega
  · exact hlen

namespace Receiver

variable {fs : List (List Byte)}

theorem roomy_of_prefix_frames (hfs : ∀ f ∈ fs, IsBinaryFrame f ∨ IsTextFrame f) {x c : List Byte}
    (hx : x ++ c <+: fs.flatten) : Roomy (Framing.feed messageComplete [] x).1 c := by
  intro q hq
  have hpre : x ++ q <+: fs.flatten := ((List.prefix_append_right_inj x).mpr hq).trans hx
  have hframes : ∀ f ∈ fs, Framing.IsFrame messageComplete f := fun f hf ↦
    isFrame_of_kind (hfs f hf)
  have hfeed : (Framing.feed messageComplete [] (x ++ q)).1 =
      (Framing.feed messageComplete (Framing.feed messageComplete [] x).1 q).1 := by
    rw [Framing.feed_append]
  rw [← hfeed]
  rcases Framing.feed_prefix_frames hframes hpre with hnil | ⟨f, hf, hpf, hne⟩
  · rw [hnil]
    simp
  · have hlt : (Framing.feed messageComplete [] (x ++ q)).1.length < f.length := by
      refine lt_of_le_of_ne hpf.length_le fun heq ↦ hne (hpf.eq_of_length heq)
    exact hlt.trans_le (length_le_of_isFrame (hfs f hf))

/-- Along any calls of `loop()` that stay inside a stream of frames, and that
do not reset inside a frame, the receiver is the abstract framer. -/
theorem Holding.run {r : Receiver} (h : r.Holding [])
    (hfs : ∀ f ∈ fs, IsBinaryFrame f ∨ IsTextFrame f) (cs : List (List Byte))
    (hcs : cs.flatten <+: fs.flatten)
    (hquiet : ∀ pre c post, cs = pre ++ c :: post →
      (∀ k, (pre ++ [c]).flatten ≠ (fs.take k).flatten) → (r.run pre).1.resets c = false) :
    (r.run cs).1.Holding (Framing.feed messageComplete [] cs.flatten).1 ∧
      List.Forall₂ Call.Handles (r.run cs).2 (Framing.feed messageComplete [] cs.flatten).2 := by
  induction cs using List.reverseRecOn with
  | nil => exact ⟨h, .nil⟩
  | append_singleton pre c ih =>
      have hflat : (pre ++ [c]).flatten = pre.flatten ++ c := by simp
      rw [hflat] at hcs ⊢
      obtain ⟨hhold, hcalls⟩ := ih ((List.prefix_append _ _).trans hcs)
        fun pre' c' post heq ↦ hquiet pre' c' (post ++ [c]) (by simp [heq])
      obtain ⟨hread, hnew⟩ := hhold.readAll (roomy_of_prefix_frames hfs hcs)
      rw [run_concat, Framing.feed_append]
      refine ⟨?_, List.rel_append hcalls hnew⟩
      have hidle := hread.idle
      -- a reset can only find a part that was already given out
      by_cases hfires : ((r.run pre).1.readAll c).1.idleFires = true
      · have hboundary : ∃ k, (pre ++ [c]).flatten = (fs.take k).flatten := by
          by_contra hno
          have hq := hquiet pre c [] rfl fun k hk ↦ hno ⟨k, hk⟩
          rw [Receiver.resets, hfires] at hq
          exact Bool.noConfusion hq
        obtain ⟨k, hk⟩ := hboundary
        have hframes : ∀ f ∈ fs.take k, Framing.IsFrame messageComplete f := fun f hf ↦
          isFrame_of_kind (hfs f (List.mem_of_mem_take hf))
        have hnil := congrArg Prod.fst (Framing.feed_frames hframes)
        rw [← hk, hflat, Framing.feed_append] at hnil
        simp only at hnil ⊢
        rw [hnil]
        simpa only [hfires, if_true] using hidle
      · rwa [if_neg hfires] at hidle

/-- After any history that ends in an idle reset, the handler calls are the
frames received from then on: one call for each, in order, with the frame at
the start of the buffer. -/
theorem run_calls_frames (r₀ : Receiver) (hist : List (List Byte)) (last : List Byte)
    (hreset : (r₀.setup.run hist).1.resets last = true)
    (fs : List (List Byte)) (hfs : ∀ f ∈ fs, IsBinaryFrame f ∨ IsTextFrame f)
    (cs : List (List Byte)) (hcs : cs.flatten = fs.flatten)
    (hquiet : ∀ pre c post, cs = pre ++ c :: post →
      (∀ k, (pre ++ [c]).flatten ≠ (fs.take k).flatten) →
        (r₀.setup.run (hist ++ [last] ++ pre)).1.resets c = false) :
    let out := (r₀.setup.run (hist ++ [last])).1.run cs
    List.Forall₂ Call.Handles out.2 fs ∧
      out.1.serialState = .waitType ∧ out.1.serialDataIdx = 0 := by
  have hrest : (r₀.setup.run (hist ++ [last])).1.Holding [] := by
    have hfires : ((r₀.setup.run hist).1.readAll last).1.idleFires = true := hreset
    rw [run_concat, holding_nil_iff]
    simp [Receiver.idle, hfires]
  have hframes : ∀ f ∈ fs, Framing.IsFrame messageComplete f := fun f hf ↦
    isFrame_of_kind (hfs f hf)
  obtain ⟨hhold, hcalls⟩ := hrest.run hfs cs (hcs ▸ List.prefix_rfl) fun pre c post heq hin ↦ by
    have hq := hquiet pre c post heq hin
    rwa [run_append] at hq
  rw [hcs, Framing.feed_frames hframes] at hhold hcalls
  exact ⟨hcalls, (holding_nil_iff _).mp hhold⟩

def zeroed : Receiver := ⟨fun _ ↦ 0, 0, 0, .waitType, 0⟩

/-- 275 idle calls, then a binary and a text message, both cut in two. -/
theorem run_calls_frames_cut :
    let out := (zeroed.setup.run (List.replicate 274 [] ++ [[]])).1.run [[1], [0x43, 0x41], [0x3b]]
    List.Forall₂ Call.Handles out.2 [[1, 0x43], [0x41, 0x3b]] ∧
      out.1.serialState = .waitType ∧ out.1.serialDataIdx = 0 := by
  refine run_calls_frames zeroed (List.replicate 274 []) [] (by decide +kernel)
    [[1, 0x43], [0x41, 0x3b]] ?_ [[1], [0x43, 0x41], [0x3b]] rfl ?_
  · intro f hf
    rcases List.mem_pair.mp hf with rfl | rfl
    · exact Or.inl ⟨1, [0x43], rfl, by decide, by decide⟩
    · exact Or.inr ⟨0x41, [], rfl, by decide, by decide, by decide⟩
  · intro pre c post heq hin
    rcases pre with _ | ⟨a, _ | ⟨b, _ | ⟨d, pre⟩⟩⟩ <;>
      simp only [List.nil_append, List.cons_append, List.cons.injEq] at heq
    · obtain ⟨rfl, -⟩ := heq
      decide +kernel
    · obtain ⟨rfl, rfl, -⟩ := heq
      decide +kernel
    · obtain ⟨rfl, rfl, rfl, -⟩ := heq
      exact absurd rfl (hin 2)
    · simp at heq

end Receiver
end Rover.Slave
