import Rover.Lib.Cyclic
import Rover.Slave.Decode
import Rover.Slave.Framing

/-!
# Text messages of any length

The bytes of a text message are written around the buffer, and the terminator
behind them.  Nothing records how often the index has wrapped around, so the
command letter of a long message is one of its later bytes.  Behind the
terminator of a short message the buffer still holds bytes of earlier ones.
-/

namespace Rover.Slave

open Messages

/-- A first byte from 7 on, any bytes but the delimiter, and the delimiter. -/
structure TextSequence where
  first : Byte
  body : List Byte
  first_ge : msgSizeByType.length ≤ first.toNat
  not_mem : serialTextMsgDelimiter ∉ body

def TextSequence.bytes (f : TextSequence) : List Byte :=
  f.first :: (f.body ++ [serialTextMsgDelimiter])

/-- Bytes written one after the other from the start of the buffer on. -/
def overwrite (d : Buffer) (p : List Byte) : Buffer :=
  p.zipIdx.foldl (fun d x ↦ Function.update d (BitVec.ofNat 8 x.2) x.1) d

theorem overwrite_concat (d : Buffer) (p : List Byte) (b : Byte) :
    overwrite d (p ++ [b]) = Function.update (overwrite d p) (BitVec.ofNat 8 p.length) b := by
  simp [overwrite, List.zipIdx_append]

theorem holds_overwrite (d : Buffer) (p : List Byte) :
    Cyclic.Holds 256 (fun i ↦ d (BitVec.ofNat 8 i)) p
      (fun i ↦ overwrite d p (BitVec.ofNat 8 i)) := by
  induction p using List.reverseRecOn with
  | nil => exact Cyclic.holds_nil fun _ _ ↦ rfl
  | append_singleton p b ih =>
      refine ih.write fun i hi ↦ ?_
      have hslot : BitVec.ofNat 8 i = BitVec.ofNat 8 p.length ↔ i = p.length % 256 := by
        rw [← BitVec.toNat_inj, BitVec.toNat_ofNat, BitVec.toNat_ofNat, Nat.mod_eq_of_lt hi]
      rw [overwrite_concat]
      by_cases hhere : i = p.length % 256
      · rw [if_pos hhere, hslot.mpr hhere, Function.update_self]
      · rw [if_neg hhere, Function.update_of_ne (mt hslot.mp hhere)]

namespace Receiver

def Waiting (r : Receiver) : Prop := r.serialState = .waitType ∧ r.serialDataIdx = 0

/-- The bytes `p` of a text message have been received; the buffer held `d`
before. -/
structure Collecting (d : Buffer) (p : List Byte) (r : Receiver) : Prop where
  idx : r.serialDataIdx = BitVec.ofNat 8 p.length
  data : r.serialData = overwrite d p
  state : r.serialState = if p = [] then .waitType else .waitTextBody

theorem Waiting.collecting {r : Receiver} (h : r.Waiting) : Collecting r.serialData [] r :=
  ⟨h.2, rfl, h.1⟩

theorem Collecting.store {d : Buffer} {p : List Byte} {r : Receiver} (h : Collecting d p r)
    (b : Byte) :
    (r.store b).serialData = overwrite d (p ++ [b]) ∧
      (r.store b).serialDataIdx = BitVec.ofNat 8 (p ++ [b]).length := by
  constructor
  · rw [overwrite_concat, ← h.data, ← h.idx]
    rfl
  · change r.serialDataIdx + 1 = _
    rw [h.idx, List.length_append, List.length_singleton, BitVec.ofNat_add]
    rfl

theorem Collecting.readFirst {d : Buffer} {r : Receiver} (h : Collecting d [] r) {b : Byte}
    (hb : msgSizeByType.length ≤ b.toNat) :
    Collecting d [b] (r.readByte b).1 ∧ (r.readByte b).2 = none := by
  obtain ⟨hdata, hidx⟩ := h.store b
  have hstate : r.serialState = .waitType := h.state
  have htext : ¬ b.toNat < msgSizeByType.length := Nat.not_lt.mpr hb
  simp only [readByte, Receiver.store, hstate, htext, if_false]
  exact ⟨⟨hidx, hdata, rfl⟩, trivial⟩

theorem Collecting.readNext {d : Buffer} {p : List Byte} {r : Receiver} (h : Collecting d p r)
    (hp : p ≠ []) {b : Byte} (hb : b ≠ serialTextMsgDelimiter) :
    Collecting d (p ++ [b]) (r.readByte b).1 ∧ (r.readByte b).2 = none := by
  obtain ⟨hdata, hidx⟩ := h.store b
  have hstate : r.serialState = .waitTextBody := h.state.trans (if_neg hp)
  simp only [readByte, Receiver.store, hstate, hb, if_false]
  refine ⟨⟨hidx, hdata, ?_⟩, trivial⟩
  rw [if_neg (by simp)]

/-- The delimiter also writes the terminator. -/
theorem Collecting.readLast {d : Buffer} {p : List Byte} {r : Receiver} (h : Collecting d p r)
    (hp : p ≠ []) :
    (r.readByte serialTextMsgDelimiter).1.Waiting ∧
      (r.readByte serialTextMsgDelimiter).2 =
        some (.processTextMessage (overwrite d (p ++ [serialTextMsgDelimiter] ++ [0]))) := by
  obtain ⟨hdata, hidx⟩ := h.store serialTextMsgDelimiter
  have hstate : r.serialState = .waitTextBody := h.state.trans (if_neg hp)
  rw [overwrite_concat, ← hdata, ← hidx]
  simp only [readByte, Receiver.store, hstate, if_true]
  exact ⟨⟨rfl, rfl⟩, trivial⟩

theorem Collecting.idle {d : Buffer} {p : List Byte} {r : Receiver} (h : Collecting d p r)
    (hquiet : p ≠ [] → r.idleFires = false) : Collecting d p r.idle := by
  unfold Receiver.idle
  dsimp only
  split_ifs with hfires
  · have hp : p = [] := by
      by_contra hne
      exact absurd hfires (by rw [hquiet hne]; decide)
    subst hp
    exact ⟨rfl, h.data, rfl⟩
  · exact ⟨h.idx, h.data, h.state⟩

theorem Waiting.idle {r : Receiver} (h : r.Waiting) : r.idle.Waiting := by
  unfold Receiver.idle
  dsimp only
  split_ifs
  · exact ⟨rfl, rfl⟩
  · exact h

/-- What the receiver has made of the bytes `x` of the message `f`. -/
def Received (d : Buffer) (f : TextSequence) (x : List Byte) (out : Receiver × List Call) : Prop :=
  (x = f.bytes ∧ out.1.Waiting ∧
      out.2 = [.processTextMessage (overwrite d (f.bytes ++ [0]))]) ∨
    (x ≠ f.bytes ∧ Collecting d x out.1 ∧ out.2 = [])

variable {f : TextSequence} {d : Buffer}

theorem Collecting.readByte {x : List Byte} {r : Receiver} (h : Collecting d x r) {b : Byte}
    (hpre : x ++ [b] <+: f.bytes) :
    Received d f (x ++ [b]) ((r.readByte b).1, (r.readByte b).2.toList) := by
  cases x with
  | nil =>
      obtain ⟨rfl, -⟩ := List.cons_prefix_cons.mp hpre
      obtain ⟨hnext, hcall⟩ := h.readFirst f.first_ge
      exact Or.inr ⟨by simp [TextSequence.bytes], hnext, by rw [hcall]; rfl⟩
  | cons t q =>
      obtain ⟨rfl, hq⟩ := List.cons_prefix_cons.mp hpre
      rcases List.prefix_concat_iff.mp hq with heq | hq
      · obtain ⟨rfl, hb⟩ := List.append_inj' heq rfl
        obtain rfl : b = serialTextMsgDelimiter := List.singleton_inj.mp hb
        obtain ⟨hrest, hcall⟩ := h.readLast (List.cons_ne_nil _ _)
        exact Or.inl ⟨rfl, hrest, by rw [hcall]; rfl⟩
      · have hb : b ≠ serialTextMsgDelimiter := by
          rintro rfl
          exact f.not_mem (hq.subset (by simp))
        obtain ⟨hnext, hcall⟩ := h.readNext (List.cons_ne_nil _ _) hb
        refine Or.inr ⟨fun heq ↦ hb ?_, hnext, by rw [hcall]; rfl⟩
        have hlast : (f.first :: q) ++ [b] = (f.first :: f.body) ++ [serialTextMsgDelimiter] := heq
        exact List.singleton_inj.mp (List.append_inj' hlast rfl).2

theorem Collecting.readAll {x c : List Byte} {r : Receiver} (h : Collecting d x r)
    (hne : x ≠ f.bytes) (hpre : x ++ c <+: f.bytes) : Received d f (x ++ c) (r.readAll c) := by
  induction c generalizing x r with
  | nil => exact Or.inr ⟨by rwa [List.append_nil], by rwa [List.append_nil], rfl⟩
  | cons b c ih =>
      have hsplit : x ++ b :: c = (x ++ [b]) ++ c := by simp
      rw [hsplit] at hpre ⊢
      rw [readAll_cons]
      rcases h.readByte ((List.prefix_append _ _).trans hpre) with
        ⟨hend, hrest, hcall⟩ | ⟨hmore, hnext, hcall⟩
      · have hc : c = [] := by
          have hlen := hpre.length_le
          rw [← hend, List.length_append] at hlen
          exact List.length_eq_zero_iff.mp (by omega)
        subst hc
        refine Or.inl ⟨by rw [List.append_nil, hend], hrest, ?_⟩
        simpa using hcall
      · simp only at hcall
        rw [hcall]
        exact ih hnext hmore hpre

/-- No idle reset between the first and the last byte of `f`. -/
def WithoutReset (r : Receiver) (f : List Byte) (cs : List (List Byte)) : Prop :=
  ∀ pre c post, cs = pre ++ c :: post → (pre ++ [c]).flatten ≠ [] → (pre ++ [c]).flatten ≠ f →
    (r.run pre).1.resets c = false

theorem Waiting.received {r : Receiver} (h : r.Waiting) (cs : List (List Byte))
    (hpre : cs.flatten <+: f.bytes) (hquiet : r.WithoutReset f.bytes cs) :
    Received r.serialData f cs.flatten (r.run cs) := by
  induction cs using List.reverseRecOn with
  | nil => exact Or.inr ⟨by simp [TextSequence.bytes], h.collecting, rfl⟩
  | append_singleton cs c ih =>
      have hflat : (cs ++ [c]).flatten = cs.flatten ++ c := by simp
      have hsofar := ih ((List.prefix_append _ _).trans (hflat ▸ hpre))
        fun pre c' post heq ↦ hquiet pre c' (post ++ [c]) (by simp [heq])
      rw [run_concat, hflat]
      rw [hflat] at hpre
      rcases hsofar with ⟨hend, hrest, hcalls⟩ | ⟨hmore, hcoll, hcalls⟩
      · have hc : c = [] := by
          have hlen := hpre.length_le
          rw [← hend, List.length_append] at hlen
          exact List.length_eq_zero_iff.mp (by omega)
        subst hc
        exact Or.inl ⟨by rw [List.append_nil, hend], hrest.idle, by simpa using hcalls⟩
      · rcases hcoll.readAll hmore hpre with ⟨hend, hrest, hnew⟩ | ⟨hmore', hcoll', hnew⟩
        · exact Or.inl ⟨hend, hrest.idle, by rw [hcalls, hnew]; rfl⟩
        · refine Or.inr ⟨hmore', hcoll'.idle fun hne ↦ ?_, by rw [hcalls, hnew]; rfl⟩
          exact hquiet cs c [] rfl (by rwa [hflat]) (by rwa [hflat])

/-- A text message leads to one call, whatever the calls of `loop()` are, and
the handler finds it written over what the buffer held. -/
theorem Waiting.run_text {r : Receiver} (h : r.Waiting) {cs : List (List Byte)}
    (hcs : cs.flatten = f.bytes) (hquiet : r.WithoutReset f.bytes cs) :
    (r.run cs).2 = [.processTextMessage (overwrite r.serialData (f.bytes ++ [0]))] := by
  rcases h.received cs (hcs ▸ List.prefix_rfl) hquiet with ⟨-, -, hcalls⟩ | ⟨hne, -⟩
  · exact hcalls
  · exact absurd hcs hne

theorem withoutReset_singleton (r : Receiver) (f : List Byte) : r.WithoutReset f [f] := by
  intro pre c post heq hne hnot
  cases pre with
  | nil =>
      obtain ⟨rfl, -⟩ := List.cons.inj heq
      exact absurd (by simp) hnot
  | cons x pre =>
      have hlen := congrArg List.length heq
      simp at hlen

end Receiver

namespace Machine

variable {π : Type} (hal : Hal π)

/-- Calls of `loop()` that find these bytes available. -/
def feed (cs : List (List Byte)) (s : Machine π) : Machine π :=
  cs.foldl (fun s avail ↦ s.loop hal avail) s

theorem feed_eq (cs : List (List Byte)) (s : Machine π) :
    s.feed hal cs =
      { rx := (s.rx.run cs).1
        board := (s.rx.run cs).2.foldl (fun b c ↦ c.run hal b) s.board } := by
  induction cs generalizing s with
  | nil => rfl
  | cons c cs ih =>
      rw [Receiver.run_cons, List.foldl_append]
      exact ih (s.loop hal c)

theorem board_feed_text {s : Machine π} (h : s.rx.Waiting) {f : TextSequence}
    {cs : List (List Byte)} (hcs : cs.flatten = f.bytes) (hquiet : s.rx.WithoutReset f.bytes cs) :
    (s.feed hal cs).board =
      processTextMessage hal (overwrite s.rx.serialData (f.bytes ++ [0])) s.board := by
  rw [feed_eq, h.run_text hcs hquiet]
  rfl

end Machine

/-! ## The command letter -/

/-- The type on which the handler dispatches. -/
def Call.type : Call → Byte
  | .processMessage serialData => serialData 0
  | .processTextMessage serialData => serialData 0

theorem overwrite_zero (d : Buffer) (p : List Byte) :
    overwrite d (p ++ [0]) 0 = (p ++ [0]).getD (256 * (p.length / 256)) 0 := by
  have hread := holds_overwrite d (p ++ [0]) 0 (by decide)
  have hlatest : Cyclic.latest 256 (p ++ [0]).length 0 = 256 * (p.length / 256) := by
    rw [Cyclic.latest, List.length_append, List.length_singleton]
    simp
  have hlt : 256 * (p.length / 256) < (p ++ [0]).length := by
    rw [List.length_append, List.length_singleton]
    omega
  rw [if_pos (by simp), hlatest, List.getD_eq_getElem _ _ hlt] at hread
  rw [List.getD_eq_getElem _ _ hlt]
  exact hread

def inert : Machine Unit where
  rx := Receiver.zeroed
  board :=
    { pwm := ⟨fun _ ↦ ⟨0, false⟩, clearedRegs⟩
      pins := () }

namespace TextSequence

/-- The byte that lies at the start of the buffer in the end, when it is not
the terminator. -/
def letter (f : TextSequence) : Byte := f.bytes.getD (256 * (f.bytes.length / 256)) 0

theorem overwrite_letter (f : TextSequence) (d : Buffer) :
    overwrite d (f.bytes ++ [0]) 0 = if 256 ∣ f.bytes.length then 0 else f.letter := by
  rw [overwrite_zero, letter]
  split_ifs with hdvd
  · rw [Nat.mul_div_cancel' hdvd, List.getD_append_right _ _ _ _ (Nat.le_refl _), Nat.sub_self]
    rfl
  · rw [List.getD_append]
    omega

theorem letter_of_short {f : TextSequence} (h : f.bytes.length ≤ 255) : f.letter = f.first := by
  rw [letter, Nat.div_eq_of_lt (by omega)]
  rfl

/-- A text message is dispatched on its first byte or ignored if and only if it
fits the buffer, or its length is a multiple of 256, or the byte that comes to
lie at the start is the same or no letter of a command. -/
theorem dispatch_iff {π : Type} (hal : Hal π) {s : Machine π} (h : s.rx.Waiting) (f : TextSequence)
    {cs : List (List Byte)} (hcs : cs.flatten = f.bytes) (hquiet : s.rx.WithoutReset f.bytes cs) :
    ((s.rx.run cs).2.map Call.type = [f.first] ∨ (s.feed hal cs).board = s.board) ↔
      f.bytes.length ≤ 255 ∨ 256 ∣ f.bytes.length ∨
        f.bytes.getD (256 * (f.bytes.length / 256)) 0 = f.first ∨
          ¬ IsLetter (f.bytes.getD (256 * (f.bytes.length / 256)) 0) := by
  have htype : (s.rx.run cs).2.map Call.type =
      [if 256 ∣ f.bytes.length then 0 else f.letter] := by
    rw [h.run_text hcs hquiet, ← f.overwrite_letter s.rx.serialData]
    rfl
  rw [htype, Machine.board_feed_text hal h hcs hquiet, processTextMessage_eq_self_iff,
    f.overwrite_letter]
  change _ ↔ _ ∨ _ ∨ f.letter = f.first ∨ ¬ IsLetter f.letter
  by_cases hdvd : 256 ∣ f.bytes.length
  · rw [if_pos hdvd]
    exact iff_of_true (Or.inr (by decide)) (Or.inr (Or.inl hdvd))
  · rw [if_neg hdvd, List.singleton_inj]
    constructor
    · exact fun hkept ↦ Or.inr (Or.inr hkept)
    · rintro (hshort | hmul | hkept)
      · exact Or.inl (letter_of_short hshort)
      · exact absurd hmul hdvd
      · exact hkept

/-- `padding` times the letter `x` before the text. -/
def padded (padding : ℕ) (text : String) (h : serialTextMsgDelimiter ∉ ascii text) :
    TextSequence where
  first := 0x78
  body := List.replicate padding 0x78 ++ ascii text
  first_ge := by decide
  not_mem := by
    rw [List.mem_append, not_or]
    refine ⟨fun hmem ↦ ?_, h⟩
    exact absurd (List.eq_of_mem_replicate hmem) (by decide)

theorem dispatch_short :
    (inert.rx.run [(padded 3 "B1301" (by decide)).bytes]).2.map Call.type = [0x78] ∨
      (inert.feed fixedHal [(padded 3 "B1301" (by decide)).bytes]).board = inert.board :=
  (dispatch_iff fixedHal ⟨rfl, rfl⟩ (padded 3 "B1301" (by decide)) (List.flatten_singleton)
    (Receiver.withoutReset_singleton _ _)).mpr (Or.inl (by decide))

/-- With 255 more bytes the same message sets the mode of a pin. -/
theorem dispatch_long :
    ¬ ((inert.rx.run [(padded 255 "B1301" (by decide)).bytes]).2.map Call.type = [0x78] ∨
      (inert.feed fixedHal [(padded 255 "B1301" (by decide)).bytes]).board = inert.board) := by
  have hquiet := Receiver.withoutReset_singleton inert.rx (padded 255 "B1301" (by decide)).bytes
  have hrest : inert.rx.Waiting := ⟨rfl, rfl⟩
  have hletter (d : Buffer) :
      overwrite d ((padded 255 "B1301" (by decide)).bytes ++ [0]) 0 = 0x42 := by
    rw [overwrite_letter]
    decide +kernel
  rintro (htype | hboard)
  · rw [hrest.run_text List.flatten_singleton hquiet] at htype
    exact absurd ((hletter _).symm.trans (List.singleton_inj.mp htype)) (by decide)
  · rw [Machine.board_feed_text fixedHal hrest List.flatten_singleton hquiet,
      processTextMessage_eq_self_iff, hletter] at hboard
    exact hboard (by decide)

end TextSequence

/-! ## Bytes of earlier messages -/

theorem overwrite_of_lt (d : Buffer) {p : List Byte} (hp : p.length ≤ 256) {i : ℕ}
    (hi : i < p.length) : overwrite d p (BitVec.ofNat 8 i) = p.getD i 0 := by
  have hread := holds_overwrite d p i (by omega)
  have hlatest : Cyclic.latest 256 p.length i = i :=
    Cyclic.latest_eq hi (by omega) (Nat.mod_eq_of_lt (by omega))
  rw [if_pos hi, hlatest, List.getD_eq_getElem _ _ hi] at hread
  rw [List.getD_eq_getElem _ _ hi]
  exact hread

theorem overwrite_of_le (d : Buffer) {p : List Byte} {i : ℕ} (hi : p.length ≤ i) (hlt : i < 256) :
    overwrite d p (BitVec.ofNat 8 i) = d (BitVec.ofNat 8 i) := by
  have hread := holds_overwrite d p i hlt
  rw [if_neg (by omega)] at hread
  exact hread

/-- What is done for a message does not depend on what was in the buffer, nor
on the calls of `loop()` in which it is received. -/
def OwnBytes {π : Type} (hal : Hal π) (b : Board π) (f : TextSequence) : Prop :=
  ∀ (r r' : Receiver) (cs cs' : List (List Byte)), r.Waiting → r'.Waiting →
    cs.flatten = f.bytes → cs'.flatten = f.bytes →
    r.WithoutReset f.bytes cs → r'.WithoutReset f.bytes cs' →
      (Machine.feed hal cs ⟨r, b⟩).board = (Machine.feed hal cs' ⟨r', b⟩).board

theorem ownBytes_iff_forall_buffers {π : Type} (hal : Hal π) (b : Board π) (f : TextSequence) :
    OwnBytes hal b f ↔ ∀ d d' : Buffer,
      processTextMessage hal (overwrite d (f.bytes ++ [0])) b =
        processTextMessage hal (overwrite d' (f.bytes ++ [0])) b := by
  constructor
  · intro h d d'
    have hrest (d : Buffer) : Receiver.Waiting ⟨d, 0, 0, .waitType, 0⟩ := ⟨rfl, rfl⟩
    have hsame := h ⟨d, 0, 0, .waitType, 0⟩ ⟨d', 0, 0, .waitType, 0⟩ [f.bytes] [f.bytes]
      (hrest d) (hrest d') List.flatten_singleton List.flatten_singleton
      (Receiver.withoutReset_singleton _ _) (Receiver.withoutReset_singleton _ _)
    rwa [Machine.board_feed_text hal (hrest d) List.flatten_singleton
        (Receiver.withoutReset_singleton _ _),
      Machine.board_feed_text hal (hrest d') List.flatten_singleton
        (Receiver.withoutReset_singleton _ _)] at hsame
  · intro h r r' cs cs' hr hr' hcs hcs' hquiet hquiet'
    rw [Machine.board_feed_text hal (s := ⟨r, b⟩) hr hcs hquiet,
      Machine.board_feed_text hal (s := ⟨r', b⟩) hr' hcs' hquiet']
    exact h r.serialData r'.serialData

namespace TextSequence

variable {f : TextSequence} (hlen : f.bytes.length ≤ 255)

include hlen

theorem overwrite_first (d : Buffer) : overwrite d (f.bytes ++ [0]) 0 = f.first := by
  have hlen' : (f.bytes ++ [0]).length = f.bytes.length + 1 := List.length_append
  have hread := overwrite_of_lt d (p := f.bytes ++ [0]) (by omega) (i := 0) (by omega)
  exact hread

/-- The message and its terminator hide what was in the buffer before. -/
theorem overwrite_own (d d' : Buffer) {i : ℕ} (hi : i ≤ f.bytes.length) :
    overwrite d (f.bytes ++ [0]) (BitVec.ofNat 8 i) =
      overwrite d' (f.bytes ++ [0]) (BitVec.ofNat 8 i) := by
  have hlen' : (f.bytes ++ [0]).length = f.bytes.length + 1 := List.length_append
  rw [overwrite_of_lt d (by omega) (by omega), overwrite_of_lt d' (by omega) (by omega)]

theorem decodeText_own (hreach : reach f.first.toNat ≤ f.bytes.length) (d d' : Buffer) :
    decodeText (overwrite d (f.bytes ++ [0])) = decodeText (overwrite d' (f.bytes ++ [0])) := by
  apply decodeText_congr
  intro i hi
  rw [overwrite_first hlen] at hi
  exact overwrite_own hlen d d' (hi.trans hreach)

/-- Two buffers that differ only in the last byte that is read. -/
theorem exists_decodeText_ne (hfar : f.bytes.length < reach f.first.toNat) :
    ∃ d d' : Buffer,
      decodeText (overwrite d (f.bytes ++ [0])) ≠ decodeText (overwrite d' (f.bytes ++ [0])) := by
  refine ⟨fun _ ↦ 0, Function.update (fun _ ↦ 0) (BitVec.ofNat 8 (reach f.first.toNat)) 1, ?_⟩
  intro hdecode
  have hle := reach_le f.first.toNat
  have htwo : 2 ≤ f.bytes.length := by simp [bytes]
  have hlen' : (f.bytes ++ [0]).length = f.bytes.length + 1 := List.length_append
  have hlast := eq_of_decodeText_eq (by rw [overwrite_first hlen]; omega) (fun i hi ↦ ?_) hdecode
  · rw [overwrite_first hlen, overwrite_of_le _ (by omega) (by omega),
      overwrite_of_le _ (by omega) (by omega), Function.update_self] at hlast
    exact absurd hlast (by decide)
  · rw [overwrite_first hlen] at hi
    by_cases hin : i ≤ f.bytes.length
    · exact overwrite_own hlen _ _ hin
    · have hne : BitVec.ofNat 8 i ≠ BitVec.ofNat 8 (reach f.first.toNat) := by
        intro heq
        have hnat := congrArg BitVec.toNat heq
        simp only [BitVec.toNat_ofNat] at hnat
        omega
      rw [overwrite_of_le _ (by omega) (by omega), overwrite_of_le _ (by omega) (by omega),
        Function.update_of_ne hne]

end TextSequence

/-- A text message that fits the buffer is handled by its own bytes if and only
if the handler reads no further than its terminator. -/
theorem ownBytes_iff {π : Type} (hal : Hal π) (b : Board π) {f : TextSequence}
    (hlen : f.bytes.length ≤ 255) :
    OwnBytes hal b f ↔ reach f.first.toNat ≤ f.bytes.length := by
  rw [ownBytes_iff_forall_buffers]
  constructor
  · intro h
    by_contra hfar
    obtain ⟨d, d', hne⟩ := TextSequence.exists_decodeText_ne hlen (Nat.lt_of_not_le hfar)
    exact hne (decodeText_eq_of_processTextMessage_eq hal b (h d d'))
  · intro hreach d d'
    rw [processTextMessage_eq, processTextMessage_eq, TextSequence.decodeText_own hlen hreach d d']

/-- `B1301;` -/
def wholeCommand : TextSequence := ⟨0x42, ascii "1301", by decide, by decide⟩

theorem ownBytes_wholeCommand : OwnBytes fixedHal inert.board wholeCommand :=
  (ownBytes_iff fixedHal inert.board (by decide)).mpr (by decide)

/-- `B1;` -/
def cutCommand : TextSequence := ⟨0x42, ascii "1", by decide, by decide⟩

/-- The mode is taken from the command before. -/
theorem not_ownBytes_cutCommand :
    ¬ OwnBytes fixedHal inert.board cutCommand := by
  intro h
  have hsame := h (Receiver.zeroed.readAll (ascii "B0000;")).1
    (Receiver.zeroed.readAll (ascii "B0001;")).1 [cutCommand.bytes] [cutCommand.bytes]
    ⟨by decide +kernel, by decide +kernel⟩ ⟨by decide +kernel, by decide +kernel⟩
    List.flatten_singleton List.flatten_singleton
    (Receiver.withoutReset_singleton _ _) (Receiver.withoutReset_singleton _ _)
  exact absurd (congrArg Board.ops hsame) (by decide +kernel)

end Rover.Slave
