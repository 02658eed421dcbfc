import Rover.Link.Hearing
import Rover.Link.Refinement

/-!
# Requests with lost bytes

The argument bytes of a request may be read as a type byte when those before
them are lost.  A single byte is a complete message only if it is 0, which does
nothing; so only a `pwmDuty` request without its type byte can be taken for
another command.
-/

namespace Rover.Link

open Messages Arduino Slave Line

variable {π : Type} (hal : Hal π)

/-- The argument bytes of a `pwmDuty` request are a complete message, and
`process_message` performs this operation when it is given them. -/
def Misread (q : Request) (op : HwOp) : Prop :=
  ∃ timer channel duty, q = .pwmDuty timer channel duty ∧ messageComplete q.bytes.tail = true ∧
    ∃ (serialData : Buffer) (b : Board π), StartsWith serialData q.bytes.tail ∧
      ∃ new, op ∈ new ∧ (processMessage hal serialData b).ops = b.ops ++ new

/-! ## Complete messages within a request -/

theorem run_of_single {y : Byte} (hc : messageComplete [y] = true) {c : Slave.Call}
    (hh : c.Handles [y]) (b : Board π) : c.run hal b = b := by
  have hbin : y.toNat < msgSizeByType.length ∧ 1 = msgSize y := by
    simpa [messageComplete] using hc
  have hzero : y.toNat = 0 := by
    obtain ⟨hlt, hsize⟩ : y.toNat < 7 ∧ 1 = msgSize y := hbin
    unfold msgSize at hsize
    interval_cases hy : y.toNat <;> first | rfl | exact absurd hsize (by decide)
  have hy : y = 0 := BitVec.eq_of_toNat_eq (by simpa using hzero)
  subst hy
  cases c with
  | processMessage serialData =>
      have h0 : serialData 0 = 0 := hh.2 0 (by simp)
      simp only [Call.run, processMessage, h0, show MsgType.ofByte? 0 =
        some .logInfoRequest from rfl]
  | processTextMessage serialData => exact absurd hh.1 (by decide)

theorem tail_of_pair {z x : Byte} {f : List Byte} (hsub : f.Sublist [6, z, x])
    (hc : messageComplete f = true) (hlen : f.length = 2) : f = [z, x] := by
  rcases List.sublist_cons_iff.mp hsub with hsub | ⟨r, rfl, -⟩
  · exact hsub.eq_of_length hlen
  · have hsize : r.length + 1 = 3 := of_decide_eq_true hc
    rw [List.length_cons] at hlen
    omega

theorem timerChannel_lt {timer channel : Byte} (duty : Byte) (htimer : timer.toNat < 4)
    (hchannel : channel.toNat < 2) : (pwmDutyMsg timer channel duty).timerChannel.toNat < 8 := by
  have ht : timer = 0#8 ∨ timer = 1#8 ∨ timer = 2#8 ∨ timer = 3#8 := by bv_omega
  have hc : channel = 0#8 ∨ channel = 1#8 := by bv_omega
  simp only [pwmDutyMsg]
  rcases ht with rfl | rfl | rfl | rfl <;> rcases hc with rfl | rfl <;> decide

theorem processTextMessage_of_lt {serialData : Buffer} (h : (serialData 0).toNat < 65)
    (b : Board π) : processTextMessage hal serialData b = b := by
  unfold processTextMessage
  split <;> first | rfl | omega

theorem misread_of_tail {timer channel duty : Byte}
    (hq : (Request.pwmDuty timer channel duty).InRange) {f : List Byte}
    (hf : f = (Request.pwmDuty timer channel duty).bytes.tail)
    (hcomplete : messageComplete f = true) {c : Slave.Call} (hh : c.Handles f) {b : Board π} {new : List HwOp}
    (hnew : (c.run hal b).ops = b.ops ++ new) {op : HwOp} (hop : op ∈ new) :
    Misread hal (.pwmDuty timer channel duty) op := by
  subst hf
  refine ⟨timer, channel, duty, rfl, hcomplete, ?_⟩
  cases c with
  | processMessage serialData => exact ⟨serialData, b, hh.2, new, hop, hnew⟩
  | processTextMessage serialData =>
      -- no text message starts with such a byte, so nothing is done
      have h0 : serialData 0 = (pwmDutyMsg timer channel duty).timerChannel := hh.2 0 (by simp)
      have hbyte := timerChannel_lt duty hq.1 hq.2
      have hrun : processTextMessage hal serialData b = b :=
        processTextMessage_of_lt hal (by rw [h0]; omega) b
      change (processTextMessage hal serialData b).ops = _ at hnew
      rw [hrun, List.self_eq_append_right] at hnew
      simp [hnew] at hop

/-- A complete message among the bytes of a request is the request, or does
nothing, or is a `pwmDuty` request without its type byte. -/
theorem run_of_frame {q : Request} {f : List Byte} (hsub : f.Sublist q.bytes)
    (hc : messageComplete f = true) {c : Slave.Call} (hh : c.Handles f) (b : Board π) :
    f = q.bytes ∨ c.run hal b = b ∨
      (∃ timer channel duty, q = .pwmDuty timer channel duty) ∧ f = q.bytes.tail := by
  by_cases hfull : f = q.bytes
  · exact Or.inl hfull
  have hnil : f.length ≠ 0 := by
    intro hlen
    rw [List.length_eq_zero_iff.mp hlen] at hc
    exact absurd hc (by decide)
  by_cases hone : f.length = 1
  · obtain ⟨y, rfl⟩ := List.length_eq_one_iff.mp hone
    exact Or.inr (Or.inl (run_of_single hal hc hh b))
  have hlt : f.length < q.bytes.length :=
    lt_of_le_of_ne hsub.length_le fun hlen ↦ hfull (hsub.eq_of_length hlen)
  cases q with
  | pwmDuty timer channel duty =>
      have hlen : f.length < 3 := hlt
      exact Or.inr (Or.inr ⟨⟨timer, channel, duty, rfl⟩, tail_of_pair hsub hc (by omega)⟩)
  | pinMode pin mode =>
      have hlen : f.length < 2 := hlt
      omega
  | initPwm timer channel prescale =>
      have hlen : f.length < 2 := hlt
      omega
  | analogRead pin =>
      have hlen : f.length < 2 := hlt
      omega

/-- What the slave does with the frames of a request in which bytes are lost. -/
theorem Ran.of_frames {q : Request} (hq : q.InRange) {fs : List (List Byte)} {ops : List HwOp}
    {written : List Byte} (h : Ran hal fs ops written)
    (hfs : ∀ f ∈ fs, f.Sublist q.bytes ∧ messageComplete f = true) :
    (∀ op ∈ ops, Performs q op ∨ Misread hal q op) ∧
      ((∀ timer channel duty, q = .pwmDuty timer channel duty → q.bytes.tail ∉ fs) →
        (∀ op ∈ ops, Performs q op) ∧ (written ≠ [] → ops ≠ [])) := by
  induction h with
  | nil => simp
  | @cons c b f fs new ops reply written hh hnew hreply _ ih =>
      obtain ⟨hsub, hcomplete⟩ := hfs f List.mem_cons_self
      obtain ⟨hall, hexact⟩ := ih fun g hg ↦ hfs g (List.mem_cons_of_mem f hg)
      have hlater (hkept : ∀ timer channel duty, q = .pwmDuty timer channel duty →
          q.bytes.tail ∉ f :: fs) :=
        hexact fun timer channel duty hpwm hmem ↦
          hkept timer channel duty hpwm (List.mem_cons_of_mem f hmem)
      rcases run_of_frame hal hsub hcomplete hh b with rfl | hidle | ⟨hpwm, htail⟩
      · rw [Request.run_of_handles hal hq hh, Request.exec_ops] at hnew
        obtain rfl := List.append_cancel_left hnew
        have hfirst := performs_op hal q b
        refine ⟨?_, fun hkept ↦ ⟨?_, fun _ ↦ List.cons_ne_nil _ _⟩⟩
        · exact List.forall_mem_cons.mpr ⟨Or.inl hfirst, hall⟩
        · exact List.forall_mem_cons.mpr ⟨hfirst, (hlater hkept).1⟩
      · rw [hidle, List.self_eq_append_right] at hnew hreply
        subst hnew hreply
        exact ⟨hall, hlater⟩
      · obtain ⟨timer, channel, duty, rfl⟩ := hpwm
        refine ⟨fun op hop ↦ ?_, fun hkept ↦ ?_⟩
        · rcases List.mem_append.mp hop with hop | hop
          · exact Or.inr (misread_of_tail hal hq htail hcomplete hh hnew hop)
          · exact hall op hop
        · exact absurd (htail ▸ List.mem_cons_self) (hkept timer channel duty rfl)

/-! ## Calls -/

theorem heard_eq_tail_of_mem {q : Request} {heard p : List Byte} {fs : List (List Byte)}
    (hsub : heard.Sublist q.bytes) (hfeed : Framing.feed messageComplete [] heard = (p, fs))
    (hmem : q.bytes.tail ∈ fs) : heard = q.bytes.tail := by
  have hle : q.bytes.tail.Sublist heard := by
    have hflat := Framing.flatten_feed messageComplete [] heard
    rw [hfeed, List.nil_append] at hflat
    rw [← hflat]
    exact (List.sublist_flatten_of_mem hmem).trans (List.sublist_append_left _ _)
  have hne : heard ≠ q.bytes := by
    rintro rfl
    have hframe := (Request.isBinaryFrame_bytes q).isFrame
    rw [hframe.feed_self] at hfeed
    have hfs : fs = [q.bytes] := (congrArg Prod.snd hfeed).symm
    rw [hfs, List.mem_singleton] at hmem
    have hlen := congrArg List.length hmem
    rw [List.length_tail] at hlen
    have hpos := List.length_pos_of_ne_nil hframe.ne_nil
    omega
  have hlt : heard.length < q.bytes.length :=
    lt_of_le_of_ne hsub.length_le fun hlen ↦ hne (hsub.eq_of_length hlen)
  refine (hle.eq_of_length_le ?_).symm
  rw [List.length_tail]
  omega

/-- Nothing is on its way to the slave, and it waits for a type byte, when an
attempt starts. -/
def RestsBetween (q : Request) (d : ArduinoSlave (Line π)) : Prop :=
  ∀ i < d.maxRetry, FailedBefore hal q d.port i → AtRest ((fail hal q.bytes)^[i] d.port).wire

/-- No attempt is heard without its type byte alone, or cut by an idle reset. -/
def KeepsType (q : Request) (d : ArduinoSlave (Line π)) : Prop :=
  ∀ i < d.maxRetry, ∀ k, Ends hal q d.port i k →
    let u := ((fail hal q.bytes)^[i] d.port).wire
    let w := (after hal q.bytes k ((fail hal q.bytes)^[i] d.port)).wire
    w.cuts = u.cuts ∧ w.heard ≠ u.heard ++ q.bytes.tail

theorem executed_of_rests {q : Request} {d : ArduinoSlave (Line π)} (hrest : RestsBetween hal q d) :
    Executed hal (fun f ↦ f.Sublist q.bytes ∧ messageComplete f = true ∧
        (KeepsType hal q d → f ≠ q.bytes.tail))
      d.port.wire (perform (port hal) q d).2.port.wire := by
  refine executed_perform hrest fun i hi k hends heard p fs ops written h f hf ↦ ?_
  refine ⟨(h.frames f hf).1, (h.frames f hf).2, fun hkept ↦ ?_⟩
  obtain ⟨hcuts, hheard⟩ := hkept i hi k hends
  rintro rfl
  apply hheard
  rw [h.heard_eq, heard_eq_tail_of_mem ((List.sublist_append_left _ _).trans h.requests)
    (h.uncut hcuts) hf]

/-- What a call makes the slave do that finds it at rest before each attempt,
whatever bytes are lost. -/
theorem effects_of_rests {q : Request} (hq : q.InRange) {d : ArduinoSlave (Line π)}
    (hrest : RestsBetween hal q d) :
    ∃ ops written, (perform (port hal) q d).2.port.wire.slave.board.ops =
        d.port.wire.slave.board.ops ++ ops ∧
      (perform (port hal) q d).2.port.wire.slave.board.written =
        d.port.wire.slave.board.written ++ written ∧
      (∀ op ∈ ops, Performs q op ∨ Misread hal q op) ∧
      ((∀ timer channel duty, q = .pwmDuty timer channel duty → KeepsType hal q d) →
        (∀ op ∈ ops, Performs q op) ∧ (written ≠ [] → ops ≠ [])) := by
  obtain ⟨fs, ops, written, hran, hops, hwritten, hfs⟩ := executed_of_rests hal hrest
  obtain ⟨hall, hexact⟩ := hran.of_frames hal hq fun f hf ↦ ⟨(hfs f hf).1, (hfs f hf).2.1⟩
  refine ⟨ops, written, hops, hwritten, hall, fun hkept ↦ hexact ?_⟩
  intro timer channel duty hpwm hmem
  exact (hfs _ hmem).2.2 (hkept timer channel duty hpwm) rfl

/-- Whatever bytes of its attempts are lost, a call that finds the slave at
rest before each attempt makes it perform the operation of the call, or the one
that the argument bytes of `pwmDuty` stand for; and the latter only if an
attempt is heard without its type byte, or is cut by an idle reset. -/
theorem ops_of_lossy_call (hal : Hal π) (q : Request) (hq : q.InRange)
    (d : ArduinoSlave (Line π)) (hrest : RestsBetween hal q d) :
    ∃ ops, (perform (port hal) q d).2.port.wire.slave.board.ops =
        d.port.wire.slave.board.ops ++ ops ∧
      (∀ op ∈ ops, Performs q op ∨ Misread hal q op) ∧
      (KeepsType hal q d → ∀ op ∈ ops, Performs q op) := by
  obtain ⟨ops, written, hops, -, hall, hexact⟩ := effects_of_rests hal hq hrest
  exact ⟨ops, hops, hall, fun hkept ↦ (hexact fun _ _ _ _ ↦ hkept).1⟩

def planned (plans : List Plan) : ArduinoSlave (Line Unit) :=
  { start blankSlave with port := { (start blankSlave).port with plans := plans } }

/-- The first attempt loses its argument, and after an idle reset the second
arrives whole. -/
def halfLost : List Plan :=
  [⟨[], [[], [.loseRequest 1 1, .loop 1]] ++ List.replicate 28 (List.replicate 10 (.loop 0))⟩,
    ⟨[], [[], [.loop 2], [.arrive 1]]⟩]

theorem ops_of_lossy_call_halfLost :
    ∃ ops, (perform (port fixedHal) (.initPwm 0 1 1) (planned halfLost)).2.port.wire.slave.board.ops
        = [] ++ ops ∧ ∀ op ∈ ops,
      Performs (.initPwm 0 1 1) op ∨ Misread fixedHal (.initPwm 0 1 1) op := by
  obtain ⟨ops, hops, hall, -⟩ := ops_of_lossy_call fixedHal (.initPwm 0 1 1) (by decide)
    (planned halfLost) (by
      intro i hi hfailed
      by_cases h1 : 1 < i
      · exact absurd (hfailed 1 h1) (by decide +kernel)
      · interval_cases i
        · exact ⟨rfl, (quiet_start blankSlave).holding⟩
        · exact ⟨by decide +kernel,
            (Receiver.holding_nil_iff _).mpr ⟨by decide +kernel, by decide +kernel⟩⟩)
  exact ⟨ops, hops, hall⟩

def typeLost : List Plan := [⟨[], [[.loseRequest 0 1], [], [.loop 2], [.arrive 1]]⟩]

/-- The duty of timer 0 is to be set, and the slave changes the mode of pin 8. -/
theorem typeLost_pwmDuty_performs_pinMode :
    (Request.pwmDuty 0 1 200).InRange ∧
      (∀ i < (planned typeLost).maxRetry,
        FailedBefore fixedHal (.pwmDuty 0 1 200) (planned typeLost).port i →
          AtRest ((fail fixedHal (Request.pwmDuty 0 1 200).bytes)^[i]
            (planned typeLost).port).wire) ∧
      (perform (port fixedHal) (.pwmDuty 0 1 200) (planned typeLost)).2.port.wire.slave.board.ops =
        (planned typeLost).port.wire.slave.board.ops ++ [.pinMode 8 3] ∧
      ¬ Performs (.pwmDuty 0 1 200) (.pinMode 8 3) := by
  refine ⟨by decide, fun i hi hfailed ↦ ?_, by decide +kernel, fun h ↦ HwOp.noConfusion h⟩
  by_cases h0 : 0 < i
  · exact absurd (hfailed 0 h0) (by decide +kernel)
  · obtain rfl : i = 0 := by omega
    exact ⟨rfl, (quiet_start blankSlave).holding⟩

end Rover.Link
