import Rover.Link.Service

/-!
# What the slave makes of the bytes it hears

Whatever is lost, the bytes that the slave collects in one attempt are bytes of
the request, in order.  The handler calls are those of the frames of the bytes
heard, as long as no idle reset cuts a message short.
-/

namespace Rover.Link

open Arduino Slave Line

variable {π : Type} (hal : Hal π)

/-- The frames `fs` were handled one after the other, with these operations
and these bytes written. -/
inductive Ran : List (List Byte) → List HwOp → List Byte → Prop
  | nil : Ran [] [] []
  | cons {c : Slave.Call} {b : Board π} {f : List Byte} {fs : List (List Byte)}
      {new ops : List HwOp} {reply written : List Byte} (hc : c.Handles f)
      (hops : (c.run hal b).ops = b.ops ++ new)
      (hwritten : (c.run hal b).written = b.written ++ reply) (h : Ran fs ops written) :
      Ran (f :: fs) (new ++ ops) (reply ++ written)

namespace Ran

variable {hal}

theorem append {fs gs : List (List Byte)} {ops ops' : List HwOp} {written written' : List Byte}
    (h : Ran hal fs ops written) (h' : Ran hal gs ops' written') :
    Ran hal (fs ++ gs) (ops ++ ops') (written ++ written') := by
  induction h with
  | nil => exact h'
  | cons hc hops hwritten _ ih =>
      rw [List.cons_append, List.append_assoc, List.append_assoc]
      exact .cons hc hops hwritten ih

variable (hal) in
theorem of_calls {calls : List Slave.Call} {fs : List (List Byte)}
    (h : List.Forall₂ Call.Handles calls fs) (b : Board π) :
    ∃ ops written, Ran hal fs ops written ∧
      (calls.foldl (fun b c ↦ c.run hal b) b).ops = b.ops ++ ops ∧
      (calls.foldl (fun b c ↦ c.run hal b) b).written = b.written ++ written := by
  induction h generalizing b with
  | nil => exact ⟨[], [], .nil, by simp, by simp⟩
  | @cons c f _ _ hc _ ih =>
      obtain ⟨new, reply, hops, hwritten, -⟩ := extends_run hal c b
      obtain ⟨ops, written, hran, hops', hwritten'⟩ := ih (c.run hal b)
      refine ⟨new ++ ops, reply ++ written, .cons hc hops hwritten hran, ?_, ?_⟩
      · rw [List.foldl_cons, hops', hops, List.append_assoc]
      · rw [List.foldl_cons, hwritten', hwritten, List.append_assoc]

end Ran

/-- What the slave has made of an attempt that started at `u`, when the bytes
`put` of the request have been sent. -/
structure Hearing (u w : Wire π) (put heard p : List Byte) (fs : List (List Byte))
    (ops : List HwOp) (written : List Byte) : Prop where
  heard_eq : w.heard = u.heard ++ heard
  requests : (heard ++ w.toSlave).Sublist put
  holding : w.slave.rx.Holding p
  suffix : p <:+ heard
  collected : (fs.flatten ++ p).Sublist heard
  ran : Ran hal fs ops written
  ops_eq : w.slave.board.ops = u.slave.board.ops ++ ops
  written_eq : w.slave.board.written = u.slave.board.written ++ written
  frames : ∀ f ∈ fs, f.Sublist put ∧ messageComplete f = true
  cuts_le : u.cuts ≤ w.cuts
  uncut : w.cuts = u.cuts → Framing.feed messageComplete [] heard = (p, fs)

def Hears (u : Wire π) (put : List Byte) (w : Wire π) : Prop :=
  ∃ heard p fs ops written, Hearing hal u w put heard p fs ops written

namespace Hearing

variable {hal} {u w : Wire π} {put heard p : List Byte} {fs : List (List Byte)}
  {ops : List HwOp} {written : List Byte}

theorem collected_le (h : Hearing hal u w put heard p fs ops written) (n : ℕ) :
    (p ++ w.toSlave.take n).Sublist put := by
  refine List.Sublist.trans ?_ h.requests
  exact h.suffix.sublist.append (List.take_sublist n w.toSlave)

theorem roomy (hput : put.length < 255) (h : Hearing hal u w put heard p fs ops written) (n : ℕ) :
    Receiver.Roomy p (w.toSlave.take n) := by
  intro r hr
  have hlen := congrArg List.length (Framing.flatten_feed messageComplete p r)
  have hle := (h.collected_le n).length_le
  have hr' := hr.length_le
  rw [List.length_append, List.length_append] at hlen
  rw [List.length_append] at hle
  omega

theorem frames_loop (h : Hearing hal u w put heard p fs ops written) (n : ℕ) :
    ∀ f ∈ (Framing.feed messageComplete p (w.toSlave.take n)).2,
      f.Sublist put ∧ messageComplete f = true := by
  intro f hf
  refine ⟨List.Sublist.trans ?_ (h.collected_le n), Framing.complete_of_mem_feed hf⟩
  rw [← Framing.flatten_feed messageComplete p (w.toSlave.take n)]
  exact (List.sublist_flatten_of_mem hf).trans (List.sublist_append_left _ _)

theorem loop (hput : put.length < 255) (h : Hearing hal u w put heard p fs ops written) (n : ℕ) :
    Hears hal u put (w.step hal (.loop n)) := by
  obtain ⟨hhold, calls, hcalls, hboard⟩ := Wire.holding_loop hal h.holding n (h.roomy hput n)
  obtain ⟨new, reply, hran, hops, hwritten⟩ := Ran.of_calls hal hcalls w.slave.board
  refine ⟨heard ++ w.toSlave.take n, _, _, _, _,
    { heard_eq := ?_, requests := ?_, holding := hhold, suffix := ?_, collected := ?_,
      ran := h.ran.append hran, ops_eq := ?_, written_eq := ?_, frames := ?_,
      cuts_le := ?_, uncut := ?_ }⟩
  · change w.heard ++ w.toSlave.take n = _
    rw [h.heard_eq, List.append_assoc]
  · change (heard ++ w.toSlave.take n ++ w.toSlave.drop n).Sublist put
    rw [List.append_assoc, List.take_append_drop]
    exact h.requests
  · split
    · exact List.nil_suffix
    · have hrest : (Framing.feed messageComplete p (w.toSlave.take n)).1 <:+
          p ++ w.toSlave.take n := ⟨_, Framing.flatten_feed messageComplete _ _⟩
      exact hrest.trans (List.suffix_append_self_iff.mpr h.suffix)
  · have hfeed := Framing.flatten_feed messageComplete p (w.toSlave.take n)
    have hall : ((fs ++ (Framing.feed messageComplete p (w.toSlave.take n)).2).flatten ++
        (Framing.feed messageComplete p (w.toSlave.take n)).1).Sublist
          (heard ++ w.toSlave.take n) := by
      rw [List.flatten_append, List.append_assoc, hfeed, ← List.append_assoc]
      exact h.collected.append_right _
    split
    · rw [List.append_nil]
      exact (List.sublist_append_left _ _).trans hall
    · exact hall
  · rw [hboard, hops, h.ops_eq, List.append_assoc]
  · rw [hboard, hwritten, h.written_eq, List.append_assoc]
  · intro f hf
    rcases List.mem_append.mp hf with hf | hf
    · exact h.frames f hf
    · exact h.frames_loop n f hf
  · have hle := h.cuts_le
    simp only [Wire.step]
    split <;> omega
  · intro huncut
    have hle := h.cuts_le
    by_cases hcut : w.cutsShort (w.toSlave.take n) = true
    · simp only [Wire.step, hcut, if_true] at huncut
      omega
    · simp only [Wire.step, hcut, if_false, Bool.false_eq_true] at huncut
      rw [Framing.feed_append, h.uncut huncut, if_neg hcut]

theorem of_slave {w' : Wire π} (h : Hearing hal u w put heard p fs ops written)
    (hheard : w'.heard = w.heard) (hto : w'.toSlave.Sublist w.toSlave)
    (hrx : w'.slave.rx = w.slave.rx) (hops : w'.slave.board.ops = w.slave.board.ops)
    (hwritten : w'.slave.board.written = w.slave.board.written) (hcuts : w'.cuts = w.cuts) :
    Hearing hal u w' put heard p fs ops written where
  heard_eq := hheard.trans h.heard_eq
  requests := (hto.append_left heard).trans h.requests
  holding := hrx ▸ h.holding
  suffix := h.suffix
  collected := h.collected
  ran := h.ran
  ops_eq := hops.trans h.ops_eq
  written_eq := hwritten.trans h.written_eq
  frames := h.frames
  cuts_le := hcuts ▸ h.cuts_le
  uncut := fun hu ↦ h.uncut (hcuts ▸ hu)

theorem put_byte (h : Hearing hal u w put heard p fs ops written) (c : Byte) :
    Hearing hal u (w.put c) (put ++ [c]) heard p fs ops written where
  heard_eq := h.heard_eq
  requests := by
    change (heard ++ (w.toSlave ++ [c])).Sublist (put ++ [c])
    rw [← List.append_assoc]
    exact h.requests.append_right [c]
  holding := h.holding
  suffix := h.suffix
  collected := h.collected
  ran := h.ran
  ops_eq := h.ops_eq
  written_eq := h.written_eq
  frames := fun f hf ↦ ⟨(h.frames f hf).1.trans (List.sublist_append_left _ _), (h.frames f hf).2⟩
  cuts_le := h.cuts_le
  uncut := h.uncut

end Hearing

namespace Hears

variable {hal} {u w : Wire π} {put : List Byte}

theorem step (hput : put.length < 255) (h : Hears hal u put w) (e : Event) :
    Hears hal u put (w.step hal e) := by
  obtain ⟨heard, p, fs, ops, written, h⟩ := h
  cases e with
  | loop n => exact h.loop hput n
  | arrive n => exact ⟨heard, p, fs, ops, written, h.of_slave rfl (.refl _) rfl rfl rfl rfl⟩
  | loseRequest i n =>
      exact ⟨heard, p, fs, ops, written, h.of_slave rfl (sublist_remove _ i n) rfl rfl rfl rfl⟩
  | loseReply i n => exact ⟨heard, p, fs, ops, written, h.of_slave rfl (.refl _) rfl rfl rfl rfl⟩

theorem act (hput : put.length < 255) (h : Hears hal u put w) (burst : List Event) :
    Hears hal u put (w.act hal burst) := by
  induction burst generalizing w with
  | nil => exact h
  | cons e burst ih => exact ih (h.step hput e)

end Hears

/-- Nothing is on its way to the slave, which waits for a type byte. -/
structure AtRest (w : Wire π) : Prop where
  toSlave : w.toSlave = []
  holding : w.slave.rx.Holding []

namespace Line

variable {hal} {l : Line π}

theorem hears_putAll {u : Wire π} {put : List Byte} (msg : List Byte)
    (hput : (put ++ msg).length < 255) (h : Hears hal u put l.wire) :
    Hears hal u (put ++ msg) (putAll hal msg l).wire := by
  induction msg generalizing put l with
  | nil =>
      rw [List.append_nil]
      exact h
  | cons c msg ih =>
      have hsplit : put ++ c :: msg = (put ++ [c]) ++ msg := by simp
      rw [hsplit] at hput ⊢
      have hshort : (put ++ [c]).length < 255 :=
        (List.prefix_append (put ++ [c]) msg).length_le.trans_lt hput
      obtain ⟨heard, p, fs, ops, written, h⟩ := h
      have hnext : Hears hal u (put ++ [c]) (l.wire.put c) :=
        ⟨heard, p, fs, ops, written, h.put_byte c⟩
      exact ih (l := serialPutchar hal c l) hput (hnext.act hshort _)

theorem hears_next {u : Wire π} {put : List Byte} (h : Hears hal u put l.wire) (q : Request)
    (hput : (put ++ q.bytes).length < 255) (k : ℕ) :
    Hears hal u (put ++ q.bytes) (after hal q.bytes k l).wire := by
  have hflush : Hears hal u put (serialFlush hal l).wire := by
    have hshort : put.length < 255 := (List.prefix_append put q.bytes).length_le.trans_lt hput
    obtain ⟨heard, p, fs, ops, written, h⟩ := h.act hshort (l.plans.headD {}).flush
    exact ⟨heard, p, fs, ops, written, h.of_slave rfl (.refl _) rfl rfl rfl rfl⟩
  have hputAll := hears_putAll q.bytes hput hflush
  induction k with
  | zero => exact hputAll
  | succ k ih =>
      rw [Line.after, Function.iterate_succ_apply']
      exact ih.act hput _

variable (hal) in
theorem hears_of_atRest {w : Wire π} (hrest : AtRest w) : Hears hal w [] w := by
  refine ⟨[], [], [], [], [], ?_⟩
  constructor
  case holding => exact hrest.holding
  case ran => exact .nil
  all_goals simp [hrest.toSlave]

variable (hal) in
theorem hears_after (q : Request) (hrest : AtRest l.wire) (k : ℕ) :
    Hears hal l.wire q.bytes (after hal q.bytes k l).wire := by
  have hshort : ([] ++ q.bytes).length < 255 := by
    have hle := q.bytes_length_le
    rw [List.nil_append]
    omega
  exact hears_next (hears_of_atRest hal hrest) q hshort k

end Line

/-! ## Calls -/

def Executed (F : List Byte → Prop) (u w : Wire π) : Prop :=
  ∃ fs ops written, Ran hal fs ops written ∧ w.slave.board.ops = u.slave.board.ops ++ ops ∧
    w.slave.board.written = u.slave.board.written ++ written ∧ ∀ f ∈ fs, F f

variable {hal}

theorem Executed.refl (F : List Byte → Prop) (w : Wire π) : Executed hal F w w :=
  ⟨[], [], [], .nil, by simp, by simp, by simp⟩

theorem Executed.trans {F : List Byte → Prop} {u v w : Wire π} (h : Executed hal F u v)
    (h' : Executed hal F v w) : Executed hal F u w := by
  obtain ⟨fs, ops, written, hran, hops, hwritten, hF⟩ := h
  obtain ⟨fs', ops', written', hran', hops', hwritten', hF'⟩ := h'
  refine ⟨fs ++ fs', ops ++ ops', written ++ written', hran.append hran', ?_, ?_, ?_⟩
  · rw [hops', hops, List.append_assoc]
  · rw [hwritten', hwritten, List.append_assoc]
  · intro f hf
    exact (List.mem_append.mp hf).elim (hF f) (hF' f)

/-- The frames handled in a call whose attempts start at rest, from what each
attempt hears. -/
theorem executed_perform {F : List Byte → Prop} {q : Request} {d : ArduinoSlave (Line π)}
    (hrest : ∀ i < d.maxRetry, FailedBefore hal q d.port i →
      AtRest ((fail hal q.bytes)^[i] d.port).wire)
    (hF : ∀ i < d.maxRetry, ∀ k, Ends hal q d.port i k → ∀ heard p fs ops written,
      Hearing hal ((fail hal q.bytes)^[i] d.port).wire
        (after hal q.bytes k ((fail hal q.bytes)^[i] d.port)).wire q.bytes heard p fs ops written →
      ∀ f ∈ fs, F f) :
    Executed hal F d.port.wire (perform (port hal) q d).2.port.wire := by
  refine rel_perform hal (R := Executed hal F) (Executed.refl F) Executed.trans (fun h ↦ h) q d ?_
  intro i hi k hends
  obtain ⟨heard, p, fs, ops, written, h⟩ := hears_after hal q (hrest i hi hends.made) k
  exact ⟨fs, ops, written, h.ran, h.ops_eq, h.written_eq,
    hF i hi k hends heard p fs ops written h⟩

end Rover.Link
