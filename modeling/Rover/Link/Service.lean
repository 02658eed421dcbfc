import Rover.Link.History
import Rover.Link.Polling
import Rover.Link.Requests

/-!
# How the slave serves one request

While nothing is under way, nothing the environment does matters.  Once a
request is on the line and is neither lost nor cut short, the slave has read a
proper prefix of it and done nothing yet, or has executed it exactly once.
-/

namespace Rover.Link

open Arduino Slave

variable {π : Type} (hal : Hal π)

namespace Wire

/-- Nothing is under way and the receiver waits for a type byte. -/
structure Quiet (w : Wire π) : Prop where
  toSlave : w.toSlave = []
  out : w.out = []
  holding : w.slave.rx.Holding []

theorem loop_nil (s : Machine π) : s.loop hal [] = { s with rx := s.rx.idle } := rfl

theorem setOut_out (w : Wire π) : w.setOut w.out = w := rfl

theorem step_arrive_of_out_eq_nil {w : Wire π} (h : w.out = []) (n : ℕ) :
    w.step hal (.arrive n) = w := by
  have hnil : w.setOut [] = w := by rw [← h, setOut_out]
  simp [Wire.step, h, hnil]

theorem step_loseReply_of_out_eq_nil {w : Wire π} (h : w.out = []) (i n : ℕ) :
    w.step hal (.loseReply i n) = w := by
  have hnil : w.setOut [] = w := by rw [← h, setOut_out]
  simp [Wire.step, h, hnil]

theorem holding_idle {r : Receiver} (h : r.Holding []) : r.idle.Holding [] := by
  simpa using h.idle

theorem Quiet.step {w : Wire π} (h : w.Quiet) (e : Event) :
    (w.step hal e).Quiet ∧ (w.step hal e).slave.board = w.slave.board ∧
      (w.step hal e).cuts = w.cuts ∧ (w.step hal e).arrived = w.arrived := by
  have hstate : w.slave.rx.serialState = .waitType := ((Receiver.holding_nil_iff _).mp h.holding).1
  cases e with
  | loop n =>
      have hcut : w.cutsShort [] = false := by simp [cutsShort, hstate]
      have heq : w.step hal (.loop n) =
          { w with slave := { w.slave with rx := w.slave.rx.idle } } := by
        simp [Wire.step, h.toSlave, loop_nil, hcut]
      rw [heq]
      exact ⟨⟨h.toSlave, h.out, holding_idle h.holding⟩, rfl, rfl, rfl⟩
  | arrive n =>
      rw [step_arrive_of_out_eq_nil hal h.out]
      exact ⟨h, rfl, rfl, rfl⟩
  | loseRequest i n =>
      have heq : w.step hal (.loseRequest i n) = w := by
        have hnil : { w with toSlave := [] } = w := by rw [← h.toSlave]
        simp [Wire.step, h.toSlave, hnil]
      rw [heq]
      exact ⟨h, rfl, rfl, rfl⟩
  | loseReply i n =>
      rw [step_loseReply_of_out_eq_nil hal h.out]
      exact ⟨h, rfl, rfl, rfl⟩

theorem Quiet.act {w : Wire π} (h : w.Quiet) (burst : List Event) :
    (w.act hal burst).Quiet ∧ (w.act hal burst).slave.board = w.slave.board ∧
      (w.act hal burst).cuts = w.cuts := by
  induction burst generalizing w with
  | nil => exact ⟨h, rfl, rfl⟩
  | cons e burst ih =>
      obtain ⟨hquiet, hboard, hcuts, -⟩ := h.step hal e
      obtain ⟨hq, hb, hc⟩ := ih hquiet
      exact ⟨hq, hb.trans hboard, hc.trans hcuts⟩

/-- `loop()` reads as the abstract framer does, and forgets what it holds only
when it cuts a message short. -/
theorem holding_loop {w : Wire π} {p : List Byte} (h : w.slave.rx.Holding p) (n : ℕ)
    (hroom : Receiver.Roomy p (w.toSlave.take n)) :
    (w.step hal (.loop n)).slave.rx.Holding (if w.cutsShort (w.toSlave.take n) then []
        else (Framing.feed messageComplete p (w.toSlave.take n)).1) ∧
      ∃ calls, List.Forall₂ Call.Handles calls
          (Framing.feed messageComplete p (w.toSlave.take n)).2 ∧
        (w.step hal (.loop n)).slave.board = calls.foldl (fun b c ↦ c.run hal b) w.slave.board := by
  obtain ⟨hread, hcalls⟩ := h.readAll hroom
  refine ⟨?_, _, hcalls, rfl⟩
  change (w.slave.rx.readAll (w.toSlave.take n)).1.idle.Holding _
  have hidle := hread.idle
  by_cases hfires : (w.slave.rx.readAll (w.toSlave.take n)).1.idleFires = true
  · have hres : w.slave.rx.resets (w.toSlave.take n) = true := hfires
    rw [if_pos hfires] at hidle
    split
    · exact hidle
    next hcut =>
      -- a reset that is no cut finds nothing collected
      have hstate : (w.slave.rx.readAll (w.toSlave.take n)).1.serialState = .waitType := by
        simpa [cutsShort, hres] using hcut
      rwa [hread.eq_nil hstate]
  · have hcut : w.cutsShort (w.toSlave.take n) = false := by
      have hres : w.slave.rx.resets (w.toSlave.take n) = false := by
        simpa [Receiver.resets] using hfires
      simp [cutsShort, hres]
    rw [if_neg hfires] at hidle
    simpa [hcut] using hidle

end Wire

/-! ## Serving a request -/

/-- What may happen while a request is delivered: its reply arrives, or it is
lost, but the request itself is not. -/
def Event.Serves (replied : Bool) : Event → Prop
  | .loop _ => True
  | .arrive _ => replied = true
  | .loseReply _ _ => replied = false
  | .loseRequest _ _ => False

instance (replied : Bool) : (e : Event) → Decidable (e.Serves replied)
  | .loop _ => inferInstanceAs (Decidable True)
  | .arrive _ => inferInstanceAs (Decidable (replied = true))
  | .loseReply _ _ => inferInstanceAs (Decidable (replied = false))
  | .loseRequest _ _ => inferInstanceAs (Decidable False)

/-- The wire while the bytes `put` of the request `q` have been sent and the
board was `b` before. -/
inductive Serving (q : Request) (b : Board π) (replied : Bool) (put : List Byte) (w : Wire π) :
    Prop
  | receiving (p rest : List Byte) (hput : p ++ rest = put) (hpre : put <+: q.bytes)
      (hne : p ≠ q.bytes) (hto : w.toSlave = rest) (hold : w.slave.rx.Holding p)
      (hboard : w.slave.board = b) (harr : w.arrived = [])
  | served (out : List Byte) (hput : put = q.bytes) (hto : w.toSlave = [])
      (hold : w.slave.rx.Holding [])
      (hboard : w.slave.board = { q.exec hal b with serialOut := out })
      (harr : if replied then w.arrived ++ out = q.reply hal b else w.arrived = [])

namespace Serving

variable {hal} {q : Request} {b : Board π} {replied : Bool} {put : List Byte} {w : Wire π}

theorem roomy_bytes {p xs : List Byte} (h : p ++ xs <+: q.bytes) : Receiver.Roomy p xs := by
  intro r hr
  have hflat := Framing.flatten_feed messageComplete p r
  have hlen := congrArg List.length hflat
  have hle : (p ++ r).length ≤ 3 :=
    (((List.prefix_append_right_inj p).mpr hr).trans h).length_le.trans q.bytes_length_le
  rw [List.length_append] at hlen
  omega

theorem loop_receiving (hq : q.InRange) (hb : b.serialOut = []) {p rest : List Byte}
    (hput : p ++ rest = put) (hpre : put <+: q.bytes) (hne : p ≠ q.bytes) (hto : w.toSlave = rest)
    (hold : w.slave.rx.Holding p) (hboard : w.slave.board = b) (harr : w.arrived = [])
    (n : ℕ) (hcut : w.cutsShort (rest.take n) = false) :
    Serving hal q b replied put (w.step hal (.loop n)) := by
  have hsub : p ++ rest.take n <+: q.bytes := by
    refine List.IsPrefix.trans ?_ hpre
    rw [← hput]
    exact (List.prefix_append_right_inj p).mpr (List.take_prefix n rest)
  subst hto
  obtain ⟨hread, calls, hcalls, hbd⟩ := Wire.holding_loop hal hold n (roomy_bytes hsub)
  rw [hcut, if_neg Bool.false_ne_true] at hread
  rw [hboard] at hbd
  have hframe := (Request.isBinaryFrame_bytes q).isFrame
  by_cases hall : p ++ w.toSlave.take n = q.bytes
  · have hmore : w.toSlave.take n ≠ [] := by
      intro hnil
      rw [hnil, List.append_nil] at hall
      exact hne hall
    rw [hframe.feed_rest hall hmore] at hread hcalls
    obtain ⟨c, rfl, hhandles⟩ : ∃ c, calls = [c] ∧ c.Handles q.bytes := by
      obtain ⟨c, cs, hh, ht, heq⟩ := List.forall₂_cons_right_iff.mp hcalls
      rw [List.forall₂_nil_right_iff.mp ht] at heq
      exact ⟨c, heq, hh⟩
    have hputq : put = q.bytes := hpre.eq_of_length_le (by
      rw [← hall, ← hput, List.length_append, List.length_append, List.length_take]
      omega)
    have hrest : w.toSlave.take n = w.toSlave := by
      have := hall.trans (hputq.symm.trans hput.symm)
      exact List.append_cancel_left this
    refine .served (q.reply hal b) hputq ?_ hread ?_ ?_
    · have hlen := congrArg List.length hrest
      rw [List.length_take] at hlen
      exact List.drop_eq_nil_of_le (by omega)
    · rw [hbd]
      change c.run hal b = _
      rw [Request.run_of_handles hal hq hhandles]
      have hout : (q.exec hal b).serialOut = q.reply hal b := by
        rw [Request.exec_serialOut, hb, List.nil_append]
      rw [← hout]
    · change if replied then w.arrived ++ q.reply hal b = q.reply hal b else w.arrived = []
      rw [harr]
      split <;> simp
  · rw [hframe.feed_of_ssubset hsub hall] at hread hcalls
    refine .receiving (p ++ w.toSlave.take n) (w.toSlave.drop n) ?_ hpre hall rfl hread ?_ harr
    · rw [List.append_assoc, List.take_append_drop, hput]
    · rw [hbd, List.forall₂_nil_right_iff.mp hcalls]
      rfl

theorem step (hq : q.InRange) (hb : b.serialOut = []) (h : Serving hal q b replied put w)
    {e : Event} (he : e.Serves replied) (hcut : (w.step hal e).cuts = w.cuts) :
    Serving hal q b replied put (w.step hal e) := by
  cases h with
  | receiving p rest hput hpre hne hto hold hboard harr =>
      have hout : w.out = [] := by rw [Wire.out, hboard, hb]
      cases e with
      | loop n =>
          apply loop_receiving hq hb hput hpre hne hto hold hboard harr n
          by_contra hshort
          simp [Wire.step, hto, hshort] at hcut
      | arrive n =>
          rw [Wire.step_arrive_of_out_eq_nil hal hout]
          exact .receiving p rest hput hpre hne hto hold hboard harr
      | loseRequest i n => exact he.elim
      | loseReply i n =>
          rw [Wire.step_loseReply_of_out_eq_nil hal hout]
          exact .receiving p rest hput hpre hne hto hold hboard harr
  | served out hput hto hold hboard harr =>
      have hout : w.out = out := by rw [Wire.out, hboard]
      cases e with
      | loop n =>
          have hloop : (w.step hal (.loop n)).slave = { w.slave with rx := w.slave.rx.idle } := by
            simp [Wire.step, hto, Wire.loop_nil]
          refine .served out hput ?_ ?_ ?_ harr
          · simp [Wire.step, hto]
          · rw [hloop]
            exact Wire.holding_idle hold
          · rw [hloop]
            exact hboard
      | arrive n =>
          have hrep : replied = true := he
          refine .served (out.drop n) hput hto hold ?_ ?_
          · simp only [Wire.step, Wire.setOut, hout, hboard]
          · simp only [hrep, if_true] at harr ⊢
            simp only [Wire.step, hout, List.append_assoc, List.take_append_drop, harr]
      | loseRequest i n => exact he.elim
      | loseReply i n =>
          have hrep : replied = false := he
          refine .served (out.take i ++ out.drop (i + n)) hput hto hold ?_ ?_
          · simp only [Wire.step, Wire.setOut, hout, hboard]
          · simp only [hrep, Bool.false_eq_true, if_false] at harr ⊢
            exact harr

theorem act (hq : q.InRange) (hb : b.serialOut = []) (burst : List Event)
    (h : Serving hal q b replied put w) (he : ∀ e ∈ burst, e.Serves replied)
    (hcut : (w.act hal burst).cuts = w.cuts) :
    Serving hal q b replied put (w.act hal burst) := by
  induction burst generalizing w with
  | nil => exact h
  | cons e burst ih =>
      obtain ⟨_, _, _, hfirst⟩ := Wire.since_step hal w e
      obtain ⟨_, _, _, hrest⟩ := Wire.since_act hal burst (w.step hal e)
      have hle := hfirst.cuts_le
      have hle' := hrest.cuts_le
      change ((w.step hal e).act hal burst).cuts = w.cuts at hcut
      apply ih (h.step hq hb (he e (by simp)) (by omega)) (fun e' he' ↦ he e' (by simp [he']))
      omega

theorem put_byte {c : Byte} (h : Serving hal q b replied put w) (hpre : put ++ [c] <+: q.bytes) :
    Serving hal q b replied (put ++ [c]) (w.put c) := by
  cases h with
  | receiving p rest hput _ hne hto hold hboard harr =>
      refine .receiving p (rest ++ [c]) ?_ hpre hne ?_ hold hboard harr
      · rw [← List.append_assoc, hput]
      · simp [Wire.put, hto]
  | served out hput hto hold hboard harr =>
      have hlen := hpre.length_le
      rw [hput, List.length_append, List.length_singleton] at hlen
      omega

end Serving

/-! ## A line that serves a request -/

namespace Line

def Bursts (S : Event → Prop) (l : Line π) : Prop := ∀ burst ∈ l.bursts, ∀ e ∈ burst, S e

variable {hal} {q : Request} {b : Board π} {replied : Bool} {put : List Byte} {l : Line π}

theorem Bursts.head {S : Event → Prop} (h : l.Bursts S) : ∀ e ∈ l.bursts.headD [], S e := by
  cases hb : l.bursts with
  | nil => simp
  | cons burst rest => simpa using h burst (by simp [hb])

theorem Bursts.sleep {S : Event → Prop} (h : l.Bursts S) : (sleep hal l).Bursts S :=
  fun burst hburst ↦ h burst (List.mem_of_mem_tail hburst)

theorem Bursts.putchar {S : Event → Prop} (h : l.Bursts S) (c : Byte) :
    (serialPutchar hal c l).Bursts S :=
  Bursts.sleep (l := { l with wire := l.wire.put c }) h

theorem serving_sleep (hq : q.InRange) (hb : b.serialOut = [])
    (h : Serving hal q b replied put l.wire) (he : l.Bursts (Event.Serves replied))
    (hcut : (sleep hal l).wire.cuts = l.wire.cuts) :
    Serving hal q b replied put (sleep hal l).wire :=
  h.act hq hb _ he.head hcut

theorem serving_iterate (hq : q.InRange) (hb : b.serialOut = []) (k : ℕ)
    (h : Serving hal q b replied put l.wire) (he : l.Bursts (Event.Serves replied))
    (hcut : ((sleep hal)^[k] l).wire.cuts = l.wire.cuts) :
    Serving hal q b replied put ((sleep hal)^[k] l).wire ∧
      ((sleep hal)^[k] l).Bursts (Event.Serves replied) := by
  induction k with
  | zero => exact ⟨h, he⟩
  | succ k ih =>
      rw [Function.iterate_succ_apply'] at hcut ⊢
      obtain ⟨_, _, _, hfirst⟩ := since_iterate hal k l
      obtain ⟨_, _, _, hlast⟩ := since_sleep hal ((sleep hal)^[k] l)
      have hle := hfirst.cuts_le
      have hle' := hlast.cuts_le
      obtain ⟨hk, hbk⟩ := ih (by omega)
      exact ⟨serving_sleep hq hb hk hbk (by omega), hbk.sleep⟩

theorem serving_putAll (hq : q.InRange) (hb : b.serialOut = []) (msg : List Byte)
    (h : Serving hal q b replied put l.wire) (he : l.Bursts (Event.Serves replied))
    (hpre : put ++ msg <+: q.bytes) (hcut : (putAll hal msg l).wire.cuts = l.wire.cuts) :
    Serving hal q b replied (put ++ msg) (putAll hal msg l).wire ∧
      (putAll hal msg l).Bursts (Event.Serves replied) := by
  induction msg generalizing put l with
  | nil =>
      rw [List.append_nil]
      exact ⟨h, he⟩
  | cons c msg ih =>
      have hsplit : put ++ c :: msg = (put ++ [c]) ++ msg := by simp
      rw [hsplit] at hpre ⊢
      have hone : put ++ [c] <+: q.bytes := (List.prefix_append _ _).trans hpre
      change (putAll hal msg (serialPutchar hal c l)).wire.cuts = l.wire.cuts at hcut
      obtain ⟨_, _, _, hone'⟩ := since_sleep hal { l with wire := l.wire.put c }
      obtain ⟨_, _, _, hmore⟩ := since_putAll hal msg (serialPutchar hal c l)
      have hle := hmore.cuts_le
      have hfirst : l.wire.cuts ≤ (serialPutchar hal c l).wire.cuts := hone'.cuts_le
      have hput : Serving hal q b replied (put ++ [c]) (serialPutchar hal c l).wire := by
        refine serving_sleep (l := { l with wire := l.wire.put c }) hq hb
          (h.put_byte hone) he ?_
        change (serialPutchar hal c l).wire.cuts = l.wire.cuts
        omega
      have hrest : (putAll hal msg (serialPutchar hal c l)).wire.cuts =
          (serialPutchar hal c l).wire.cuts := by omega
      exact ih hput (he.putchar c) hpre hrest

variable (hal) in
theorem quiet_flush (h : l.wire.Quiet) :
    (serialFlush hal l).wire.Quiet ∧ (serialFlush hal l).wire.slave.board = l.wire.slave.board ∧
      (serialFlush hal l).wire.cuts = l.wire.cuts := by
  obtain ⟨hquiet, hboard, hcuts⟩ := h.act hal (l.plans.headD {}).flush
  exact ⟨⟨hquiet.toSlave, hquiet.out, hquiet.holding⟩, hboard, hcuts⟩

theorem serving_after (hq : q.InRange) (hquiet : l.wire.Quiet)
    (he : ∀ burst ∈ (l.plans.headD {}).bursts, ∀ e ∈ burst, Event.Serves replied e) {n k : ℕ}
    (hk : k ≤ n) (hcut : (after hal q.bytes n l).wire.cuts = l.wire.cuts) :
    Serving hal q l.wire.slave.board replied q.bytes (after hal q.bytes k l).wire := by
  obtain ⟨hflush, hboard, hcuts⟩ := quiet_flush hal hquiet
  have hb : l.wire.slave.board.serialOut = [] := hquiet.out
  have hstart : Serving hal q l.wire.slave.board replied [] (serialFlush hal l).wire := by
    refine .receiving [] [] rfl List.nil_prefix ?_ hflush.toSlave hflush.holding hboard rfl
    exact ((Request.isBinaryFrame_bytes q).isFrame.ne_nil).symm
  -- the cuts only grow, so there are none at any earlier point either
  obtain ⟨_, _, _, hput⟩ := since_putAll hal q.bytes (serialFlush hal l)
  obtain ⟨_, _, _, hfirst⟩ := since_after_of_le hal q.bytes (Nat.zero_le k) l
  obtain ⟨_, _, _, hlast⟩ := since_after_of_le hal q.bytes hk l
  have hle₁ := hput.cuts_le
  have hle₂ : (putAll hal q.bytes (serialFlush hal l)).wire.cuts ≤
    (after hal q.bytes k l).wire.cuts := hfirst.cuts_le
  have hle₃ := hlast.cuts_le
  obtain ⟨hsent, hbursts⟩ := serving_putAll hq hb q.bytes hstart he
    (by rw [List.nil_append]) (by omega)
  rw [List.nil_append] at hsent
  refine (serving_iterate hq hb k hsent hbursts ?_).1
  change (after hal q.bytes k l).wire.cuts = _
  omega

end Line

/-! ## A request that is lost -/

theorem heard_eq_of_eq {u v w : Wire π} {s s' h h' r r' : List Byte} {o o' : List HwOp}
    (huv : Since u v s h r o) (hvw : Since v w s' h' r' o') (heq : w.heard = u.heard) :
    v.heard = u.heard ∧ w.heard = v.heard := by
  have hnil : h ++ h' = [] := by
    rw [(huv.trans hvw).heard_eq] at heq
    exact List.append_right_eq_self.mp heq
  obtain ⟨rfl, rfl⟩ := List.append_eq_nil_iff.mp hnil
  exact ⟨by simpa using huv.heard_eq, by simpa using hvw.heard_eq⟩

/-- The slave has heard nothing of the request. -/
structure Unheard (b : Board π) (w : Wire π) : Prop where
  holding : w.slave.rx.Holding []
  board : w.slave.board = b
  arrived : w.arrived = []

namespace Unheard

variable {hal} {b : Board π} {w : Wire π}

theorem step (hb : b.serialOut = []) (h : Unheard b w) {e : Event}
    (he : (w.step hal e).heard = w.heard) : Unheard b (w.step hal e) := by
  have hout : w.out = [] := by rw [Wire.out, h.board, hb]
  cases e with
  | loop n =>
      have hnil : w.toSlave.take n = [] := by simpa [Wire.step] using he
      have hslave : (w.step hal (.loop n)).slave = { w.slave with rx := w.slave.rx.idle } := by
        simp only [Wire.step, hnil, Wire.loop_nil]
      refine ⟨?_, ?_, h.arrived⟩
      · rw [hslave]
        exact Wire.holding_idle h.holding
      · rw [hslave]
        exact h.board
  | loseRequest i n => exact ⟨h.holding, h.board, h.arrived⟩
  | arrive n => rwa [Wire.step_arrive_of_out_eq_nil hal hout]
  | loseReply i n => rwa [Wire.step_loseReply_of_out_eq_nil hal hout]

theorem act (hb : b.serialOut = []) (h : Unheard b w) (burst : List Event)
    (he : (w.act hal burst).heard = w.heard) : Unheard b (w.act hal burst) := by
  induction burst generalizing w with
  | nil => exact h
  | cons e burst ih =>
      obtain ⟨_, _, _, hfirst⟩ := Wire.since_step hal w e
      obtain ⟨_, _, _, hrest⟩ := Wire.since_act hal burst (w.step hal e)
      change ((w.step hal e).act hal burst).heard = w.heard at he
      obtain ⟨hmid, hend⟩ := heard_eq_of_eq hfirst hrest he
      exact ih (h.step hb hmid) hend

end Unheard

namespace Line

variable {hal} {b : Board π} {l : Line π}

theorem unheard_iterate (hb : b.serialOut = []) (k : ℕ) (h : Unheard b l.wire)
    (he : ((sleep hal)^[k] l).wire.heard = l.wire.heard) :
    Unheard b ((sleep hal)^[k] l).wire := by
  induction k with
  | zero => exact h
  | succ k ih =>
      obtain ⟨_, _, _, hfirst⟩ := since_iterate hal k l
      obtain ⟨_, _, _, hlast⟩ := since_sleep hal ((sleep hal)^[k] l)
      rw [Function.iterate_succ_apply'] at he ⊢
      obtain ⟨hmid, hend⟩ := heard_eq_of_eq hfirst hlast he
      exact (ih hmid).act hb _ hend

theorem unheard_putAll (hb : b.serialOut = []) (msg : List Byte) (h : Unheard b l.wire)
    (he : (putAll hal msg l).wire.heard = l.wire.heard) :
    Unheard b (putAll hal msg l).wire := by
  induction msg generalizing l with
  | nil => exact h
  | cons c msg ih =>
      obtain ⟨_, _, _, hfirst⟩ := since_sleep hal { l with wire := l.wire.put c }
      obtain ⟨_, _, _, hrest⟩ := since_putAll hal msg (serialPutchar hal c l)
      obtain ⟨hmid, hend⟩ := heard_eq_of_eq hfirst hrest he
      refine ih (Unheard.act hb ?_ _ hmid) hend
      exact ⟨h.holding, h.board, h.arrived⟩

theorem unheard_after (hquiet : l.wire.Quiet) (msg : List Byte) {n k : ℕ} (hk : k ≤ n)
    (he : (after hal msg n l).wire.heard = l.wire.heard) :
    Unheard l.wire.slave.board (after hal msg k l).wire := by
  have hb : l.wire.slave.board.serialOut = [] := hquiet.out
  obtain ⟨hflush, hboard, -⟩ := quiet_flush hal hquiet
  obtain ⟨_, _, _, hstart⟩ := since_flush hal l
  obtain ⟨_, _, _, hput⟩ := since_putAll hal msg (serialFlush hal l)
  obtain ⟨_, _, _, hfirst⟩ := since_after_of_le hal msg (Nat.zero_le k) l
  obtain ⟨_, _, _, hlast⟩ := since_after_of_le hal msg hk l
  obtain ⟨hk', -⟩ := heard_eq_of_eq ((hstart.trans hput).trans hfirst) hlast he
  obtain ⟨hput', hsleeps⟩ := heard_eq_of_eq (hstart.trans hput) hfirst hk'
  obtain ⟨-, hsend⟩ := heard_eq_of_eq hstart hput hput'
  refine unheard_iterate hb k (unheard_putAll hb msg ?_ hsend) hsleeps
  exact ⟨hflush.holding, hboard, rfl⟩

end Line
end Rover.Link
