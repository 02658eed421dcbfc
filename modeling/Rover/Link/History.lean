import Mathlib.Data.List.TakeDrop
import Mathlib.Logic.Function.Iterate
import Rover.Link.Line

/-!
# What has happened on a line

Bytes are read by the slave only after they were sent and arrive only after
they were written, in order and each at most once.  `Since` compares two
moments of a wire; every action respects it and it composes.
-/

namespace Rover.Link

open Arduino Slave

variable {π : Type} (hal : Hal π)

/-- From `u` to `w` the master has sent `sent`, the slave has read `heard`,
written `written` and performed `ops`. -/
structure Since (u w : Wire π) (sent heard written : List Byte) (ops : List HwOp) : Prop where
  sent_eq : w.sent = u.sent ++ sent
  heard_eq : w.heard = u.heard ++ heard
  written_eq : w.slave.board.written = u.slave.board.written ++ written
  ops_eq : w.slave.board.ops = u.slave.board.ops ++ ops
  requests : (heard ++ w.toSlave).Sublist (u.toSlave ++ sent)
  replies : (w.arrived ++ w.out).Sublist (u.arrived ++ u.out ++ written)
  cuts_le : u.cuts ≤ w.cuts

namespace Since

theorem refl (w : Wire π) : Since w w [] [] [] [] := by
  constructor <;> simp

theorem trans {u v w : Wire π} {s s' h h' r r' : List Byte} {o o' : List HwOp}
    (huv : Since u v s h r o) (hvw : Since v w s' h' r' o') :
    Since u w (s ++ s') (h ++ h') (r ++ r') (o ++ o') where
  sent_eq := by rw [hvw.sent_eq, huv.sent_eq, List.append_assoc]
  heard_eq := by rw [hvw.heard_eq, huv.heard_eq, List.append_assoc]
  written_eq := by rw [hvw.written_eq, huv.written_eq, List.append_assoc]
  ops_eq := by rw [hvw.ops_eq, huv.ops_eq, List.append_assoc]
  requests := by
    have hrest : (h ++ (h' ++ w.toSlave)).Sublist (h ++ (v.toSlave ++ s')) :=
      hvw.requests.append_left h
    have hfirst : (h ++ v.toSlave ++ s').Sublist (u.toSlave ++ s ++ s') :=
      huv.requests.append_right s'
    rw [← List.append_assoc, ← List.append_assoc] at hrest
    rw [← List.append_assoc]
    exact hrest.trans hfirst
  replies := by
    have hfirst : (v.arrived ++ v.out ++ r').Sublist (u.arrived ++ u.out ++ r ++ r') :=
      huv.replies.append_right r'
    rw [← List.append_assoc]
    exact hvw.replies.trans hfirst
  cuts_le := huv.cuts_le.trans hvw.cuts_le

end Since

theorem sublist_remove {α : Type} (xs : List α) (i n : ℕ) :
    (xs.take i ++ xs.drop (i + n)).Sublist xs := by
  calc (xs.take i ++ xs.drop (i + n)).Sublist (xs.take i ++ xs.drop i) := by
        rw [← List.drop_drop]
        exact (List.drop_sublist _ _).append_left _
    _ = xs := List.take_append_drop i xs

namespace Wire

theorem since_step (w : Wire π) (e : Event) :
    ∃ heard written ops, Since w (w.step hal e) [] heard written ops := by
  cases e with
  | loop n =>
      obtain ⟨ops, new, hops, hwritten, hout⟩ := Machine.extends_loop hal (w.toSlave.take n) w.slave
      refine ⟨w.toSlave.take n, new, ops, ?_⟩
      constructor
      case requests => simp [step]
      case replies =>
        change (w.arrived ++ (w.slave.loop hal (w.toSlave.take n)).board.serialOut).Sublist _
        simp [hout, out]
      case cuts_le =>
        simp only [step]
        split <;> omega
      all_goals first | assumption | simp [step]
  | arrive n =>
      refine ⟨[], [], [], ?_⟩
      constructor
      case replies =>
        change (w.arrived ++ w.out.take n ++ w.out.drop n).Sublist _
        simp
      all_goals simp [step, setOut]
  | loseRequest i n =>
      refine ⟨[], [], [], ?_⟩
      constructor
      case requests => simpa [step] using sublist_remove w.toSlave i n
      all_goals simp [step, out]
  | loseReply i n =>
      refine ⟨[], [], [], ?_⟩
      constructor
      case replies =>
        change (w.arrived ++ (w.out.take i ++ w.out.drop (i + n))).Sublist _
        simpa using sublist_remove w.out i n
      all_goals simp [step, setOut]

theorem since_act (burst : List Event) (w : Wire π) :
    ∃ heard written ops, Since w (w.act hal burst) [] heard written ops := by
  induction burst generalizing w with
  | nil => exact ⟨[], [], [], Since.refl w⟩
  | cons e burst ih =>
      obtain ⟨h, r, o, hstep⟩ := since_step hal w e
      obtain ⟨h', r', o', hrest⟩ := ih (w.step hal e)
      exact ⟨h ++ h', r ++ r', o ++ o', hstep.trans hrest⟩

theorem since_put (c : Byte) (w : Wire π) : Since w (w.put c) [c] [] [] [] := by
  constructor <;> simp [put, out]

end Wire

namespace Line

theorem since_sleep (l : Line π) :
    ∃ heard written ops, Since l.wire (sleep hal l).wire [] heard written ops :=
  Wire.since_act hal _ _

theorem since_flush (l : Line π) :
    ∃ heard written ops, Since l.wire (serialFlush hal l).wire [] heard written ops := by
  obtain ⟨h, r, o, hact⟩ := Wire.since_act hal (l.plans.headD {}).flush l.wire
  refine ⟨h, r, o, hact.sent_eq, hact.heard_eq, hact.written_eq, hact.ops_eq, hact.requests, ?_,
    hact.cuts_le⟩
  -- what had arrived is discarded
  exact (List.sublist_append_right _ _).trans hact.replies

theorem since_putAll (msg : List Byte) (l : Line π) :
    ∃ heard written ops, Since l.wire (putAll hal msg l).wire msg heard written ops := by
  induction msg generalizing l with
  | nil => exact ⟨[], [], [], Since.refl _⟩
  | cons c msg ih =>
      obtain ⟨h, r, o, hsleep⟩ := since_sleep hal { l with wire := l.wire.put c }
      obtain ⟨h', r', o', hrest⟩ := ih (serialPutchar hal c l)
      exact ⟨_, _, _, ((Wire.since_put c l.wire).trans hsleep).trans hrest⟩

theorem since_iterate (k : ℕ) (l : Line π) :
    ∃ heard written ops, Since l.wire ((sleep hal)^[k] l).wire [] heard written ops := by
  induction k with
  | zero => exact ⟨[], [], [], Since.refl _⟩
  | succ k ih =>
      rw [Function.iterate_succ_apply']
      obtain ⟨h, r, o, hfirst⟩ := ih
      obtain ⟨h', r', o', hlast⟩ := since_sleep hal ((sleep hal)^[k] l)
      exact ⟨_, _, _, hfirst.trans hlast⟩

theorem since_after (msg : List Byte) (k : ℕ) (l : Line π) :
    ∃ heard written ops, Since l.wire (after hal msg k l).wire msg heard written ops := by
  obtain ⟨h, r, o, hflush⟩ := since_flush hal l
  obtain ⟨h', r', o', hput⟩ := since_putAll hal msg (serialFlush hal l)
  obtain ⟨h'', r'', o'', hsleep⟩ := since_iterate hal k (putAll hal msg (serialFlush hal l))
  have hall := (hflush.trans hput).trans hsleep
  rw [List.nil_append, List.append_nil] at hall
  exact ⟨_, _, _, hall⟩

theorem since_after_of_le (msg : List Byte) {j k : ℕ} (hjk : j ≤ k) (l : Line π) :
    ∃ heard written ops,
      Since (after hal msg j l).wire (after hal msg k l).wire [] heard written ops := by
  have hcomp : (sleep hal)^[k - j] (after hal msg j l) = after hal msg k l := by
    rw [after, after, ← Function.iterate_add_apply, Nat.sub_add_cancel hjk]
  rw [← hcomp]
  exact since_iterate hal (k - j) (after hal msg j l)

end Line
end Rover.Link
