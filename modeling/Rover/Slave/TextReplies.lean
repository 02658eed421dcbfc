import Rover.Lib.Printf
import Rover.Slave.Text

/-!
# What the replies tell

The replies to text commands name the command with its arguments, and for a
read the value.  Who only listens to them knows what the slave did.
-/

namespace Rover.Slave

open Messages Printf

/-! ## Reading replies -/

/-- The formats of the replies, and the calls they stand for. -/
def replyFormats : List (String × (List ℕ → List HwOp)) :=
  [("pinMode(,)", fun
      | [pin, mode] => [.pinMode (BitVec.ofNat 8 pin) (BitVec.ofNat 8 mode)]
      | _ => []),
    ("digitalWrite(,)", fun
      | [pin, value] => [.digitalWrite (BitVec.ofNat 8 pin) (BitVec.ofNat 8 value)]
      | _ => []),
    ("=digitalRead()", fun
      | [value, pin] => [.digitalRead (BitVec.ofNat 8 pin) (BitVec.ofNat 8 value)]
      | _ => []),
    ("=analogRead()", fun
      | [value, pin] => [.analogRead (BitVec.ofNat 8 pin) (BitVec.ofNat 16 value)]
      | _ => []),
    ("initPwm(,,)", fun
      | [timer, channel, prescale] =>
          [.initPwm (BitVec.ofNat 8 timer) (BitVec.ofNat 8 channel) (BitVec.ofNat 8 prescale)]
      | _ => []),
    ("pwmDuty(,,)", fun
      | [timer, channel, duty] =>
          [.pwmDuty (BitVec.ofNat 8 timer) (BitVec.ofNat 8 channel) (BitVec.ofNat 8 duty)]
      | _ => [])]

def readReply (reply : List Byte) : List HwOp :=
  ((replyFormats.find? fun x ↦ ascii x.1 = skeleton reply).map fun x ↦ x.2 (numbers reply)).getD []

/-- Every reply ends with the delimiter. -/
def readReplies (out : List Byte) : List HwOp :=
  (out.splitOn serialTextMsgDelimiter).flatMap readReply

/-- The formats are told apart by what is no digit. -/
theorem find_format {format : String × (List ℕ → List HwOp)} (h : format ∈ replyFormats) :
    replyFormats.find? (fun x ↦ ascii x.1 = ascii format.1) = some format := by
  simp only [replyFormats, List.mem_cons, List.not_mem_nil, or_false] at h
  rcases h with rfl | rfl | rfl | rfl | rfl | rfl <;> rfl

theorem readReply_render {format : String × (List ℕ → List HwOp)} (hformat : format ∈ replyFormats)
    {first : List Byte} {fields : List (ℕ × List Byte)} (hfirst : NoDigits first)
    (hfields : ∀ x ∈ fields, x.2 ≠ [] ∧ NoDigits x.2)
    (h : first ++ fields.flatMap Prod.snd = ascii format.1) :
    readReply (render first fields) = format.2 (fields.map Prod.fst) := by
  rw [readReply, skeleton_render hfirst fun x hx ↦ (hfields x hx).2,
    numbers_render hfirst hfields, h, find_format hformat]
  rfl

theorem readReplies_append {reply : List Byte} (h : serialTextMsgDelimiter ∉ reply)
    (rest : List Byte) :
    readReplies (reply ++ serialTextMsgDelimiter :: rest) = readReply reply ++ readReplies rest := by
  rw [readReplies, List.splitOn_append_cons_self_of_not_mem h, List.flatMap_cons]
  rfl

namespace TextCommand

variable {π : Type} (hal : Hal π) (b : Board π)

/-- A reply as a format with its arguments. -/
def layout : TextCommand → List Byte × List (ℕ × List Byte)
  | logInfo => ([], [])
  | pinMode pin mode => (ascii "pinMode(", [(pin.toNat, ascii ","), (mode.toNat, ascii ")")])
  | digitalWrite pin value =>
      (ascii "digitalWrite(", [(pin.toNat, ascii ","), (value.toNat, ascii ")")])
  | digitalRead pin =>
      ([], [((b.digitalRead hal pin).1.toNat, ascii "=digitalRead("), (pin.toNat, ascii ")")])
  | analogRead pin =>
      ([], [((b.analogRead hal pin).1.toNat, ascii "=analogRead("), (pin.toNat, ascii ")")])
  | initPwm timer channel prescale =>
      (ascii "initPwm(",
        [(timer.toNat, ascii ","), (channel.toNat, ascii ","), (prescale.toNat, ascii ")")])
  | pwmDuty timer channel duty =>
      (ascii "pwmDuty(",
        [(timer.toNat, ascii ","), (channel.toNat, ascii ","), (duty.toNat, ascii ")")])

def body (c : TextCommand) : List Byte := render (c.layout hal b).1 (c.layout hal b).2

theorem reply_eq (c : TextCommand) : c.reply hal b = c.body hal b ++ [serialTextMsgDelimiter] := by
  have happend (s t : String) : ascii (s ++ t) = ascii s ++ ascii t := by simp [ascii]
  have hend : ascii ");" = ascii ")" ++ [serialTextMsgDelimiter] := by decide
  have hdecimal {w : ℕ} (n : BitVec w) : ascii (decimal n) = Decimal.digits n.toNat := rfl
  cases c with
  | logInfo => rfl
  | _ => simp [reply, body, layout, render, happend, hend, hdecimal]

theorem layout_spec (c : TextCommand) :
    NoDigits (c.layout hal b).1 ∧ ∀ x ∈ (c.layout hal b).2, x.2 ≠ [] ∧ NoDigits x.2 := by
  cases c <;> simp [layout] <;> decide

theorem readReply_body (c : TextCommand) : readReply (c.body hal b) = c.ops hal b := by
  obtain ⟨hfirst, hfields⟩ := c.layout_spec hal b
  have hformat (i : ℕ) {format : String × (List ℕ → List HwOp)}
      (h : replyFormats[i]? = some format) : format ∈ replyFormats := List.mem_of_getElem? h
  cases c with
  | logInfo => rfl
  | pinMode pin mode =>
      exact (readReply_render (hformat 0 rfl) hfirst hfields rfl).trans (by simp [layout, ops])
  | digitalWrite pin value =>
      exact (readReply_render (hformat 1 rfl) hfirst hfields rfl).trans (by simp [layout, ops])
  | digitalRead pin =>
      refine (readReply_render (hformat 2 rfl) hfirst hfields rfl).trans ?_
      simp [layout, ops, Board.digitalRead]
  | analogRead pin =>
      refine (readReply_render (hformat 3 rfl) hfirst hfields rfl).trans ?_
      simp [layout, ops, Board.analogRead]
  | initPwm timer channel prescale =>
      exact (readReply_render (hformat 4 rfl) hfirst hfields rfl).trans (by simp [layout, ops])
  | pwmDuty timer channel duty =>
      exact (readReply_render (hformat 5 rfl) hfirst hfields rfl).trans (by simp [layout, ops])

theorem delimiter_notMem_body (c : TextCommand) : serialTextMsgDelimiter ∉ c.body hal b := by
  refine notMem_render (by decide) ?_ ?_ <;> cases c <;> simp [layout] <;> decide

theorem operate_frame (c : TextCommand) :
    (c.operate hal b).written = b.written ∧ (c.operate hal b).serialOut = b.serialOut := by
  cases c <;> exact ⟨rfl, rfl⟩

end TextCommand

/-- What was done and what was replied from `b` to `b'`. -/
def Board.Tells {π : Type} (b b' : Board π) : Prop :=
  ∃ ops new, b'.ops = b.ops ++ ops ∧ b'.written = b.written ++ new ∧
    b'.serialOut = b.serialOut ++ new ∧
      ∀ rest, readReplies (new ++ rest) = ops ++ readReplies rest

theorem Board.Tells.refl {π : Type} (b : Board π) : b.Tells b :=
  ⟨[], [], by simp, by simp, by simp, fun _ ↦ rfl⟩

theorem Board.Tells.trans {π : Type} {b₁ b₂ b₃ : Board π} (h : b₁.Tells b₂) (h' : b₂.Tells b₃) :
    b₁.Tells b₃ := by
  obtain ⟨ops, new, hops, hwritten, hout, hread⟩ := h
  obtain ⟨ops', new', hops', hwritten', hout', hread'⟩ := h'
  exact ⟨ops ++ ops', new ++ new', by simp [hops, hops'], by simp [hwritten, hwritten'],
    by simp [hout, hout'], fun rest ↦ by rw [List.append_assoc, hread, hread', List.append_assoc]⟩

theorem tells_processTextMessage {π : Type} (hal : Hal π) (d : Buffer) (b : Board π) :
    b.Tells (processTextMessage hal d b) := by
  rw [processTextMessage_eq]
  cases decodeText d with
  | none => exact .refl b
  | some c =>
      obtain ⟨hwritten, hout⟩ := c.operate_frame hal b
      refine ⟨c.ops hal b, c.reply hal b, c.ops_exec hal b, ?_, ?_, fun rest ↦ ?_⟩
      · exact congrArg (· ++ _) hwritten
      · exact congrArg (· ++ _) hout
      · rw [c.reply_eq, List.append_assoc, List.singleton_append,
          readReplies_append (c.delimiter_notMem_body hal b), c.readReply_body]

def Call.IsText : Call → Prop
  | .processMessage _ => False
  | .processTextMessage _ => True

instance : (c : Call) → Decidable c.IsText
  | .processMessage _ => .isFalse not_false
  | .processTextMessage _ => .isTrue trivial

theorem tells_foldl {π : Type} (hal : Hal π) {calls : List Call} (h : ∀ c ∈ calls, c.IsText)
    (b : Board π) : b.Tells (calls.foldl (fun b c ↦ c.run hal b) b) := by
  induction calls generalizing b with
  | nil => exact .refl b
  | cons c calls ih =>
      have htext := h c List.mem_cons_self
      refine Board.Tells.trans ?_ (ih (fun c' hc' ↦ h c' (List.mem_cons_of_mem c hc')) _)
      cases c with
      | processMessage d => exact htext.elim
      | processTextMessage d => exact tells_processTextMessage hal d b

/-- As long as no binary message is completed, the operations of the slave can
be read off its replies, whatever it receives and however its bytes are spread
over the calls of `loop()`. -/
theorem readReplies_feed {π : Type} (hal : Hal π) (s : Machine π) (cs : List (List Byte))
    (htext : ∀ c ∈ (s.rx.run cs).2, c.IsText) :
    ∃ new, (s.feed hal cs).board.written = s.board.written ++ new ∧
      (s.feed hal cs).board.serialOut = s.board.serialOut ++ new ∧
        (s.feed hal cs).board.ops = s.board.ops ++ readReplies new := by
  obtain ⟨ops, new, hops, hwritten, hout, hread⟩ := tells_foldl hal htext s.board
  have hend : readReplies [] = [] := rfl
  have hall := hread []
  rw [List.append_nil, hend, List.append_nil] at hall
  rw [s.feed_eq hal cs]
  exact ⟨new, hwritten, hout, hall ▸ hops⟩

/-- Two commands at once. -/
theorem readReplies_feed_two :
    ∃ new, (inert.feed fixedHal [ascii "B1301;E14;"]).board.written = new ∧
      readReplies new = [.pinMode 13 1, .analogRead 14 0x020e] := by
  have htext : ∀ c ∈ (inert.rx.run [ascii "B1301;E14;"]).2, c.IsText := by decide +kernel
  obtain ⟨new, hwritten, -, hops⟩ := readReplies_feed fixedHal inert [ascii "B1301;E14;"] htext
  refine ⟨new, hwritten, hops.symm.trans ?_⟩
  decide +kernel

end Rover.Slave
