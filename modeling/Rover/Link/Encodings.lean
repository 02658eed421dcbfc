import Rover.Link.Requests
import Rover.Slave.Text

/-!
# Two encodings of one command

A command can be sent as a packed struct or as text.  Both go through the same
receiver and the same buffer, but each has a handler of its own.  A stream in
which the encodings are mixed makes the slave do what the commands say.
-/

namespace Rover.Slave

open Messages Arduino

inductive Encoding
  | binary
  | text
  deriving DecidableEq, Repr

/-- A command whose arguments fit both encodings. -/
inductive Command
  | pinMode (pin : Fin 64) (mode : Fin 4)
  | digitalWrite (pin : Fin 64) (value : Fin 4)
  | digitalRead (pin : Fin 100)
  | analogRead (pin : Fin 100)
  | initPwm (timer : Fin 4) (channel : Fin 2) (prescale : Fin 8)
  deriving DecidableEq, Repr

/-- The ASCII digit of a number below ten. -/
def digit (n : ℕ) : Byte := BitVec.ofNat 8 (48 + n)

def twoDigits (n : ℕ) : List Byte := [digit (n / 10), digit (n % 10)]

def digitalWriteMsg (pin value : Byte) : MsgbDigitalWriteRequest :=
  let msg : MsgbDigitalWriteRequest := {}
  let msg := { msg with
    valuePin := setParam pin msg.valuePin MsgbDigitalWriteRequest.maskPin
      MsgbDigitalWriteRequest.shiftPin }
  { msg with
    valuePin := setParam value msg.valuePin MsgbDigitalWriteRequest.maskValue
      MsgbDigitalWriteRequest.shiftValue }

namespace Command

/-- The command with its arguments as the handlers find them. -/
def decoded : Command → TextCommand
  | pinMode pin mode => .pinMode (BitVec.ofNat 8 pin) (BitVec.ofNat 8 mode)
  | digitalWrite pin value => .digitalWrite (BitVec.ofNat 8 pin) (BitVec.ofNat 8 value)
  | digitalRead pin => .digitalRead (BitVec.ofNat 8 pin)
  | analogRead pin => .analogRead (BitVec.ofNat 8 pin)
  | initPwm timer channel prescale =>
      .initPwm (BitVec.ofNat 8 timer) (BitVec.ofNat 8 channel) (BitVec.ofNat 8 prescale)

def binary : Command → List Byte
  | pinMode pin mode => (Request.pinMode (BitVec.ofNat 8 pin) (BitVec.ofNat 8 mode)).bytes
  | digitalWrite pin value =>
      let msg := digitalWriteMsg (BitVec.ofNat 8 pin) (BitVec.ofNat 8 value)
      [msg.type, msg.valuePin]
  | digitalRead pin =>
      let msg : MsgbDigitalReadRequest := { pin := BitVec.ofNat 8 pin }
      [msg.type, msg.pin]
  | analogRead pin => (Request.analogRead (BitVec.ofNat 8 pin)).bytes
  | initPwm timer channel prescale =>
      (Request.initPwm (BitVec.ofNat 8 timer) (BitVec.ofNat 8 channel)
        (BitVec.ofNat 8 prescale)).bytes

def letter : Command → Byte
  | pinMode .. => 0x42
  | digitalWrite .. => 0x43
  | digitalRead _ => 0x44
  | analogRead _ => 0x45
  | initPwm .. => 0x46

def digits : Command → List Byte
  | pinMode pin mode => twoDigits pin ++ twoDigits mode
  | digitalWrite pin value => twoDigits pin ++ twoDigits value
  | digitalRead pin => twoDigits pin
  | analogRead pin => twoDigits pin
  | initPwm timer channel prescale => [digit timer, digit channel, digit prescale]

def text (c : Command) : List Byte := c.letter :: (c.digits ++ [serialTextMsgDelimiter])

def encode (c : Command) : Encoding → List Byte
  | .binary => c.binary
  | .text => c.text

end Command

/-! ## Both encodings are frames -/

theorem digit_ne_delimiter {n : ℕ} (h : n < 10) : digit n ≠ serialTextMsgDelimiter := by
  revert n
  decide

theorem delimiter_notMem_twoDigits {n : ℕ} (h : n < 100) :
    serialTextMsgDelimiter ∉ twoDigits n := by
  rw [twoDigits, List.mem_pair, not_or]
  exact ⟨(digit_ne_delimiter (by omega)).symm, (digit_ne_delimiter (by omega)).symm⟩

namespace Command

theorem delimiter_notMem_digits (c : Command) : serialTextMsgDelimiter ∉ c.digits := by
  cases c with
  | pinMode pin other | digitalWrite pin other =>
      rw [digits, List.mem_append, not_or]
      exact ⟨delimiter_notMem_twoDigits (by omega), delimiter_notMem_twoDigits (by omega)⟩
  | digitalRead pin | analogRead pin => exact delimiter_notMem_twoDigits pin.isLt
  | initPwm timer channel prescale =>
      simp only [digits, List.mem_cons, List.not_mem_nil, or_false, not_or]
      exact ⟨(digit_ne_delimiter (by omega)).symm, (digit_ne_delimiter (by omega)).symm,
        (digit_ne_delimiter (by omega)).symm⟩

theorem isTextFrame_text (c : Command) : IsTextFrame c.text := by
  refine ⟨c.letter, c.digits, rfl, ?_, c.delimiter_notMem_digits, ?_⟩
  · cases c <;> exact Nat.le_of_ble_eq_true rfl
  · cases c <;> exact Nat.le_of_ble_eq_true rfl

theorem isBinaryFrame_binary (c : Command) : IsBinaryFrame c.binary := by
  cases c with
  | pinMode pin mode => exact Request.isBinaryFrame_bytes (.pinMode _ _)
  | digitalWrite pin value => exact ⟨2, [_], rfl, by decide, rfl⟩
  | digitalRead pin => exact ⟨3, [_], rfl, by decide, rfl⟩
  | analogRead pin => exact Request.isBinaryFrame_bytes (.analogRead _)
  | initPwm timer channel prescale => exact Request.isBinaryFrame_bytes (.initPwm _ _ _)

theorem isFrame_encode (c : Command) (e : Encoding) :
    IsBinaryFrame (c.encode e) ∨ IsTextFrame (c.encode e) := by
  cases e with
  | binary => exact Or.inl c.isBinaryFrame_binary
  | text => exact Or.inr c.isTextFrame_text

end Command

/-! ## What the handlers decode -/

section

variable {d : Buffer} {f : List Byte} {i n : ℕ}

theorem StartsWith.getElem? (h : StartsWith d f) {c : Byte} (hi : f[i]? = some c) :
    d (BitVec.ofNat 8 i) = c := by
  obtain ⟨hlt, rfl⟩ := List.getElem?_eq_some_iff.mp hi
  exact h i hlt

theorem StartsWith.one (h : StartsWith d f) (hi : f[i]? = some (digit n)) :
    one d i = BitVec.ofNat 8 n := by
  rw [Slave.one, h.getElem? hi, digit, BitVec.ofNat_add, BitVec.add_comm]
  exact BitVec.add_sub_cancel _ _

theorem StartsWith.two (h : StartsWith d f) (hi : f[i]? = some (digit (n / 10)))
    (hi' : f[i + 1]? = some (digit (n % 10))) : two d i = BitVec.ofNat 8 n := by
  rw [Slave.two, h.one hi, h.one hi']
  calc BitVec.ofNat 8 (n / 10) * 10 + BitVec.ofNat 8 (n % 10)
      = BitVec.ofNat 8 (n / 10 * 10 + n % 10) := by rw [BitVec.ofNat_add, BitVec.ofNat_mul]; rfl
    _ = BitVec.ofNat 8 n := by rw [Nat.div_add_mod']

end

namespace Command

theorem decodeText_text (c : Command) {d : Buffer} (h : StartsWith d (c.text ++ [0])) :
    decodeText d = some c.decoded := by
  have hletter : d 0 = c.letter := h.getElem? (i := 0) rfl
  unfold decodeText
  rw [hletter]
  cases c with
  | pinMode pin mode =>
      change some (TextCommand.pinMode (two d 1) (two d 3)) = _
      rw [h.two (n := pin) rfl rfl, h.two (n := mode) rfl rfl]
      rfl
  | digitalWrite pin value =>
      change some (TextCommand.digitalWrite (two d 1) (two d 3)) = _
      rw [h.two (n := pin) rfl rfl, h.two (n := value) rfl rfl]
      rfl
  | digitalRead pin =>
      change some (TextCommand.digitalRead (two d 1)) = _
      rw [h.two (n := pin) rfl rfl]
      rfl
  | analogRead pin =>
      change some (TextCommand.analogRead (two d 1)) = _
      rw [h.two (n := pin) rfl rfl]
      rfl
  | initPwm timer channel prescale =>
      change some (TextCommand.initPwm (one d 1) (one d 2) (one d 3)) = _
      rw [h.one (n := timer) rfl, h.one (n := channel) rfl, h.one (n := prescale) rfl]
      rfl

theorem processMessage_binary {π : Type} (hal : Hal π) (c : Command) {d : Buffer}
    (h : StartsWith d c.binary) (b : Board π) :
    ∃ reply, processMessage hal d b = (c.decoded.operate hal b).sendSerial reply := by
  have hfit {m : ℕ} (k : Fin m) (hm : m ≤ 256) : (BitVec.ofNat 8 k).toNat < m := by
    rw [BitVec.toNat_ofNat, Nat.mod_eq_of_lt (by omega)]
    exact k.isLt
  cases c with
  | pinMode pin mode =>
      exact ⟨_, Request.processMessage_bytes hal (q := .pinMode _ _)
        ⟨hfit pin (by decide), hfit mode (by decide)⟩ h b⟩
  | digitalWrite pin value =>
      have h0 : d 0 = 2 := h.getElem? (i := 0) rfl
      have h1 : d 1 = (digitalWriteMsg (BitVec.ofNat 8 pin) (BitVec.ofNat 8 value)).valuePin :=
        h.getElem? (i := 1) rfl
      -- the two fields lie where those of the pin mode message lie
      obtain ⟨hpin, hvalue⟩ :=
        Request.getParam_modePin (hfit pin (by decide)) (hfit value (by decide))
      refine ⟨byteResponse 0, ?_⟩
      unfold processMessage
      rw [h0, h1]
      exact congrArg₂ (fun pin value ↦ (b.digitalWrite hal pin value).sendSerial (byteResponse 0))
        hpin hvalue
  | digitalRead pin =>
      have h0 : d 0 = 3 := h.getElem? (i := 0) rfl
      have h1 : d 1 = BitVec.ofNat 8 pin := h.getElem? (i := 1) rfl
      refine ⟨byteResponse (b.digitalRead hal (BitVec.ofNat 8 pin)).1, ?_⟩
      unfold processMessage
      rw [h0, h1]
      rfl
  | analogRead pin =>
      exact ⟨_, Request.processMessage_bytes hal (q := .analogRead _) trivial h b⟩
  | initPwm timer channel prescale =>
      exact ⟨_, Request.processMessage_bytes hal (q := .initPwm _ _ _)
        ⟨hfit timer (by decide), hfit channel (by decide), hfit prescale (by decide)⟩ h b⟩

theorem processTextMessage_text {π : Type} (hal : Hal π) (c : Command) {d : Buffer}
    (h : StartsWith d (c.text ++ [0])) (b : Board π) :
    ∃ reply, processTextMessage hal d b = (c.decoded.operate hal b).sendSerial reply := by
  rw [processTextMessage_eq, c.decodeText_text h]
  exact ⟨_, rfl⟩

theorem isBinary_binary (c : Command) : isBinary c.binary = true := by
  cases c <;> rfl

theorem isBinary_text (c : Command) : isBinary c.text = false := by
  cases c <;> rfl

/-- Either handler makes the hardware call of the command; only the replies
differ. -/
theorem run_of_handles_encode {π : Type} (hal : Hal π) {c : Command} {e : Encoding} {call : Call}
    (h : call.Handles (c.encode e)) (b : Board π) :
    ∃ reply, call.run hal b = (c.decoded.operate hal b).sendSerial reply := by
  cases e with
  | binary =>
      cases call with
      | processMessage d => exact processMessage_binary hal c h.2 b
      | processTextMessage d =>
          exact absurd (h.1.symm.trans c.isBinary_binary) Bool.false_ne_true
  | text =>
      cases call with
      | processMessage d => exact absurd (c.isBinary_text.symm.trans h.1) Bool.false_ne_true
      | processTextMessage d => exact processTextMessage_text hal c h.2 b

end Command

/-! ## Streams of commands -/

namespace Board

variable {π : Type} (hal : Hal π)

theorem hardware_operate (c : TextCommand) (b : Board π) :
    (c.operate hal b).hardware = c.operate hal b.hardware := by
  cases c <;> rfl

end Board

namespace Command

variable {π : Type} (hal : Hal π)

/-- The hardware calls of the commands, one after the other. -/
def perform (cmds : List Command) (b : Board π) : Board π :=
  cmds.foldl (fun b c ↦ c.decoded.operate hal b) b

theorem hardware_perform (cmds : List Command) (b : Board π) :
    (perform hal cmds b).hardware = perform hal cmds b.hardware := by
  induction cmds generalizing b with
  | nil => rfl
  | cons c cmds ih =>
      change (perform hal cmds (c.decoded.operate hal b)).hardware = _
      rw [ih, Board.hardware_operate]
      rfl

def stream (cmds : List (Command × Encoding)) : List (List Byte) :=
  cmds.map fun x ↦ x.1.encode x.2

theorem hardware_calls {cmds : List (Command × Encoding)} {calls : List Call}
    (h : List.Forall₂ Call.Handles calls (stream cmds)) (b : Board π) :
    (calls.foldl (fun b call ↦ call.run hal b) b).hardware =
      (perform hal (cmds.map Prod.fst) b).hardware := by
  induction cmds generalizing calls b with
  | nil =>
      rw [List.forall₂_nil_right_iff.mp h]
      rfl
  | cons x cmds ih =>
      obtain ⟨call, calls', hcall, hcalls, rfl⟩ := List.forall₂_cons_right_iff.mp h
      obtain ⟨reply, hrun⟩ := run_of_handles_encode hal hcall b
      calc ((call :: calls').foldl (fun b call ↦ call.run hal b) b).hardware
          = (perform hal (cmds.map Prod.fst) (call.run hal b)).hardware := ih hcalls _
        _ = perform hal (cmds.map Prod.fst) (call.run hal b).hardware := hardware_perform hal _ _
        _ = perform hal (cmds.map Prod.fst) (x.1.decoded.operate hal b).hardware := by
            rw [hrun, Board.hardware_sendSerial]
        _ = (perform hal ((x :: cmds).map Prod.fst) b).hardware := (hardware_perform hal _ _).symm

end Command

namespace Receiver

/-- No idle reset while a frame of `fs` is partly received. -/
def WithoutResetInside (r : Receiver) (fs cs : List (List Byte)) : Prop :=
  ∀ pre c post, cs = pre ++ c :: post → (∀ k, (pre ++ [c]).flatten ≠ (fs.take k).flatten) →
    (r.run pre).1.resets c = false

theorem serialIdleCount_readByte (r : Receiver) (rb : Byte) :
    (r.readByte rb).1.serialIdleCount = 0 := by
  unfold readByte
  dsimp only
  split <;> split_ifs <;> rfl

theorem serialIdleCount_readAll {avail : List Byte} (h : avail ≠ []) (r : Receiver) :
    (r.readAll avail).1.serialIdleCount = 0 := by
  induction avail generalizing r with
  | nil => exact absurd rfl h
  | cons rb rest ih =>
      rw [readAll_cons]
      rcases eq_or_ne rest [] with rfl | hrest
      · exact r.serialIdleCount_readByte rb
      · exact ih hrest _

/-- A call of `loop()` that finds a byte does not reset. -/
theorem withoutResetInside_of_ne_nil (r : Receiver) (fs : List (List Byte))
    {cs : List (List Byte)} (h : ∀ c ∈ cs, c ≠ []) : r.WithoutResetInside fs cs := by
  intro pre c post heq _
  have hzero := (r.run pre).1.serialIdleCount_readAll (h c (by simp [heq]))
  rw [resets, idleFires, hzero]
  decide

end Receiver

namespace Machine

variable {π : Type} (hal : Hal π) {s : Machine π}

theorem hardware_feed_stream (hrest : s.rx.Waiting) (cmds : List (Command × Encoding))
    {cs : List (List Byte)} (hcs : cs.flatten = (Command.stream cmds).flatten)
    (hquiet : s.rx.WithoutResetInside (Command.stream cmds) cs) :
    (s.feed hal cs).board.hardware =
      (Command.perform hal (cmds.map Prod.fst) s.board).hardware := by
  have hframe : ∀ f ∈ Command.stream cmds, IsBinaryFrame f ∨ IsTextFrame f := by
    intro f hf
    obtain ⟨x, -, rfl⟩ := List.mem_map.mp hf
    exact x.1.isFrame_encode x.2
  have hcalls := (((Receiver.holding_nil_iff s.rx).mpr hrest).run hframe cs
    (hcs ▸ List.prefix_rfl) hquiet).2
  rw [hcs, Framing.feed_frames fun f hf ↦ isFrame_of_kind (hframe f hf)] at hcalls
  rw [feed_eq]
  exact Command.hardware_calls hal hcalls s.board

/-- Whatever encoding is chosen for each command, the hardware calls are those
of the commands. -/
theorem ops_feed_stream (hrest : s.rx.Waiting) (cmds : List (Command × Encoding))
    {cs : List (List Byte)} (hcs : cs.flatten = (Command.stream cmds).flatten)
    (hquiet : s.rx.WithoutResetInside (Command.stream cmds) cs) :
    (s.feed hal cs).board.ops = (Command.perform hal (cmds.map Prod.fst) s.board).ops := by
  have hops := congrArg Board.ops (hardware_feed_stream hal hrest cmds hcs hquiet)
  exact hops

/-- `pinMode(13, 1)` as text, `digitalWrite(13, 1)` packed and `initPwm(0, 1, 3)`
as text, each but the last in two parts. -/
theorem ops_feed_mixed :
    (inert.feed fixedHal [ascii "B130", ascii "1;" ++ [0x02], [0x4d], ascii "F013;"]).board.ops =
      [.pinMode 13 1, .digitalWrite 13 1, .initPwm 0 1 3] := by
  refine (ops_feed_stream fixedHal ⟨rfl, rfl⟩
    [(.pinMode 13 1, .text), (.digitalWrite 13 1, .binary), (.initPwm 0 1 3, .text)]
    (by decide) (inert.rx.withoutResetInside_of_ne_nil _ (by decide))).trans ?_
  decide

end Machine
end Rover.Slave
