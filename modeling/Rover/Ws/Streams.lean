import Rover.Ws.Sessions

/-!
# What a connection receives

A connection listens from `on_open` to `on_close`, under the number of the
connections opened before it.  All that reaches it are the messages sent to this
number and the datagrams forwarded meanwhile, in this order.
-/

namespace Rover.Ws.Sessions

open Messages Runs

/-- What a call hands to `server.send` for a connection. -/
def receivedBy (conn : ℕ) (s : Sessions) (c : Call) : List (List Byte) :=
  ((s.step c).sent.drop s.sent.length).filterMap fun x ↦
    if s.owner x.1 = some conn then some x.2 else none

def stream (conn : ℕ) : Sessions → List Call → List (List Byte)
  | _, [] => []
  | s, c :: calls => s.receivedBy conn c ++ stream conn (s.step c) calls

theorem onMessage_frame (s : Sessions) (c : ℕ) (hdl : Handle) (payload : List Byte) :
    (s.step (.onMessage c hdl payload)).toRegistry = s.toRegistry ∧
      (s.step (.onMessage c hdl payload)).owner = s.owner ∧
        (s.step (.onMessage c hdl payload)).given = s.given ∧
          (s.step (.onMessage c hdl payload)).sent = s.sent := by
  simp only [Sessions.step]
  split <;> exact ⟨rfl, rfl, rfl, rfl⟩

/-! ## The connection itself -/

/-- What a connection knows: how many were opened, and its number while it is
open. -/
structure Listener where
  opened : ℕ := 0
  number : Option (BitVec 32) := none

namespace Listener

def step (conn : ℕ) (l : Listener) : Call → Listener
  | .onOpen c _ =>
      { opened := l.opened + 1
        number := if c = conn then some (BitVec.ofNat 32 l.opened) else l.number }
  | .onClose c _ => { l with number := if c = conn then none else l.number }
  | _ => l

def hears (l : Listener) : Call → List (List Byte)
  | .send id message => if l.number = some id then [message] else []
  | .broadcast data => if l.number.isSome then [data] else []
  | _ => []

def stream (conn : ℕ) : Listener → List Call → List (List Byte)
  | _, [] => []
  | l, c :: calls => l.hears c ++ stream conn (l.step conn c) calls

end Listener

/-- The server knows the connection as it knows itself. -/
structure Follows (conn : ℕ) (l : Listener) (s : Sessions) : Prop where
  inv : Inv s
  opened : l.opened = s.given.length
  number : ∀ id, l.number = some id ↔
    ∃ hdl : Handle, s.owner hdl = some conn ∧ s.connectionsRmap[hdl]? = some id

namespace Follows

variable {conn : ℕ} {l : Listener} {s : Sessions}

theorem start (conn : ℕ) : Follows conn {} {} where
  inv := inv_start
  opened := rfl
  number := by simp

theorem onOpen (h : Follows conn l s) {c : ℕ} {hdl : Handle}
    (hallowed : s.Allowed (.onOpen c hdl)) :
    Follows conn (l.step conn (.onOpen c hdl)) (s.step (.onOpen c hdl)) := by
  obtain ⟨hnew, howner, -⟩ := id hallowed
  have hrmap := h.inv.rmap_onOpen howner
  have hctr : BitVec.ofNat 32 l.opened = s.connectionIdCtr := by
    rw [h.opened, ← h.inv.ctr, BitVec.ofNat_toNat, BitVec.setWidth_eq]
  have hother {x : Handle} (hx : x ≠ hdl) (id : BitVec 32) :
      ((s.step (.onOpen c hdl)).owner x = some conn ∧
          (s.step (.onOpen c hdl)).connectionsRmap[x]? = some id) ↔
        s.owner x = some conn ∧ s.connectionsRmap[x]? = some id := by
    simp only [Sessions.step, Function.update_of_ne hx, hrmap x, if_neg hx]
  have hself (id : BitVec 32) :
      ((s.step (.onOpen c hdl)).owner hdl = some conn ∧
          (s.step (.onOpen c hdl)).connectionsRmap[hdl]? = some id) ↔
        c = conn ∧ s.connectionIdCtr = id := by
    simp only [Sessions.step, Function.update_self, hrmap hdl, if_true, Option.some.injEq]
  refine ⟨h.inv.step hallowed, ?_, fun id ↦ ?_⟩
  · simp [Listener.step, Sessions.step, h.opened]
  · rw [Listener.step, hctr]
    dsimp only
    by_cases hc : c = conn
    · rw [if_pos hc, Option.some_inj]
      constructor
      · exact fun hid ↦ ⟨hdl, (hself id).mpr ⟨hc, hid⟩⟩
      · rintro ⟨x, hx⟩
        by_cases hxh : x = hdl
        · subst hxh
          exact ((hself id).mp hx).2
        · -- the connection was not open anywhere before
          obtain ⟨hconn, hid⟩ := (hother hxh id).mp hx
          obtain ⟨conn', hconn', hgiven⟩ := h.inv.owned x id hid
          obtain rfl : conn' = conn := Option.some.inj (hconn'.symm.trans hconn)
          exact absurd (List.mem_map_of_mem hgiven) (hc ▸ hnew)
    · rw [if_neg hc, h.number]
      constructor
      · rintro ⟨x, hx⟩
        have hxh : x ≠ hdl := by
          rintro rfl
          rw [howner] at hx
          exact absurd hx.1.symm (Option.some_ne_none conn)
        exact ⟨x, (hother hxh id).mpr hx⟩
      · rintro ⟨x, hx⟩
        have hxh : x ≠ hdl := by
          rintro rfl
          exact hc ((hself id).mp hx).1
        exact ⟨x, (hother hxh id).mp hx⟩

theorem onClose (h : Follows conn l s) {c : ℕ} {hdl : Handle} (howner : s.owner hdl = some c) :
    Follows conn (l.step conn (.onClose c hdl)) (s.step (.onClose c hdl)) := by
  have hother {x : Handle} (hx : x ≠ hdl) (id : BitVec 32) :
      ((s.step (.onClose c hdl)).owner x = some conn ∧
          (s.step (.onClose c hdl)).connectionsRmap[x]? = some id) ↔
        s.owner x = some conn ∧ s.connectionsRmap[x]? = some id := by
    simp only [Sessions.step, Function.update_of_ne hx, Registry.rmap_onClose, if_neg hx]
  have hself : (s.step (.onClose c hdl)).owner hdl ≠ some conn := by
    simp [Sessions.step]
  refine ⟨h.inv.step howner, h.opened, fun id ↦ ?_⟩
  rw [Listener.step]
  dsimp only
  by_cases hc : c = conn
  · rw [if_pos hc]
    refine iff_of_false (Option.some_ne_none id).symm ?_
    rintro ⟨x, hx⟩
    have hxh : x ≠ hdl := by
      rintro rfl
      exact hself hx.1
    exact hxh (h.inv.one_address ((hother hxh id).mp hx).1 (hc ▸ howner))
  · rw [if_neg hc, h.number]
    constructor
    · rintro ⟨x, hx⟩
      have hxh : x ≠ hdl := by
        rintro rfl
        exact hc (Option.some.inj (howner.symm.trans hx.1))
      exact ⟨x, (hother hxh id).mpr hx⟩
    · rintro ⟨x, hx⟩
      have hxh : x ≠ hdl := by
        rintro rfl
        exact hself hx.1
      exact ⟨x, (hother hxh id).mp hx⟩

theorem step (h : Follows conn l s) {c : Call} (hallowed : s.Allowed c) :
    Follows conn (l.step conn c) (s.step c) := by
  cases c with
  | onOpen c hdl => exact h.onOpen hallowed
  | onClose c hdl => exact h.onClose hallowed
  | onMessage c hdl payload =>
      obtain ⟨hregistry, howner, hgiven, -⟩ := s.onMessage_frame c hdl payload
      refine ⟨h.inv.step hallowed, ?_, ?_⟩
      · rw [hgiven]
        exact h.opened
      · rw [hregistry, howner]
        exact h.number
  | send id message => exact ⟨h.inv.step hallowed, h.opened, h.number⟩
  | broadcast data => exact ⟨h.inv.step hallowed, h.opened, h.number⟩

theorem isSome_number (h : Follows conn l s) :
    l.number.isSome ↔ ∃ hdl : Handle, s.owner hdl = some conn := by
  rw [Option.isSome_iff_exists]
  constructor
  · rintro ⟨id, hid⟩
    obtain ⟨hdl, hconn, -⟩ := (h.number id).mp hid
    exact ⟨hdl, hconn⟩
  · rintro ⟨hdl, hconn⟩
    obtain ⟨id, hid⟩ := h.inv.registered hdl conn hconn
    exact ⟨id, (h.number id).mpr ⟨hdl, hconn, hid⟩⟩

theorem receivedBy_send (h : Follows conn l s) (id : BitVec 32) (message : List Byte) :
    s.receivedBy conn (.send id message) = l.hears (.send id message) := by
  rw [receivedBy, Sessions.step, Listener.hears]
  dsimp only
  rw [List.drop_left, Registry.send]
  cases hfmap : s.connectionsFmap[id]? with
  | none =>
      have hno : l.number ≠ some id := by
        intro hid
        obtain ⟨hdl, -, hrmap⟩ := (h.number id).mp hid
        exact absurd (hfmap.symm.trans ((h.inv.inverse id hdl).mpr hrmap)) (by simp)
      rw [if_neg hno]
      rfl
  | some hdl =>
      have hiff : l.number = some id ↔ s.owner hdl = some conn := by
        rw [h.number]
        constructor
        · rintro ⟨x, hconn, hrmap⟩
          have hx := hfmap.symm.trans ((h.inv.inverse id x).mpr hrmap)
          rwa [Option.some.inj hx]
        · exact fun hconn ↦ ⟨hdl, hconn, (h.inv.inverse id hdl).mp hfmap⟩
      by_cases hconn : s.owner hdl = some conn
      · simp [hconn, hiff.mpr hconn]
      · simp [hconn, mt hiff.mp hconn]

theorem receivedBy_broadcast (h : Follows conn l s) (data : List Byte) :
    s.receivedBy conn (.broadcast data) = l.hears (.broadcast data) := by
  rw [receivedBy, Sessions.step, Listener.hears]
  dsimp only
  rw [List.drop_left]
  have honce := h.inv.broadcast_once data
  have hnone {frames : List (Handle × List Byte)} (hframes : ∀ x ∈ frames, s.owner x.1 ≠ some conn) :
      (frames.filterMap fun x ↦ if s.owner x.1 = some conn then some x.2 else none) = [] :=
    List.filterMap_eq_nil_iff.mpr fun x hx ↦ if_neg (hframes x hx)
  by_cases hopen : ∃ hdl : Handle, s.owner hdl = some conn
  · obtain ⟨hdl, hconn⟩ := hopen
    have hmem := (h.inv.broadcast_iff data (hdl, data)).mpr ⟨by rw [hconn]; rfl, rfl⟩
    obtain ⟨pre, post, hsplit⟩ := List.append_of_mem hmem
    rw [hsplit, List.map_append, List.map_cons, List.nodup_append, List.nodup_cons] at honce
    obtain ⟨-, ⟨hpost, -⟩, hpre⟩ := honce
    have hpre' := hnone fun x hx hx' ↦
      hpre _ (List.mem_map_of_mem hx) hdl List.mem_cons_self (h.inv.one_address hx' hconn)
    have hpost' := hnone fun x hx hx' ↦
      hpost (h.inv.one_address hx' hconn ▸ (List.mem_map_of_mem hx : x.1 ∈ post.map Prod.fst))
    rw [if_pos (h.isSome_number.mpr ⟨hdl, hconn⟩), hsplit, List.filterMap_append,
      List.filterMap_cons, hpre', hpost', if_pos hconn]
    rfl
  · rw [if_neg (mt h.isSome_number.mp hopen)]
    exact hnone fun x _ hconn ↦ hopen ⟨x.1, hconn⟩

/-- What is handed over for the connection is what it hears. -/
theorem receivedBy_eq (h : Follows conn l s) (c : Call) : s.receivedBy conn c = l.hears c := by
  cases c with
  | onOpen c hdl => simp [receivedBy, Sessions.step, Listener.hears]
  | onClose c hdl => simp [receivedBy, Sessions.step, Listener.hears]
  | onMessage c hdl payload =>
      obtain ⟨-, -, -, hsent⟩ := s.onMessage_frame c hdl payload
      rw [receivedBy, hsent, List.drop_length]
      rfl
  | send id message => exact h.receivedBy_send id message
  | broadcast data => exact h.receivedBy_broadcast data

theorem stream_eq (h : Follows conn l s) {calls : List Call}
    (hall : Along Sessions.step Allowed s calls) :
    Sessions.stream conn s calls = l.stream conn calls := by
  induction calls generalizing l s with
  | nil => rfl
  | cons c calls ih =>
      rw [Sessions.stream, Listener.stream, h.receivedBy_eq, ih (h.step hall.1) hall.2]

end Follows

/-- In any order of calls, a connection receives what it would as a listener of
its own: the messages to its number and all datagrams while it is open, once and
in order. -/
theorem stream_of_listener (conn : ℕ) {calls : List Call}
    (h : Along Sessions.step Allowed {} calls) :
    stream conn {} calls = Listener.stream conn {} calls :=
  (Follows.start conn).stream_eq h

/-- Two connections at one address, and three datagrams. -/
def viewers : List Call :=
  [.onOpen 7 4096, .broadcast (ascii "a"), .onClose 7 4096, .broadcast (ascii "b"),
    .onOpen 8 4096, .broadcast (ascii "c"), .send 0 (ascii "to 7"), .send 1 (ascii "to 8")]

theorem stream_of_listener_viewers : stream 8 {} viewers = [ascii "c", ascii "to 8"] := by
  have hallowed : Along step Allowed {} viewers := by
    refine ⟨⟨?_, rfl, ?_⟩, trivial, ?_, trivial, ⟨?_, rfl, ?_⟩, trivial, trivial, trivial, trivial⟩
    · decide
    · decide
    · rfl
    · decide
    · decide
  exact (stream_of_listener 8 hallowed).trans (by decide +kernel)

end Rover.Ws.Sessions
