import Mathlib.Data.List.Nodup
import Rover.Ws.Threads

/-!
# Who gets a reply

A connection is known by the number that `on_open` gives to it, and by its
address, which a later connection can have again.  Requests wait in a queue with
the number while connections come and go.
-/

namespace Rover.Ws

open Messages Runs

namespace Registry

/-- The request that `on_message` puts into the queue. -/
def onMessage (hdl : Handle) (payload : List Byte) (r : Registry) :
    Option (BitVec 32 × List Byte) :=
  r.connectionsRmap[hdl]?.map fun id ↦ (id, payload)

/-- `ws_server::send`: its result, and what is handed to `server.send`. -/
def send (id : BitVec 32) (message : List Byte) (r : Registry) :
    BitVec 32 × List (Handle × List Byte) :=
  match r.connectionsFmap[id]? with
  | some hdl => (BitVec.ofNat 32 message.length, [(hdl, message)])
  | none => (-1, [])

def getHandle (id : BitVec 32) (r : Registry) : Option Handle := r.connectionsFmap[id]?

/-- One round of `ws_broadcaster::run_udp`, which holds `server_mutex`. -/
def broadcast (data : List Byte) (r : Registry) : List (Handle × List Byte) :=
  r.connectionsFmap.toList.map fun x ↦ (x.2, data)

section

variable {r : Registry} (h : ∀ (id : BitVec 32) (hdl : Handle),
  r.connectionsFmap[id]? = some hdl ↔ r.connectionsRmap[hdl]? = some id)

include h

theorem inverse_onOpen {hdl : Handle} (hid : r.connectionsFmap[r.connectionIdCtr]? = none)
    (hhdl : r.connectionsRmap[hdl]? = none) (id : BitVec 32) (x : Handle) :
    (r.onOpen hdl).connectionsFmap[id]? = some x ↔
      (r.onOpen hdl).connectionsRmap[x]? = some id := by
  rw [fmap_onOpen, rmap_onOpen]
  by_cases heq : id = r.connectionIdCtr
  · subst heq
    rw [if_pos ⟨rfl, hid⟩]
    by_cases hx : x = hdl
    · simp [hx, hhdl]
    · rw [if_neg fun hboth ↦ hx hboth.1, ← h, hid]
      simp [Ne.symm hx]
  · rw [if_neg fun hboth ↦ heq hboth.1]
    by_cases hx : x = hdl
    · rw [if_pos ⟨hx, hx ▸ hhdl⟩, h, hx, hhdl]
      simp [Ne.symm heq]
    · rw [if_neg fun hboth ↦ hx hboth.1]
      exact h id x

theorem inverse_onClose {hdl : Handle} {i : BitVec 32} (hi : r.connectionsRmap[hdl]? = some i)
    (id : BitVec 32) (x : Handle) :
    (r.onClose hdl).connectionsFmap[id]? = some x ↔
      (r.onClose hdl).connectionsRmap[x]? = some id := by
  rw [fmap_onClose _ _ hi, rmap_onClose]
  by_cases heq : id = i
  · rw [if_pos heq]
    by_cases hx : x = hdl
    · simp [hx]
    · rw [if_neg hx, ← h, heq, (h i hdl).mpr hi]
      simp [Ne.symm hx]
  · rw [if_neg heq]
    by_cases hx : x = hdl
    · rw [if_pos hx, h, hx, hi]
      simp [Ne.symm heq]
    · rw [if_neg hx]
      exact h id x

end

end Registry

/-! ## The calls of the threads -/

theorem World.queue_onMessage (hdl : Handle) (payload : List Byte) (w : World) :
    (w.onMessage hdl payload).queue =
      w.queue ++ (w.server.toRegistry.onMessage hdl payload).toList := by
  rw [World.onMessage, Registry.onMessage]
  cases w.server.connectionsRmap[hdl]? with
  | none => exact (List.append_nil _).symm
  | some id => rfl

/-- While the connection is open, `run_ws` sends what `send` hands over. -/
theorem World.replies_wsSend {id : BitVec 32} {w : World}
    (hopen : ∀ hdl, w.server.connectionsFmap[id]? = some hdl → w.server.phase hdl = .opened)
    (message : App.Stats) (text : List Byte) :
    (w.wsSend id message).replies =
      w.replies ++ (w.server.toRegistry.send id text).2.map fun x ↦ (x.1, message) := by
  rw [World.wsSend, Registry.send]
  cases hhdl : w.server.connectionsFmap[id]? with
  | none => exact (List.append_nil _).symm
  | some hdl => simp only [if_pos (hopen hdl hhdl), List.map_cons, List.map_nil]

theorem World.pending_recvfrom {w : World} (h : w.pending = []) (data : List Byte) :
    ((w.recvfrom data).pending.map fun x ↦ (x.2, (w.recvfrom data).rcvRawBuffer)) =
      w.broadcaster.toRegistry.broadcast data := by
  rw [World.recvfrom, if_pos h]
  rfl

/-! ## The life of the connections -/

/-- A server, and what has happened to it: the numbers given and the connections
they were given to, the connection that is open at each address, the requests
queued and the connections they came from, and what was handed to
`server.send`. -/
structure Sessions extends Registry where
  given : List (BitVec 32 × ℕ) := []
  owner : Handle → Option ℕ := fun _ ↦ none
  requests : List (ℕ × BitVec 32 × List Byte) := []
  sent : List (Handle × List Byte) := []

/-- The calls; a callback is for the connection `conn` at the address `hdl`. -/
inductive Call
  | onOpen (conn : ℕ) (hdl : Handle)
  | onClose (conn : ℕ) (hdl : Handle)
  | onMessage (conn : ℕ) (hdl : Handle) (payload : List Byte)
  | send (id : BitVec 32) (message : List Byte)
  | broadcast (data : List Byte)

namespace Sessions

/-- Every connection in the registry is taken to accept what `server.send` is
given for it; on one that is closing the library throws instead. -/
def step (s : Sessions) : Call → Sessions
  | .onOpen conn hdl =>
      { s with
        toRegistry := s.toRegistry.onOpen hdl
        given := s.given ++ [(s.connectionIdCtr, conn)]
        owner := Function.update s.owner hdl (some conn) }
  | .onClose _ hdl =>
      { s with
        toRegistry := s.toRegistry.onClose hdl
        owner := Function.update s.owner hdl none }
  | .onMessage conn hdl payload =>
      match s.toRegistry.onMessage hdl payload with
      | none => s
      | some request => { s with requests := s.requests ++ [(conn, request)] }
  | .send id message => { s with sent := s.sent ++ (s.toRegistry.send id message).2 }
  | .broadcast data => { s with sent := s.sent ++ s.toRegistry.broadcast data }

def after (calls : List Call) : Sessions := calls.foldl step {}

/-- What is assumed of the library: a connection opens once and at an address
that no open connection has, it closes when it is open, and no other connection
is open at its address while a callback refers to it.  There are fewer than
2 ^ 32 connections. -/
def Allowed (s : Sessions) : Call → Prop
  | .onOpen conn hdl =>
      conn ∉ s.given.map Prod.snd ∧ s.owner hdl = none ∧ s.given.length + 1 < 2 ^ 32
  | .onClose conn hdl => s.owner hdl = some conn
  | .onMessage conn hdl _ => s.owner hdl = some conn ∨ s.owner hdl = none
  | .send _ _ => True
  | .broadcast _ => True

/-- The replies to requests of a connection that is open go to it, and those to
others go nowhere. -/
def Answers (s : Sessions) (conn : ℕ) (id : BitVec 32) : Prop :=
  ∀ message : List Byte,
    (∀ hdl, s.owner hdl = some conn →
      s.toRegistry.send id message = (BitVec.ofNat 32 message.length, [(hdl, message)]) ∧
        s.getHandle id = some hdl) ∧
      ((∀ hdl, s.owner hdl ≠ some conn) →
        s.toRegistry.send id message = (-1, []) ∧ s.getHandle id = none)

structure Sound (s : Sessions) : Prop where
  inverse : ∀ (id : BitVec 32) (hdl : Handle),
    s.connectionsFmap[id]? = some hdl ↔ s.connectionsRmap[hdl]? = some id
  open_iff : ∀ hdl, (s.owner hdl).isSome ↔ (s.connectionsRmap[hdl]?).isSome
  one_address : ∀ hdl hdl' conn, s.owner hdl = some conn → s.owner hdl' = some conn → hdl = hdl'
  ids_once : (s.given.map Prod.fst).Nodup
  answers : ∀ x ∈ s.requests, s.Answers x.1 x.2.1
  broadcast_once : ∀ data, ((s.toRegistry.broadcast data).map Prod.fst).Nodup
  broadcast_iff : ∀ data x, x ∈ s.toRegistry.broadcast data ↔
    (s.owner x.1).isSome ∧ x.2 = data

/-- What the calls keep.  The counter has not wrapped around, so that every
number was given once. -/
structure Inv (s : Sessions) : Prop where
  ctr : s.connectionIdCtr.toNat = s.given.length
  lt_ctr : ∀ x ∈ s.given, x.1.toNat < s.given.length
  ids_once : (s.given.map Prod.fst).Nodup
  conns_once : (s.given.map Prod.snd).Nodup
  inverse : ∀ (id : BitVec 32) (hdl : Handle),
    s.connectionsFmap[id]? = some hdl ↔ s.connectionsRmap[hdl]? = some id
  owned : ∀ (hdl : Handle) id, s.connectionsRmap[hdl]? = some id →
    ∃ conn, s.owner hdl = some conn ∧ (id, conn) ∈ s.given
  registered : ∀ (hdl : Handle) conn, s.owner hdl = some conn →
    ∃ id, s.connectionsRmap[hdl]? = some id
  asked : ∀ x ∈ s.requests, (x.2.1, x.1) ∈ s.given

theorem inv_start : Inv {} where
  ctr := rfl
  lt_ctr := fun _ hx ↦ absurd hx List.not_mem_nil
  ids_once := List.nodup_nil
  conns_once := List.nodup_nil
  inverse := by simp
  owned := by simp
  registered := by simp
  asked := fun _ hx ↦ absurd hx List.not_mem_nil

section

variable {s : Sessions}

theorem Inv.rmap_none (h : Inv s) {hdl : Handle} (howner : s.owner hdl = none) :
    s.connectionsRmap[hdl]? = none := by
  cases hid : s.connectionsRmap[hdl]? with
  | none => rfl
  | some id =>
      obtain ⟨conn, hconn, -⟩ := h.owned hdl id hid
      exact absurd (hconn.symm.trans howner) (Option.some_ne_none conn)

/-- The next number has not been given. -/
theorem Inv.ctr_notMem (h : Inv s) : s.connectionIdCtr ∉ s.given.map Prod.fst := by
  intro hmem
  obtain ⟨x, hx, heq⟩ := List.mem_map.mp hmem
  have hlt := h.lt_ctr x hx
  rw [heq, h.ctr] at hlt
  exact Nat.lt_irrefl _ hlt

theorem Inv.fmap_ctr (h : Inv s) : s.connectionsFmap[s.connectionIdCtr]? = none := by
  cases hhdl : s.connectionsFmap[s.connectionIdCtr]? with
  | none => rfl
  | some hdl =>
      obtain ⟨conn, -, hgiven⟩ := h.owned hdl _ ((h.inverse _ hdl).mp hhdl)
      exact absurd (List.mem_map_of_mem hgiven) h.ctr_notMem

theorem Inv.rmap_onOpen (h : Inv s) {hdl : Handle} (howner : s.owner hdl = none) (x : Handle) :
    (s.toRegistry.onOpen hdl).connectionsRmap[x]? =
      if x = hdl then some s.connectionIdCtr else s.connectionsRmap[x]? := by
  rw [Registry.rmap_onOpen]
  by_cases hx : x = hdl
  · rw [hx, if_pos ⟨rfl, h.rmap_none howner⟩, if_pos rfl]
  · rw [if_neg fun hboth ↦ hx hboth.1, if_neg hx]

theorem Inv.onOpen (h : Inv s) {conn : ℕ} {hdl : Handle} (hnew : conn ∉ s.given.map Prod.snd)
    (howner : s.owner hdl = none) (hbound : s.given.length + 1 < 2 ^ 32) :
    Inv (s.step (.onOpen conn hdl)) where
  ctr := by
    change (s.connectionIdCtr + 1).toNat = (s.given ++ [_]).length
    rw [BitVec.toNat_add, h.ctr, List.length_append]
    exact Nat.mod_eq_of_lt hbound
  lt_ctr := by
    intro x hx
    change x.1.toNat < (s.given ++ [_]).length
    rw [List.length_append]
    rcases List.mem_append.mp hx with hx | hx
    · exact (h.lt_ctr x hx).trans (Nat.lt_succ_self _)
    · rw [List.mem_singleton.mp hx, h.ctr]
      exact Nat.lt_succ_self _
  ids_once := by
    change ((s.given ++ [_]).map Prod.fst).Nodup
    rw [List.map_append, List.map_singleton, ← List.concat_eq_append]
    exact List.Nodup.concat h.ctr_notMem h.ids_once
  conns_once := by
    change ((s.given ++ [_]).map Prod.snd).Nodup
    rw [List.map_append, List.map_singleton, ← List.concat_eq_append]
    exact List.Nodup.concat hnew h.conns_once
  inverse := Registry.inverse_onOpen h.inverse h.fmap_ctr (h.rmap_none howner)
  owned := by
    intro x id hx
    change (s.toRegistry.onOpen hdl).connectionsRmap[x]? = _ at hx
    change ∃ c, Function.update s.owner hdl (some conn) x = some c ∧ (id, c) ∈ s.given ++ [_]
    rw [h.rmap_onOpen howner] at hx
    by_cases hxh : x = hdl
    · rw [if_pos hxh] at hx
      exact ⟨conn, by rw [hxh, Function.update_self], by simp [Option.some.inj hx]⟩
    · rw [if_neg hxh] at hx
      obtain ⟨c, hc, hgiven⟩ := h.owned x id hx
      exact ⟨c, by rw [Function.update_of_ne hxh, hc], List.mem_append_left _ hgiven⟩
  registered := by
    intro x c hc
    change Function.update s.owner hdl (some conn) x = some c at hc
    change ∃ id, (s.toRegistry.onOpen hdl).connectionsRmap[x]? = some id
    rw [h.rmap_onOpen howner]
    by_cases hxh : x = hdl
    · exact ⟨_, if_pos hxh⟩
    · rw [Function.update_of_ne hxh] at hc
      rw [if_neg hxh]
      exact h.registered x c hc
  asked := fun x hx ↦ List.mem_append_left _ (h.asked x hx)

theorem Inv.onClose (h : Inv s) {conn : ℕ} {hdl : Handle} (howner : s.owner hdl = some conn) :
    Inv (s.step (.onClose conn hdl)) := by
  obtain ⟨i, hi⟩ := h.registered hdl conn howner
  have hrmap (x : Handle) : (s.toRegistry.onClose hdl).connectionsRmap[x]? =
      if x = hdl then none else s.connectionsRmap[x]? := Registry.rmap_onClose _ _ x
  have hctr : (s.toRegistry.onClose hdl).connectionIdCtr = s.connectionIdCtr := by
    rw [Registry.onClose, hi]
  refine ⟨?_, h.lt_ctr, h.ids_once, h.conns_once, Registry.inverse_onClose h.inverse hi, ?_, ?_,
    h.asked⟩
  · change (s.toRegistry.onClose hdl).connectionIdCtr.toNat = _
    rw [hctr]
    exact h.ctr
  · intro x id hx
    change (s.toRegistry.onClose hdl).connectionsRmap[x]? = _ at hx
    change ∃ c, Function.update s.owner hdl none x = some c ∧ (id, c) ∈ s.given
    rw [hrmap] at hx
    by_cases hxh : x = hdl
    · rw [if_pos hxh] at hx
      cases hx
    · rw [if_neg hxh] at hx
      rw [Function.update_of_ne hxh]
      exact h.owned x id hx
  · intro x c hc
    change Function.update s.owner hdl none x = some c at hc
    change ∃ id, (s.toRegistry.onClose hdl).connectionsRmap[x]? = some id
    rw [hrmap]
    by_cases hxh : x = hdl
    · rw [hxh, Function.update_self] at hc
      cases hc
    · rw [Function.update_of_ne hxh] at hc
      rw [if_neg hxh]
      exact h.registered x c hc

theorem Inv.onMessage (h : Inv s) {conn : ℕ} {hdl : Handle}
    (howner : s.owner hdl = some conn ∨ s.owner hdl = none) (payload : List Byte) :
    Inv (s.step (.onMessage conn hdl payload)) := by
  simp only [step, Registry.onMessage]
  cases hid : s.connectionsRmap[hdl]? with
  | none => exact h
  | some id =>
      obtain ⟨c, hc, hgiven⟩ := h.owned hdl id hid
      -- the number is that of the connection at this address, which is `conn`
      have hconn : c = conn := by
        rcases howner with hsome | hnone
        · exact Option.some.inj (hc.symm.trans hsome)
        · exact absurd (hc.symm.trans hnone) (Option.some_ne_none c)
      refine { h with asked := ?_ }
      intro x hx
      rcases List.mem_append.mp hx with hx | hx
      · exact h.asked x hx
      · rw [List.mem_singleton.mp hx, ← hconn]
        exact hgiven

theorem Inv.step (h : Inv s) {c : Call} (hc : s.Allowed c) : Inv (s.step c) := by
  cases c with
  | onOpen conn hdl => exact h.onOpen hc.1 hc.2.1 hc.2.2
  | onClose conn hdl => exact h.onClose hc
  | onMessage conn hdl payload => exact h.onMessage hc payload
  | send id message => exact { h with }
  | broadcast data => exact { h with }

/-! ## What follows from the invariant -/

theorem Inv.conn_eq (h : Inv s) {id : BitVec 32} {c c' : ℕ} (hc : (id, c) ∈ s.given)
    (hc' : (id, c') ∈ s.given) : c = c' := by
  have hpair := List.inj_on_of_nodup_map h.ids_once hc hc' rfl
  exact (Prod.mk.inj hpair).2

theorem Inv.id_eq (h : Inv s) {id id' : BitVec 32} {c : ℕ} (hid : (id, c) ∈ s.given)
    (hid' : (id', c) ∈ s.given) : id = id' := by
  have hpair := List.inj_on_of_nodup_map h.conns_once hid hid' rfl
  exact (Prod.mk.inj hpair).1

theorem Inv.rmap_of_owner (h : Inv s) {hdl : Handle} {c : ℕ} {id : BitVec 32}
    (hc : s.owner hdl = some c) (hid : (id, c) ∈ s.given) : s.connectionsRmap[hdl]? = some id := by
  obtain ⟨i, hi⟩ := h.registered hdl c hc
  obtain ⟨c', hc', hgiven⟩ := h.owned hdl i hi
  obtain rfl : c' = c := Option.some.inj (hc'.symm.trans hc)
  rw [hi, h.id_eq hgiven hid]

theorem Inv.answers (h : Inv s) {conn : ℕ} {id : BitVec 32} (hid : (id, conn) ∈ s.given) :
    s.Answers conn id := by
  intro message
  constructor
  · intro hdl hconn
    have hfmap := (h.inverse id hdl).mpr (h.rmap_of_owner hconn hid)
    exact ⟨by rw [Registry.send, hfmap], hfmap⟩
  · intro hclosed
    have hfmap : s.connectionsFmap[id]? = none := by
      cases hhdl : s.connectionsFmap[id]? with
      | none => rfl
      | some hdl =>
          obtain ⟨c, hc, hgiven⟩ := h.owned hdl id ((h.inverse id hdl).mp hhdl)
          rw [h.conn_eq hgiven hid] at hc
          exact absurd hc (hclosed hdl)
    exact ⟨by rw [Registry.send, hfmap], hfmap⟩

theorem Inv.open_iff (h : Inv s) (hdl : Handle) :
    (s.owner hdl).isSome ↔ (s.connectionsRmap[hdl]?).isSome := by
  rw [Option.isSome_iff_exists, Option.isSome_iff_exists]
  constructor
  · rintro ⟨conn, hconn⟩
    exact h.registered hdl conn hconn
  · rintro ⟨id, hid⟩
    obtain ⟨conn, hconn, -⟩ := h.owned hdl id hid
    exact ⟨conn, hconn⟩

theorem Inv.one_address (h : Inv s) {hdl hdl' : Handle} {conn : ℕ} (hconn : s.owner hdl = some conn)
    (hconn' : s.owner hdl' = some conn) : hdl = hdl' := by
  obtain ⟨id, hid⟩ := h.registered hdl conn hconn
  obtain ⟨c, hc, hgiven⟩ := h.owned hdl id hid
  obtain rfl : c = conn := Option.some.inj (hc.symm.trans hconn)
  have hfmap := (h.inverse id hdl).mpr hid
  have hfmap' := (h.inverse id hdl').mpr (h.rmap_of_owner hconn' hgiven)
  exact Option.some.inj (hfmap.symm.trans hfmap')

/-- The loop over `connections_fmap` meets no handle twice. -/
theorem Inv.broadcast_once (h : Inv s) (data : List Byte) :
    ((s.toRegistry.broadcast data).map Prod.fst).Nodup := by
  rw [Registry.broadcast, List.map_map, List.Nodup, List.pairwise_map]
  apply Std.TreeMap.distinct_keys_toList.imp_of_mem
  rintro ⟨id, hdl⟩ ⟨id', hdl'⟩ hx hy hne (rfl : hdl = hdl')
  have hrmap := (h.inverse id hdl).mp (Std.TreeMap.mem_toList_iff_getElem?_eq_some.mp hx)
  have hrmap' := (h.inverse id' hdl).mp (Std.TreeMap.mem_toList_iff_getElem?_eq_some.mp hy)
  exact hne (Std.compare_eq_iff_eq.mpr (Option.some.inj (hrmap.symm.trans hrmap')))

theorem Inv.broadcast_iff (h : Inv s) (data : List Byte) (x : Handle × List Byte) :
    x ∈ s.toRegistry.broadcast data ↔ (s.owner x.1).isSome ∧ x.2 = data := by
  obtain ⟨hdl, message⟩ := x
  rw [h.open_iff, Option.isSome_iff_exists, Registry.broadcast, List.mem_map]
  constructor
  · rintro ⟨⟨id, hdl'⟩, hmem, heq⟩
    obtain ⟨rfl, rfl⟩ := Prod.mk.inj heq
    have hfmap := Std.TreeMap.mem_toList_iff_getElem?_eq_some.mp hmem
    exact ⟨⟨id, (h.inverse id hdl').mp hfmap⟩, rfl⟩
  · rintro ⟨⟨id, hid⟩, rfl⟩
    refine ⟨(id, hdl), ?_, rfl⟩
    exact Std.TreeMap.mem_toList_iff_getElem?_eq_some.mpr ((h.inverse id hdl).mpr hid)

theorem Inv.sound (h : Inv s) : Sound s where
  inverse := h.inverse
  open_iff := h.open_iff
  one_address := fun _ _ _ ↦ h.one_address
  ids_once := h.ids_once
  answers := fun x hx ↦ h.answers (h.asked x hx)
  broadcast_once := h.broadcast_once
  broadcast_iff := h.broadcast_iff

end

/-- In any order of calls, the two maps are inverse to each other and list the
open connections, no number is given twice, every reply reaches the connection
that asked or nobody, and a broadcast reaches every open connection once. -/
theorem sound_after {calls : List Call} (h : Along step Allowed {} calls) :
    Sound (after calls) := by
  have hinv : Inv (after calls) :=
    h.invariant (fun s c hs hc ↦ hs.step hc) inv_start
  exact hinv.sound

/-- The second connection has the address of the first one. -/
def reuse : List Call :=
  [.onOpen 7 4096, .onMessage 7 4096 (ascii "stats"), .onClose 7 4096, .onOpen 8 4096,
    .onMessage 8 4096 (ascii "stats"), .send 0 (ascii "stats 1"), .send 1 (ascii "stats 2")]

theorem sound_after_reuse : Sound (after reuse) := by
  refine sound_after ⟨?_, ?_, ?_, ?_, ?_, trivial, trivial, trivial⟩
  · exact ⟨by decide, rfl, by decide⟩
  · exact Or.inl rfl
  · rfl
  · exact ⟨by decide, rfl, by decide⟩
  · exact Or.inl rfl

end Sessions
end Rover.Ws
