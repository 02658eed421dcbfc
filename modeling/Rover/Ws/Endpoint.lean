import Mathlib.Data.List.Induction
import Mathlib.Logic.Function.Basic

/-!
# Connections of a WebSocket server

`ws_server` and `ws_broadcaster` keep the same two maps: from the number of a
connection to its handle, and from its address back to the number.  Entries are
made by `on_open` and removed by `on_close` only; between the two the state of
the connection can leave "open" at any time.
-/

namespace Rover.Ws

section Maps

variable {α β : Type*} [DecidableEq α] [Ord α] [Std.TransOrd α] [Std.LawfulEqOrd α]

theorem getElem?_emplace (t : Std.TreeMap α β) (k : α) (v : β) (x : α) :
    (t.insertIfNew k v)[x]? = if x = k ∧ t[x]? = none then some v else t[x]? := by
  rw [Std.TreeMap.getElem?_insertIfNew]
  by_cases h : x = k
  · subst h
    simp
  · have hcmp : ¬ compare k x = .eq := fun hk ↦ h (Std.compare_eq_iff_eq.mp hk).symm
    simp [h, hcmp]

theorem getElem?_erased (t : Std.TreeMap α β) (k x : α) :
    (t.erase k)[x]? = if x = k then none else t[x]? := by
  rw [Std.TreeMap.getElem?_erase]
  by_cases h : x = k
  · subst h
    simp
  · have hcmp : ¬ compare k x = .eq := fun hk ↦ h (Std.compare_eq_iff_eq.mp hk).symm
    simp [h, hcmp]

end Maps

/-- The address of a connection.  A `connection_hdl` refers to it. -/
abbrev Handle := ℕ

structure Registry where
  connectionIdCtr : BitVec 32 := 0
  connectionsFmap : Std.TreeMap (BitVec 32) Handle := ∅
  connectionsRmap : Std.TreeMap Handle (BitVec 32) := ∅

namespace Registry

/-- `emplace` keeps an entry that is there. -/
def onOpen (hdl : Handle) (r : Registry) : Registry :=
  let id := r.connectionIdCtr
  { connectionIdCtr := r.connectionIdCtr + 1
    connectionsFmap := r.connectionsFmap.insertIfNew id hdl
    connectionsRmap := r.connectionsRmap.insertIfNew hdl id }

def onClose (hdl : Handle) (r : Registry) : Registry :=
  match r.connectionsRmap[hdl]? with
  | none => r
  | some id =>
      { r with
        connectionsFmap := r.connectionsFmap.erase id
        connectionsRmap := r.connectionsRmap.erase hdl }

section

variable (r : Registry) (hdl : Handle)

theorem fmap_onOpen (id : BitVec 32) :
    (r.onOpen hdl).connectionsFmap[id]? =
      if id = r.connectionIdCtr ∧ r.connectionsFmap[id]? = none then some hdl
      else r.connectionsFmap[id]? :=
  getElem?_emplace _ _ _ _

theorem rmap_onOpen (x : Handle) :
    (r.onOpen hdl).connectionsRmap[x]? =
      if x = hdl ∧ r.connectionsRmap[x]? = none then some r.connectionIdCtr
      else r.connectionsRmap[x]? :=
  getElem?_emplace _ _ _ _

theorem fmap_onClose {id : BitVec 32} (h : r.connectionsRmap[hdl]? = some id) (x : BitVec 32) :
    (r.onClose hdl).connectionsFmap[x]? = if x = id then none else r.connectionsFmap[x]? := by
  simp only [onClose, h]
  exact getElem?_erased r.connectionsFmap id x

theorem rmap_onClose (x : Handle) :
    (r.onClose hdl).connectionsRmap[x]? = if x = hdl then none else r.connectionsRmap[x]? := by
  cases h : r.connectionsRmap[hdl]? with
  | none =>
      simp only [onClose, h]
      split
      · next hx => rw [hx, h]
      · rfl
  | some id =>
      simp only [onClose, h]
      exact getElem?_erased r.connectionsRmap hdl x

end

end Registry

/-- What a connection has gone through: nothing yet or `on_close`, `on_open`, or
`on_open` and the loss of the state "open". -/
inductive Phase
  | absent
  | opened
  | left
  deriving DecidableEq, Repr

/-- A server with its connections.  Exactly those between `on_open` and
`on_close` have a number, and a number leads to a connection that has it. -/
structure Endpoint extends Registry where
  phase : Handle → Phase := fun _ ↦ .absent
  inverse : ∀ (id : BitVec 32) (hdl : Handle),
    connectionsFmap[id]? = some hdl → connectionsRmap[hdl]? = some id
  registered : ∀ hdl : Handle, connectionsRmap[hdl]? = none ↔ phase hdl = .absent

namespace Endpoint

def start : Endpoint where
  inverse := by simp
  registered := by simp

def onOpen (hdl : Handle) (e : Endpoint) (h : e.phase hdl = .absent) : Endpoint where
  toRegistry := e.toRegistry.onOpen hdl
  phase := Function.update e.phase hdl .opened
  inverse := by
    intro id x hx
    have hnone : e.connectionsRmap[hdl]? = none := (e.registered hdl).mpr h
    rw [Registry.fmap_onOpen] at hx
    rw [Registry.rmap_onOpen]
    split at hx
    · next hid =>
        obtain rfl : hdl = x := Option.some.inj hx
        rw [if_pos ⟨rfl, hnone⟩, hid.1]
    · have hold := e.inverse id x hx
      rw [if_neg (by simp [hold]), hold]
  registered := by
    intro x
    rw [Registry.rmap_onOpen]
    by_cases hx : x = hdl
    · subst hx
      simp [(e.registered x).mpr h]
    · rw [if_neg (fun hx' ↦ hx hx'.1), Function.update_of_ne hx]
      exact e.registered x

/-- The state of a connection changes to "closing" or "closed". -/
def leave (hdl : Handle) (e : Endpoint) (h : e.phase hdl = .opened) : Endpoint where
  toRegistry := e.toRegistry
  phase := Function.update e.phase hdl .left
  inverse := e.inverse
  registered := by
    intro x
    by_cases hx : x = hdl
    · subst hx
      have hsome : e.connectionsRmap[x]? ≠ none := fun hnone ↦ by
        simpa [h] using (e.registered x).mp hnone
      simpa using hsome
    · rw [Function.update_of_ne hx]
      exact e.registered x

def onClose (hdl : Handle) (e : Endpoint) : Endpoint where
  toRegistry := e.toRegistry.onClose hdl
  phase := Function.update e.phase hdl .absent
  inverse := by
    intro id x hx
    rw [Registry.rmap_onClose]
    cases hid : e.connectionsRmap[hdl]? with
    | none =>
        have hold : e.connectionsFmap[id]? = some x := by
          simpa only [Registry.onClose, hid] using hx
        have hx' : x ≠ hdl := by
          rintro rfl
          simpa [hid] using e.inverse id x hold
        rw [if_neg hx', e.inverse id x hold]
    | some i =>
        rw [Registry.fmap_onClose _ _ hid] at hx
        split at hx
        · cases hx
        · next hne =>
            have hold := e.inverse id x hx
            have hx' : x ≠ hdl := by
              rintro rfl
              exact hne (Option.some.inj (hold.symm.trans hid))
            rw [if_neg hx', hold]
  registered := by
    intro x
    rw [Registry.rmap_onClose]
    by_cases hx : x = hdl
    · simp [hx]
    · rw [if_neg hx, Function.update_of_ne hx]
      exact e.registered x

end Endpoint

inductive Change
  | onOpen (hdl : Handle)
  | leave (hdl : Handle)
  | onClose (hdl : Handle)
  deriving DecidableEq, Repr

/-- The callbacks take `server_mutex`. -/
def Change.locks : Change → Bool
  | .leave _ => false
  | _ => true

namespace Endpoint

/-- A change happens only in its place in the life of a connection. -/
def change (c : Change) (e : Endpoint) : Endpoint :=
  match c with
  | .onOpen hdl => if h : e.phase hdl = .absent then e.onOpen hdl h else e
  | .leave hdl => if h : e.phase hdl = .opened then e.leave hdl h else e
  | .onClose hdl => if e.phase hdl = .left then e.onClose hdl else e

/-- Every connection is found by the loop over `connections_fmap`. -/
def Listed (e : Endpoint) : Prop :=
  ∀ hdl, e.phase hdl ≠ .absent → ∃ id : BitVec 32, e.connectionsFmap[id]? = some hdl

/-- The number that `on_open` gives is not in use. -/
def Fresh (e : Endpoint) : Change → Prop
  | .onOpen _ => e.connectionsFmap[e.connectionIdCtr]? = none
  | _ => True

theorem listed_start : start.Listed := fun _ h ↦ absurd rfl h

theorem Listed.onOpen {e : Endpoint} (hlist : e.Listed) {hdl : Handle}
    (h : e.phase hdl = .absent) (hfresh : e.connectionsFmap[e.connectionIdCtr]? = none) :
    (e.onOpen hdl h).Listed := by
  intro x hx
  by_cases hxh : x = hdl
  · subst hxh
    exact ⟨e.connectionIdCtr, by simp [Endpoint.onOpen, Registry.fmap_onOpen, hfresh]⟩
  · obtain ⟨id, hid⟩ := hlist x (by simpa [Endpoint.onOpen, hxh] using hx)
    exact ⟨id, by simp [Endpoint.onOpen, Registry.fmap_onOpen, hid]⟩

theorem Listed.leave {e : Endpoint} (hlist : e.Listed) {hdl : Handle}
    (h : e.phase hdl = .opened) : (e.leave hdl h).Listed := by
  intro x hx
  refine hlist x fun habs ↦ hx ?_
  have hne : x ≠ hdl := by
    rintro rfl
    simp [h] at habs
  simpa [Endpoint.leave, hne] using habs

theorem Listed.onClose {e : Endpoint} (hlist : e.Listed) (hdl : Handle)
    (h : e.phase hdl ≠ .absent) : (e.onClose hdl).Listed := by
  intro x hx
  obtain ⟨i, hi⟩ := hlist hdl h
  have hne : x ≠ hdl := by
    rintro rfl
    simp [Endpoint.onClose] at hx
  obtain ⟨id, hid⟩ := hlist x (by simpa [Endpoint.onClose, hne] using hx)
  -- The removed number belongs to `hdl` alone.
  have hid' : id ≠ i := by
    rintro rfl
    exact hne (Option.some.inj (hid.symm.trans hi))
  refine ⟨id, ?_⟩
  rw [Endpoint.onClose, Registry.fmap_onClose _ _ (e.inverse i hdl hi), if_neg hid', hid]

theorem Listed.change {e : Endpoint} (hlist : e.Listed) {c : Change} (hfresh : e.Fresh c) :
    (e.change c).Listed := by
  cases c with
  | onOpen hdl =>
      simp only [Endpoint.change]
      split
      · next h => exact hlist.onOpen h hfresh
      · exact hlist
  | leave hdl =>
      simp only [Endpoint.change]
      split
      · next h => exact hlist.leave h
      · exact hlist
  | onClose hdl =>
      simp only [Endpoint.change]
      split
      · next h => exact hlist.onClose hdl (by simp [h])
      · exact hlist

end Endpoint

end Rover.Ws
