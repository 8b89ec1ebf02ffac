import Mathlib.Data.List.AList
import Mathlib.Data.Finset.Basic
import Unp.Lib.Machine
import Unp.Lib.OrderedSet

/-!
# The table of bound events

`PollEventRepo` records which handler is bound to which event of which handle, and which timeout
handlers wait for which point of time. The events of a handle are a map in a vector that is indexed
by the handle; next to the vector stands the set of the handles that have something bound.

Maps are `AList`s, and the handle set is a `Finset`: nothing depends on their order except the first
key of `timeoutHandlers_`, which is the least one. Handles are `int`s, and a negative one becomes an
index in two ways: `bindNew` and `getHandler` go through `uint32_t`, while `unbind` and `getHandlers`
use the handle itself, which makes it a `size_t`.
-/

namespace Unp.Epoll

open Unp.Machine

/-- The values of `EventHandler::Event_Type`. -/
inductive EventType where
  | none
  | read
  | except
  | write
  | accept
  | timeout
  | signal
  | close
  | connect
  deriving Repr, DecidableEq

abbrev Handle := Int32

def invalidHandle : Handle := -1

/-- A handler is known by its address. -/
abbrev HandlerId := Nat

/-- A point of the steady clock, in nanoseconds. -/
abbrev TimePoint := Int

/-- `TimePoint_T::max()`. -/
def maxTimePoint : TimePoint := 2 ^ 63 - 1

abbrev EventMap := AList fun _ : EventType => HandlerId

structure PollEventRepo where
  handleSet : Finset Handle
  eventsTable : List EventMap
  timeoutHandlers : AList fun _ : TimePoint => OrderedSet HandlerId
  deriving DecidableEq

/-- What a handler answers to `expirationTimePoint()`; `none` for a handler that is not a
`TimeoutHandler`. -/
abbrev Expirations := HandlerId → Option TimePoint

namespace PollEventRepo

def new : PollEventRepo := ⟨∅, [], ∅⟩

/-- `static_cast<uint32_t>(handle)`. -/
def slot (handle : Handle) : Nat := handle.toUInt32.toNat

/-- The index that `eventsTable_[handle]` uses. -/
def signedSlot (handle : Handle) : Nat := u64OfInt handle.toInt

/-! ## Looking things up -/

def getHandler (handle : Handle) (type : EventType) (r : PollEventRepo) : Option HandlerId :=
  if handle = invalidHandle ∨ type = .none then none
  else match r.eventsTable[slot handle]? with
    | none => none
    | some events => events.lookup type

def hasHandle (handle : Handle) (r : PollEventRepo) : Bool := handle ∈ r.handleSet

def getHandlers (handle : Handle) (r : PollEventRepo) : Res EventMap :=
  if handle ∈ r.handleSet then readAt r.eventsTable (signedSlot handle) else .ok ∅

def hasTimeoutHandler (r : PollEventRepo) : Bool := r.timeoutHandlers.entries.length ≠ 0

/-- The first key of `timeoutHandlers_`. -/
def firstTimePoint (r : PollEventRepo) : Option TimePoint := r.timeoutHandlers.keys.min?

def getLastestTimeoutPoint (r : PollEventRepo) : TimePoint := r.firstTimePoint.getD maxTimePoint

/-- The handlers that wait for `t`. -/
def timeoutsAt (t : TimePoint) (r : PollEventRepo) : OrderedSet HandlerId :=
  (r.timeoutHandlers.lookup t).getD .empty

def getLatestTimeoutHandlers (r : PollEventRepo) : OrderedSet HandlerId :=
  match r.firstTimePoint with
  | none => .empty
  | some t => r.timeoutsAt t

/-! ## Binding -/

def bindTimeout (t : TimePoint) (h : HandlerId) (r : PollEventRepo) : Int × PollEventRepo :=
  if h ∈ r.timeoutsAt t then (-1, r)
  else (0, { r with
    timeoutHandlers := r.timeoutHandlers.insert t ((r.timeoutsAt t).insert h) })

def resize (table : List EventMap) (size : Nat) : List EventMap :=
  table ++ List.replicate (size - table.length) ∅

/-- The vector `bindNew` writes into. -/
def grown (handle : Handle) (r : PollEventRepo) : List EventMap :=
  if r.eventsTable.length ≤ slot handle then resize r.eventsTable (slot handle + 1)
  else r.eventsTable

/-- `handleSet_.insert(handle)` and `eventsTable_[h][event] = handler`. -/
def setEvent (handle : Handle) (event : EventType) (h : HandlerId) (r : PollEventRepo) :
    PollEventRepo :=
  { r with
    handleSet := insert handle r.handleSet
    eventsTable := (r.grown handle).set (slot handle)
      (((r.grown handle)[slot handle]?.getD ∅).insert event h) }

/-- `ACCEPT_EVENT` is kept as `READ_EVENT`. -/
def storedAs : EventType → EventType
  | .accept => .read
  | event => event

def bindNew (expiration : Expirations) (handle : Handle) (event : EventType)
    (handler : Option HandlerId) (r : PollEventRepo) : Int × PollEventRepo :=
  match handler with
  | none => (-1, r)
  | some h =>
      if storedAs event = .none then (-1, r)
      else if storedAs event = .timeout then
        match expiration h with
        | none => (-1, r)
        | some t => r.bindTimeout t h
      else if handle = invalidHandle then (-1, r)
      else (0, r.setEvent handle (storedAs event) h)

/-! ## Unbinding -/

/-- A time point keeps its entry, even an empty one. -/
def unbindTimeout (t : TimePoint) (h : HandlerId) (r : PollEventRepo) : Int × PollEventRepo :=
  match r.timeoutHandlers.lookup t with
  | none => (-1, r)
  | some bound =>
      if h ∉ bound then (-1, r)
      else (0, { r with timeoutHandlers := r.timeoutHandlers.insert t (bound.erase h) })

/-- `events` is what stands in the slot of the handle. -/
def eraseEvent (handle : Handle) (event : EventType) (events : EventMap) (r : PollEventRepo) :
    PollEventRepo :=
  { r with
    handleSet :=
      if (events.erase event).entries.length = 0 then r.handleSet.erase handle else r.handleSet
    eventsTable := r.eventsTable.set (signedSlot handle) (events.erase event) }

def unbindEvent (handle : Handle) (event : EventType) (h : HandlerId) (r : PollEventRepo) :
    Res (Int × PollEventRepo) := do
  let events ← readAt r.eventsTable (signedSlot handle)
  match events.lookup event with
  | none => pure (-1, r)
  | some h' => if h' ≠ h then pure (-1, r) else pure (0, r.eraseEvent handle event events)

/-- `unbind(handle, event, handler)`. -/
def unbind (expiration : Expirations) (handle : Handle) (event : EventType)
    (handler : Option HandlerId) (r : PollEventRepo) : Res (Int × PollEventRepo) :=
  match handler with
  | none => .ok (-1, r)
  | some h =>
      if event = .none then .ok (-1, r)
      else if event = .timeout then
        match expiration h with
        | none => .ok (-1, r)
        | some t => .ok (r.unbindTimeout t h)
      else if handle ∉ r.handleSet then .ok (-1, r)
      else r.unbindEvent handle event h

/-- `unbind(handle)`. It clears the whole handle set. -/
def unbindHandle (handle : Handle) (r : PollEventRepo) : Int × PollEventRepo :=
  if handle = invalidHandle then (-1, r)
  else match r.eventsTable[slot handle]? with
    | none => (-1, r)
    | some events =>
        if events.entries.length = 0 then (-1, r)
        else (0, { r with handleSet := ∅, eventsTable := r.eventsTable.set (slot handle) ∅ })

def unbindTimeoutHandlers (t : TimePoint) (r : PollEventRepo) : Int × PollEventRepo :=
  match r.timeoutHandlers.lookup t with
  | none => (-1, r)
  | some _ => (0, { r with timeoutHandlers := r.timeoutHandlers.erase t })

/-- `clear()`. It leaves the timeout handlers alone. -/
def clear (r : PollEventRepo) : PollEventRepo := { r with handleSet := ∅, eventsTable := [] }

/-! ## Indices -/

theorem slot_injective : Function.Injective slot := by
  intro a b hab
  have h := congrArg UInt32.toInt32 (UInt32.toNat_inj.mp hab)
  rwa [Int32.toInt32_toUInt32, Int32.toInt32_toUInt32] at h

theorem signedSlot_eq_slot {handle : Handle} (h : 0 ≤ handle) :
    signedSlot handle = slot handle := by
  have hlt := handle.toUInt32.toNat_lt
  rw [signedSlot, slot, Int32.toInt_eq_toNatClampNeg h, ← Int32.toNat_toUInt32_of_le h]
  exact u64OfInt_natCast (by omega)

/-- The index of a negative handle is far behind the end of every vector. -/
theorem le_signedSlot {handle : Handle} (h : ¬ 0 ≤ handle) : 2 ^ 32 ≤ signedSlot handle := by
  have hle := handle.le_toInt
  have hneg : handle.toInt < 0 := by
    rw [Int32.not_le, Int32.lt_iff_toInt_lt] at h
    simpa using h
  unfold signedSlot u64OfInt
  omega

theorem slot_lt {handle : Handle} (h : handle ≠ invalidHandle) : slot handle + 1 < 2 ^ 32 := by
  have hlt := handle.toUInt32.toNat_lt
  have hne : slot handle ≠ slot invalidHandle := fun heq => h (slot_injective heq)
  have hlast : slot invalidHandle = 2 ^ 32 - 1 := by decide
  unfold slot at *
  omega

end PollEventRepo

end Unp.Epoll
