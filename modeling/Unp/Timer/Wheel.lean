import Mathlib.Order.ConditionallyCompleteLattice.Basic
import Mathlib.Data.Int.ConditionallyCompleteOrder
import Unp.Lib.Machine
import Unp.Lib.Slots

/-!
# `HHWheelTimer`: the code

Four wheels of 256 slots; a handler that is `diff` ticks away sits in the first wheel when
`diff < 256`, in the second when `diff < 256 ^ 2` and so on. The timer does not tick: it registers
one handler in the reactor, sleeps until that one expires, and then walks over the ticks that have
passed.

Times are in nanoseconds, timeouts and the interval in milliseconds, as in the source. `getCurTime`
reads a clock that never runs backwards; the state counts how often it has been read. The reactor is
the heap of registered handlers of `select_reactor_impl`.

The handlers of users outlive the timer. Those made with `needDestroy` are deleted when they have
fired or have been cancelled, and a deleted one takes its hook out of the list it is in. What looks at
a handler that has been deleted goes wrong, and so does the heap, which compares its handlers with each
other, as long as there is one in it.

Here are the functions that run without a break; `timeoutExpired` calls back, and is in the next module.
-/

namespace Unp.Timer

open Unp.Machine

/-- `TimeoutHandler` objects: those of users, those made by `scheduleTimeoutFn` and those made by
`scheduleNextTimeoutInReactor_`. -/
inductive HandlerId where
  | user (n : Nat)
  | fn (n : Nat)
  | internal (n : Nat)
  deriving Repr, DecidableEq

/-- `needDestroy()`. -/
def HandlerId.needDestroy : HandlerId → Bool
  | .user _ => false
  | .fn _ | .internal _ => true

def HandlerId.isInternal : HandlerId → Bool
  | .internal _ => true
  | .user _ | .fn _ => false

/-- The members of a `TimeoutHandler` that the timer reads and writes. -/
structure TimeoutHandler where
  slotInBucket : Int
  expiration : Int
  isRegistered : Bool
  deriving Repr, DecidableEq

/-- What does not change in the life of a timer, and the clock. -/
structure Config where
  startTime : Int
  interval : Int
  now : Nat → Int
  interval_pos : 1 ≤ interval
  now_mono : Monotone now
  start_le : startTime ≤ now 0

abbrev Slot := Fin 256

/-- A list of `handlers_`: bucket and slot. -/
abbrev Place := Fin 4 × Slot

structure Wheel where
  timerCount : Nat
  expireTick : Int
  lists : Place → List HandlerId
  bits : Slot → Bool
  handlers : HandlerId → TimeoutHandler
  registered : List HandlerId
  /-- How many handlers `scheduleTimeoutFn` has made. -/
  fns : Nat
  internals : Nat
  destroyed : HandlerId → Bool
  clock : Nat

/-! ## Ticks -/

def wheelSize : Int := 256

def largestSlot : Int := 0xffffffff

def nanosPerMilli : Int := 1000000

/-- `tick & WHEEL_MASK`. -/
def slotOf (t : Int) : Slot := ⟨(t % 256).toNat, by omega⟩

/-- `(tick >> (k * WHEEL_BITS)) & WHEEL_MASK`. -/
def levelSlot (k : Nat) (t : Int) : Slot := slotOf (t / 256 ^ k)

/-- `(timePoint - startTime_) / interval_`. -/
def tickOf (cfg : Config) (timePoint : Int) : Int :=
  (timePoint - cfg.startTime).tdiv (cfg.interval * nanosPerMilli)

/-- The conversion of a duration in milliseconds to the nanoseconds of the clock. -/
def nanosOf (millis : Int) : Res Int := checkedI64 (millis * nanosPerMilli)

/-- `tickOf` as it is computed, with `int64_t`. -/
def tickOfCurTime (cfg : Config) (timePoint : Int) : Res Int := do
  let elapsed ← checkedI64 (timePoint - cfg.startTime)
  let interval ← nanosOf cfg.interval
  pure (elapsed.tdiv interval)

/-- `now + timeout`. -/
def expirationAt (now timeout : Int) : Res Int := do
  let duration ← nanosOf timeout
  checkedI64 (now + duration)

/-- `getTickFromDuration`. -/
def getTickFromDuration (cfg : Config) (timeout : Int) : Int := timeout.tdiv cfg.interval

/-- `timeoutTicks + currentTick`. -/
def thisTimerExpireTick (cfg : Config) (timeout currentTick : Int) : Res Int :=
  checkedI64 (getTickFromDuration cfg timeout + currentTick)

namespace Wheel

/-- The tick recomputed from the expiration of a handler. -/
def tick (cfg : Config) (w : Wheel) (h : HandlerId) : Int := tickOf cfg (w.handlers h).expiration

/-- `tick` as it is computed, with `int64_t`. -/
def checkedTick (cfg : Config) (w : Wheel) (h : HandlerId) : Res Int :=
  tickOfCurTime cfg (w.handlers h).expiration

/-- `getCurTime()`. -/
def getCurTime (cfg : Config) (w : Wheel) : Int × Wheel :=
  (cfg.now w.clock, { w with clock := w.clock + 1 })

def setHandler (w : Wheel) (h : HandlerId) (info : TimeoutHandler) : Wheel :=
  { w with handlers := Function.update w.handlers h info }

/-- `setSheduled`. -/
def setSheduled (w : Wheel) (h : HandlerId) (timeout : Int) : Wheel :=
  w.setHandler h { w.handlers h with expiration := timeout }

/-- `new TimeoutHandler(true)`. -/
def newHandler (w : Wheel) (h : HandlerId) : Wheel :=
  { w.setHandler h ⟨-1, 0, false⟩ with destroyed := Function.update w.destroyed h false }

/-- `delete this`. -/
def delete (w : Wheel) (h : HandlerId) : Wheel :=
  { w with destroyed := Function.update w.destroyed h true }

/-- What the hook of a handler does when it is destroyed; the counter and the bit of the slot stay as
they are. -/
def unlink (w : Wheel) (h : HandlerId) : Wheel :=
  { w with lists := fun p => (w.lists p).filter (· ≠ h) }

/-- The constructor; the start of the clock is the start of the timer. -/
def new : Wheel where
  timerCount := 0
  expireTick := 2 ^ 63 - 1
  lists := fun _ => []
  bits := fun _ => false
  handlers := fun _ => ⟨-1, 0, false⟩
  registered := []
  fns := 0
  internals := 0
  destroyed := fun _ => false
  clock := 0

/-! ## Inserting -/

/-- The list `scheduleTimeoutImpl_` chooses. -/
def placeOf (baseTick expireTick : Int) : Place :=
  let diff := expireTick - baseTick
  -- only a cascade can come with a tick that is over
  if diff < 0 then (0, slotOf baseTick)
  else if diff < wheelSize then (0, slotOf expireTick)
  else if diff < 2 ^ 16 then (1, levelSlot 1 expireTick)
  else if diff < 2 ^ 24 then (2, levelSlot 2 expireTick)
  else if largestSlot < diff then (3, levelSlot 3 (largestSlot + baseTick))
  else (3, levelSlot 3 expireTick)

/-- `scheduleTimeoutImpl_`. The bit and `slotInBucket_` are only set for the first bucket; in the
others `slotInBucket_` keeps its old value. -/
def scheduleTimeoutImpl (w : Wheel) (h : HandlerId) (baseTick expireTick : Int) : Wheel :=
  let p := placeOf baseTick expireTick
  { w with
    timerCount := u64 (w.timerCount + 1)
    lists := Function.update w.lists p (w.lists p ++ [h])
    bits := if p.1 = 0 then Function.update w.bits p.2 true else w.bits
    handlers := if p.1 = 0 then
        Function.update w.handlers h { w.handlers h with slotInBucket := p.2 }
      else w.handlers }

/-! ## The reactor -/

/-- No handler in the heap has been destroyed. -/
def HeapIntact (w : Wheel) : Prop := ∀ x ∈ w.registered, w.destroyed x = false

instance decidableHeapIntact (w : Wheel) : Decidable w.HeapIntact :=
  inferInstanceAs (Decidable (∀ x ∈ w.registered, w.destroyed x = false))

/-- The heap, when it is about to be used. -/
def heap (w : Wheel) : Res (List HandlerId) :=
  if w.HeapIntact then .ok w.registered else .error .dangling

/-- `reactor_->register_handler(handler, TIMEOUT_EVENT)`. -/
def register (w : Wheel) (h : HandlerId) : Res Wheel := do
  let heap ← w.heap
  pure { w.setHandler h { w.handlers h with isRegistered := true } with registered := heap ++ [h] }

/-- `reactor_->unregister_handler(handler, TIMEOUT_EVENT)`: a handler that is not in the heap
empties it. -/
def unregister (w : Wheel) (h : HandlerId) : Res Wheel := do
  let heap ← w.heap
  if h ∈ heap then
    pure { w.setHandler h { w.handlers h with isRegistered := false } with registered := heap.erase h }
  else pure { w with registered := [] }

/-- `if(!handler->isRegistered()) reactor_->register_handler(handler, TIMEOUT_EVENT)`. -/
def ensureRegistered (w : Wheel) (h : HandlerId) : Res Wheel :=
  if (w.handlers h).isRegistered then .ok w else w.register h

/-- `if(handler.isRegistered()) reactor_->unregister_handler(&handler, TIMEOUT_EVENT)`. -/
def ensureUnregistered (w : Wheel) (h : HandlerId) : Res Wheel :=
  if (w.handlers h).isRegistered then w.unregister h else .ok w

/-- `firstBucketBitSet_._Find_first()`. -/
def findFirst (bits : Slot → Bool) : Option Slot := (List.finRange 256).find? bits

/-- `scheduleNextTimeoutInReactor_(nullptr, baseTick, -1)`, the only way it is called. -/
def scheduleNextTimeoutInReactor (cfg : Config) (baseTick : Int) (w : Wheel) : Res Wheel :=
  match findFirst w.bits with
  -- a handler of the timer's own wakes it at the next multiple of 256
  | none => do
      let expireTick := baseTick + (wheelSize - baseTick % 256)
      let h := HandlerId.internal w.internals
      let fromStart ← nanosOf (expireTick * cfg.interval)
      let timeout ← checkedI64 (cfg.startTime + fromStart)
      let w := ({ w with internals := w.internals + 1 }.newHandler h).setSheduled h timeout
      let w ← w.ensureRegistered h
      pure { w with expireTick }
  | some s =>
      match w.lists (0, s) with
      -- a bit without a handler: `front()` of an empty list
      | [] => .error .emptyList
      | h :: _ => do
          let expireTick ← w.checkedTick cfg h
          let w ← w.ensureRegistered h
          pure { w with expireTick }

/-- Is the hook of the handler in one of the lists? -/
def isLinked (w : Wheel) (h : HandlerId) : Bool :=
  (List.finRange 4).any fun b => (List.finRange 256).any fun s => decide (h ∈ w.lists (b, s))

/-- `scheduleTimeout`, of a handler that is not linked. -/
def scheduleTimeout (cfg : Config) (h : HandlerId) (timeout : Int) (w : Wheel) : Res Wheel := do
  let timeout := max timeout 0
  let (now, w) := w.getCurTime cfg
  let currentTick ← tickOfCurTime cfg now
  let expiration ← expirationAt now timeout
  let w := w.setSheduled h expiration
  let expireTick ← thisTimerExpireTick cfg timeout currentTick
  (w.scheduleTimeoutImpl h currentTick expireTick).scheduleNextTimeoutInReactor cfg currentTick

/-! ## Expiring -/

/-- `cascadeTimers_`; its result, `tick == 0`, is read off the slot by the caller. The tick is that of an
expiration that has been stored, and a steady clock is not before its epoch: the difference to
`startTime_` does not overflow. -/
def cascadeTimers (cfg : Config) (bucket : Fin 4) (slot : Slot) (curTick : Int) (w : Wheel) :
    Wheel :=
  (w.lists (bucket, slot)).foldl
    (fun w h => scheduleTimeoutImpl { w with timerCount := subU64 w.timerCount 1 } h curTick
      (w.tick cfg h))
    { w with lists := Function.update w.lists (bucket, slot) [] }

/-- The cascades at tick `t`: the second only when the first wheel is at slot 0, the third only
when the second is too. -/
def cascadeAt (cfg : Config) (t curTick : Int) (w : Wheel) : Wheel :=
  if slotOf t = 0 then
    let w := w.cascadeTimers cfg 1 (levelSlot 1 t) curTick
    if levelSlot 1 t = 0 then
      let w := w.cascadeTimers cfg 2 (levelSlot 2 t) curTick
      if levelSlot 2 t = 0 then w.cascadeTimers cfg 3 (levelSlot 3 t) curTick else w
    else w
  else w

/-- Takes the list of slot `s` of the first bucket, when its bit is set. -/
def drainSlot (s : Slot) (w : Wheel) : List HandlerId × Wheel :=
  if w.bits s then
    (w.lists (0, s), { w with
      lists := Function.update w.lists (0, s) [], bits := Function.update w.bits s false })
  else ([], w)

/-- The body of the loop of `timeoutExpired`, at `expireTick_ = t`. -/
def tickBody (cfg : Config) (t curTick : Int) (w : Wheel) : List HandlerId × Wheel :=
  drainSlot (slotOf t) { w.cascadeAt cfg t curTick with expireTick := t + 1 }

/-- The loop `while(expireTick_ <= curTick)`, with the number of its iterations; the result is what
it takes out of the first bucket. -/
def walk (cfg : Config) (curTick : Int) : Nat → Wheel → List HandlerId × Wheel
  | 0, w => ([], w)
  | n + 1, w =>
      let (drained, w) := w.tickBody cfg w.expireTick curTick
      let (rest, w) := walk cfg curTick n w
      (drained ++ rest, w)

/-- How often the loop runs. -/
def ticksLeft (curTick : Int) (w : Wheel) : Nat := (curTick + 1 - w.expireTick).toNat

/-- `isRegistered_ = false`, in `handle_timeout`. -/
def clearRegistered (w : Wheel) (h : HandlerId) : Wheel :=
  w.setHandler h { w.handlers h with isRegistered := false }

/-- `if(timerCount_ > 0) scheduleNextTimeoutInReactor_(nullptr, curTick, -1)`. -/
def rearm (cfg : Config) (curTick : Int) (w : Wheel) : Res Wheel :=
  if 0 < w.timerCount then w.scheduleNextTimeoutInReactor cfg curTick else .ok w

/-! ## Cancelling -/

/-- One handler of a list that is cancelled. -/
def cancelHandler (slot : Int) (w : Wheel) (h : HandlerId) : Res Wheel :=
  if (w.handlers h).slotInBucket ≠ slot then .error .assertion
  else do
    let w ← w.ensureUnregistered h
    let w := w.setHandler h { w.handlers h with expiration := 0, slotInBucket := -1 }
    pure (if h.needDestroy then w.delete h else w)

/-- `cancelTimeoutsFromList_` and the `timerCount_ -= count` behind it. -/
def cancelTimeoutsFromList (w : Wheel) (p : Place) : Res Wheel :=
  match w.lists p with
  | [] => .ok w
  | h :: hs => do
      let slot := (w.handlers h).slotInBucket
      let bits := if slot = -1 then w.bits else Function.update w.bits (slotOf slot) false
      let w ← (h :: hs).foldlM (cancelHandler slot)
        { w with bits, lists := Function.update w.lists p [] }
      .ok { w with timerCount := subU64 w.timerCount (u64 (h :: hs).length) }

/-- All lists, in the order of `handlers_`. -/
def places : List Place :=
  (List.finRange 4).flatMap fun b => (List.finRange 256).map fun s => (b, s)

/-- `cancelAll`. Unregistering the null handler empties the heap of the reactor. -/
def cancelAll (w : Wheel) : Res Wheel := do
  let w ← places.foldlM cancelTimeoutsFromList w
  if w.timerCount = 0 then do
    let _ ← w.heap
    pure { w with registered := [] }
  else pure w

/-! ## Bits and places

What the next modules say about the lists: which bits have to be set, and which lists a tick
empties. -/

/-- Every list of the first bucket that is not empty has its bit set. -/
def BitSync (w : Wheel) : Prop := ∀ s, w.lists (0, s) ≠ [] → w.bits s = true

/-- The places that are cascaded at tick `t`, in order. -/
def cascades (t : Int) : List Place :=
  if slotOf t = 0 then
    (1, levelSlot 1 t) :: (if levelSlot 1 t = 0 then
      (2, levelSlot 2 t) :: (if levelSlot 2 t = 0 then [(3, levelSlot 3 t)] else []) else [])
  else []

/-- The place `p` is emptied at tick `t`. -/
def VisitedAt (t : Int) (p : Place) : Prop := p = (0, slotOf t) ∨ p ∈ cascades t

instance decidableVisitedAt (t : Int) (p : Place) : Decidable (VisitedAt t p) :=
  inferInstanceAs (Decidable (p = (0, slotOf t) ∨ p ∈ cascades t))

end Wheel
end Unp.Timer
