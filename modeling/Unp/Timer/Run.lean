import Unp.Timer.Wheel
import Unp.Lib.Run

/-!
# Runs of a timer

`timeoutExpired` calls `handle_timeout` of the handlers that have expired, and that runs the callback of
the user and then calls `timeoutExpired` once more. An override of `handle_timeout` can run code behind
that as well. All this code can schedule handlers and cancel them, so a timer is a state machine here:
`Control` says where it stands, and the calls of `timeoutExpired` that are under way are kept with the
innermost one in front. The inputs are the calls of users, the firings of the reactor, and `proceed`:
the code that is under way goes on to the next place where it hands over. Every behaviour of the
callbacks is a sequence of inputs.

Between any two readings of the clock any amount of time may pass.
-/

namespace Unp.Timer

open Unp.Machine Unp.Run

/-- A call `timeoutExpired(handler)` that is under way. -/
structure Call where
  handler : HandlerId
  curTick : Int
  expiredTimers : List HandlerId

inductive Control where
  | outside
  /-- In `handle_timeout`, in front of `isRegistered_ = false`: the callback runs. -/
  | callback (h : HandlerId)
  /-- In `timeoutExpired`, at `while(!expiredTimers.empty())`. -/
  | loop
  /-- `TimeoutHandler::handle_timeout` has returned to its override. -/
  | override (h : HandlerId)
  deriving Repr, DecidableEq

structure HHWheelTimer where
  wheel : Wheel
  control : Control
  calls : List Call

inductive Input where
  | scheduleTimeout (h : HandlerId) (timeout : Int)
  | scheduleTimeoutFn (timeout : Int)
  | cancelAll
  | fire (h : HandlerId)
  | proceed
  deriving Repr, DecidableEq

/-- What can be observed of a run: the calls of `scheduleTimeout`, the callbacks that are invoked, and
the returns of `timeoutExpired` with its tick and the wheel it leaves. -/
inductive Event where
  | scheduled (h : HandlerId)
  | fired (h : HandlerId)
  | expired (curTick : Int) (after : Wheel)

/-- The handlers whose callbacks are invoked, in order. -/
def firedHandlers (events : List Event) : List HandlerId :=
  events.filterMap fun
    | .fired h => some h
    | _ => none

/-- The handlers that are scheduled, in order. -/
def scheduledHandlers (events : List Event) : List HandlerId :=
  events.filterMap fun
    | .scheduled h => some h
    | _ => none

/-- How often the callback of `h` is invoked. -/
def firings (h : HandlerId) (events : List Event) : Nat := (firedHandlers events).count h

/-- How often `h` is scheduled. -/
def schedulings (h : HandlerId) (events : List Event) : Nat := (scheduledHandlers events).count h

/-- The callback of an internal handler does nothing. -/
def Control.isUser : Control → Bool
  | .outside => true
  | .callback h | .override h => !h.isInternal
  | .loop => false

namespace HHWheelTimer

def new : HHWheelTimer := ⟨.new, .outside, []⟩

/-- The handlers in the local lists of the calls under way. -/
def pending (t : HHWheelTimer) : List HandlerId := t.calls.flatMap Call.expiredTimers

/-- `is_linked()` of the hook. -/
def isLinked (t : HHWheelTimer) (h : HandlerId) : Bool :=
  t.wheel.isLinked h || decide (h ∈ t.pending)

/-- The handlers that users have a pointer to. -/
def knows (t : HHWheelTimer) : HandlerId → Bool
  | .user _ => true
  | .fn n => n < t.wheel.fns
  | .internal _ => false

/-! ## The calls of users -/

/-- The intrusive list asserts that the node it is given is not linked; this is the only `push_back`
that can meet a linked one. -/
def scheduleTimeout (cfg : Config) (h : HandlerId) (timeout : Int) (t : HHWheelTimer) :
    Res (List Event × HHWheelTimer) :=
  if t.wheel.destroyed h then .error .dangling
  else if t.isLinked h then .error .assertion
  else do
    let w ← t.wheel.scheduleTimeout cfg h timeout
    pure ([.scheduled h], { t with wheel := w })

/-- The new handler of `scheduleTimeoutFn`. -/
def withFn (t : HHWheelTimer) : HHWheelTimer :=
  { t with wheel := { t.wheel with fns := t.wheel.fns + 1 }.newHandler (.fn t.wheel.fns) }

def scheduleTimeoutFn (cfg : Config) (timeout : Int) (t : HHWheelTimer) :
    Res (List Event × HHWheelTimer) :=
  t.withFn.scheduleTimeout cfg (.fn t.wheel.fns) timeout

def cancelAll (t : HHWheelTimer) : Res (List Event × HHWheelTimer) := do
  let w ← t.wheel.cancelAll
  pure ([], { t with wheel := w })

/-! ## Expiring -/

/-- The reactor looks at the clock; when the handler is registered and due, it takes it out of the
heap and calls `handle_timeout`. -/
def fire (cfg : Config) (h : HandlerId) (t : HHWheelTimer) : Res (List Event × HHWheelTimer) := do
  let heap ← t.wheel.heap
  let (now, w) := t.wheel.getCurTime cfg
  if h ∈ heap ∧ (w.handlers h).expiration ≤ now then
    pure ([.fired h],
      { t with wheel := { w with registered := heap.erase h }, control := .callback h })
  else pure ([], { t with wheel := w })

/-- `timeoutExpired(handler)`, as far as its loop over the expired handlers. -/
def timeoutExpired (cfg : Config) (h : HandlerId) (t : HHWheelTimer) : Res HHWheelTimer := do
  let (now, w) := t.wheel.getCurTime cfg
  let curTick ← tickOfCurTime cfg now
  -- the bit of `expireTick_`, whether the slot is that of `handler` or not
  let w := if w.bits (slotOf w.expireTick) then
    { w with timerCount := subU64 w.timerCount 1 } else w
  let (drained, w) := w.walk cfg curTick (w.ticksLeft curTick)
  -- it is `handler` that is asked whether it is registered, not the handler from the list
  let expiredTimers := drained.filter fun c => !(c = h || (w.handlers h).isRegistered)
  pure ⟨w, .loop, ⟨h, curTick, expiredTimers⟩ :: t.calls⟩

/-- `destroy()`: the handler is unlinked wherever it is linked. -/
def destroy (t : HHWheelTimer) (h : HandlerId) : HHWheelTimer :=
  { t with
    wheel := (t.wheel.unlink h).delete h
    calls := t.calls.map fun call =>
      { call with expiredTimers := call.expiredTimers.filter (· ≠ h) } }

/-- `handle_timeout`, once its call of `timeoutExpired` has returned: `this` is looked at again. -/
def handleTimeoutReturns (h : HandlerId) (t : HHWheelTimer) : Res HHWheelTimer :=
  if t.wheel.destroyed h then .error .dangling
  else
    let t := if h.needDestroy then t.destroy h else t
    .ok { t with control := .override h }

/-- The code that is under way goes on. -/
def proceed (cfg : Config) (t : HHWheelTimer) : Res (List Event × HHWheelTimer) :=
  match t.control, t.calls with
  | .outside, _ => pure ([], t)
  | .callback h, _ =>
      if t.wheel.destroyed h then .error .dangling
      else do
        let t ← timeoutExpired cfg h { t with wheel := t.wheel.clearRegistered h }
        pure ([], t)
  | .loop, [] => pure ([], t)
  | .loop, ⟨h, curTick, c :: cs⟩ :: calls =>
      pure ([.fired c], { t with control := .callback c, calls := ⟨h, curTick, cs⟩ :: calls })
  | .loop, ⟨h, curTick, []⟩ :: calls => do
      let w ← t.wheel.rearm cfg curTick
      let t ← handleTimeoutReturns h { t with wheel := w, calls := calls }
      pure ([.expired curTick w], t)
  -- `handle_timeout` returns, to the reactor or to the loop of the call around it
  | .override _, [] => pure ([], { t with control := .outside })
  | .override _, _ :: _ =>
      pure ([], { t with
        wheel := { t.wheel with timerCount := subU64 t.wheel.timerCount 1 }, control := .loop })

/-- An input that is not possible where the timer stands does nothing. -/
def step (cfg : Config) (input : Input) (t : HHWheelTimer) : Res (List Event × HHWheelTimer) :=
  match input with
  | .scheduleTimeout h timeout =>
      if t.control.isUser && t.knows h then t.scheduleTimeout cfg h timeout else pure ([], t)
  | .scheduleTimeoutFn timeout =>
      if t.control.isUser then t.scheduleTimeoutFn cfg timeout else pure ([], t)
  | .cancelAll => if t.control.isUser then t.cancelAll else pure ([], t)
  | .fire h => if t.control = .outside then t.fire cfg h else pure ([], t)
  | .proceed => t.proceed cfg

end HHWheelTimer

/-- A clock for examples, with ticks of 10 ms: the first `k` readings are at `early` ms, the others
at `late` ms. -/
def lateAfter (k early late : Nat) (h : early ≤ late) : Config where
  startTime := 0
  interval := 10
  now := fun i => if i < k then early * nanosPerMilli else late * nanosPerMilli
  interval_pos := by decide
  now_mono := by
    intro i j hij
    simp only [nanosPerMilli]
    split <;> split <;> omega
  start_le := by
    simp only [nanosPerMilli]
    split <;> omega

end Unp.Timer
