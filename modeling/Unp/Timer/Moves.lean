import Unp.Timer.Walk
import Unp.Timer.Run

/-!
# What a step does

The functions of the timer are read once, here: what is left of them is what they do to the wheel when
they return. `Move` lists what a step of the state machine can do, with one constructor for each place
where the code can stand, and `step_move` says that this is all. The invariants of the next modules are
proved move by move.
-/

namespace Unp.Timer

open Unp.Machine Unp.Slots Unp.Run

/-! ## Arithmetic that does not overflow -/

theorem tickOfCurTime_eq_ok {cfg : Config} {timePoint tick : Int}
    (h : tickOfCurTime cfg timePoint = .ok tick) : tick = tickOf cfg timePoint := by
  obtain ⟨elapsed, helapsed, h⟩ := bind_eq_ok h
  obtain ⟨interval, hinterval, h⟩ := bind_eq_ok h
  obtain ⟨rfl, -⟩ := checkedI64_ok_iff.mp helapsed
  obtain ⟨rfl, -⟩ := checkedI64_ok_iff.mp hinterval
  cases h
  rfl

theorem expirationAt_eq_ok {now timeout expiration : Int}
    (h : expirationAt now timeout = .ok expiration) :
    expiration = now + timeout * nanosPerMilli := by
  obtain ⟨duration, hduration, h⟩ := bind_eq_ok h
  obtain ⟨rfl, -⟩ := checkedI64_ok_iff.mp hduration
  exact (checkedI64_ok_iff.mp h).1

namespace Wheel

/-! ## The reactor -/

theorem heap_eq_ok {w : Wheel} {heap : List HandlerId} (h : w.heap = .ok heap) :
    w.HeapIntact ∧ heap = w.registered := by
  rw [Wheel.heap] at h
  split at h
  · next hintact =>
    cases h
    exact ⟨hintact, rfl⟩
  · cases h

/-- The wheel after `register_handler`. -/
def withRegistered (w : Wheel) (h : HandlerId) : Wheel :=
  { w.setHandler h { w.handlers h with isRegistered := true } with
    registered := w.registered ++ [h] }

theorem ensureRegistered_cases {w w' : Wheel} {h : HandlerId} (hrun : w.ensureRegistered h = .ok w') :
    ((w.handlers h).isRegistered = true ∧ w' = w) ∨
      ((w.handlers h).isRegistered = false ∧ w.HeapIntact ∧ w' = w.withRegistered h) := by
  rw [ensureRegistered] at hrun
  split at hrun
  · next hflag =>
    cases hrun
    exact Or.inl ⟨hflag, rfl⟩
  · next hflag =>
    obtain ⟨heap, hheap, hrun⟩ := bind_eq_ok hrun
    obtain ⟨hintact, rfl⟩ := heap_eq_ok hheap
    cases hrun
    exact Or.inr ⟨Bool.eq_false_of_not_eq_true hflag, hintact, rfl⟩

/-- The internal handler has been made. -/
def withInternal (w : Wheel) (timeout : Int) : Wheel :=
  ({ w with internals := w.internals + 1 }.newHandler (.internal w.internals)).setSheduled
    (.internal w.internals) timeout

/-- All that `scheduleNextTimeoutInReactor_` can do. -/
theorem scheduleNext_cases {cfg : Config} {base : Int} {w w' : Wheel}
    (h : w.scheduleNextTimeoutInReactor cfg base = .ok w') :
    (∃ timeout e, (w.withInternal timeout).HeapIntact ∧
      w' = { (w.withInternal timeout).withRegistered (.internal w.internals) with
        expireTick := e }) ∨
    ∃ x e, x ∈ w.linked ∧
      (((w.handlers x).isRegistered = true ∧ w' = { w with expireTick := e }) ∨
        ((w.handlers x).isRegistered = false ∧ w.HeapIntact ∧
          w' = { w.withRegistered x with expireTick := e })) := by
  rw [scheduleNextTimeoutInReactor] at h
  split at h
  · obtain ⟨fromStart, -, h⟩ := bind_eq_ok h
    obtain ⟨timeout, -, h⟩ := bind_eq_ok h
    obtain ⟨w₁, hregister, h⟩ := bind_eq_ok h
    cases h
    rcases ensureRegistered_cases hregister with ⟨hflag, -⟩ | ⟨-, hintact, rfl⟩
    · -- the new handler is not registered
      simp [setSheduled, newHandler, setHandler] at hflag
    · exact Or.inl ⟨timeout, _, hintact, rfl⟩
  · next s _ =>
    split at h
    · cases h
    · next x rest hlist =>
      obtain ⟨e, -, h⟩ := bind_eq_ok h
      obtain ⟨w₁, hregister, h⟩ := bind_eq_ok h
      cases h
      refine Or.inr ⟨x, e, mem_linked.mpr ⟨(0, s), by rw [hlist]; exact List.mem_cons_self⟩, ?_⟩
      rcases ensureRegistered_cases hregister with ⟨hflag, rfl⟩ | ⟨hflag, hintact, rfl⟩
      · exact Or.inl ⟨hflag, rfl⟩
      · exact Or.inr ⟨hflag, hintact, rfl⟩

/-- The reactor is armed: the lists and the counter stay as they are, and so do the handlers of users
but for their flags. -/
structure Rearmed (w w' : Wheel) : Prop where
  lists_eq : w'.lists = w.lists
  bits_eq : w'.bits = w.bits
  count_eq : w'.timerCount = w.timerCount
  clock_eq : w'.clock = w.clock
  fns_eq : w'.fns = w.fns
  internals_le : w.internals ≤ w'.internals
  expiration_eq : ∀ x : HandlerId, x.isInternal = false →
    (w'.handlers x).expiration = (w.handlers x).expiration
  slot_eq : ∀ x : HandlerId, x.isInternal = false →
    (w'.handlers x).slotInBucket = (w.handlers x).slotInBucket
  destroyed_eq : ∀ x : HandlerId, x.isInternal = false → w'.destroyed x = w.destroyed x

theorem Rearmed.of_eq (w : Wheel) (e : Int) : Rearmed w { w with expireTick := e } :=
  ⟨rfl, rfl, rfl, rfl, rfl, le_refl _, fun _ _ => rfl, fun _ _ => rfl, fun _ _ => rfl⟩

theorem Rearmed.trans {w₁ w₂ w₃ : Wheel} (h₁ : Rearmed w₁ w₂) (h₂ : Rearmed w₂ w₃) :
    Rearmed w₁ w₃ where
  lists_eq := h₂.lists_eq.trans h₁.lists_eq
  bits_eq := h₂.bits_eq.trans h₁.bits_eq
  count_eq := h₂.count_eq.trans h₁.count_eq
  clock_eq := h₂.clock_eq.trans h₁.clock_eq
  fns_eq := h₂.fns_eq.trans h₁.fns_eq
  internals_le := h₁.internals_le.trans h₂.internals_le
  expiration_eq x hx := (h₂.expiration_eq x hx).trans (h₁.expiration_eq x hx)
  slot_eq x hx := (h₂.slot_eq x hx).trans (h₁.slot_eq x hx)
  destroyed_eq x hx := (h₂.destroyed_eq x hx).trans (h₁.destroyed_eq x hx)

theorem withRegistered_rearmed (w : Wheel) (h : HandlerId) : Rearmed w (w.withRegistered h) :=
  ⟨rfl, rfl, rfl, rfl, rfl, le_refl _, fun x _ => update_member (·.expiration) (by rfl) x,
    fun x _ => update_member (·.slotInBucket) (by rfl) x, fun _ _ => rfl⟩

theorem withInternal_handlers (w : Wheel) (timeout : Int) {x : HandlerId} (hx : x.isInternal = false) :
    (w.withInternal timeout).handlers x = w.handlers x ∧
      (w.withInternal timeout).destroyed x = w.destroyed x := by
  have hne : x ≠ .internal w.internals := by
    rintro rfl
    cases hx
  simp only [withInternal, setSheduled, newHandler, setHandler]
  rw [Function.update_of_ne hne, Function.update_of_ne hne, Function.update_of_ne hne]
  exact ⟨rfl, rfl⟩

theorem withInternal_rearmed (w : Wheel) (timeout : Int) : Rearmed w (w.withInternal timeout) where
  lists_eq := rfl
  bits_eq := rfl
  count_eq := rfl
  clock_eq := rfl
  fns_eq := rfl
  internals_le := Nat.le_succ _
  expiration_eq x hx := by rw [(withInternal_handlers w timeout hx).1]
  slot_eq x hx := by rw [(withInternal_handlers w timeout hx).1]
  destroyed_eq x hx := (withInternal_handlers w timeout hx).2

theorem scheduleNext_rearmed {cfg : Config} {base : Int} {w w' : Wheel}
    (h : w.scheduleNextTimeoutInReactor cfg base = .ok w') : Rearmed w w' := by
  rcases scheduleNext_cases h with
    ⟨timeout, e, -, rfl⟩ | ⟨x, e, -, ⟨-, rfl⟩ | ⟨-, -, rfl⟩⟩
  · exact ((withInternal_rearmed w timeout).trans (withRegistered_rearmed _ _)).trans (.of_eq _ e)
  · exact .of_eq w e
  · exact (withRegistered_rearmed w x).trans (.of_eq _ e)

theorem rearm_rearmed {cfg : Config} {base : Int} {w w' : Wheel} (h : w.rearm cfg base = .ok w') :
    Rearmed w w' := by
  rw [rearm] at h
  split at h
  · exact scheduleNext_rearmed h
  · cases h
    exact .of_eq w w.expireTick

/-! ## Scheduling -/

/-- The tick at which the clock stands. -/
def curTick (cfg : Config) (w : Wheel) : Int := tickOf cfg (cfg.now w.clock)

/-- The handler gets its new expiration; the clock has been read. -/
def setScheduled (cfg : Config) (h : HandlerId) (timeout : Int) (w : Wheel) : Wheel :=
  (w.getCurTime cfg).2.setSheduled h (cfg.now w.clock + max timeout 0 * nanosPerMilli)

/-- The state in which `scheduleTimeout` arms the reactor. -/
def inserted (cfg : Config) (h : HandlerId) (timeout : Int) (w : Wheel) : Wheel :=
  (w.setScheduled cfg h timeout).scheduleTimeoutImpl h (w.curTick cfg)
    (getTickFromDuration cfg (max timeout 0) + w.curTick cfg)

theorem scheduleTimeout_eq_ok {cfg : Config} {h : HandlerId} {timeout : Int} {w w' : Wheel}
    (hrun : w.scheduleTimeout cfg h timeout = .ok w') :
    (w.inserted cfg h timeout).scheduleNextTimeoutInReactor cfg (w.curTick cfg) = .ok w' := by
  obtain ⟨currentTick, htick, hrun⟩ := bind_eq_ok hrun
  obtain ⟨expiration, hexp, hrun⟩ := bind_eq_ok hrun
  obtain ⟨expireTick, hexpire, hrun⟩ := bind_eq_ok hrun
  obtain rfl := tickOfCurTime_eq_ok htick
  obtain rfl := expirationAt_eq_ok hexp
  obtain ⟨rfl, -⟩ := checkedI64_ok_iff.mp hexpire
  exact hrun

theorem setScheduled_linked (cfg : Config) (h : HandlerId) (timeout : Int) (w : Wheel) :
    (w.setScheduled cfg h timeout).linked = w.linked := linked_of_lists_eq rfl

theorem inserted_linked (cfg : Config) (h : HandlerId) (timeout : Int) (w : Wheel) :
    (w.inserted cfg h timeout).linked = h ::ₘ w.linked := by
  rw [inserted, linked_scheduleTimeoutImpl, setScheduled_linked]

theorem inserted_bitSync (cfg : Config) (h : HandlerId) (timeout : Int) {w : Wheel}
    (hsync : BitSync w) : BitSync (w.inserted cfg h timeout) :=
  scheduleTimeoutImpl_bitSync _ _ _ _ fun s hs => hsync s hs

theorem inserted_fns (cfg : Config) (h : HandlerId) (timeout : Int) (w : Wheel) :
    (w.inserted cfg h timeout).fns = w.fns := by
  rw [inserted, (scheduleTimeoutImpl_frame _ _ _ _).fns_eq]
  rfl

theorem inserted_clock (cfg : Config) (h : HandlerId) (timeout : Int) (w : Wheel) :
    (w.inserted cfg h timeout).clock = w.clock + 1 := by
  rw [inserted, (scheduleTimeoutImpl_frame _ _ _ _).clock_eq]
  rfl

theorem inserted_destroyed (cfg : Config) (h : HandlerId) (timeout : Int) (w : Wheel) :
    (w.inserted cfg h timeout).destroyed = w.destroyed := by
  rw [inserted, (scheduleTimeoutImpl_frame _ _ _ _).destroyed_eq]
  rfl

theorem inserted_expiration (cfg : Config) (h : HandlerId) (timeout : Int) (w : Wheel)
    {x : HandlerId} (hx : x ≠ h) :
    ((w.inserted cfg h timeout).handlers x).expiration = (w.handlers x).expiration := by
  rw [inserted, (scheduleTimeoutImpl_frame _ _ _ _).expiration_eq]
  simp only [setScheduled, setSheduled, setHandler]
  rw [Function.update_of_ne hx]
  rfl

theorem inserted_expiration_self (cfg : Config) (h : HandlerId) (timeout : Int) (w : Wheel) :
    ((w.inserted cfg h timeout).handlers h).expiration =
      cfg.now w.clock + max timeout 0 * nanosPerMilli := by
  rw [inserted, (scheduleTimeoutImpl_frame _ _ _ _).expiration_eq]
  simp only [setScheduled, setSheduled, setHandler]
  rw [Function.update_self]

/-! ## The walk of a call -/

/-- The state at the head of the loop: the clock has been read and the first bit tested. -/
def entered (w : Wheel) : Wheel :=
  if w.bits (slotOf w.expireTick) then
    { w with clock := w.clock + 1, timerCount := subU64 w.timerCount 1 }
  else { w with clock := w.clock + 1 }

def walked (cfg : Config) (w : Wheel) : List HandlerId × Wheel :=
  w.entered.walk cfg (w.curTick cfg) (w.entered.ticksLeft (w.curTick cfg))

/-- `expiredTimers`, of the call for `h`. -/
def expiredTimers (cfg : Config) (h : HandlerId) (w : Wheel) : List HandlerId :=
  (w.walked cfg).1.filter fun c => !(c = h || ((w.walked cfg).2.handlers h).isRegistered)

section Entered
variable (w : Wheel)

@[simp] theorem entered_lists : w.entered.lists = w.lists := by
  rw [entered]; split <;> rfl

@[simp] theorem entered_bits : w.entered.bits = w.bits := by
  rw [entered]; split <;> rfl

@[simp] theorem entered_handlers : w.entered.handlers = w.handlers := by
  rw [entered]; split <;> rfl

@[simp] theorem entered_registered : w.entered.registered = w.registered := by
  rw [entered]; split <;> rfl

@[simp] theorem entered_fns : w.entered.fns = w.fns := by
  rw [entered]; split <;> rfl

@[simp] theorem entered_internals : w.entered.internals = w.internals := by
  rw [entered]; split <;> rfl

@[simp] theorem entered_destroyed : w.entered.destroyed = w.destroyed := by
  rw [entered]; split <;> rfl

@[simp] theorem entered_expireTick : w.entered.expireTick = w.expireTick := by
  rw [entered]; split <;> rfl

theorem entered_timerCount : w.entered.timerCount =
    if w.bits (slotOf w.expireTick) then subU64 w.timerCount 1 else w.timerCount := by
  rw [entered]; split <;> rfl

@[simp] theorem entered_clock : w.entered.clock = w.clock + 1 := by
  rw [entered]; split <;> rfl

end Entered

/-- The loop of a call, in terms of the state the call is made in. -/
theorem walked_spec (cfg : Config) {w : Wheel} (hsync : BitSync w) :
    Walked cfg (w.curTick cfg) w.entered (w.walked cfg).1 (w.walked cfg).2 := by
  apply walk_ticksLeft
  intro s hs
  rw [entered_lists] at hs
  rw [entered_bits]
  exact hsync s hs

theorem walked_linked (cfg : Config) {w : Wheel} (hsync : BitSync w) :
    w.linked = ((w.walked cfg).1 : Multiset HandlerId) + (w.walked cfg).2.linked := by
  rw [← (walked_spec cfg hsync).linked_eq, linked_of_lists_eq (entered_lists w)]

/-- The reactor has taken the handler out of its heap. -/
def popped (h : HandlerId) (w : Wheel) : Wheel :=
  { w with clock := w.clock + 1, registered := w.registered.erase h }

theorem tickOf_le {cfg : Config} {a b : Int} (h : a ≤ b) : tickOf cfg a ≤ tickOf cfg b := by
  have hpos : 0 < cfg.interval * nanosPerMilli := by
    have := cfg.interval_pos
    unfold nanosPerMilli
    omega
  exact Int.tdiv_le_tdiv hpos (by omega)

theorem clearRegistered_expiration (w : Wheel) (h x : HandlerId) :
    ((w.clearRegistered h).handlers x).expiration = (w.handlers x).expiration :=
  update_member (·.expiration) (by rfl) x

theorem clearRegistered_isRegistered (w : Wheel) (h : HandlerId) :
    ((w.clearRegistered h).handlers h).isRegistered = false := by
  simp only [clearRegistered, setHandler]
  rw [Function.update_self]

end Wheel

namespace HHWheelTimer

/-! ## The moves -/

/-- The handler that an input schedules, and its timeout. -/
def schedules (t : HHWheelTimer) : Input → Option (HandlerId × Int)
  | .scheduleTimeout h timeout => some (h, timeout)
  | .scheduleTimeoutFn timeout => some (.fn t.wheel.fns, timeout)
  | _ => none

/-- `scheduleTimeoutFn` makes a handler first. -/
def prepared (t : HHWheelTimer) : Input → HHWheelTimer
  | .scheduleTimeoutFn _ => t.withFn
  | _ => t

/-- `handle_timeout` of `h` has come to its end. -/
def released (t : HHWheelTimer) (h : HandlerId) : HHWheelTimer :=
  { (if h.needDestroy then t.destroy h else t) with control := .override h }

inductive Move (cfg : Config) (t : HHWheelTimer) : Input → List Event → HHWheelTimer → Prop where
  | idle (input : Input) : Move cfg t input [] t
  /-- The reactor has nothing to fire. -/
  | looked (h : HandlerId) :
      Move cfg t (.fire h) [] { t with wheel := { t.wheel with clock := t.wheel.clock + 1 } }
  | scheduled {input : Input} {h : HandlerId} {timeout : Int} {w : Wheel} :
      t.control.isUser = true → t.schedules input = some (h, timeout) →
      (t.prepared input).knows h = true → (t.prepared input).wheel.destroyed h = false →
      t.isLinked h = false →
      ((t.prepared input).wheel.inserted cfg h timeout).scheduleNextTimeoutInReactor cfg
        (t.wheel.curTick cfg) = .ok w →
      Move cfg t input [.scheduled h] { t with wheel := w }
  | cancelled {w : Wheel} : t.control.isUser = true → t.wheel.cancelAll = .ok w →
      Move cfg t .cancelAll [] { t with wheel := w }
  | fired {h : HandlerId} : t.control = .outside → t.wheel.HeapIntact → h ∈ t.wheel.registered →
      (t.wheel.handlers h).expiration ≤ cfg.now t.wheel.clock →
      Move cfg t (.fire h) [.fired h] ⟨t.wheel.popped h, .callback h, t.calls⟩
  | entered {h : HandlerId} {w : Wheel} : t.control = .callback h → w = t.wheel.clearRegistered h →
      Move cfg t .proceed []
        ⟨(w.walked cfg).2, .loop, ⟨h, w.curTick cfg, w.expiredTimers cfg h⟩ :: t.calls⟩
  | called {h c : HandlerId} {curTick : Int} {cs : List HandlerId} {calls : List Call} :
      t.control = .loop → t.calls = ⟨h, curTick, c :: cs⟩ :: calls →
      Move cfg t .proceed [.fired c] ⟨t.wheel, .callback c, ⟨h, curTick, cs⟩ :: calls⟩
  | returned {h : HandlerId} {curTick : Int} {calls : List Call} {w : Wheel} :
      t.control = .loop → t.calls = ⟨h, curTick, []⟩ :: calls → t.wheel.rearm cfg curTick = .ok w →
      w.destroyed h = false →
      Move cfg t .proceed [.expired curTick w]
        (({ t with wheel := w, calls := calls } : HHWheelTimer).released h)
  | left {h : HandlerId} : t.control = .override h → t.calls = [] →
      Move cfg t .proceed [] { t with control := .outside }
  | resumed {h : HandlerId} {call : Call} {calls : List Call} {count : Nat} :
      t.control = .override h → t.calls = call :: calls → count = subU64 t.wheel.timerCount 1 →
      Move cfg t .proceed []
        { t with wheel := { t.wheel with timerCount := count }, control := .loop }

theorem knows_of_fns_eq {t t' : HHWheelTimer} (h : t'.wheel.fns = t.wheel.fns) (x : HandlerId) :
    t'.knows x = t.knows x := by
  cases x with
  | fn n => rw [knows, knows, h]
  | _ => rfl

theorem isInternal_of_knows {t : HHWheelTimer} {h : HandlerId} (hknows : t.knows h = true) :
    h.isInternal = false := by
  cases h with
  | internal n => cases hknows
  | _ => rfl

theorem prepared_lists (t : HHWheelTimer) (input : Input) :
    (t.prepared input).wheel.lists = t.wheel.lists := by
  cases input <;> rfl

theorem prepared_bits (t : HHWheelTimer) (input : Input) :
    (t.prepared input).wheel.bits = t.wheel.bits := by
  cases input <;> rfl

theorem prepared_linked (t : HHWheelTimer) (input : Input) :
    (t.prepared input).wheel.linked = t.wheel.linked :=
  Wheel.linked_of_lists_eq (prepared_lists t input)

theorem prepared_clock (t : HHWheelTimer) (input : Input) :
    (t.prepared input).wheel.clock = t.wheel.clock := by
  cases input <;> rfl

theorem prepared_registered (t : HHWheelTimer) (input : Input) :
    (t.prepared input).wheel.registered = t.wheel.registered := by
  cases input <;> rfl

/-- Only the handler that is about to be scheduled can be a new one. -/
theorem prepared_handlers {t : HHWheelTimer} {input : Input} {h x : HandlerId} {timeout : Int}
    (hschedules : t.schedules input = some (h, timeout)) (hne : x ≠ h) :
    (t.prepared input).wheel.handlers x = t.wheel.handlers x := by
  cases input with
  | scheduleTimeoutFn timeout =>
      cases hschedules
      exact Function.update_of_ne hne _ _
  | _ => rfl

theorem prepared_destroyed {t : HHWheelTimer} {input : Input} {h x : HandlerId} {timeout : Int}
    (hschedules : t.schedules input = some (h, timeout)) (hne : x ≠ h) :
    (t.prepared input).wheel.destroyed x = t.wheel.destroyed x := by
  cases input with
  | scheduleTimeoutFn timeout =>
      cases hschedules
      exact Function.update_of_ne hne _ _
  | _ => rfl

theorem prepared_isLinked (t : HHWheelTimer) (input : Input) (h : HandlerId) :
    (t.prepared input).isLinked h = t.isLinked h := by
  cases input <;> rfl

theorem prepared_curTick (cfg : Config) (t : HHWheelTimer) (input : Input) :
    (t.prepared input).wheel.curTick cfg = t.wheel.curTick cfg := by
  cases input <;> rfl

/-- `scheduleTimeout`, of a handler that has been made or is just being made. -/
theorem scheduled_move {cfg : Config} {t t' : HHWheelTimer} {input : Input} {h : HandlerId}
    {timeout : Int} {events : List Event} (huser : t.control.isUser = true)
    (hschedules : t.schedules input = some (h, timeout)) (hknows : (t.prepared input).knows h = true)
    (hrun : (t.prepared input).scheduleTimeout cfg h timeout = .ok (events, t')) :
    Move cfg t input events t' := by
  rw [scheduleTimeout] at hrun
  split at hrun
  · cases hrun
  next halive =>
  split at hrun
  · cases hrun
  next hlinked =>
  obtain ⟨w, hsched, hrun⟩ := bind_eq_ok hrun
  cases hrun
  have hnext := Wheel.scheduleTimeout_eq_ok hsched
  rw [prepared_curTick] at hnext
  rw [prepared_isLinked] at hlinked
  have hframe : (t.prepared input).control = t.control ∧ (t.prepared input).calls = t.calls := by
    cases input <;> exact ⟨rfl, rfl⟩
  rw [hframe.1, hframe.2]
  exact .scheduled huser hschedules hknows (Bool.eq_false_of_not_eq_true halive)
    (Bool.eq_false_of_not_eq_true hlinked) hnext

theorem fire_move {cfg : Config} {t t' : HHWheelTimer} {h : HandlerId} {events : List Event}
    (houtside : t.control = .outside) (hrun : t.fire cfg h = .ok (events, t')) :
    Move cfg t (.fire h) events t' := by
  obtain ⟨heap, hheap, hrun⟩ := bind_eq_ok hrun
  obtain ⟨hintact, rfl⟩ := Wheel.heap_eq_ok hheap
  by_cases hdue : h ∈ t.wheel.registered ∧ (t.wheel.handlers h).expiration ≤ cfg.now t.wheel.clock
  · have hfire := (if_pos hdue).symm.trans hrun
    cases hfire
    exact .fired houtside hintact hdue.1 hdue.2
  · have hlook := (if_neg hdue).symm.trans hrun
    cases hlook
    exact .looked h

theorem timeoutExpired_eq_ok {cfg : Config} {h : HandlerId} {t t' : HHWheelTimer}
    (hrun : t.timeoutExpired cfg h = .ok t') :
    t' = ⟨(t.wheel.walked cfg).2, .loop,
      ⟨h, t.wheel.curTick cfg, t.wheel.expiredTimers cfg h⟩ :: t.calls⟩ := by
  obtain ⟨curTick, htick, hrun⟩ := bind_eq_ok hrun
  obtain rfl := tickOfCurTime_eq_ok htick
  cases hrun
  rfl

theorem proceed_move {cfg : Config} {t t' : HHWheelTimer} {events : List Event}
    (hrun : t.proceed cfg = .ok (events, t')) : Move cfg t .proceed events t' := by
  rw [proceed] at hrun
  split at hrun
  · cases hrun
    exact .idle _
  · next h hcontrol =>
    split at hrun
    · cases hrun
    · obtain ⟨t₁, hexpired, hrun⟩ := bind_eq_ok hrun
      cases hrun
      obtain rfl := timeoutExpired_eq_ok hexpired
      exact .entered hcontrol rfl
  · cases hrun
    exact .idle _
  · next h curTick c cs calls hcontrol hcalls =>
    cases hrun
    exact .called hcontrol hcalls
  · next h curTick calls hcontrol hcalls =>
    obtain ⟨w, hrearm, hrun⟩ := bind_eq_ok hrun
    obtain ⟨t₁, hreturns, hrun⟩ := bind_eq_ok hrun
    cases hrun
    rw [handleTimeoutReturns] at hreturns
    split at hreturns
    · cases hreturns
    · next halive =>
      cases hreturns
      exact .returned hcontrol hcalls hrearm (Bool.eq_false_of_not_eq_true halive)
  · next hcontrol hcalls =>
    cases hrun
    exact .left hcontrol hcalls
  · next hcontrol hcalls =>
    cases hrun
    exact .resumed hcontrol hcalls rfl

/-- **What a step can do.** -/
theorem step_move {cfg : Config} {input : Input} {t t' : HHWheelTimer} {events : List Event}
    (hrun : step cfg input t = .ok (events, t')) : Move cfg t input events t' := by
  cases input with
  | scheduleTimeout h timeout =>
      rw [step] at hrun
      split at hrun
      · next hcan =>
        obtain ⟨huser, hknows⟩ := Bool.and_eq_true_iff.mp hcan
        exact scheduled_move huser rfl hknows hrun
      · cases hrun
        exact .idle _
  | scheduleTimeoutFn timeout =>
      rw [step] at hrun
      split at hrun
      · next huser =>
        have hknows : t.withFn.knows (.fn t.wheel.fns) = true :=
          decide_eq_true (Nat.lt_succ_self t.wheel.fns)
        exact scheduled_move huser rfl hknows hrun
      · cases hrun
        exact .idle _
  | cancelAll =>
      rw [step] at hrun
      split at hrun
      · next huser =>
        obtain ⟨w, hcancel, hrun⟩ := bind_eq_ok hrun
        cases hrun
        exact .cancelled huser hcancel
      · cases hrun
        exact .idle _
  | fire h =>
      rw [step] at hrun
      split at hrun
      · next houtside => exact fire_move houtside hrun
      · cases hrun
        exact .idle _
  | proceed => exact proceed_move hrun

end HHWheelTimer
end Unp.Timer
