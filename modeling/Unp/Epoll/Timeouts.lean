import Unp.Epoll.Undo

/-!
# Dispatching timeouts

`dispatch_timeout_events` takes a copy of the handlers of the earliest time point, calls
`handle_timeout` on each of them and then erases the time point from the table, as long as the
earliest time point lies in the past. A callback can register and unregister handlers, and it does
so in the table, not in the copy.

The function is a state machine here, since it is interrupted by what the callbacks do: `Control`
says where it stands, the inputs are the calls that the program makes and the moments at which a
callback returns. Every behaviour of the callbacks is a sequence of inputs.
-/

namespace Unp.Epoll

open Unp.Machine Unp.Run PollEventRepo

/-! ## Calls and the timeout handlers -/

namespace EpollReactorImpl

/-- The handler that a call puts into the table, and the time point it is for. -/
def Request.registersTimeout (req : Request) : Option (TimePoint × HandlerId) :=
  match req.call with
  | .registerTimeout (some h) .timeout => (req.expiration h).map (·, h)
  | .register _ (some h) .timeout => (req.expiration h).map (·, h)
  | _ => none

/-- The handler that a call takes out of the table. -/
def Request.unregistersTimeout (req : Request) : Option (TimePoint × HandlerId) :=
  match req.call with
  | .unregisterTimeout (some h) .timeout => (req.expiration h).map (·, h)
  | _ => none

section Calls
variable {expiration : Expirations} {handle : Handle} {handler : Option HandlerId}
  {type : EventType} {s s' : EpollReactorImpl} {ret : Int} {t : TimePoint} {h : HandlerId}

theorem registerHandler_table
    (hstep : s.registerHandler expiration true handle handler type = .ok (ret, s')) :
    s'.demuxTable = s.demuxTable ∨
      s'.demuxTable = (s.demuxTable.bindNew expiration handle type handler).2 := by
  unfold registerHandler at hstep
  split at hstep
  · cases hstep
    exact Or.inl rfl
  split at hstep
  · cases hstep
    exact Or.inl rfl
  split at hstep
  split at hstep
  · cases hstep
    exact Or.inl rfl
  · exact Or.inr (counted_eq hstep).1

/-- `unregister_handler(handle, handler, TIMEOUT_EVENT)` is refused by `epoller_`. -/
theorem unregisterHandler_timeoutHandlers
    (hstep : s.unregisterHandler expiration true true handle handler type = .ok (ret, s')) :
    s'.demuxTable.timeoutHandlers = s.demuxTable.timeoutHandlers := by
  by_cases htimeout : type = .timeout
  · rw [htimeout, unregisterHandler_refused (by simp [pollEvent])] at hstep
    cases hstep
    rfl
  unfold unregisterHandler at hstep
  split at hstep
  · cases hstep
    rfl
  split at hstep
  · cases hstep
    rfl
  split at hstep
  split at hstep
  · cases hstep
    rfl
  · obtain ⟨⟨ret', table⟩, hunbind, hstep⟩ := bind_eq_ok hstep
    rw [(counted_eq hstep).1]
    exact unbind_timeoutHandlers htimeout hunbind

theorem registerTimeout_table (hstep : s.registerTimeout expiration handler type = (ret, s')) :
    s'.demuxTable = s.demuxTable ∨
      s'.demuxTable = (s.demuxTable.bindNew expiration invalidHandle type handler).2 := by
  unfold registerTimeout at hstep
  split at hstep
  · cases hstep
    exact Or.inl rfl
  · cases hstep
    exact Or.inr rfl

theorem mem_unregisterTimeout
    (hstep : s.unregisterTimeout expiration handler type = .ok (ret, s')) :
    h ∈ s'.demuxTable.timeoutsAt t ↔ h ∈ s.demuxTable.timeoutsAt t ∧
      ¬ (type = .timeout ∧ handler = some h ∧ expiration h = some t) := by
  unfold unregisterTimeout at hstep
  split at hstep
  · next hargs =>
      cases hstep
      refine ⟨fun hmem => ⟨hmem, ?_⟩, And.left⟩
      rintro ⟨rfl, rfl, -⟩
      simp at hargs
  · next hargs =>
      obtain rfl : type = .timeout := by simpa using (not_or.mp hargs).2
      obtain ⟨⟨ret', table⟩, hunbind, hstep⟩ := bind_eq_ok hstep
      cases hstep
      rw [mem_unbind hunbind]
      simp

/-- A call adds the handler it registers and no other. -/
theorem registered_of_step {req : Request} (hstep : step req s = .ok (ret, s'))
    (hafter : h ∈ s'.demuxTable.timeoutsAt t) :
    h ∈ s.demuxTable.timeoutsAt t ∨ req.registersTimeout = some (t, h) := by
  obtain ⟨expiration, call⟩ := req
  cases call with
  | register handle handler type =>
      rcases registerHandler_table hstep with htable | htable
      · exact Or.inl (htable ▸ hafter)
      · rw [htable, mem_bindNew] at hafter
        apply hafter.imp_right
        rintro ⟨rfl, rfl, hexp⟩
        simpa [Request.registersTimeout] using hexp
  | unregister handle handler type =>
      rw [timeoutsAt, unregisterHandler_timeoutHandlers hstep] at hafter
      exact Or.inl hafter
  | registerTimeout handler type =>
      rcases registerTimeout_table (Except.ok.inj hstep) with htable | htable
      · exact Or.inl (htable ▸ hafter)
      · rw [htable, mem_bindNew] at hafter
        apply hafter.imp_right
        rintro ⟨rfl, rfl, hexp⟩
        simpa [Request.registersTimeout] using hexp
  | unregisterTimeout handler type => exact Or.inl ((mem_unregisterTimeout hstep).mp hafter).1

/-- A call removes the handler it unregisters and no other. -/
theorem unregistered_of_step {req : Request} (hstep : step req s = .ok (ret, s'))
    (hbefore : h ∈ s.demuxTable.timeoutsAt t) :
    h ∈ s'.demuxTable.timeoutsAt t ∨ req.unregistersTimeout = some (t, h) := by
  obtain ⟨expiration, call⟩ := req
  cases call with
  | register handle handler type =>
      rcases registerHandler_table hstep with htable | htable
      · exact Or.inl (htable ▸ hbefore)
      · exact Or.inl (htable ▸ mem_bindNew.mpr (Or.inl hbefore))
  | unregister handle handler type =>
      rw [timeoutsAt, unregisterHandler_timeoutHandlers hstep]
      exact Or.inl hbefore
  | registerTimeout handler type =>
      rcases registerTimeout_table (Except.ok.inj hstep) with htable | htable
      · exact Or.inl (htable ▸ hbefore)
      · exact Or.inl (htable ▸ mem_bindNew.mpr (Or.inl hbefore))
  | unregisterTimeout handler type =>
      by_cases hnamed : type = .timeout ∧ handler = some h ∧ expiration h = some t
      · obtain ⟨rfl, rfl, hexp⟩ := hnamed
        exact Or.inr (by simp [Request.unregistersTimeout, hexp])
      · exact Or.inl ((mem_unregisterTimeout hstep).mpr ⟨hbefore, hnamed⟩)

end Calls

end EpollReactorImpl

/-! ## The machine -/

/-- Where `dispatch_timeout_events` stands. -/
inductive Control where
  /-- It is not running. -/
  | idle
  /-- At the test of the `while` loop. -/
  | test (latestTimeout : TimePoint)
  /-- In the `for` loop, with the rest of the copied set. -/
  | walk (latestTimeout : TimePoint) (rest : List HandlerId)
  /-- In `handle_timeout` of a handler. -/
  | callback (latestTimeout : TimePoint) (running : HandlerId) (rest : List HandlerId)
  deriving Repr, DecidableEq

structure Dispatcher where
  reactor : EpollReactorImpl
  cachedNow : TimePoint
  ret : Int
  control : Control

namespace Dispatcher

def new : Dispatcher := ⟨.new, 0, 1, .idle⟩

inductive Input where
  /-- The program, or the callback that runs, calls the reactor. -/
  | call (req : EpollReactorImpl.Request)
  /-- `dispatch_timeout_events()`, with what `cached_now_` is set to before. -/
  | dispatch (now : TimePoint)
  /-- `dispatch_timeout_events` goes on to its next statement. -/
  | proceed
  /-- `handle_timeout` returns. -/
  | finish (ret : Int)

def Input.registersTimeout : Input → Option (TimePoint × HandlerId)
  | .call req => req.registersTimeout
  | _ => none

def Input.unregistersTimeout : Input → Option (TimePoint × HandlerId)
  | .call req => req.unregistersTimeout
  | _ => none

/-- A call of `handle_timeout`: the time point that is dispatched, and the handler. -/
abbrev Output := Option (TimePoint × HandlerId)

def proceed (d : Dispatcher) : Output × Dispatcher :=
  match d.control with
  | .test latest =>
      if latest < d.cachedNow then
        (none, { d with
          control := .walk latest d.reactor.demuxTable.getLatestTimeoutHandlers.toList })
      else (none, { d with control := .idle })
  | .walk latest (h :: rest) => (some (latest, h), { d with control := .callback latest h rest })
  | .walk latest [] =>
      let (_, demuxTable) := d.reactor.demuxTable.unbindTimeoutHandlers latest
      (none, { d with
        reactor := { d.reactor with demuxTable }
        control := .test demuxTable.getLastestTimeoutPoint })
  | _ => (none, d)

/-- One step. An input that does not fit to where the machine stands changes nothing. -/
def step (i : Input) (d : Dispatcher) : Res (Output × Dispatcher) :=
  match i, d.control with
  | .call req, .idle => do
      let (_, reactor) ← EpollReactorImpl.step req d.reactor
      pure (none, { d with reactor })
  | .call req, .callback _ _ _ => do
      let (_, reactor) ← EpollReactorImpl.step req d.reactor
      pure (none, { d with reactor })
  | .dispatch now, .idle =>
      .ok (none, { d with
        cachedNow := now
        ret := 1
        control := .test d.reactor.demuxTable.getLastestTimeoutPoint })
  | .proceed, _ => .ok d.proceed
  | .finish ret, .callback latest _ rest =>
      .ok (none, { d with
        ret := if ret ≠ 0 ∨ d.ret ≠ 0 then 1 else 0
        control := .walk latest rest })
  | _, _ => .ok (none, d)

/-! ## What a step can do -/

/-- A handler is in the table, for a time point. -/
def Bound (d : Dispatcher) (t : TimePoint) (h : HandlerId) : Prop :=
  h ∈ d.reactor.demuxTable.timeoutsAt t

instance (d : Dispatcher) (t : TimePoint) (h : HandlerId) : Decidable (d.Bound t h) :=
  inferInstanceAs (Decidable (h ∈ d.reactor.demuxTable.timeoutsAt t))

/-- The time point that is being dispatched. -/
def point (d : Dispatcher) : Option TimePoint :=
  match d.control with
  | .walk latest _ => some latest
  | .callback latest _ _ => some latest
  | _ => none

/-- The handlers whose turn has not come. -/
def waiting (d : Dispatcher) : List (TimePoint × HandlerId) :=
  match d.control with
  | .walk latest rest => rest.map (latest, ·)
  | .callback latest _ rest => rest.map (latest, ·)
  | _ => []

/-- The steps by their kind, with what each of them leaves behind. -/
inductive Moves : Input → Dispatcher → Output → Dispatcher → Prop where
  | stutter {i : Input} {d : Dispatcher} : Moves i d none d
  | call {req : EpollReactorImpl.Request} {d : Dispatcher} {ret : Int} {reactor : EpollReactorImpl}
      (hrunning : ∀ latest, d.control ≠ .test latest)
      (hcall : EpollReactorImpl.step req d.reactor = .ok (ret, reactor)) :
      Moves (.call req) d none { d with reactor }
  | enter {i : Input} {d d' : Dispatcher} (hreactor : d'.reactor = d.reactor)
      (hcontrol : d'.control = .test d.reactor.demuxTable.getLastestTimeoutPoint) :
      Moves i d none d'
  | leave {i : Input} {d : Dispatcher} : Moves i d none { d with control := .idle }
  | take {i : Input} {d : Dispatcher} {latest : TimePoint} (hcontrol : d.control = .test latest) :
      Moves i d none { d with
        control := .walk latest d.reactor.demuxTable.getLatestTimeoutHandlers.toList }
  | invoke {i : Input} {d : Dispatcher} {latest : TimePoint} {h : HandlerId} {rest : List HandlerId}
      (hcontrol : d.control = .walk latest (h :: rest)) :
      Moves i d (some (latest, h)) { d with control := .callback latest h rest }
  | erase {i : Input} {d : Dispatcher} {latest : TimePoint} {demuxTable : PollEventRepo}
      (hcontrol : d.control = .walk latest [])
      (htable : demuxTable = (d.reactor.demuxTable.unbindTimeoutHandlers latest).2) :
      Moves i d none { d with
        reactor := { d.reactor with demuxTable }
        control := .test demuxTable.getLastestTimeoutPoint }
  | finish {i : Input} {d : Dispatcher} {latest : TimePoint} {h : HandlerId} {rest : List HandlerId}
      {ret : Int} (hcontrol : d.control = .callback latest h rest) :
      Moves i d none { d with ret, control := .walk latest rest }

theorem proceed_moves (d : Dispatcher) : Moves .proceed d d.proceed.1 d.proceed.2 := by
  unfold proceed
  split
  · next hcontrol =>
      split
      · exact .take hcontrol
      · exact .leave
  · next hcontrol => exact .invoke hcontrol
  · next hcontrol => exact .erase hcontrol rfl
  · exact .stutter

theorem step_moves {i : Input} {d d' : Dispatcher} {o : Output} (hstep : step i d = .ok (o, d')) :
    Moves i d o d' := by
  unfold step at hstep
  split at hstep
  · next hcontrol =>
      obtain ⟨⟨ret, reactor⟩, hcall, heq⟩ := bind_eq_ok hstep
      cases heq
      exact .call (by simp [hcontrol]) hcall
  · next hcontrol =>
      obtain ⟨⟨ret, reactor⟩, hcall, heq⟩ := bind_eq_ok hstep
      cases heq
      exact .call (by simp [hcontrol]) hcall
  · cases hstep
    exact .enter rfl rfl
  · have hmoves := proceed_moves d
    rw [Except.ok.inj hstep] at hmoves
    exact hmoves
  · next hcontrol =>
      cases hstep
      exact .finish hcontrol
  · cases hstep
    exact .stutter

/-- A handler leaves the table through a call of the program, or when the time point that has been
dispatched is erased. -/
theorem Moves.leaves {i : Input} {d d' : Dispatcher} {o : Output} (hmoves : Moves i d o d')
    {t : TimePoint} {h : HandlerId} (hbefore : d.Bound t h) (hafter : ¬ d'.Bound t h) :
    i.unregistersTimeout = some (t, h) ∨ d.control = .walk t [] := by
  cases hmoves with
  | stutter => exact absurd hbefore hafter
  | call _ hcall =>
      exact Or.inl ((EpollReactorImpl.unregistered_of_step hcall hbefore).resolve_left hafter)
  | enter hreactor =>
      rw [Bound, hreactor] at hafter
      exact absurd hbefore hafter
  | leave => exact absurd hbefore hafter
  | take => exact absurd hbefore hafter
  | invoke => exact absurd hbefore hafter
  | @erase _ _ latest _ hcontrol htable =>
      by_cases heq : t = latest
      · exact Or.inr (heq ▸ hcontrol)
      · rw [Bound, htable, mem_unbindTimeoutHandlers] at hafter
        exact absurd ⟨hbefore, heq⟩ hafter
  | finish => exact absurd hbefore hafter

/-- At the test of the loop, `latestTimeout` is up to date. -/
def TestsLatest (d : Dispatcher) : Prop :=
  ∀ latest, d.control = .test latest → latest = d.reactor.demuxTable.getLastestTimeoutPoint

theorem Moves.testsLatest {i : Input} {d d' : Dispatcher} {o : Output} (hmoves : Moves i d o d')
    (hd : d.TestsLatest) : d'.TestsLatest := by
  intro latest hcontrol'
  cases hmoves with
  | stutter => exact hd latest hcontrol'
  | call hrunning => exact absurd hcontrol' (hrunning latest)
  | enter hreactor hcontrol =>
      cases hcontrol.symm.trans hcontrol'
      rw [hreactor]
  | leave => cases hcontrol'
  | take => cases hcontrol'
  | invoke => cases hcontrol'
  | erase =>
      cases hcontrol'
      rfl
  | finish => cases hcontrol'

/-- The copied set has the handlers of the time point. -/
theorem mem_taken {d : Dispatcher} {latest : TimePoint} {h : HandlerId} (hd : d.TestsLatest)
    (hcontrol : d.control = .test latest) :
    h ∈ d.reactor.demuxTable.getLatestTimeoutHandlers.toList ↔ d.Bound latest h := by
  rw [Bound, hd latest hcontrol]
  exact mem_getLatestTimeoutHandlers

/-! ## Cancelling -/

abbrev Event := Entry Dispatcher Input Output

/-- A call of `unregister_handler` has taken the handler out of the table. -/
def Cancels (e : Event) (t : TimePoint) (h : HandlerId) : Prop :=
  e.input.unregistersTimeout = some (t, h) ∧ e.before.Bound t h ∧ ¬ e.after.Bound t h

/-- The handler has come into the table. -/
def Adds (e : Event) (t : TimePoint) (h : HandlerId) : Prop :=
  ¬ e.before.Bound t h ∧ e.after.Bound t h

instance (e : Event) (t : TimePoint) (h : HandlerId) : Decidable (Cancels e t h) :=
  inferInstanceAs (Decidable (_ ∧ _ ∧ ¬ _))

instance (e : Event) (t : TimePoint) (h : HandlerId) : Decidable (Adds e t h) :=
  inferInstanceAs (Decidable (¬ _ ∧ _))

/-- The handler has been unregistered, and nobody has registered it again. -/
def Cancelled (past : List Event) (t : TimePoint) (h : HandlerId) : Prop :=
  ∃ earlier e later, past = earlier ++ e :: later ∧ Cancels e t h ∧ ∀ e' ∈ later, ¬ Adds e' t h

/-- A callback does not unregister a handler of the copied set whose turn has not come. -/
def SparesWaiting (d : Dispatcher) (i : Input) : Prop :=
  ∀ p ∈ d.waiting, i.unregistersTimeout ≠ some p

instance (d : Dispatcher) (i : Input) : Decidable (SparesWaiting d i) :=
  inferInstanceAs (Decidable (∀ p ∈ d.waiting, i.unregistersTimeout ≠ some p))

theorem Cancelled.append {past : List Event} {e : Event} {t : TimePoint} {h : HandlerId}
    (hcancelled : Cancelled (past ++ [e]) t h) :
    Cancels e t h ∨ (Cancelled past t h ∧ ¬ Adds e t h) := by
  obtain ⟨earlier, e₀, later, heq, hcancels, hnone⟩ := hcancelled
  rcases List.eq_nil_or_concat later with rfl | ⟨later, e₁, rfl⟩
  · obtain ⟨rfl, hlast⟩ := List.append_inj' heq rfl
    cases hlast
    exact Or.inl hcancels
  · rw [List.concat_eq_append, ← List.cons_append, ← List.append_assoc] at heq
    obtain ⟨rfl, hlast⟩ := List.append_inj' heq rfl
    cases hlast
    rw [List.concat_eq_append] at hnone
    refine Or.inr ⟨⟨earlier, e₀, later, rfl, hcancels, fun e' he' => ?_⟩, ?_⟩
    · exact hnone e' (List.mem_append_left _ he')
    · exact hnone e (List.mem_append_right _ (List.mem_singleton.mpr rfl))

/-- A cancelled handler is not in the table. -/
theorem not_bound_of_cancelled {past : List Event} {e : Event} {t : TimePoint} {h : HandlerId}
    (hpast : Cancelled past t h → ¬ e.before.Bound t h)
    (hcancelled : Cancelled (past ++ [e]) t h) : ¬ e.after.Bound t h := by
  rcases hcancelled.append with hcancels | ⟨hbefore, hadds⟩
  · exact hcancels.2.2
  · exact fun hafter => hadds ⟨hpast hbefore, hafter⟩

/-- What the condition keeps: the handlers whose turn has not come are in the table. -/
structure Spared (past : List Event) (d : Dispatcher) : Prop where
  testsLatest : d.TestsLatest
  cancelled : ∀ t h, Cancelled past t h → ¬ d.Bound t h
  waiting : ∀ p ∈ d.waiting, d.Bound p.1 p.2

theorem Moves.waiting_bound {i : Input} {d d' : Dispatcher} {o : Output} (hmoves : Moves i d o d')
    (htests : d.TestsLatest) (hwaiting : ∀ p ∈ d.waiting, d.Bound p.1 p.2)
    (hcond : SparesWaiting d i) : ∀ p ∈ d'.waiting, d'.Bound p.1 p.2 := by
  cases hmoves with
  | stutter => exact hwaiting
  | @call req _ _ _ _ hcall =>
      intro p hp
      have hkept := EpollReactorImpl.unregistered_of_step hcall (hwaiting p hp)
      exact hkept.resolve_right (hcond p hp)
  | enter _ hcontrol => simp [Dispatcher.waiting, hcontrol]
  | leave => simp [Dispatcher.waiting]
  | take hcontrol =>
      intro p hp
      obtain ⟨h, hmem, rfl⟩ := List.mem_map.mp hp
      exact (mem_taken htests hcontrol).mp hmem
  | @invoke _ _ latest h rest hcontrol =>
      intro p hp
      apply hwaiting p
      rw [Dispatcher.waiting, hcontrol]
      exact List.mem_cons_of_mem _ hp
  | erase => simp [Dispatcher.waiting]
  | finish hcontrol =>
      intro p hp
      apply hwaiting p
      rw [Dispatcher.waiting, hcontrol]
      exact hp

theorem Spared.step {past : List Event} {i : Input} {d d' : Dispatcher} {o : Output}
    (hd : Spared past d) (hcond : SparesWaiting d i) (hstep : step i d = .ok (o, d')) :
    Spared (past ++ [⟨d, i, o, d'⟩]) d' ∧ ∀ t h, o = some (t, h) → ¬ Cancelled past t h := by
  have hmoves := step_moves hstep
  refine ⟨⟨hmoves.testsLatest hd.testsLatest, fun t h => ?_, ?_⟩, fun t h ho hcancelled => ?_⟩
  · exact not_bound_of_cancelled (e := ⟨d, i, o, d'⟩) (hd.cancelled t h)
  · exact hmoves.waiting_bound hd.testsLatest hd.waiting hcond
  · -- the handler that is invoked was waiting, so it is bound
    subst ho
    cases hmoves with
    | @invoke _ _ latest h rest hcontrol =>
        refine hd.cancelled t h hcancelled (hd.waiting (t, h) ?_)
        rw [Dispatcher.waiting, hcontrol]
        exact List.mem_cons_self

/-- **No timeout callback after cancellation**: in a run in which no callback unregisters a handler
of the set that is being walked before its turn, `handle_timeout` is never called on a handler that
has been unregistered. -/
theorem no_timeout_after_cancel (inputs : List Input) (history : List Event) (d : Dispatcher)
    (hrun : run step inputs new = .ok (history, d))
    (hcond : ∀ e ∈ history, SparesWaiting e.before e.input) (past future : List Event) (e : Event)
    (hsplit : history = past ++ e :: future) (t : TimePoint) (h : HandlerId)
    (hinvoked : e.output = some (t, h)) : ¬ Cancelled past t h := by
  have hnew : Spared [] new := by
    refine ⟨fun latest hcontrol => (by cases hcontrol), ?_, by simp [Dispatcher.waiting, new]⟩
    rintro t h ⟨earlier, e, later, heq, -⟩
    simp at heq
  exact (run_history Spared SparesWaiting
    (fun past e => ∀ t h, e.output = some (t, h) → ¬ Cancelled past t h)
    (fun _ _ _ _ _ hs hc hstep => hs.step hc hstep) hnew hrun hcond).2 past e future hsplit t h
    hinvoked

/-- The program registers a handler for time point 0. -/
def register (h : HandlerId) : Input :=
  .call ⟨fun _ => some 0, .registerTimeout (some h) .timeout⟩

def unregister (h : HandlerId) : Input :=
  .call ⟨fun _ => some 0, .unregisterTimeout (some h) .timeout⟩

/-- Two handlers wait for the same point, and the callback of handler 1 unregisters a handler. -/
def unregistering (h : HandlerId) : List Input :=
  [register 1, register 2, .dispatch 1, .proceed, .proceed, unregister h, .finish 0, .proceed]

/-- Handler 1 may unregister itself. -/
theorem no_timeout_after_cancel_self :
    ∃ r, run step (unregistering 1) new = .ok r ∧ (∃ e ∈ r.1[7]?, e.output = some (0, 2)) ∧
      ¬ Cancelled (r.1.take 7) 0 2 := by
  have hrun : ∃ r, run step (unregistering 1) new = .ok r ∧
      (∃ e ∈ r.1[7]?, e.output = some (0, 2)) ∧
      ∀ e ∈ r.1, SparesWaiting e.before e.input := by
    decide +kernel
  obtain ⟨⟨history, d⟩, hrun, ⟨e, he, hinvoked⟩, hcond⟩ := hrun
  exact ⟨_, hrun, ⟨e, he, hinvoked⟩, no_timeout_after_cancel _ history d hrun hcond _ _ e
    (eq_take_cons_drop he) 0 2 hinvoked⟩

/-- The callback of handler 1 unregisters handler 2, whose `handle_timeout` is called nevertheless. -/
theorem timeout_after_cancel :
    ∃ r, run step (unregistering 2) new = .ok r ∧ (∃ e ∈ r.1[7]?, e.output = some (0, 2)) ∧
      Cancelled (r.1.take 7) 0 2 := by
  have hrun : ∃ r, run step (unregistering 2) new = .ok r ∧
      (∃ e ∈ r.1[7]?, e.output = some (0, 2)) ∧ (∃ e ∈ (r.1.take 7)[5]?, Cancels e 0 2) ∧
      ∀ e ∈ (r.1.take 7).drop 6, ¬ Adds e 0 2 := by
    decide +kernel
  obtain ⟨r, hrun, hinvoked, ⟨e, he, hcancels⟩, hadds⟩ := hrun
  exact ⟨r, hrun, hinvoked, _, e, _, eq_take_cons_drop he, hcancels, hadds⟩

/-! ## Losing -/

/-- `handle_timeout` has been called on the handler for the time point, and the registration it was
called for is still the one in the table. -/
def Served (past : List Event) (t : TimePoint) (h : HandlerId) : Prop :=
  ∃ earlier e later, past = earlier ++ e :: later ∧ e.output = some (t, h) ∧
    ∀ e' ∈ e :: later, e'.before.Bound t h

/-- A callback does not add a handler to the time point that is being dispatched, except one whose
turn is still to come. -/
def SparesPoint (d : Dispatcher) (i : Input) : Prop :=
  ∀ p ∈ i.registersTimeout, d.point = some p.1 → p ∈ d.waiting ∨ d.Bound p.1 p.2

instance (d : Dispatcher) (i : Input) : Decidable (SparesPoint d i) :=
  inferInstanceAs (Decidable (∀ p ∈ i.registersTimeout,
    d.point = some p.1 → p ∈ d.waiting ∨ d.Bound p.1 p.2))

theorem Served.append {past : List Event} {e : Event} {t : TimePoint} {h : HandlerId}
    (hserved : Served past t h) (hbound : e.before.Bound t h) : Served (past ++ [e]) t h := by
  obtain ⟨earlier, e₀, later, rfl, hinvoked, hkept⟩ := hserved
  refine ⟨earlier, e₀, later ++ [e], by simp, hinvoked, ?_⟩
  intro e' he'
  rw [← List.cons_append] at he'
  rcases List.mem_append.mp he' with he' | he'
  · exact hkept e' he'
  · rwa [List.mem_singleton.mp he']

theorem served_of_invoked (past : List Event) {e : Event} {t : TimePoint} {h : HandlerId}
    (hinvoked : e.output = some (t, h)) (hbound : e.before.Bound t h) : Served (past ++ [e]) t h :=
  ⟨past, e, [], rfl, hinvoked, by simpa using hbound⟩

/-- What the condition keeps: a handler that is bound to the point of the walk waits for its turn or
has had it. -/
structure Accounted (past : List Event) (d : Dispatcher) : Prop where
  testsLatest : d.TestsLatest
  served : ∀ t h, d.point = some t → d.Bound t h → (t, h) ∈ d.waiting ∨ Served past t h

theorem Accounted.step {past : List Event} {i : Input} {d d' : Dispatcher} {o : Output}
    (hd : Accounted past d) (hcond : SparesPoint d i) (hstep : step i d = .ok (o, d')) :
    Accounted (past ++ [⟨d, i, o, d'⟩]) d' := by
  have hmoves := step_moves hstep
  refine ⟨hmoves.testsLatest hd.testsLatest, ?_⟩
  intro t h hpoint hbound
  -- a handler that was bound before the step is accounted for as it was
  have hold : d.point = some t → d.Bound t h →
      (t, h) ∈ d.waiting ∨ Served (past ++ [⟨d, i, o, d'⟩]) t h := fun hpoint hbound =>
    (hd.served t h hpoint hbound).imp_right fun hserved => hserved.append hbound
  cases hmoves with
  | stutter => exact hold hpoint hbound
  | @call req _ _ _ _ hcall =>
      rcases EpollReactorImpl.registered_of_step hcall hbound with hbefore | hreg
      · exact hold hpoint hbefore
      · rcases hcond (t, h) hreg hpoint with hwaiting | hbefore
        · exact Or.inl hwaiting
        · exact hold hpoint hbefore
  | enter _ hcontrol => simp [Dispatcher.point, hcontrol] at hpoint
  | leave => simp [Dispatcher.point] at hpoint
  | take hcontrol =>
      cases hpoint
      exact Or.inl (List.mem_map_of_mem ((mem_taken hd.testsLatest hcontrol).mpr hbound))
  | @invoke _ _ latest running rest hcontrol =>
      cases hpoint
      have hpoint : d.point = some t := by rw [Dispatcher.point, hcontrol]
      rcases hold hpoint hbound with hwaiting | hserved
      · rw [Dispatcher.waiting, hcontrol] at hwaiting
        rcases List.mem_cons.mp hwaiting with heq | hwaiting
        · cases heq
          exact Or.inr (served_of_invoked past rfl hbound)
        · exact Or.inl hwaiting
      · exact Or.inr hserved
  | erase => simp [Dispatcher.point] at hpoint
  | finish hcontrol =>
      have hsame : d.point = some t := by rw [Dispatcher.point, hcontrol]; exact hpoint
      refine (hold hsame hbound).imp_left ?_
      intro hwaiting
      rwa [Dispatcher.waiting, hcontrol] at hwaiting

/-- A handler leaves the table through a call, or after its turn. -/
theorem Accounted.leaves {past : List Event} {i : Input} {d d' : Dispatcher} {o : Output}
    (hd : Accounted past d) (hstep : Dispatcher.step i d = .ok (o, d')) {t : TimePoint}
    {h : HandlerId} (hbefore : d.Bound t h) (hafter : ¬ d'.Bound t h) :
    i.unregistersTimeout = some (t, h) ∨ Served past t h := by
  rcases (step_moves hstep).leaves hbefore hafter with hcall | hcontrol
  · exact Or.inl hcall
  · have hpoint : d.point = some t := by rw [Dispatcher.point, hcontrol]
    refine Or.inr ((hd.served t h hpoint hbefore).resolve_left ?_)
    simp [Dispatcher.waiting, hcontrol]

/-- **No registered timeout is lost**: in a run in which no callback adds a handler to the time point
that is being dispatched, a handler leaves the table only if it is unregistered or after
`handle_timeout` has been called for that registration. -/
theorem no_timeout_lost (inputs : List Input) (history : List Event) (d : Dispatcher)
    (hrun : run step inputs new = .ok (history, d))
    (hcond : ∀ e ∈ history, SparesPoint e.before e.input) (past future : List Event) (e : Event)
    (hsplit : history = past ++ e :: future) (t : TimePoint) (h : HandlerId)
    (hbefore : e.before.Bound t h) (hafter : ¬ e.after.Bound t h) :
    e.input.unregistersTimeout = some (t, h) ∨ Served past t h := by
  have hnew : Accounted [] new := by
    refine ⟨fun latest hcontrol => (by cases hcontrol), ?_⟩
    intro t h hpoint
    cases hpoint
  exact (run_history Accounted SparesPoint
    (fun past e => ∀ t h, e.before.Bound t h → ¬ e.after.Bound t h →
      e.input.unregistersTimeout = some (t, h) ∨ Served past t h)
    (fun _ _ _ _ _ hs hc hstep => ⟨hs.step hc hstep, fun _ _ => hs.leaves hstep⟩)
    hnew hrun hcond).2 past e future hsplit t h hbefore hafter

/-- The set of handler 1 is dispatched, and its callback makes a call. -/
def calling (call : Input) : List Input :=
  [register 1, .dispatch 1, .proceed, .proceed, call, .finish 0, .proceed]

/-- Registering handler 1 again is refused, and handler 1 leaves after its turn. -/
theorem no_timeout_lost_again :
    ∃ r, run step (calling (register 1)) new = .ok r ∧
      (∃ e ∈ r.1[6]?, e.before.Bound 0 1 ∧ ¬ e.after.Bound 0 1) ∧ Served (r.1.take 6) 0 1 := by
  have hrun : ∃ r, run step (calling (register 1)) new = .ok r ∧
      (∃ e ∈ r.1[6]?, (e.before.Bound 0 1 ∧ ¬ e.after.Bound 0 1) ∧
        e.input.unregistersTimeout ≠ some (0, 1)) ∧
      ∀ e ∈ r.1, SparesPoint e.before e.input := by
    decide +kernel
  obtain ⟨⟨history, d⟩, hrun, ⟨e, he, hleaves, hinput⟩, hcond⟩ := hrun
  exact ⟨_, hrun, ⟨e, he, hleaves⟩, (no_timeout_lost _ history d hrun hcond _ _ e
    (eq_take_cons_drop he) 0 1 hleaves.1 hleaves.2).resolve_left hinput⟩

/-- Handler 2 is registered for the point that is being dispatched: it is erased without a call. -/
theorem timeout_lost :
    ∃ r, run step (calling (register 2)) new = .ok r ∧
      (∃ e ∈ r.1[6]?, (e.before.Bound 0 2 ∧ ¬ e.after.Bound 0 2) ∧
        e.input.unregistersTimeout ≠ some (0, 2)) ∧ ¬ Served (r.1.take 6) 0 2 := by
  have hrun : ∃ r, run step (calling (register 2)) new = .ok r ∧
      (∃ e ∈ r.1[6]?, (e.before.Bound 0 2 ∧ ¬ e.after.Bound 0 2) ∧
        e.input.unregistersTimeout ≠ some (0, 2)) ∧
      ∀ e ∈ r.1.take 6, e.output ≠ some (0, 2) := by
    decide +kernel
  obtain ⟨r, hrun, hleaves, hnever⟩ := hrun
  refine ⟨r, hrun, hleaves, ?_⟩
  rintro ⟨earlier, e, later, heq, hinvoked, -⟩
  exact hnever e (heq ▸ List.mem_append_right _ List.mem_cons_self) hinvoked

end Dispatcher

end Unp.Epoll
