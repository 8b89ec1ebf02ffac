import Unp.Connection.Interest
import Unp.Epoll.Dispatch
import Unp.Lib.EraseWalk
import Unp.Poll.Reactor

/-!
# `poll_reactor_impl`: dispatching ready events

`dispatch_io_handlers` walks through `wait_pfds_` for input, for output and for errors. A callback
that returns a negative number has its half of the connection closed on the spot, which erases the
entry the walk stands on; the walk then goes on with the entry after the next.

What the callbacks return is a parameter. `close_read` and `close_write` are those of
`connection_handler`; `handle_close` is called when nothing of the handle is registered any more, and
is only recorded.
-/

namespace Unp.Poll

open Unp.Machine Unp.EraseWalk
open Unp.Epoll (EventType HandlerId Callback)
open Unp.Reactor (Interest)

/-- The members of a `connection_handler` that closing a half uses: its stream, and the handle of the
stream. -/
structure Connection where
  handle : Int
  hasStream : Bool
  enabled : Interest → Bool

/-- A call of the reactor to a handler. -/
structure Invocation where
  handler : HandlerId
  callback : Callback
  fd : Int
  deriving Repr, DecidableEq

/-- What a round works on: the reactor, the connections, `handles_dispatched`, and what has been
invoked. -/
structure Round where
  reactor : PollReactorImpl
  connections : HandlerId → Connection
  handlesDispatched : Int
  log : List Invocation

/-- `READ_EVENT` and `WRITE_EVENT`. -/
def eventOf : Interest → EventType
  | .read => .read
  | .write => .write

namespace Round

def invoke (inv : Invocation) (d : Round) : Round := { d with log := d.log ++ [inv] }

/-- `close_read` and `close_write` of a connection; the flag is taken down before the reactor is
asked. -/
def closeHalf (i : Interest) (h : HandlerId) (d : Round) : Res Round :=
  let c := d.connections h
  if c.hasStream = false then pure d
  else if c.enabled i = true then do
    let (_, reactor) ← d.reactor.unregisterHandler c.handle (some h) (eventOf i)
    pure { d with
      reactor
      connections := Function.update d.connections h
        { c with enabled := Function.update c.enabled i false } }
  else pure d

/-- After a callback has returned a negative number. -/
def closeAfter (h : HandlerId) (fd : Int) (type : EventType) (d : Round) : Res Round :=
  match type with
  | .read => (d.invoke ⟨h, .closeRead, fd⟩).closeHalf .read h
  | .write => (d.invoke ⟨h, .closeWrite, fd⟩).closeHalf .write h
  | _ => pure d

/-- The callback, and what follows from its result. -/
def callAndClose (ret : Invocation → Int) (type : EventType) (inv : Invocation) (d : Round) :
    Res Round :=
  if ret inv < 0 then (d.invoke inv).closeAfter inv.handler inv.fd type else pure (d.invoke inv)

/-- The body of the loop, for an entry that has the bit. -/
def dispatchEntry (ret : Invocation → Int) (type : EventType) (callback : Callback) (fd : Int)
    (d : Round) : Res Round :=
  match d.reactor.demuxTable.getHandler fd type with
  | none => pure d
  | some h => do
      let d ← d.callAndClose ret type ⟨h, callback, fd⟩
      pure (if d.reactor.waitPfds.any fun pfd => pfd.fd = fd then d
        else d.invoke ⟨h, .handleClose, fd⟩)

/-- The loop, from index `i` on. -/
def dispatchIoSets (ret : Invocation → Int) (type : EventType) (callback : Callback) :
    Nat → Nat → Int → Round → Res (Int × Round)
  | 0, _, _, _ => .error .outOfFuel
  | fuel + 1, i, activeHandles, d =>
      match d.reactor.waitPfds[i]? with
      | none => pure (activeHandles, d)
      | some pfd =>
          if activeHandles ≤ 0 then pure (activeHandles, d)
          else if pfd.revents &&& type.value = 0 then
            dispatchIoSets ret type callback fuel (i + 1) activeHandles d
          else do
            let d ← dispatchEntry ret type callback pfd.fd
              { d with handlesDispatched := d.handlesDispatched + 1 }
            dispatchIoSets ret type callback fuel (i + 1) (activeHandles - 1) d

/-- A loop over all of `wait_pfds_`: it never makes more rounds than there are entries. -/
def dispatchAll (ret : Invocation → Int) (type : EventType) (callback : Callback)
    (activeHandles : Int) (d : Round) : Res (Int × Round) :=
  dispatchIoSets ret type callback (d.reactor.waitPfds.length + 1) 0 activeHandles d

/-- `POLLERR` is the number of `ACCEPT_EVENT`. From the first `&&` on `ret` is a truth value. -/
def dispatchErrors (ret : Invocation → Int) (r : Int × Round) : Res (Int × Round) :=
  if r.1 = 0 then pure (0, r.2)
  else do
    let (r, d) ← dispatchAll ret .accept .handleOutput 1 r.2
    pure (if r = 0 then 0 else 1, d)

def dispatchOutput (ret : Invocation → Int) (r : Int × Round) : Res (Int × Round) :=
  if r.1 = 0 then pure (0, r.2) else dispatchAll ret .write .handleOutput r.1 r.2

def dispatchIoHandlers (ret : Invocation → Int) (activeHandles : Int) (d : Round) :
    Res (Int × Round) := do
  let r ← dispatchAll ret .read .handleInput activeHandles d
  let r ← dispatchOutput ret r
  dispatchErrors ret r

end Round

/-! ## Registered entries -/

/-- `handle_input` and `handle_output`. -/
def callbackOf : Interest → Callback
  | .read => .handleInput
  | .write => .handleOutput

/-- The entry is the registration of one event of a connection, and `revents` marks nothing else. -/
structure Registered (d : Round) (h : HandlerId) (i : Interest) (pfd : PollFd) : Prop where
  events_eq : pfd.events = pollEvent (eventOf i)
  revents_eq : pfd.revents = 0 ∨ pfd.revents = pfd.events
  bound : d.reactor.demuxTable.getHandler pfd.fd (eventOf i) = some h
  handle_eq : (d.connections h).handle = pfd.fd
  hasStream : (d.connections h).hasStream = true
  enabled : (d.connections h).enabled i = true

/-- One entry per registered event. -/
structure Sound (handler : PollFd → HandlerId) (d : Round) : Prop where
  distinct : (d.reactor.waitPfds.map fun pfd => (pfd.fd, pfd.events)).Nodup
  registered : ∀ pfd ∈ d.reactor.waitPfds, ∃ i, Registered d (handler pfd) i pfd

/-- The entry is ready for this event. -/
def isReady (i : Interest) (pfd : PollFd) : Bool := pfd.revents &&& (eventOf i).value ≠ 0

def invocationOf (handler : PollFd → HandlerId) (i : Interest) (pfd : PollFd) : Invocation :=
  ⟨handler pfd, callbackOf i, pfd.fd⟩

/-- The callback of the entry returns a negative number. -/
def fails (ret : Invocation → Int) (handler : PollFd → HandlerId) (i : Interest) (pfd : PollFd) :
    Bool :=
  ret (invocationOf handler i pfd) < 0

theorem pollEvent_and_value (i j : Interest) :
    pollEvent (eventOf i) &&& (eventOf j).value ≠ 0 ↔ i = j := by
  cases i <;> cases j <;> decide

theorem pollEvent_and (i j : Interest) :
    pollEvent (eventOf i) &&& pollEvent (eventOf j) ≠ 0 ↔ i = j := by
  cases i <;> cases j <;> decide

section Registrations
variable {d : Round} {h : HandlerId} {i j : Interest} {pfd : PollFd} {handler : PollFd → HandlerId}

theorem Registered.isReady_iff (hreg : Registered d h i pfd) (j : Interest) :
    isReady j pfd = true ↔ pfd.revents ≠ 0 ∧ i = j := by
  rw [isReady, decide_eq_true_iff]
  rcases hreg.revents_eq with hzero | hown
  · simp [hzero]
  · rw [hown, hreg.events_eq, pollEvent_and_value]
    refine ⟨fun heq => ⟨?_, heq⟩, And.right⟩
    cases i <;> decide

theorem Registered.not_error (hreg : Registered d h i pfd) :
    pfd.revents &&& EventType.accept.value = 0 := by
  rcases hreg.revents_eq with hzero | hown
  · rw [hzero]
    decide
  · rw [hown, hreg.events_eq]
    cases i <;> decide

theorem Registered.waitsFor_iff (hreg : Registered d h i pfd) (fd : Int) (j : Interest) :
    PollFd.waitsFor fd (eventOf j) pfd = true ↔ pfd.fd = fd ∧ i = j := by
  rw [PollFd.waitsFor, decide_eq_true_iff, hreg.events_eq, pollEvent_and]

/-- An entry is determined by its handle and its event. -/
theorem Sound.eq_of_same (hd : Sound handler d) {p q : PollFd} (hp : p ∈ d.reactor.waitPfds)
    (hq : q ∈ d.reactor.waitPfds) (hregp : Registered d (handler p) i p)
    (hregq : Registered d (handler q) i q) (hfd : p.fd = q.fd) : p = q := by
  apply List.inj_on_of_nodup_map hd.distinct hp hq
  rw [hfd, hregp.events_eq, hregq.events_eq]

end Registrations

/-! ## Closing a half -/

theorem find?_eraseP {α : Type} {p q : α → Bool} (hpq : ∀ a, p a = true → q a = false)
    (l : List α) : (l.eraseP p).find? q = l.find? q := by
  induction l with
  | nil => rfl
  | cons a l ih =>
      by_cases ha : p a = true
      · rw [List.eraseP_cons_of_pos ha, List.find?_cons_of_neg (by simp [hpq a ha])]
      · rw [List.eraseP_cons_of_neg ha, List.find?_cons, List.find?_cons, ih]

theorem matching_other {i j : Interest} (hne : i ≠ j) (event : EventType)
    (hmatch : EventRepo.matching (eventOf i) event = true) :
    EventRepo.matching (eventOf j) event = false := by
  cases i <;> cases j <;> cases event <;> simp_all [eventOf, EventRepo.matching]

/-- Taking out one event of a handle leaves all others. -/
theorem getHandler_erased {t : DemultiplexTable} {fd fd' : Int} {i j : Interest} {r : EventRepo}
    (hr : t[fd.toNat]? = some r) (hfd : 0 ≤ fd) (hother : fd' ≠ fd ∨ i ≠ j) :
    DemultiplexTable.getHandler fd' (eventOf j)
        (t.set fd.toNat (r.eraseP fun e => EventRepo.matching (eventOf i) e.1)) =
      t.getHandler fd' (eventOf j) := by
  unfold DemultiplexTable.getHandler
  split
  · rfl
  · next hneg =>
      by_cases hsame : fd' = fd
      · subst hsame
        have hij : i ≠ j := hother.resolve_left fun h => h rfl
        have hlt := (List.getElem?_eq_some_iff.mp hr).1
        rw [List.getElem?_set_self hlt, hr]
        dsimp only
        rw [EventRepo.getHandler, EventRepo.getHandler,
          find?_eraseP (fun e he => matching_other hij e.1 he)]
      · have hne : fd.toNat ≠ fd'.toNat := by omega
        rw [List.getElem?_set_ne hne]

section Close
variable {d : Round} {i : Interest} {pfd : PollFd} {handler : PollFd → HandlerId}
  {pre rest : List PollFd}

/-- The entry that is erased is the one that is closed. -/
theorem Sound.eraseP_eq (hd : Sound handler d) (hlist : d.reactor.waitPfds = pre ++ pfd :: rest)
    (hreg : Registered d (handler pfd) i pfd) :
    d.reactor.waitPfds.eraseP (PollFd.waitsFor pfd.fd (eventOf i)) = pre ++ rest := by
  have hmem : pfd ∈ d.reactor.waitPfds := by simp [hlist]
  have hnodup : (pre ++ pfd :: rest).Nodup := hlist ▸ List.Nodup.of_map _ hd.distinct
  have hpre : ∀ q ∈ pre, ¬ PollFd.waitsFor pfd.fd (eventOf i) q = true := by
    intro q hq hwaits
    have hqmem : q ∈ d.reactor.waitPfds := by simp [hlist, hq]
    obtain ⟨j, hregq⟩ := hd.registered q hqmem
    obtain ⟨hfd, rfl⟩ := (hregq.waitsFor_iff _ _).mp hwaits
    have heq := hd.eq_of_same hqmem hmem hregq hreg hfd
    subst heq
    have hdisjoint := List.disjoint_of_nodup_append hnodup
    exact hdisjoint hq List.mem_cons_self
  rw [hlist, List.eraseP_append_right _ hpre,
    List.eraseP_cons_of_pos ((hreg.waitsFor_iff _ _).mpr ⟨rfl, rfl⟩)]

/-- A connection whose flag for one event is taken down. -/
def Round.takeDown (i : Interest) (h : HandlerId) (reactor : PollReactorImpl) (d : Round) : Round :=
  { d with
    reactor
    connections := Function.update d.connections h
      { d.connections h with enabled := Function.update (d.connections h).enabled i false } }

theorem takeDown_handle (h g : HandlerId) (reactor : PollReactorImpl) :
    ((d.takeDown i h reactor).connections g).handle = (d.connections g).handle := by
  by_cases hg : g = h
  · subst hg
    simp [Round.takeDown]
  · simp [Round.takeDown, Function.update_of_ne hg]

theorem takeDown_hasStream (h g : HandlerId) (reactor : PollReactorImpl) :
    ((d.takeDown i h reactor).connections g).hasStream = (d.connections g).hasStream := by
  by_cases hg : g = h
  · subst hg
    simp [Round.takeDown]
  · simp [Round.takeDown, Function.update_of_ne hg]

theorem takeDown_enabled {h g : HandlerId} {j : Interest} (reactor : PollReactorImpl)
    (hother : g ≠ h ∨ j ≠ i) :
    ((d.takeDown i h reactor).connections g).enabled j = (d.connections g).enabled j := by
  by_cases hg : g = h
  · subst hg
    have hj : j ≠ i := hother.resolve_left fun hne => hne rfl
    simp [Round.takeDown, Function.update_of_ne hj]
  · simp [Round.takeDown, Function.update_of_ne hg]

/-- The other entries are as registered as before. -/
theorem Registered.takeDown {j : Interest} {q : PollFd} (hreg : Registered d (handler pfd) i pfd)
    (hregq : Registered d (handler q) j q) (hother : q.fd ≠ pfd.fd ∨ i ≠ j)
    {reactor : PollReactorImpl} (hbound : reactor.demuxTable.getHandler q.fd (eventOf j) =
      d.reactor.demuxTable.getHandler q.fd (eventOf j)) :
    Registered (d.takeDown i (handler pfd) reactor) (handler q) j q where
  events_eq := hregq.events_eq
  revents_eq := hregq.revents_eq
  bound := hbound.trans hregq.bound
  handle_eq := by rw [takeDown_handle, hregq.handle_eq]
  hasStream := by rw [takeDown_hasStream, hregq.hasStream]
  enabled := by
    -- a handler has one handle, so another entry of it is for the other event
    have hflag : handler q ≠ handler pfd ∨ j ≠ i := by
      by_contra hnot
      simp only [not_or, not_not] at hnot
      have hsame : q.fd = pfd.fd := by rw [← hregq.handle_eq, hnot.1, hreg.handle_eq]
      exact hother.elim (fun hne => hne hsame) (fun hne => hne hnot.2.symm)
    rw [takeDown_enabled reactor hflag, hregq.enabled]

theorem closeHalf_spec (hd : Sound handler d) (hlist : d.reactor.waitPfds = pre ++ pfd :: rest)
    (hreg : Registered d (handler pfd) i pfd) :
    ∃ d', d.closeHalf i (handler pfd) = .ok d' ∧ d'.log = d.log ∧
      d'.reactor.waitPfds = pre ++ rest ∧ Sound handler d' := by
  obtain ⟨r, hr, hunreg⟩ := PollReactorImpl.unregisterHandler_bound hreg.bound
  have hfd : 0 ≤ pfd.fd := by
    by_contra hneg
    have hbound := hreg.bound
    rw [DemultiplexTable.getHandler, if_pos (by omega)] at hbound
    cases hbound
  rw [hd.eraseP_eq hlist hreg] at hunreg
  have hclose : d.closeHalf i (handler pfd) = .ok (d.takeDown i (handler pfd)
      ⟨pre ++ rest, d.reactor.demuxTable.set pfd.fd.toNat
        (r.eraseP fun e => EventRepo.matching (eventOf i) e.1)⟩) := by
    rw [Round.closeHalf, Round.takeDown]
    simp only [hreg.hasStream, hreg.enabled, hreg.handle_eq, hunreg, ok_bind, if_true,
      Bool.true_eq_false, if_false, pure_eq_ok]
  refine ⟨_, hclose, rfl, rfl, ?_⟩
  have hsub : (pre ++ rest).Sublist d.reactor.waitPfds := by
    rw [hlist]
    exact (List.Sublist.refl pre).append (List.sublist_cons_self pfd rest)
  constructor
  · exact hd.distinct.sublist (hsub.map _)
  · intro q hq
    have hqmem : q ∈ d.reactor.waitPfds := hsub.subset hq
    obtain ⟨j, hregq⟩ := hd.registered q hqmem
    -- an entry that stays is one of another handle or of the other event
    have hother : q.fd ≠ pfd.fd ∨ i ≠ j := by
      by_contra hnot
      simp only [not_or, not_not] at hnot
      obtain ⟨hsame, rfl⟩ := hnot
      have heq := hd.eq_of_same hqmem (by simp [hlist]) hregq hreg hsame
      subst heq
      have hnodup : (pre ++ q :: rest).Nodup := hlist ▸ List.Nodup.of_map _ hd.distinct
      exact (List.nodup_middle.mp hnodup).notMem hq
    exact ⟨j, hreg.takeDown hregq hother (getHandler_erased hr hfd hother)⟩

end Close

/-! ## What a part of a round does -/

/-- A callback that serves an entry. -/
def Serving (inv : Invocation) : Prop :=
  inv.callback = .handleInput ∨ inv.callback = .handleOutput

/-- How often `handle_close` has been called for a handle. -/
def closes (fd : Int) (log : List Invocation) : Nat :=
  log.countP fun inv => inv.callback = .handleClose ∧ inv.fd = fd

/-- The last entry of the handle has disappeared. -/
def Lost (before after : List PollFd) (fd : Int) : Prop :=
  fd ∈ before.map PollFd.fd ∧ fd ∉ after.map PollFd.fd

instance decidableLost (before after : List PollFd) (fd : Int) : Decidable (Lost before after fd) :=
  inferInstanceAs (Decidable (_ ∧ _))

/-- Entries only go, these callbacks are invoked, and `handle_close` is called for every handle that
has lost its last entry. -/
structure Effect (d d' : Round) (invocations : List Invocation) : Prop where
  sublist : d'.reactor.waitPfds.Sublist d.reactor.waitPfds
  serves : ∀ inv, Serving inv → d'.log.count inv = d.log.count inv + invocations.count inv
  closes_eq : ∀ fd, closes fd d'.log =
    closes fd d.log + if Lost d.reactor.waitPfds d'.reactor.waitPfds fd then 1 else 0

theorem effect_refl (d : Round) : Effect d d [] where
  sublist := List.Sublist.refl _
  serves inv _ := by simp
  closes_eq fd := by simp [Lost]

theorem Effect.trans {d₁ d₂ d₃ : Round} {l₁ l₂ : List Invocation} (h₁ : Effect d₁ d₂ l₁)
    (h₂ : Effect d₂ d₃ l₂) : Effect d₁ d₃ (l₁ ++ l₂) where
  sublist := h₂.sublist.trans h₁.sublist
  serves inv hinv := by
    rw [h₂.serves inv hinv, h₁.serves inv hinv, List.count_append, Nat.add_assoc]
  closes_eq fd := by
    have hsub₁ : fd ∈ d₂.reactor.waitPfds.map PollFd.fd → fd ∈ d₁.reactor.waitPfds.map PollFd.fd :=
      fun h => (h₁.sublist.map _).subset h
    have hsub₂ : fd ∈ d₃.reactor.waitPfds.map PollFd.fd → fd ∈ d₂.reactor.waitPfds.map PollFd.fd :=
      fun h => (h₂.sublist.map _).subset h
    rw [h₂.closes_eq, h₁.closes_eq, Nat.add_assoc]
    simp only [Lost]
    grind

theorem Sound.congr {handler : PollFd → HandlerId} {d d' : Round} (hd : Sound handler d)
    (hreactor : d'.reactor = d.reactor) (hconnections : d'.connections = d.connections) :
    Sound handler d' where
  distinct := by
    rw [hreactor]
    exact hd.distinct
  registered := by
    intro pfd hpfd
    rw [hreactor] at hpfd
    obtain ⟨i, hreg⟩ := hd.registered pfd hpfd
    refine ⟨i, hreg.events_eq, hreg.revents_eq, ?_, ?_, ?_, ?_⟩
    · rw [hreactor]
      exact hreg.bound
    all_goals rw [hconnections]
    · exact hreg.handle_eq
    · exact hreg.hasStream
    · exact hreg.enabled

section Entries
variable {ret : Invocation → Int} {d : Round} {i : Interest} {pfd : PollFd}
  {handler : PollFd → HandlerId} {pre rest : List PollFd}

/-- Of an entry that is ready for an event, that event is its own. -/
theorem Sound.registered_of_ready (hd : Sound handler d) (hmem : pfd ∈ d.reactor.waitPfds)
    (hready : isReady i pfd = true) : Registered d (handler pfd) i pfd := by
  obtain ⟨j, hreg⟩ := hd.registered pfd hmem
  obtain ⟨-, rfl⟩ := (hreg.isReady_iff i).mp hready
  exact hreg

/-- `close_read` and `close_write`. -/
def closeOf : Interest → Callback
  | .read => .closeRead
  | .write => .closeWrite

theorem closeAfter_eventOf (h : HandlerId) (fd : Int) (i : Interest) (d : Round) :
    d.closeAfter h fd (eventOf i) = (d.invoke ⟨h, closeOf i, fd⟩).closeHalf i h := by
  cases i <;> rfl

theorem callbackOf_ne_handleClose (i : Interest) : callbackOf i ≠ .handleClose := by
  cases i <;> decide

theorem closeOf_ne_handleClose (i : Interest) : closeOf i ≠ .handleClose := by
  cases i <;> decide

/-- A callback that does not fail: its entry stays. -/
theorem dispatchEntry_keeps (hd : Sound handler d)
    (hlist : d.reactor.waitPfds = pre ++ pfd :: rest) (hready : isReady i pfd = true)
    (hret : fails ret handler i pfd = false) :
    Round.dispatchEntry ret (eventOf i) (callbackOf i) pfd.fd d =
      .ok (d.invoke (invocationOf handler i pfd)) := by
  have hreg := hd.registered_of_ready (by simp [hlist]) hready
  have hret' : ¬ ret (invocationOf handler i pfd) < 0 := by simpa [fails] using hret
  have hcall : d.callAndClose ret (eventOf i) ⟨handler pfd, callbackOf i, pfd.fd⟩ =
      .ok (d.invoke (invocationOf handler i pfd)) := if_neg hret'
  have hstays : ((d.invoke (invocationOf handler i pfd)).reactor.waitPfds.any
      fun q => q.fd = pfd.fd) = true := by
    show (d.reactor.waitPfds.any fun q => q.fd = pfd.fd) = true
    simp [hlist]
  rw [Round.dispatchEntry, hreg.bound]
  simp only [hcall, ok_bind, hstays, if_true, pure_eq_ok]

/-- A callback that fails: its entry goes, and if it was the last one of the handle `handle_close`
is called. -/
theorem dispatchEntry_erases (hd : Sound handler d)
    (hlist : d.reactor.waitPfds = pre ++ pfd :: rest) (hready : isReady i pfd = true)
    (hret : fails ret handler i pfd = true) :
    ∃ d', Round.dispatchEntry ret (eventOf i) (callbackOf i) pfd.fd d = .ok d' ∧ Sound handler d' ∧
      d'.reactor.waitPfds = pre ++ rest ∧
      d'.log = d.log ++ [invocationOf handler i pfd, ⟨handler pfd, closeOf i, pfd.fd⟩] ++
        if pfd.fd ∈ (pre ++ rest).map PollFd.fd then []
        else [⟨handler pfd, .handleClose, pfd.fd⟩] := by
  have hreg := hd.registered_of_ready (by simp [hlist]) hready
  have hret' : ret (invocationOf handler i pfd) < 0 := by simpa [fails] using hret
  have hcalled : Sound handler ((d.invoke (invocationOf handler i pfd)).invoke
      ⟨handler pfd, closeOf i, pfd.fd⟩) := hd.congr rfl rfl
  obtain ⟨d₁, hclose, hlog, hwait, hd₁⟩ :=
    closeHalf_spec hcalled hlist (hcalled.registered_of_ready (by simp [Round.invoke, hlist]) hready)
  have hcall : d.callAndClose ret (eventOf i) ⟨handler pfd, callbackOf i, pfd.fd⟩ = .ok d₁ := by
    show d.callAndClose ret (eventOf i) (invocationOf handler i pfd) = .ok d₁
    rw [Round.callAndClose, if_pos hret', closeAfter_eventOf]
    exact hclose
  have hany : (d₁.reactor.waitPfds.any fun q => q.fd = pfd.fd) = true ↔
      pfd.fd ∈ (pre ++ rest).map PollFd.fd := by
    simp [hwait, List.any_eq_true]
  rw [Round.dispatchEntry, hreg.bound]
  simp only [hcall, ok_bind, pure_eq_ok, hany]
  by_cases hmore : pfd.fd ∈ (pre ++ rest).map PollFd.fd
  · rw [if_pos hmore, if_pos hmore]
    refine ⟨d₁, rfl, hd₁, hwait, ?_⟩
    rw [hlog]
    simp [Round.invoke]
  · rw [if_neg hmore, if_neg hmore]
    refine ⟨_, rfl, hd₁.congr rfl rfl, hwait, ?_⟩
    rw [Round.invoke, hlog]
    simp [Round.invoke]

theorem lost_erased_iff (pre rest : List PollFd) (pfd : PollFd) (fd : Int) :
    Lost (pre ++ pfd :: rest) (pre ++ rest) fd ↔
      pfd.fd = fd ∧ pfd.fd ∉ (pre ++ rest).map PollFd.fd := by
  simp only [Lost, List.map_append, List.map_cons, List.mem_append, List.mem_cons]
  grind

/-- What it means that an entry is served and stays. -/
theorem effect_kept (d : Round) (handler : PollFd → HandlerId) (i : Interest) (pfd : PollFd) :
    Effect d (d.invoke (invocationOf handler i pfd)) [invocationOf handler i pfd] where
  sublist := List.Sublist.refl _
  serves inv _ := List.count_append
  closes_eq fd := by
    have hcallback := callbackOf_ne_handleClose i
    simp [closes, Round.invoke, invocationOf, hcallback, Lost]

/-- What it means that an entry is served and erased. -/
theorem effect_erased {d' : Round} (hlist : d.reactor.waitPfds = pre ++ pfd :: rest)
    (hwait : d'.reactor.waitPfds = pre ++ rest)
    (hlog : d'.log = d.log ++ [invocationOf handler i pfd, ⟨handler pfd, closeOf i, pfd.fd⟩] ++
      if pfd.fd ∈ (pre ++ rest).map PollFd.fd then []
      else [⟨handler pfd, .handleClose, pfd.fd⟩]) :
    Effect d d' [invocationOf handler i pfd] where
  sublist := by
    rw [hwait, hlist]
    exact (List.Sublist.refl pre).append (List.sublist_cons_self pfd rest)
  serves inv hinv := by
    have hclose : inv ≠ ⟨handler pfd, closeOf i, pfd.fd⟩ := by
      rintro rfl
      cases i <;> simp [Serving, closeOf] at hinv
    have hlast : inv ≠ ⟨handler pfd, .handleClose, pfd.fd⟩ := by
      rintro rfl
      simp [Serving] at hinv
    rw [hlog]
    split
    · simp [List.count_append, List.count_cons, hclose.symm]
    · simp [List.count_append, List.count_cons, hclose.symm, hlast.symm]
  closes_eq fd := by
    have hcallback := callbackOf_ne_handleClose i
    have hhalf := closeOf_ne_handleClose i
    rw [hlog, hlist, hwait, closes, List.countP_append, List.countP_append]
    by_cases hmore : pfd.fd ∈ (pre ++ rest).map PollFd.fd
    · have hnot : ¬ Lost (pre ++ pfd :: rest) (pre ++ rest) fd := fun hlost =>
        ((lost_erased_iff pre rest pfd fd).mp hlost).2 hmore
      rw [if_pos hmore]
      simp [closes, invocationOf, hcallback, hhalf, hnot]
    · have hlost : Lost (pre ++ pfd :: rest) (pre ++ rest) fd ↔ pfd.fd = fd := by
        rw [lost_erased_iff]
        exact and_iff_left hmore
      rw [if_neg hmore]
      simp [closes, invocationOf, hcallback, hhalf, hlost]

/-- **One entry.** -/
theorem dispatchEntry_spec (ret : Invocation → Int) (hd : Sound handler d)
    (hlist : d.reactor.waitPfds = pre ++ pfd :: rest) (hready : isReady i pfd = true) :
    ∃ d', Round.dispatchEntry ret (eventOf i) (callbackOf i) pfd.fd d = .ok d' ∧ Sound handler d' ∧
      d'.reactor.waitPfds = (if fails ret handler i pfd = true then pre ++ rest
        else pre ++ pfd :: rest) ∧
      Effect d d' [invocationOf handler i pfd] := by
  cases hret : fails ret handler i pfd with
  | false =>
      exact ⟨_, dispatchEntry_keeps hd hlist hready hret, hd.congr rfl rfl, hlist,
        effect_kept d handler i pfd⟩
  | true =>
      obtain ⟨d', hok, hd', hwait, hlog⟩ := dispatchEntry_erases hd hlist hready hret
      exact ⟨d', hok, hd', hwait, effect_erased hlist hwait hlog⟩

end Entries

/-! ## One walk -/

/-- What a walk through `rest`, which stands behind `pre`, does. -/
structure Walked (ret : Invocation → Int) (handler : PollFd → HandlerId) (i : Interest) (skip : Bool)
    (pre rest : List PollFd) (d d' : Round) : Prop where
  sound : Sound handler d'
  wait_eq : d'.reactor.waitPfds = pre ++ kept (isReady i) (fails ret handler i) skip rest
  effect : Effect d d' ((served (isReady i) (fails ret handler i) skip rest).map
    (invocationOf handler i))

section Walks
variable (ret : Invocation → Int) {d d₁ d' : Round} {i : Interest} {handler : PollFd → HandlerId}
  {pfd : PollFd} {pre rest : List PollFd}

variable {ret} in
theorem Walked.passed (h : Walked ret handler i false (pre ++ [pfd]) rest d d') :
    Walked ret handler i true pre (pfd :: rest) d d' := by
  refine ⟨h.sound, ?_, h.effect⟩
  rw [h.wait_eq, kept, List.append_assoc]
  rfl

variable {ret} in
theorem Walked.notReady (h : Walked ret handler i false (pre ++ [pfd]) rest d d')
    (hready : isReady i pfd = false) : Walked ret handler i false pre (pfd :: rest) d d' := by
  have hnot : ¬ (isReady i pfd = true ∧ fails ret handler i pfd = true) := by simp [hready]
  refine ⟨h.sound, ?_, ?_⟩
  · rw [h.wait_eq, kept, if_neg hnot, List.append_assoc]
    rfl
  · rw [served, if_neg (by simp [hready])]
    exact h.effect

variable {ret} in
/-- An entry that is served, and what comes after it. -/
theorem Walked.ready (hready : isReady i pfd = true)
    (heffect : Effect d d₁ [invocationOf handler i pfd])
    (h : Walked ret handler i (fails ret handler i pfd)
      (if fails ret handler i pfd = true then pre else pre ++ [pfd]) rest d₁ d') :
    Walked ret handler i false pre (pfd :: rest) d d' := by
  refine ⟨h.sound, ?_, ?_⟩
  · rw [h.wait_eq, kept]
    cases hret : fails ret handler i pfd with
    | true => rw [if_pos rfl, if_pos ⟨hready, rfl⟩]
    | false =>
        rw [if_neg (by simp), if_neg (by simp), List.append_assoc]
        rfl
  · rw [served, if_pos hready]
    exact heffect.trans h.effect

/-- Where nothing is ready. -/
theorem Walked.idle (i : Interest) (skip : Bool) (hd : Sound handler d)
    (hlist : d.reactor.waitPfds = pre ++ rest) (hnone : (rest.filter (isReady i)).length = 0) :
    served (isReady i) (fails ret handler i) skip rest = [] ∧
      Walked ret handler i skip pre rest d d := by
  have hall : ∀ q ∈ rest, isReady i q = false := by
    have hnil := List.eq_nil_of_length_eq_zero hnone
    simpa using List.filter_eq_nil_iff.mp hnil
  obtain ⟨hserved, hkept⟩ := walk_idle (fails ret handler i) hall skip
  refine ⟨hserved, hd, ?_, ?_⟩
  · rw [hkept, hlist]
  · rw [hserved]
    exact effect_refl d

/-- **A walk** from the entries `pre` on, if the budget covers all entries that are ready. After an
entry has been erased, the index is one further than the entries that have been passed. -/
theorem dispatchIoSets_spec (skip : Bool) (pre rest : List PollFd) (hd : Sound handler d)
    (hlist : d.reactor.waitPfds = pre ++ rest) (index fuel : Nat)
    (hindex : index = pre.length + skip.toNat) (hfuel : rest.length < fuel) (active : Int)
    (hactive : ((rest.filter (isReady i)).length : Int) ≤ active) :
    ∃ d', Round.dispatchIoSets ret (eventOf i) (callbackOf i) fuel index active d =
        .ok (active - (served (isReady i) (fails ret handler i) skip rest).length, d') ∧
      Walked ret handler i skip pre rest d d' := by
  induction rest generalizing d skip pre index fuel active with
  | nil =>
      obtain ⟨fuel, rfl⟩ : ∃ n, fuel = n + 1 := ⟨fuel - 1, by omega⟩
      have hend : d.reactor.waitPfds[index]? = none := by
        rw [hlist, List.getElem?_eq_none_iff, hindex]
        simp
      obtain ⟨hserved, hwalked⟩ := Walked.idle ret i skip hd hlist rfl
      refine ⟨d, ?_, hwalked⟩
      rw [Round.dispatchIoSets, hend, hserved]
      simp
  | cons pfd rest ih =>
      obtain ⟨fuel, rfl⟩ : ∃ n, fuel = n + 1 := ⟨fuel - 1, by omega⟩
      rw [List.length_cons] at hfuel
      cases skip with
      | true =>
          -- the entry has moved under the index, and the index goes on
          have hle := ((List.sublist_cons_self pfd rest).filter (isReady i)).length_le
          obtain ⟨d', hok, hwalked⟩ := ih false (pre ++ [pfd]) hd (by simpa using hlist)
            index (fuel + 1) (by simpa using hindex) (by omega) active (by omega)
          exact ⟨d', hok, hwalked.passed⟩
      | false =>
          have hget : d.reactor.waitPfds[index]? = some pfd := by
            rw [hlist, hindex]
            simp
          rw [Round.dispatchIoSets, hget]
          dsimp only
          by_cases hbudget : active ≤ 0
          · -- nothing is ready any more
            obtain ⟨hserved, hwalked⟩ := Walked.idle ret i false hd hlist (by omega)
            refine ⟨d, ?_, hwalked⟩
            rw [if_pos hbudget, hserved]
            simp
          rw [if_neg hbudget]
          cases hready : isReady i pfd with
          | false =>
              have hbit : pfd.revents &&& (eventOf i).value = 0 := by simpa [isReady] using hready
              rw [if_pos hbit, served, if_neg (by simp [hready])]
              rw [List.filter_cons_of_neg (by simp [hready])] at hactive
              obtain ⟨d', hok, hwalked⟩ := ih false (pre ++ [pfd]) hd (by simpa using hlist)
                (index + 1) fuel (by simpa using hindex) (by omega) active hactive
              exact ⟨d', hok, hwalked.notReady hready⟩
          | true =>
              have hbit : pfd.revents &&& (eventOf i).value ≠ 0 := by simpa [isReady] using hready
              rw [if_neg hbit, served, if_pos hready]
              rw [List.filter_cons_of_pos hready, List.length_cons, Nat.cast_succ] at hactive
              have hcount : Sound handler { d with handlesDispatched := d.handlesDispatched + 1 } :=
                hd.congr rfl rfl
              obtain ⟨d₁, hone, hd₁, hwait₁, heffect₁⟩ := dispatchEntry_spec ret hcount hlist hready
              have hbefore : Effect d d₁ [invocationOf handler i pfd] :=
                ⟨heffect₁.sublist, heffect₁.serves, heffect₁.closes_eq⟩
              rw [hone, ok_bind]
              -- the walk goes on behind the entry, or where it has been
              have hlist₁ : d₁.reactor.waitPfds =
                  (if fails ret handler i pfd = true then pre else pre ++ [pfd]) ++ rest := by
                rw [hwait₁]
                split <;> simp
              have hindex₁ : index + 1 =
                  (if fails ret handler i pfd = true then pre else pre ++ [pfd]).length +
                    (fails ret handler i pfd).toNat := by
                cases hret : fails ret handler i pfd <;> simp [hindex]
              obtain ⟨d', hok, hwalked⟩ := ih (fails ret handler i pfd) _ hd₁ hlist₁ (index + 1) fuel
                hindex₁ (by omega) (active - 1) (by omega)
              refine ⟨d', ?_, hwalked.ready hready hbefore⟩
              rw [hok, List.length_cons, Nat.cast_succ, Int.sub_sub, Int.add_comm 1]

/-- The walk for errors finds nothing. -/
theorem dispatchIoSets_errors (hd : Sound handler d) (fuel index : Nat) (active : Int)
    (hfuel : d.reactor.waitPfds.length ≤ index + fuel) :
    Round.dispatchIoSets ret .accept .handleOutput (fuel + 1) index active d = .ok (active, d) := by
  induction fuel generalizing index with
  | zero =>
      have hend : d.reactor.waitPfds[index]? = none := List.getElem?_eq_none hfuel
      rw [Round.dispatchIoSets, hend]
      rfl
  | succ fuel ih =>
      rw [Round.dispatchIoSets]
      cases hget : d.reactor.waitPfds[index]? with
      | none => rfl
      | some pfd =>
          dsimp only
          obtain ⟨j, hreg⟩ := hd.registered pfd (List.mem_of_getElem? hget)
          rw [if_pos hreg.not_error, ih (index + 1) (by omega)]
          split <;> rfl

variable (i) in
theorem dispatchAll_spec (hd : Sound handler d) (active : Int)
    (hactive : ((d.reactor.waitPfds.filter (isReady i)).length : Int) ≤ active) :
    ∃ d', Round.dispatchAll ret (eventOf i) (callbackOf i) active d =
        .ok (active - (served (isReady i) (fails ret handler i) false d.reactor.waitPfds).length,
          d') ∧
      Walked ret handler i false [] d.reactor.waitPfds d d' :=
  dispatchIoSets_spec ret false [] d.reactor.waitPfds hd rfl 0 _ rfl (Nat.lt_succ_self _) active
    hactive

/-- A walk that is left out because there is no budget would have found nothing. -/
theorem dispatchOutput_spec (hd : Sound handler d) (active : Int)
    (hactive : ((d.reactor.waitPfds.filter (isReady .write)).length : Int) ≤ active) :
    ∃ r d', Round.dispatchOutput ret (active, d) = .ok (r, d') ∧
      Walked ret handler .write false [] d.reactor.waitPfds d d' := by
  rw [Round.dispatchOutput]
  dsimp only
  by_cases hzero : active = 0
  · obtain ⟨-, hwalked⟩ := Walked.idle ret .write false hd (List.nil_append _).symm (by omega)
    rw [if_pos hzero]
    exact ⟨0, d, rfl, hwalked⟩
  · obtain ⟨d', hok, hwalked⟩ := dispatchAll_spec ret .write hd active hactive
    rw [if_neg hzero]
    exact ⟨_, d', hok, hwalked⟩

theorem dispatchErrors_spec (hd : Sound handler d) (r : Int) :
    ∃ r', Round.dispatchErrors ret (r, d) = .ok (r', d) := by
  rw [Round.dispatchErrors]
  dsimp only
  split
  · exact ⟨0, rfl⟩
  · rw [Round.dispatchAll, dispatchIoSets_errors ret hd _ 0 1 (by omega), ok_bind]
    exact ⟨_, rfl⟩

end Walks

/-! ## A round -/

section Rounds
variable (ret : Invocation → Int) {d : Round} {handler : PollFd → HandlerId}

/-- What `poll` returns: the number of entries that are marked. -/
def readyCount (l : List PollFd) : Nat := l.countP fun pfd => pfd.revents ≠ 0

theorem readyCount_eq {l : List PollFd} (hl : ∀ pfd ∈ l, ∃ h i, Registered d h i pfd) :
    readyCount l = (l.filter (isReady .read)).length + (l.filter (isReady .write)).length := by
  induction l with
  | nil => rfl
  | cons pfd l ih =>
      obtain ⟨⟨h, i, hreg⟩, hrest⟩ := List.forall_mem_cons.mp hl
      have hlen := ih hrest
      have hread := hreg.isReady_iff .read
      have hwrite := hreg.isReady_iff .write
      rw [readyCount, List.countP_cons, ← readyCount, hlen, List.filter_cons, List.filter_cons]
      by_cases hzero : pfd.revents = 0
      · simp_all
      · cases i with
        | read =>
            have hr : isReady .read pfd = true := hread.mpr ⟨hzero, rfl⟩
            have hw : ¬ isReady .write pfd = true := fun h => by cases (hwrite.mp h).2
            simp [hr, hw, hzero]
            omega
        | write =>
            have hr : ¬ isReady .read pfd = true := fun h => by cases (hread.mp h).2
            have hw : isReady .write pfd = true := hwrite.mpr ⟨hzero, rfl⟩
            simp [hr, hw, hzero]
            omega

/-- **A round** is the walk for input and then the one for output, over what the first has left. -/
theorem dispatchIoHandlers_spec (hd : Sound handler d) :
    ∃ r d', Round.dispatchIoHandlers ret (readyCount d.reactor.waitPfds) d = .ok (r, d') ∧
      Effect d d'
        ((served (isReady .read) (fails ret handler .read) false d.reactor.waitPfds).map
            (invocationOf handler .read) ++
          (served (isReady .write) (fails ret handler .write) false
              (kept (isReady .read) (fails ret handler .read) false d.reactor.waitPfds)).map
            (invocationOf handler .write)) := by
  have hcount := readyCount_eq fun pfd hpfd => ⟨_, hd.registered pfd hpfd⟩
  have hserved := (served_sublist (isReady .read) (fails ret handler .read) false
    d.reactor.waitPfds).length_le
  obtain ⟨d₁, hinput, hwalked₁⟩ := dispatchAll_spec ret .read hd (readyCount d.reactor.waitPfds)
    (by omega)
  have hwait₁ : d₁.reactor.waitPfds =
      kept (isReady .read) (fails ret handler .read) false d.reactor.waitPfds := hwalked₁.wait_eq
  have hwrites := ((kept_sublist (isReady .read) (fails ret handler .read) false
    d.reactor.waitPfds).filter (isReady .write)).length_le
  rw [← hwait₁] at hwrites
  obtain ⟨r₂, d₂, houtput, hwalked₂⟩ := dispatchOutput_spec ret hwalked₁.sound
    (readyCount d.reactor.waitPfds -
      (served (isReady .read) (fails ret handler .read) false d.reactor.waitPfds).length) (by omega)
  obtain ⟨r₃, herrors⟩ := dispatchErrors_spec ret hwalked₂.sound r₂
  have heffect₂ := hwalked₂.effect
  rw [hwait₁] at heffect₂
  refine ⟨r₃, d₂, ?_, hwalked₁.effect.trans heffect₂⟩
  have hinput' : Round.dispatchAll ret .read .handleInput (readyCount d.reactor.waitPfds) d = _ :=
    hinput
  rw [Round.dispatchIoHandlers, hinput', ok_bind, houtput, ok_bind, herrors]

/-- Callbacks of different entries are different calls. -/
theorem count_invocationOf (hd : Sound handler d) {i : Interest} {l : List PollFd}
    (hl : l.Sublist (d.reactor.waitPfds.filter (isReady i))) {pfd : PollFd}
    (hmem : pfd ∈ d.reactor.waitPfds) (hready : isReady i pfd = true) :
    (l.map (invocationOf handler i)).count (invocationOf handler i pfd) =
      if pfd ∈ l then 1 else 0 := by
  have hinj : ∀ p ∈ d.reactor.waitPfds.filter (isReady i),
      ∀ q ∈ d.reactor.waitPfds.filter (isReady i),
      invocationOf handler i p = invocationOf handler i q → p = q := by
    intro p hp q hq heq
    obtain ⟨hp, hreadyp⟩ := List.mem_filter.mp hp
    obtain ⟨hq, hreadyq⟩ := List.mem_filter.mp hq
    exact hd.eq_of_same hp hq (hd.registered_of_ready hp hreadyp)
      (hd.registered_of_ready hq hreadyq) (congrArg Invocation.fd heq)
  have hnodup : l.Nodup := ((List.Nodup.of_map _ hd.distinct).filter _).sublist hl
  have hmap : (l.map (invocationOf handler i)).Nodup :=
    hnodup.map_on fun p hp q hq => hinj p (hl.subset hp) q (hl.subset hq)
  have hiff : invocationOf handler i pfd ∈ l.map (invocationOf handler i) ↔ pfd ∈ l := by
    constructor
    · intro h
      obtain ⟨q, hq, heq⟩ := List.mem_map.mp h
      rwa [← hinj q (hl.subset hq) pfd (List.mem_filter.mpr ⟨hmem, hready⟩) heq]
    · exact List.mem_map_of_mem
  rw [hmap.count]
  simp only [hiff]

theorem count_invocationOf_other {i j : Interest} (hne : i ≠ j) (l : List PollFd) (pfd : PollFd) :
    (l.map (invocationOf handler j)).count (invocationOf handler i pfd) = 0 := by
  rw [List.count_eq_zero]
  intro hmem
  obtain ⟨q, -, heq⟩ := List.mem_map.mp hmem
  have hcallback := congrArg Invocation.callback heq
  cases i <;> cases j <;> simp_all [invocationOf, callbackOf]

theorem serving_invocationOf (i : Interest) (pfd : PollFd) :
    Serving (invocationOf handler i pfd) := by
  cases i
  · exact Or.inl rfl
  · exact Or.inr rfl

end Rounds

/-- The round invokes the callback of every ready entry once, and calls `handle_close` for the
handles that have lost their last entry. -/
structure ServesAll (handler : PollFd → HandlerId) (d d' : Round) : Prop where
  once : ∀ i, ∀ pfd ∈ d.reactor.waitPfds, isReady i pfd = true →
    d'.log.count (invocationOf handler i pfd) = 1
  closed : ∀ fd, closes fd d'.log =
    if Lost d.reactor.waitPfds d'.reactor.waitPfds fd then 1 else 0

section Service
variable {ret : Invocation → Int} {d d' : Round} {handler : PollFd → HandlerId}

/-- An entry that is ready for output is not touched by the walk for input. -/
theorem mem_kept_of_write (ret : Invocation → Int) (hd : Sound handler d) {pfd : PollFd}
    (hmem : pfd ∈ d.reactor.waitPfds) (hready : isReady .write pfd = true) :
    pfd ∈ kept (isReady .read) (fails ret handler .read) false d.reactor.waitPfds := by
  apply mem_kept hmem
  rintro ⟨hread, -⟩
  have hreg := hd.registered_of_ready hmem hready
  cases ((hreg.isReady_iff .read).mp hread).2

/-- What a round has to serve, in terms of its two walks. -/
theorem servesAll_iff (hd : Sound handler d) (hlog : d.log = [])
    (heffect : Effect d d'
      ((served (isReady .read) (fails ret handler .read) false d.reactor.waitPfds).map
          (invocationOf handler .read) ++
        (served (isReady .write) (fails ret handler .write) false
            (kept (isReady .read) (fails ret handler .read) false d.reactor.waitPfds)).map
          (invocationOf handler .write))) :
    ServesAll handler d d' ↔
      (∀ pfd ∈ d.reactor.waitPfds, isReady .read pfd = true →
        pfd ∈ served (isReady .read) (fails ret handler .read) false d.reactor.waitPfds) ∧
      ∀ pfd ∈ kept (isReady .read) (fails ret handler .read) false d.reactor.waitPfds,
        isReady .write pfd = true →
        pfd ∈ served (isReady .write) (fails ret handler .write) false
          (kept (isReady .read) (fails ret handler .read) false d.reactor.waitPfds) := by
  have hkept := kept_sublist (isReady .read) (fails ret handler .read) false d.reactor.waitPfds
  have hcount : ∀ i pfd, d'.log.count (invocationOf handler i pfd) = _ := fun i pfd =>
    heffect.serves _ (serving_invocationOf i pfd)
  have hread : ∀ pfd ∈ d.reactor.waitPfds, isReady .read pfd = true →
      (d'.log.count (invocationOf handler .read pfd) = 1 ↔
        pfd ∈ served (isReady .read) (fails ret handler .read) false d.reactor.waitPfds) := by
    intro pfd hmem hready
    rw [hcount, hlog, List.count_append, count_invocationOf hd (served_sublist _ _ _ _) hmem hready,
      count_invocationOf_other (by decide)]
    simp
  have hwrite : ∀ pfd ∈ d.reactor.waitPfds, isReady .write pfd = true →
      (d'.log.count (invocationOf handler .write pfd) = 1 ↔
        pfd ∈ served (isReady .write) (fails ret handler .write) false
          (kept (isReady .read) (fails ret handler .read) false d.reactor.waitPfds)) := by
    intro pfd hmem hready
    rw [hcount, hlog, List.count_append, count_invocationOf_other (by decide),
      count_invocationOf hd ((served_sublist _ _ _ _).trans (hkept.filter _)) hmem hready]
    simp
  constructor
  · intro hall
    constructor
    · intro pfd hmem hready
      exact (hread pfd hmem hready).mp (hall.once _ pfd hmem hready)
    · intro pfd hmem hready
      exact (hwrite pfd (hkept.subset hmem) hready).mp (hall.once _ pfd (hkept.subset hmem) hready)
  · rintro ⟨hinput, houtput⟩
    constructor
    · intro i pfd hmem hready
      cases i with
      | read => exact (hread pfd hmem hready).mpr (hinput pfd hmem hready)
      | write =>
          apply (hwrite pfd hmem hready).mpr
          exact houtput pfd (mem_kept_of_write ret hd hmem hready) hready
    · intro fd
      rw [heffect.closes_eq, hlog]
      simp [closes]

end Service

/-- **Every ready entry is served** exactly when no entry that is ready stands directly behind one
whose callback fails: in `wait_pfds_` for input, and for output in what the input has left of it. -/
theorem dispatchIoHandlers_serves_iff (ret : Invocation → Int) (handler : PollFd → HandlerId)
    (d : Round) (hd : Sound handler d) (hlog : d.log = []) :
    (∃ r d', Round.dispatchIoHandlers ret (readyCount d.reactor.waitPfds) d = .ok (r, d') ∧
      ServesAll handler d d') ↔
    Undisturbed (isReady .read) (fails ret handler .read) d.reactor.waitPfds ∧
      Undisturbed (isReady .write) (fails ret handler .write)
        (d.reactor.waitPfds.filter fun pfd =>
          !(isReady .read pfd && fails ret handler .read pfd)) := by
  obtain ⟨r, d', hround, heffect⟩ := dispatchIoHandlers_spec ret hd
  have hexists : (∃ r d', Round.dispatchIoHandlers ret (readyCount d.reactor.waitPfds) d =
      .ok (r, d') ∧ ServesAll handler d d') ↔ ServesAll handler d d' := by
    constructor
    · rintro ⟨r₁, d₁, hround₁, hall⟩
      rw [hround] at hround₁
      cases hround₁
      exact hall
    · intro hall
      exact ⟨r, d', hround, hall⟩
  have hnodup : d.reactor.waitPfds.Nodup := List.Nodup.of_map _ hd.distinct
  have hkept := kept_sublist (isReady .read) (fails ret handler .read) false d.reactor.waitPfds
  rw [hexists, servesAll_iff hd hlog heffect, served_all_iff hnodup,
    served_all_iff (hnodup.sublist hkept)]
  refine and_congr_right fun hundisturbed => ?_
  rw [kept_of_undisturbed false (by simp) hundisturbed]

/-- Handler 1 reads from handle 5 and handler 2 from handle 6, and both are ready. -/
def twoReaders : Round where
  reactor := ⟨[⟨5, pollIn, pollIn⟩, ⟨6, pollIn, pollIn⟩],
    List.replicate 5 [] ++ [[(.read, 1)], [(.read, 2)]]⟩
  connections h := ⟨if h = 1 then 5 else 6, true, fun i => i = .read⟩
  handlesDispatched := 0
  log := []

def readerOf (pfd : PollFd) : HandlerId := if pfd.fd = 5 then 1 else 2

theorem twoReaders_sound : Sound readerOf twoReaders where
  distinct := by decide
  registered := by
    intro pfd hpfd
    rcases List.mem_cons.mp hpfd with rfl | hpfd
    · exact ⟨.read, rfl, Or.inr rfl, by decide, by decide, rfl, rfl⟩
    · obtain rfl := List.mem_singleton.mp hpfd
      exact ⟨.read, rfl, Or.inr rfl, by decide, by decide, rfl, rfl⟩

/-- The second one fails: there is nothing behind it. -/
theorem dispatchIoHandlers_serves_lastFails :
    Sound readerOf twoReaders ∧ twoReaders.log = [] ∧
      ∃ r d', Round.dispatchIoHandlers (fun inv => if inv.fd = 6 then -1 else 0)
        (readyCount twoReaders.reactor.waitPfds) twoReaders = .ok (r, d') ∧
        ServesAll readerOf twoReaders d' :=
  ⟨twoReaders_sound, rfl,
    (dispatchIoHandlers_serves_iff _ readerOf twoReaders twoReaders_sound rfl).mpr (by decide)⟩

/-- The first one fails: `handle_input` is not called for the second. -/
theorem second_reader_skipped :
    Sound readerOf twoReaders ∧ ¬ ∃ r d',
      Round.dispatchIoHandlers (fun inv => if inv.fd = 5 then -1 else 0)
        (readyCount twoReaders.reactor.waitPfds) twoReaders = .ok (r, d') ∧
        ServesAll readerOf twoReaders d' := by
  refine ⟨twoReaders_sound, ?_⟩
  rintro ⟨r, d', hround, hall⟩
  have honce := hall.once .read ⟨6, pollIn, pollIn⟩ (by decide) (by decide)
  cases hround
  revert honce
  decide

end Unp.Poll
