import Unp.Epoll.Bound
import Unp.Epoll.Epoller

/-!
# Dispatching ready events

`dispatch_io_handlers` walks through the ready events three times: for output, for input and for
errors. Each walk gets a budget and hands what is left of it to the next. The budget is the number
of ready descriptors, while a walk spends one unit on every event it dispatches; a descriptor that is
ready for output and for input costs two, and one input event at the end of the list is not
dispatched any more.

A callback may do anything: the state it works on is a parameter, of which the reactor sees its
table.
-/

namespace Unp.Epoll

open Unp.Machine

/-- The number behind the name. -/
def EventType.value : EventType → UInt32
  | .none => 0
  | .read => 1
  | .except => 2
  | .write => 4
  | .accept => 8
  | .timeout => 16
  | .signal => 32
  | .close => 64
  | .connect => 128

inductive Callback where
  | handleInput
  | handleOutput
  | closeRead
  | closeWrite
  | handleClose
  deriving Repr, DecidableEq

structure Invocation where
  handler : HandlerId
  callback : Callback
  fd : Handle
  deriving Repr, DecidableEq

/-- The program around the reactor: `demux_table_` is a part of its state, and a callback returns a
number and changes the state. -/
structure World (σ : Type) where
  table : σ → PollEventRepo
  call : Invocation → σ → Int × σ

/-- The state of the program, and what has been invoked. -/
structure Dispatching (σ : Type) where
  state : σ
  log : List Invocation

namespace World
variable {σ : Type} (w : World σ)

def invoke (inv : Invocation) (d : Dispatching σ) : Int × Dispatching σ :=
  let (ret, state) := w.call inv d.state
  (ret, ⟨state, d.log ++ [inv]⟩)

/-- `close_read` or `close_write`, after a callback has failed. -/
def closeAfter (h : HandlerId) (fd : Handle) (type : EventType) (d : Dispatching σ) :
    Dispatching σ :=
  match type with
  | .read => (w.invoke ⟨h, .closeRead, fd⟩ d).2
  | .write => (w.invoke ⟨h, .closeWrite, fd⟩ d).2
  | _ => d

/-- One round of the loop, for an event that has the bit. -/
def dispatchEvent (type : EventType) (callback : Callback) (fd : Handle) (d : Dispatching σ) :
    Dispatching σ :=
  match (w.table d.state).getHandler fd type with
  | none => d
  | some h =>
      let (ret, d) := w.invoke ⟨h, callback, fd⟩ d
      let d := if ret < 0 then w.closeAfter h fd type d else d
      if (w.table d.state).hasHandle fd then d else (w.invoke ⟨h, .handleClose, fd⟩ d).2

def dispatchIoEpollSets (activeHandles : Int) (type : EventType) (callback : Callback) :
    List EpollEvent → Int → Dispatching σ → Int × Dispatching σ
  | [], handlesDispatched, d => (activeHandles - handlesDispatched, d)
  | ev :: retEvents, handlesDispatched, d =>
      if activeHandles - handlesDispatched ≤ 0 then (activeHandles - handlesDispatched, d)
      else if ev.events &&& type.value = 0 then
        dispatchIoEpollSets activeHandles type callback retEvents handlesDispatched d
      else
        dispatchIoEpollSets activeHandles type callback retEvents (handlesDispatched + 1)
          (w.dispatchEvent type callback ev.fd d)

/-- `EPOLLOUT`, `EPOLLIN` and `EPOLLERR` are the numbers of `WRITE_EVENT`, `READ_EVENT` and
`ACCEPT_EVENT`. -/
def dispatchIoHandlers (activeHandles : Int) (retEvents : List EpollEvent) (d : Dispatching σ) :
    Int × Dispatching σ :=
  let (remain, d) := w.dispatchIoEpollSets activeHandles .write .handleOutput retEvents 0 d
  let (remain, d) := w.dispatchIoEpollSets remain .read .handleInput retEvents 0 d
  if 0 < remain then w.dispatchIoEpollSets remain .accept .handleOutput retEvents 0 d
  else (remain, d)

/-! ## One walk -/

/-- Handlers are bound to all events of a type, and their callbacks return something that is not
negative and leave the table alone. -/
def Quiet (s : σ) (type : EventType) (callback : Callback) (events : List EpollEvent) : Prop :=
  ∀ ev ∈ events, ev.events &&& type.value ≠ 0 →
    ∃ h, (w.table s).getHandler ev.fd type = some h ∧ ∀ s', w.table s' = w.table s →
      0 ≤ (w.call ⟨h, callback, ev.fd⟩ s').1 ∧ w.table (w.call ⟨h, callback, ev.fd⟩ s').2 = w.table s

/-- The invocation for an event. -/
def invocationOf (s : σ) (type : EventType) (callback : Callback) (ev : EpollEvent) : Invocation :=
  ⟨((w.table s).getHandler ev.fd type).getD 0, callback, ev.fd⟩

/-- The events that have the bit. -/
def withBit (type : EventType) (events : List EpollEvent) : List EpollEvent :=
  events.filter fun ev => ev.events &&& type.value ≠ 0

variable {w}

theorem hasHandle_of_getHandler {r : PollEventRepo} (hr : r.Indexed) {fd : Handle}
    {type : EventType} {h : HandlerId} (hbound : r.getHandler fd type = some h) :
    r.hasHandle fd = true := by
  have hargs : ¬ (fd = invalidHandle ∨ type = .none) := by
    intro hargs
    rw [PollEventRepo.getHandler, if_pos hargs] at hbound
    cases hbound
  rw [not_or] at hargs
  rw [PollEventRepo.getHandler_eq hargs.1 hargs.2] at hbound
  have hmem := PollEventRepo.mem_of_lookup hbound
  exact decide_eq_true ((hr.mem_iff fd).mpr (PollEventRepo.ne_empty_of_mem hmem))

/-- A quiet callback is invoked once, and nothing else is. -/
theorem dispatchEvent_quiet {s : σ} {d : Dispatching σ} {type : EventType} {callback : Callback}
    {ev : EpollEvent} {events : List EpollEvent} (hindexed : (w.table s).Indexed)
    (htable : w.table d.state = w.table s) (hquiet : w.Quiet s type callback events)
    (hev : ev ∈ events) (hbit : ev.events &&& type.value ≠ 0) :
    (w.dispatchEvent type callback ev.fd d).log = d.log ++ [w.invocationOf s type callback ev] ∧
      w.table (w.dispatchEvent type callback ev.fd d).state = w.table s := by
  obtain ⟨h, hbound, hcall⟩ := hquiet ev hev hbit
  obtain ⟨hret, hsame⟩ := hcall d.state htable
  obtain ⟨ret, s', hc⟩ : ∃ ret s', w.call ⟨h, callback, ev.fd⟩ d.state = (ret, s') := ⟨_, _, rfl⟩
  rw [hc] at hret hsame
  have hinvoke : w.invoke ⟨h, callback, ev.fd⟩ d = (ret, ⟨s', d.log ++ [⟨h, callback, ev.fd⟩]⟩) := by
    rw [invoke, hc]
  have hhas : (w.table s').hasHandle ev.fd = true := by
    rw [show w.table s' = w.table s from hsame]
    exact hasHandle_of_getHandler hindexed hbound
  have heq : w.dispatchEvent type callback ev.fd d =
      ⟨s', d.log ++ [⟨h, callback, ev.fd⟩]⟩ := by
    unfold dispatchEvent
    rw [htable, hbound]
    simp only [hinvoke, if_neg (Int.not_lt.mpr hret), hhas, if_true]
  rw [heq, invocationOf, hbound]
  exact ⟨rfl, hsame⟩

/-- **A walk** with a budget of `k` dispatches the first `k` events that have the bit. -/
theorem dispatchIoEpollSets_quiet {s : σ} {type : EventType} {callback : Callback}
    (hindexed : (w.table s).Indexed) (active : Int) {events : List EpollEvent}
    (hquiet : w.Quiet s type callback events) (dispatched : Int) (k : Nat)
    (hk : active - dispatched = k) (d : Dispatching σ) (htable : w.table d.state = w.table s) :
    let r := w.dispatchIoEpollSets active type callback events dispatched d
    r.1 = ((k - (withBit type events).length : Nat) : Int) ∧
      r.2.log = d.log ++ ((withBit type events).take k).map (w.invocationOf s type callback) ∧
      w.table r.2.state = w.table s := by
  induction events generalizing dispatched k d with
  | nil =>
      refine ⟨?_, ?_, htable⟩
      · simpa [withBit, dispatchIoEpollSets] using hk
      · simp [withBit, dispatchIoEpollSets]
  | cons ev events ih =>
      have hrest : w.Quiet s type callback events :=
        fun ev hev => hquiet ev (List.mem_cons_of_mem _ hev)
      rw [dispatchIoEpollSets]
      by_cases hzero : active - dispatched ≤ 0
      · -- the budget is used up
        obtain rfl : k = 0 := by omega
        rw [if_pos hzero]
        refine ⟨by simpa using hk, by simp, htable⟩
      rw [if_neg hzero]
      by_cases hbit : ev.events &&& type.value = 0
      · -- an event without the bit costs nothing
        rw [if_pos hbit]
        have hwith : withBit type (ev :: events) = withBit type events := by
          rw [withBit, List.filter_cons_of_neg (by simp [hbit]), withBit]
        rw [hwith]
        exact ih hrest dispatched k hk d htable
      · rw [if_neg hbit]
        have hwith : withBit type (ev :: events) = ev :: withBit type events := by
          rw [withBit, List.filter_cons_of_pos (by simp [hbit]), withBit]
        obtain ⟨hlog, hsame⟩ :=
          dispatchEvent_quiet hindexed htable hquiet List.mem_cons_self hbit
        obtain ⟨j, rfl⟩ : ∃ j, k = j + 1 := ⟨k - 1, by omega⟩
        obtain ⟨hret, hlog', htable'⟩ := ih hrest (dispatched + 1) j (by omega) _ hsame
        refine ⟨?_, ?_, htable'⟩
        · rw [hret, hwith, List.length_cons, Nat.add_sub_add_right]
        · rw [hlog', hlog, hwith, List.take_succ_cons, List.map_cons, List.append_assoc]
          rfl

/-! ## All three walks -/

/-- How often a callback has been invoked for a descriptor. -/
def times (callback : Callback) (fd : Handle) (log : List Invocation) : Nat :=
  log.countP fun inv => inv.callback = callback ∧ inv.fd = fd

theorem times_append (callback : Callback) (fd : Handle) (l₁ l₂ : List Invocation) :
    times callback fd (l₁ ++ l₂) = times callback fd l₁ + times callback fd l₂ :=
  List.countP_append

theorem times_same (s : σ) (type : EventType) (callback : Callback) (fd : Handle)
    (events : List EpollEvent) :
    times callback fd (events.map (w.invocationOf s type callback)) =
      (events.map EpollEvent.fd).count fd := by
  rw [times, List.countP_map, List.count, List.countP_map]
  apply List.countP_congr
  intro ev _
  simp [invocationOf, Function.comp]

theorem times_other {callback callback' : Callback} (hne : callback' ≠ callback) (s : σ)
    (type : EventType) (fd : Handle) (events : List EpollEvent) :
    times callback fd (events.map (w.invocationOf s type callback')) = 0 := by
  rw [times, List.countP_eq_zero]
  intro inv hinv
  obtain ⟨ev, -, rfl⟩ := List.mem_map.mp hinv
  simp [invocationOf, hne]

/-- Descriptors are pairwise distinct, so an event is counted once where it is and not at all where
it is not. -/
theorem count_fd {ready events : List EpollEvent} (hnodup : (ready.map EpollEvent.fd).Nodup)
    (hsub : events.Sublist ready) {ev : EpollEvent} (hev : ev ∈ ready) :
    (events.map EpollEvent.fd).count ev.fd = if ev ∈ events then 1 else 0 := by
  rw [(hnodup.sublist (hsub.map _)).count]
  have hiff : ev.fd ∈ events.map EpollEvent.fd ↔ ev ∈ events := by
    constructor
    · intro hmem
      obtain ⟨ev', hev', hfd⟩ := List.mem_map.mp hmem
      rwa [← List.inj_on_of_nodup_map hnodup (hsub.subset hev') hev hfd]
    · exact List.mem_map_of_mem
  simp only [hiff]

/-- A mask over `EPOLLIN` and `EPOLLOUT` that is not empty. -/
def IoMask (mask : UInt32) : Prop :=
  mask = epollIn ∨ mask = epollOut ∨ mask = epollIn ||| epollOut

/-- An event counts once for every bit it has. -/
theorem length_withBit {ready : List EpollEvent} (hmasks : ∀ ev ∈ ready, IoMask ev.events) :
    (withBit .write ready).length + (withBit .read ready).length =
      ready.length + ready.countP fun ev => ev.events = epollIn ||| epollOut := by
  induction ready with
  | nil => rfl
  | cons ev ready ih =>
      obtain ⟨hmask, hrest⟩ := List.forall_mem_cons.mp hmasks
      have hlen := ih hrest
      rw [withBit, withBit] at hlen ⊢
      rw [List.filter_cons, List.filter_cons, List.countP_cons, List.length_cons]
      rcases hmask with hmask | hmask | hmask
      · rw [hmask, if_neg (by decide), if_pos (by decide), if_neg (by decide), List.length_cons]
        omega
      · rw [hmask, if_pos (by decide), if_neg (by decide), if_neg (by decide), List.length_cons]
        omega
      · rw [hmask, if_pos (by decide), if_pos (by decide), if_pos (by decide), List.length_cons,
          List.length_cons]
        omega

/-- `n` ready events: the descriptors are pairwise distinct, the masks are not empty, and every
descriptor has a handler for each of its bits. `Indexed` holds in all tables the reactor builds. -/
structure Ready (w : World σ) (s : σ) (ready : List EpollEvent) : Prop where
  distinct : (ready.map EpollEvent.fd).Nodup
  masks : ∀ ev ∈ ready, IoMask ev.events
  indexed : (w.table s).Indexed
  output : w.Quiet s .write .handleOutput ready
  input : w.Quiet s .read .handleInput ready

/-- `ret_events_` has `fd_count_` entries; those behind the ready ones are zero. -/
def retEvents (ready : List EpollEvent) (unused : Nat) : List EpollEvent :=
  ready ++ List.replicate unused ⟨0, 0⟩

theorem withBit_retEvents (type : EventType) (ready : List EpollEvent) (unused : Nat) :
    withBit type (retEvents ready unused) = withBit type ready := by
  simp [withBit, retEvents]

theorem Quiet.retEvents {s : σ} {type : EventType} {callback : Callback}
    {ready : List EpollEvent} (hquiet : w.Quiet s type callback ready) (unused : Nat) :
    w.Quiet s type callback (retEvents ready unused) := by
  intro ev hev hbit
  rcases List.mem_append.mp hev with hev | hev
  · exact hquiet ev hev hbit
  · rw [List.eq_of_mem_replicate hev] at hbit
    exact absurd UInt32.zero_and hbit

/-- What all walks together dispatch: every output event, and as many input events as the rest of
the budget pays for. -/
theorem dispatchIoHandlers_log {s : σ} {ready : List EpollEvent} (hready : w.Ready s ready)
    (unused : Nat) :
    (w.dispatchIoHandlers ready.length (retEvents ready unused) ⟨s, []⟩).2.log =
      (withBit .write ready).map (w.invocationOf s .write .handleOutput) ++
        ((withBit .read ready).take (ready.length - (withBit .write ready).length)).map
          (w.invocationOf s .read .handleInput) := by
  have hlen := length_withBit hready.masks
  have hle : (withBit .write ready).length ≤ ready.length := List.length_filter_le _ _
  obtain ⟨hret₁, hlog₁, htable₁⟩ := dispatchIoEpollSets_quiet hready.indexed ready.length
    (hready.output.retEvents unused) 0 ready.length (Int.sub_zero _) ⟨s, []⟩ rfl
  rw [withBit_retEvents] at hret₁ hlog₁
  obtain ⟨hret₂, hlog₂, -⟩ := dispatchIoEpollSets_quiet hready.indexed _
    (hready.input.retEvents unused) 0 _ (Int.sub_zero _) _ htable₁
  rw [withBit_retEvents] at hret₂ hlog₂
  -- nothing is left for the third walk
  have hzero : ready.length - (withBit .write ready).length - (withBit .read ready).length = 0 := by
    omega
  rw [hzero] at hret₂
  rw [dispatchIoHandlers]
  simp only [hret₁, hret₂, Nat.cast_zero, Int.lt_irrefl, if_false]
  rw [hlog₂, hlog₁, List.take_of_length_le hle, List.nil_append]

/-- `handle_output` is invoked once for every descriptor that is ready for output. -/
theorem times_handleOutput {s : σ} {ready : List EpollEvent} (hready : w.Ready s ready)
    (unused : Nat) {ev : EpollEvent} (hev : ev ∈ ready) (hbit : ev.events &&& epollOut ≠ 0) :
    times .handleOutput ev.fd
      (w.dispatchIoHandlers ready.length (retEvents ready unused) ⟨s, []⟩).2.log = 1 := by
  have houts : (withBit .write ready).Sublist ready := List.filter_sublist
  rw [dispatchIoHandlers_log hready, times_append, times_same, times_other (by decide),
    count_fd hready.distinct houts hev]
  exact if_pos (List.mem_filter.mpr ⟨hev, decide_eq_true hbit⟩)

/-- `handle_input` is invoked for those that fit into the rest of the budget. -/
theorem times_handleInput {s : σ} {ready : List EpollEvent} (hready : w.Ready s ready)
    (unused : Nat) {ev : EpollEvent} (hev : ev ∈ ready) :
    times .handleInput ev.fd
      (w.dispatchIoHandlers ready.length (retEvents ready unused) ⟨s, []⟩).2.log =
        if ev ∈ (withBit .read ready).take (ready.length - (withBit .write ready).length)
        then 1 else 0 := by
  have hins : (withBit .read ready).Sublist ready := List.filter_sublist
  rw [dispatchIoHandlers_log hready, times_append, times_same, times_other (by decide),
    count_fd hready.distinct ((List.take_sublist _ _).trans hins) hev, Nat.zero_add]

/-- **Every ready event is dispatched exactly once** if and only if no descriptor is ready for input
and output at the same time. -/
theorem dispatchIoHandlers_once_iff (w : World σ) (s : σ) (ready : List EpollEvent) (unused : Nat)
    (hready : w.Ready s ready) :
    (∀ ev ∈ ready,
      (ev.events &&& epollOut ≠ 0 → times .handleOutput ev.fd
        (w.dispatchIoHandlers ready.length (retEvents ready unused) ⟨s, []⟩).2.log = 1) ∧
      (ev.events &&& epollIn ≠ 0 → times .handleInput ev.fd
        (w.dispatchIoHandlers ready.length (retEvents ready unused) ⟨s, []⟩).2.log = 1)) ↔
      ∀ ev ∈ ready, ev.events ≠ epollIn ||| epollOut := by
  have hlen := length_withBit hready.masks
  constructor
  · intro honce ev hev hboth
    have hpos : 0 < ready.countP fun ev => ev.events = epollIn ||| epollOut :=
      List.countP_pos_iff.mpr ⟨ev, hev, decide_eq_true hboth⟩
    -- the first input event the budget does not pay for
    have hlt : ready.length - (withBit .write ready).length < (withBit .read ready).length := by
      have : (withBit .write ready).length ≤ ready.length := List.length_filter_le _ _
      omega
    obtain ⟨hmem, hbit⟩ := List.mem_filter.mp (List.getElem_mem hlt)
    have hone := (honce _ hmem).2 (of_decide_eq_true hbit)
    rw [times_handleInput hready unused hmem] at hone
    have htaken : (withBit .read ready)[ready.length - (withBit .write ready).length] ∈
        (withBit .read ready).take (ready.length - (withBit .write ready).length) := by
      by_contra hnot
      rw [if_neg hnot] at hone
      exact absurd hone Nat.zero_ne_one
    have hnodup : (withBit .read ready).Nodup :=
      (List.Nodup.of_map _ hready.distinct).sublist List.filter_sublist
    obtain ⟨i, hi, heq⟩ := List.mem_take_iff_getElem.mp htaken
    have := (List.Nodup.getElem_inj_iff hnodup).mp heq
    omega
  · intro hnone ev hev
    refine ⟨times_handleOutput hready unused hev, ?_⟩
    intro hbit
    have hzero : (ready.countP fun ev => ev.events = epollIn ||| epollOut) = 0 :=
      List.countP_eq_zero.mpr fun ev hev => by simpa using hnone ev hev
    rw [times_handleInput hready unused hev, List.take_of_length_le (by omega)]
    exact if_pos (List.mem_filter.mpr ⟨hev, decide_eq_true hbit⟩)

/-- Handlers that do nothing, and a table in which handlers 1 and 3 take the input and handlers 2 and 4
the output of the descriptors 5 and 6. -/
def idle : World PollEventRepo where
  table := id
  call _ r := (0, r)

def twoBound : PollEventRepo :=
  (((PollEventRepo.new.setEvent 5 .read 1).setEvent 5 .write 2).setEvent 6 .read 3).setEvent 6 .write 4

theorem twoBound_ready {ready : List EpollEvent} (hdistinct : (ready.map EpollEvent.fd).Nodup)
    (hmasks : ∀ ev ∈ ready, IoMask ev.events) (hfd : ∀ ev ∈ ready, ev.fd = 5 ∨ ev.fd = 6) :
    idle.Ready twoBound ready where
  distinct := hdistinct
  masks := hmasks
  indexed := (((PollEventRepo.new_indexed.setEvent (by decide)).setEvent (by decide)).setEvent
    (by decide)).setEvent (by decide)
  output := by
    intro ev hev _
    rcases hfd ev hev with hfive | hsix
    · rw [hfive]
      exact ⟨2, show twoBound.getHandler 5 .write = some 2 by decide, fun s' hs' => ⟨le_rfl, hs'⟩⟩
    · rw [hsix]
      exact ⟨4, show twoBound.getHandler 6 .write = some 4 by decide, fun s' hs' => ⟨le_rfl, hs'⟩⟩
  input := by
    intro ev hev _
    rcases hfd ev hev with hfive | hsix
    · rw [hfive]
      exact ⟨1, show twoBound.getHandler 5 .read = some 1 by decide, fun s' hs' => ⟨le_rfl, hs'⟩⟩
    · rw [hsix]
      exact ⟨3, show twoBound.getHandler 6 .read = some 3 by decide, fun s' hs' => ⟨le_rfl, hs'⟩⟩

/-- One descriptor that is ready for input, and one that is ready for output. -/
theorem dispatchIoHandlers_once_inOut :
    idle.Ready twoBound [⟨epollIn, 5⟩, ⟨epollOut, 6⟩] ∧
      times .handleInput 5 (idle.dispatchIoHandlers 2
        (retEvents [⟨epollIn, 5⟩, ⟨epollOut, 6⟩] 1) ⟨twoBound, []⟩).2.log = 1 ∧
      times .handleOutput 6 (idle.dispatchIoHandlers 2
        (retEvents [⟨epollIn, 5⟩, ⟨epollOut, 6⟩] 1) ⟨twoBound, []⟩).2.log = 1 := by
  have hready : idle.Ready twoBound [⟨epollIn, 5⟩, ⟨epollOut, 6⟩] :=
    twoBound_ready (by decide) (by simp [IoMask]) (by decide)
  have honce := (dispatchIoHandlers_once_iff idle twoBound _ 1 hready).mpr (by decide)
  exact ⟨hready, (honce _ List.mem_cons_self).2 (by decide),
    (honce _ (List.mem_cons_of_mem _ List.mem_cons_self)).1 (by decide)⟩

/-- One descriptor that is ready for both: `handle_input` is not invoked. -/
theorem input_dropped :
    idle.Ready twoBound [⟨epollIn ||| epollOut, 5⟩] ∧
      times .handleInput 5 (idle.dispatchIoHandlers 1
        (retEvents [⟨epollIn ||| epollOut, 5⟩] 0) ⟨twoBound, []⟩).2.log = 0 :=
  ⟨twoBound_ready (List.nodup_singleton _) (by simp [IoMask]) (by decide), by decide⟩

end World

end Unp.Epoll
