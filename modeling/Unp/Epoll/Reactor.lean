import Unp.Epoll.Bound
import Unp.Epoll.Epoller

/-!
# `epoll_reactor_impl`: registering and unregistering

A registration is in three places: the mask that `epoller_` holds for the handle, the table of bound
events, and `fd_count_`. The two operations write them one after the other, and each of the writes
can be refused.

The masks of the events of a handle are put together by `pollMask`; what the operations do to them
is a matter of single bits.
-/

namespace Unp.Epoll

open Unp.Machine Unp.Run

/-- `reactor_event_to_poll_event(type, USING_EPOLL)`. -/
def pollEvent : EventType → UInt32
  | .read => epollIn
  | .accept => epollIn
  | .write => epollOut
  | .connect => epollIn ||| epollOut
  | _ => 0

structure EpollReactorImpl where
  fdCount : Int
  demuxTable : PollEventRepo
  epoller : Epoller
  deriving DecidableEq

namespace EpollReactorImpl

def new : EpollReactorImpl := ⟨0, .new, .new⟩

/-- `if(ret == 0) fd_count_++` and `if(ret == 0) fd_count_--`. -/
def counted (ret fdCount : Int) (s : EpollReactorImpl) : Res (Int × EpollReactorImpl) :=
  if ret = 0 then do
    let fdCount ← checkedI32 fdCount
    pure (ret, { s with fdCount })
  else pure (ret, s)

def registerHandler (expiration : Expirations) (ctl : Bool) (handle : Handle)
    (handler : Option HandlerId) (type : EventType) (s : EpollReactorImpl) :
    Res (Int × EpollReactorImpl) :=
  if handle = invalidHandle ∨ handler = none ∨ type = .none then pure (-1, s)
  else if s.demuxTable.getHandler handle type ≠ none then pure (-1, s)
  else
    let (ret, epoller) := s.epoller.add ctl handle (pollEvent type)
    if ret < 0 then pure (-1, { s with epoller })
    else
      let (ret, demuxTable) := s.demuxTable.bindNew expiration handle type handler
      counted ret (s.fdCount + 1) { s with demuxTable, epoller }

def unregisterHandler (expiration : Expirations) (ctlMod ctlDel : Bool) (handle : Handle)
    (handler : Option HandlerId) (type : EventType) (s : EpollReactorImpl) :
    Res (Int × EpollReactorImpl) :=
  if handle = invalidHandle ∨ handler = none ∨ type = .none then pure (-1, s)
  else if s.demuxTable.getHandler handle type = none then pure (-1, s)
  else
    let (ret, epoller) := s.epoller.del ctlMod ctlDel handle (pollEvent type)
    if ret < 0 then pure (-1, { s with epoller })
    else do
      let (ret, demuxTable) ← s.demuxTable.unbind expiration handle type handler
      counted ret (s.fdCount - 1) { s with demuxTable, epoller }

/-- `register_handler(handler, type)`. What `bindNew` returns is not looked at. -/
def registerTimeout (expiration : Expirations) (handler : Option HandlerId) (type : EventType)
    (s : EpollReactorImpl) : Int × EpollReactorImpl :=
  if handler = none ∨ type ≠ .timeout then (-1, s)
  else
    let (_, demuxTable) := s.demuxTable.bindNew expiration invalidHandle type handler
    (0, { s with demuxTable })

/-- `unregister_handler(handler, type)`. -/
def unregisterTimeout (expiration : Expirations) (handler : Option HandlerId) (type : EventType)
    (s : EpollReactorImpl) : Res (Int × EpollReactorImpl) :=
  if handler = none ∨ type ≠ .timeout then pure (-1, s)
  else do
    let (_, demuxTable) ← s.demuxTable.unbind expiration invalidHandle type handler
    pure (0, { s with demuxTable })

/-! ## Runs -/

inductive Call where
  | register (handle : Handle) (handler : Option HandlerId) (type : EventType)
  | unregister (handle : Handle) (handler : Option HandlerId) (type : EventType)
  | registerTimeout (handler : Option HandlerId) (type : EventType)
  | unregisterTimeout (handler : Option HandlerId) (type : EventType)
  deriving Repr, DecidableEq

/-- A call, and what the timeout handlers answer while it is made. -/
structure Request where
  expiration : Expirations
  call : Call

/-- One call, with system calls that succeed. -/
def step (req : Request) (s : EpollReactorImpl) : Res (Int × EpollReactorImpl) :=
  match req.call with
  | .register handle handler type => s.registerHandler req.expiration true handle handler type
  | .unregister handle handler type =>
      s.unregisterHandler req.expiration true true handle handler type
  | .registerTimeout handler type => .ok (s.registerTimeout req.expiration handler type)
  | .unregisterTimeout handler type => s.unregisterTimeout req.expiration handler type

end EpollReactorImpl

/-! ## Masks -/

/-- The union of the poll masks of some events. -/
def pollMask : List EventType → UInt32
  | [] => 0
  | type :: types => pollEvent type ||| pollMask types

theorem pollEvent_storedAs (type : EventType) :
    pollEvent (PollEventRepo.storedAs type) = pollEvent type := by
  cases type <;> rfl

theorem pollMask_erase {type : EventType} {types : List EventType} (h : type ∈ types) :
    pollMask types = pollEvent type ||| pollMask (types.erase type) := by
  induction types with
  | nil => cases h
  | cons t ts ih =>
      rw [List.erase_cons]
      by_cases heq : t = type
      · subst heq
        simp [pollMask]
      · have hmem : type ∈ ts := (List.mem_cons.mp h).resolve_left (Ne.symm heq)
        rw [if_neg (by simpa using heq), pollMask, pollMask, ih hmem, ← UInt32.or_assoc,
          ← UInt32.or_assoc, UInt32.or_comm (pollEvent t)]

theorem pollMask_insert (type : EventType) (types : List EventType) :
    pollMask (type :: types.erase type) = pollEvent type ||| pollMask types := by
  by_cases h : type ∈ types
  · rw [pollMask_erase h, ← UInt32.or_assoc, UInt32.or_self, pollMask]
  · rw [List.erase_of_not_mem h, pollMask]

/-- Events whose masks share no bit with that of `type` do not share one together. -/
theorem pollMask_disjoint {type : EventType} {types : List EventType}
    (h : ∀ t ∈ types, pollEvent type &&& pollEvent t = 0) :
    pollEvent type &&& pollMask types = 0 := by
  induction types with
  | nil => simp [pollMask]
  | cons t ts ih =>
      obtain ⟨ht, hts⟩ := List.forall_mem_cons.mp h
      have hsplit : pollEvent type &&& (pollEvent t ||| pollMask ts) =
          (pollEvent type &&& pollEvent t) ||| (pollEvent type &&& pollMask ts) :=
        UInt32.toBitVec_inj.mp BitVec.and_or_distrib_left
      rw [pollMask, hsplit, ht, ih hts, UInt32.or_self]

/-! ## What the system calls leave -/

namespace Epoller

theorem mask_insert (e : Epoller) (kernel : InterestList) (handle other : Handle)
    (ev : EpollEvent) : (⟨kernel, e.handleEventMap.insert handle ev⟩ : Epoller).mask other =
      if other = handle then ev.events else e.mask other := by
  unfold mask
  by_cases heq : other = handle
  · subst heq
    rw [if_pos rfl, AList.lookup_insert]
    rfl
  · rw [if_neg heq, AList.lookup_insert_ne heq]

theorem mask_erase (e : Epoller) (kernel : InterestList) (handle other : Handle) :
    (⟨kernel, e.handleEventMap.erase handle⟩ : Epoller).mask other =
      if other = handle then 0 else e.mask other := by
  unfold mask
  by_cases heq : other = handle
  · subst heq
    rw [if_pos rfl, AList.lookup_erase]
    rfl
  · rw [if_neg heq, AList.lookup_erase_ne heq]

/-- `e'` is `e` with another mask for one handle. -/
def MaskSet (e : Epoller) (handle : Handle) (m : UInt32) (e' : Epoller) : Prop :=
  ∀ other, e'.mask other = if other = handle then m else e.mask other

theorem add_refused {e : Epoller} {handle : Handle} {event : UInt32} (ctl : Bool)
    (h : e.mask handle &&& event ≠ 0) : e.add ctl handle event = (-1, e) := by
  unfold add mask at *
  cases hcur : e.handleEventMap.lookup handle with
  | none => simp [hcur] at h
  | some current =>
      rw [hcur] at h
      exact if_pos h

theorem add_done {e : Epoller} {handle : Handle} {event : UInt32}
    (h : e.mask handle &&& event = 0) : ∃ e', e.add true handle event = (0, e') ∧
      e.MaskSet handle (e.mask handle ||| event) e' := by
  cases hcur : e.handleEventMap.lookup handle with
  | none =>
      have hmask : e.mask handle = 0 := by
        rw [mask, hcur]
        rfl
      refine ⟨⟨e.kernel.insert handle ⟨event, handle⟩,
        e.handleEventMap.insert handle ⟨event, handle⟩⟩, ?_, ?_⟩
      · rw [add, hcur]
        exact store_true _ (by decide) ..
      · intro other
        rw [mask_insert, hmask, UInt32.zero_or]
  | some current =>
      have hmask : e.mask handle = current.events := by
        rw [mask, hcur]
        rfl
      rw [hmask] at h ⊢
      refine ⟨⟨e.kernel.insert handle { current with events := current.events ||| event },
        e.handleEventMap.insert handle { current with events := current.events ||| event }⟩, ?_, ?_⟩
      · rw [add, hcur]
        show (if current.events &&& event ≠ 0 then _ else _) = _
        rw [if_neg (not_not.mpr h)]
        exact store_true _ (by decide) ..
      · intro other
        rw [mask_insert]

theorem del_refused {e : Epoller} {handle : Handle} {event : UInt32} (ctlMod ctlDel : Bool)
    (h : e.mask handle &&& event = 0) : e.del ctlMod ctlDel handle event = (-1, e) := by
  unfold del mask at *
  cases hcur : e.handleEventMap.lookup handle with
  | none => rfl
  | some current =>
      rw [hcur] at h
      exact if_pos h

theorem del_done {e : Epoller} {handle : Handle} {event : UInt32}
    (h : e.mask handle &&& event ≠ 0) : ∃ e', e.del true true handle event = (0, e') ∧
      e.MaskSet handle (e.mask handle &&& ~~~event) e' := by
  cases hcur : e.handleEventMap.lookup handle with
  | none =>
      rw [mask, hcur] at h
      exact absurd (UInt32.zero_and) h
  | some current =>
      have hmask : e.mask handle = current.events := by
        rw [mask, hcur]
        rfl
      rw [hmask] at h ⊢
      rw [del, hcur]
      show ∃ e', (if current.events &&& event = 0 then _ else _) = _ ∧ _
      rw [if_neg h]
      by_cases hzero : current.events &&& ~~~event = 0
      · refine ⟨_, if_pos hzero, ?_⟩
        intro other
        rw [mask_erase, mask_insert, hzero]
        split <;> rfl
      · refine ⟨_, if_neg hzero, ?_⟩
        intro other
        rw [mask_insert]
        rfl

end Epoller

end Unp.Epoll
