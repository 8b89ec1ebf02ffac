import Unp.Epoll.EventRepo
import Unp.Lib.Run

/-!
# `poll_reactor_impl`: registering and unregistering

A registration is an entry of `wait_pfds_`, the vector that `poll` is given, and a pair in
`poll_demultiplex_table`, a vector of vectors that is indexed by the handle. Pairs are looked for by
`READ_EVENT`, `WRITE_EVENT` and `EXCEPT_EVENT` only; one that was bound as `ACCEPT_EVENT` or
`CONNECT_EVENT` is found under the event it stands for.

Handles are `int`s.
-/

namespace Unp.Poll

open Unp.Machine Unp.Run
open Unp.Epoll (EventType HandlerId)

/-- `INVALID_HANDLE`. -/
def invalidHandle : Int := -1

def pollIn : UInt32 := 1

def pollOut : UInt32 := 4

/-- `reactor_event_to_poll_event(type, USING_POLL)`. -/
def pollEvent : EventType → UInt32
  | .read => pollIn
  | .accept => pollIn
  | .write => pollOut
  | .connect => pollIn ||| pollOut
  | _ => 0

/-- `struct pollfd`. -/
structure PollFd where
  fd : Int
  events : UInt32
  revents : UInt32
  deriving Repr, DecidableEq

/-- `poll_event_repo`: the events of a handle, with their handlers. -/
abbrev EventRepo := List (EventType × HandlerId)

namespace EventRepo

/-- The predicate of `find`: `POLLIN`, `POLLOUT` and `POLLPRI` are the numbers of `READ_EVENT`,
`WRITE_EVENT` and `EXCEPT_EVENT`. -/
def matching (type event : EventType) : Bool :=
  match type with
  | .read => event = .read ∨ event = .accept
  | .write => event = .write ∨ event = .connect
  | .except => event = .except
  | _ => false

def bindNew (type : EventType) (handler : Option HandlerId) (r : EventRepo) : Int × EventRepo :=
  match handler with
  | none => (-1, r)
  | some h => if type = .none then (-1, r) else (0, r ++ [(type, h)])

def getHandler (type : EventType) (r : EventRepo) : Option HandlerId :=
  (List.find? (fun p => matching type p.1) r).map Prod.snd

def unbind (type : EventType) (handler : Option HandlerId) (r : EventRepo) : Int × EventRepo :=
  if type = .none ∨ handler = none then (-1, r)
  else match r.getHandler type with
    | none => (-1, r)
    | some h => if some h ≠ handler then (-1, r) else (0, r.eraseP fun p => matching type p.1)

end EventRepo

/-- `poll_demultiplex_table`. -/
abbrev DemultiplexTable := List EventRepo

namespace DemultiplexTable

def getHandler (handle : Int) (type : EventType) (t : DemultiplexTable) : Option HandlerId :=
  if handle < 0 then none
  else match t[handle.toNat]? with
    | none => none
    | some r => r.getHandler type

/-- `table_[handle]`. No vector is so long that a negative index would be inside. -/
def entry (handle : Int) (t : DemultiplexTable) : Res EventRepo :=
  if handle < 0 then .error .outOfBounds else readAt t handle.toNat

/-- The vector that `bindNew` writes into. -/
def grown (handle : Int) (t : DemultiplexTable) : Res DemultiplexTable :=
  if (t.length : Int) ≤ handle then do
    let size ← checkedI32 (handle + 4)
    pure (t ++ List.replicate (size.toNat - t.length) [])
  else pure t

def bindNew (handle : Int) (type : EventType) (handler : Option HandlerId) (t : DemultiplexTable) :
    Res (Int × DemultiplexTable) := do
  let t ← t.grown handle
  let r ← t.entry handle
  let (ret, r) := r.bindNew type handler
  pure (ret, t.set handle.toNat r)

/-- `unbind(handle, type, handler)`. -/
def unbind (handle : Int) (type : EventType) (handler : Option HandlerId) (t : DemultiplexTable) :
    Res (Int × DemultiplexTable) := do
  let r ← t.entry handle
  let (ret, r) := r.unbind type handler
  pure (ret, t.set handle.toNat r)

end DemultiplexTable

structure PollReactorImpl where
  waitPfds : List PollFd
  demuxTable : DemultiplexTable
  deriving DecidableEq

/-- The entry is one for this event of the handle. -/
def PollFd.waitsFor (handle : Int) (type : EventType) (pfd : PollFd) : Bool :=
  pfd.fd = handle ∧ pfd.events &&& pollEvent type ≠ 0

namespace PollReactorImpl

def new : PollReactorImpl := ⟨[], []⟩

def registerHandler (handle : Int) (handler : Option HandlerId) (type : EventType)
    (s : PollReactorImpl) : Res (Int × PollReactorImpl) :=
  if handle = invalidHandle ∨ handler = none ∨ type = .none then pure (-1, s)
  else if s.demuxTable.getHandler handle type ≠ none then pure (-1, s)
  else do
    let waitPfds := s.waitPfds ++ [⟨handle, pollEvent type, 0⟩]
    let (ret, demuxTable) ← s.demuxTable.bindNew handle type handler
    pure (ret, ⟨waitPfds, demuxTable⟩)

def unregisterHandler (handle : Int) (handler : Option HandlerId) (type : EventType)
    (s : PollReactorImpl) : Res (Int × PollReactorImpl) :=
  if handle = invalidHandle ∨ handler = none ∨ type = .none then pure (-1, s)
  else if s.demuxTable.getHandler handle type = none then pure (-1, s)
  else do
    let waitPfds := s.waitPfds.eraseP (PollFd.waitsFor handle type)
    let (ret, demuxTable) ← s.demuxTable.unbind handle type handler
    pure (ret, ⟨waitPfds, demuxTable⟩)

/-! ## What an unregistration does -/

section Unregister
variable {s : PollReactorImpl} {handle : Int} {h h₁ : HandlerId} {type : EventType}

/-- A handler that is found stands in an entry of the vector. -/
theorem entry_of_getHandler {t : DemultiplexTable} (hfind : t.getHandler handle type = some h) :
    ∃ r, t.entry handle = .ok r ∧ r.getHandler type = some h ∧ t[handle.toNat]? = some r := by
  unfold DemultiplexTable.getHandler at hfind
  split at hfind
  · cases hfind
  · next hneg =>
      cases hr : t[handle.toNat]? with
      | none =>
          rw [hr] at hfind
          cases hfind
      | some r =>
          rw [hr] at hfind
          refine ⟨r, ?_, hfind, rfl⟩
          rw [DemultiplexTable.entry, if_neg hneg, readAt, hr]

theorem type_ne_none_of_getHandler {t : DemultiplexTable}
    (hfind : t.getHandler handle type = some h) : type ≠ .none := by
  rintro rfl
  obtain ⟨r, -, hr, -⟩ := entry_of_getHandler hfind
  have hnone : List.find? (fun p : EventType × HandlerId => EventRepo.matching .none p.1) r = none :=
    List.find?_eq_none.mpr fun p _ => by simp [EventRepo.matching]
  rw [EventRepo.getHandler, hnone] at hr
  cases hr

theorem unregisterHandler_missing (handler : Option HandlerId)
    (hfind : s.demuxTable.getHandler handle type = none) :
    s.unregisterHandler handle handler type = .ok (-1, s) := by
  rw [unregisterHandler, if_pos hfind]
  split <;> rfl

/-- The entry of `wait_pfds_` goes whether or not the handler is the bound one. -/
theorem unregisterHandler_other (hfind : s.demuxTable.getHandler handle type = some h₁)
    (hne : h₁ ≠ h) : s.unregisterHandler handle (some h) type =
      .ok (-1, ⟨s.waitPfds.eraseP (PollFd.waitsFor handle type), s.demuxTable⟩) := by
  obtain ⟨r, hentry, hr, hget⟩ := entry_of_getHandler hfind
  have htype := type_ne_none_of_getHandler hfind
  have hvalid : handle ≠ invalidHandle := by
    rintro rfl
    cases hfind
  have hunbind : r.unbind type (some h) = (-1, r) := by
    rw [EventRepo.unbind, if_neg (by simp [htype]), hr]
    exact if_pos (by simpa using hne)
  rw [unregisterHandler, if_neg (by simp [hvalid, htype]), if_neg (by simp [hfind]),
    DemultiplexTable.unbind, hentry, ok_bind, hunbind]
  obtain ⟨hlt, rfl⟩ := List.getElem?_eq_some_iff.mp hget
  simp only [List.set_getElem_self, pure_eq_ok, ok_bind]

theorem unregisterHandler_bound (hfind : s.demuxTable.getHandler handle type = some h) :
    ∃ r, s.demuxTable[handle.toNat]? = some r ∧ s.unregisterHandler handle (some h) type =
      .ok (0, ⟨s.waitPfds.eraseP (PollFd.waitsFor handle type),
        s.demuxTable.set handle.toNat (r.eraseP fun p => EventRepo.matching type p.1)⟩) := by
  obtain ⟨r, hentry, hr, hget⟩ := entry_of_getHandler hfind
  have htype := type_ne_none_of_getHandler hfind
  have hvalid : handle ≠ invalidHandle := by
    rintro rfl
    cases hfind
  have hunbind : r.unbind type (some h) = (0, r.eraseP fun p => EventRepo.matching type p.1) := by
    rw [EventRepo.unbind, if_neg (by simp [htype]), hr]
    exact if_neg (by simp)
  refine ⟨r, hget, ?_⟩
  rw [unregisterHandler, if_neg (by simp [hvalid, htype]), if_neg (by simp [hfind]),
    DemultiplexTable.unbind, hentry, ok_bind, hunbind]
  rfl

end Unregister

end PollReactorImpl

/-! ## Runs -/

/-- A call of a reactor. -/
inductive Call where
  | register (handle : Int) (handler : Option HandlerId) (type : EventType)
  | unregister (handle : Int) (handler : Option HandlerId) (type : EventType)
  deriving Repr, DecidableEq

namespace PollReactorImpl

def step : Call → PollReactorImpl → Res (Int × PollReactorImpl)
  | .register handle handler type, s => s.registerHandler handle handler type
  | .unregister handle handler type, s => s.unregisterHandler handle handler type

/-- `wait_pfds_` and everything the table finds are the same. -/
structure Unchanged (s s' : PollReactorImpl) : Prop where
  waitPfds_eq : s'.waitPfds = s.waitPfds
  getHandler_eq : ∀ handle type,
    s'.demuxTable.getHandler handle type = s.demuxTable.getHandler handle type

/-- An unregistration that fails leaves everything as it was. -/
def Atomic (e : Entry PollReactorImpl Call Int) : Prop :=
  match e.input with
  | .register _ _ _ => True
  | .unregister _ _ _ => e.output = -1 → e.before.Unchanged e.after

/-- Nobody unregisters a handler where another one is bound and polled. -/
def Rightful (s : PollReactorImpl) : Call → Prop
  | .unregister handle (some h) type =>
      s.demuxTable.getHandler handle type = none ∨ s.demuxTable.getHandler handle type = some h ∨
        ∀ pfd ∈ s.waitPfds, PollFd.waitsFor handle type pfd = false
  | _ => True

/-- Erasing a pollfd that is there changes the vector. -/
theorem eraseP_eq_iff (l : List PollFd) (p : PollFd → Bool) :
    l.eraseP p = l ↔ ∀ pfd ∈ l, p pfd = false := by
  constructor
  · intro heq pfd hmem
    by_contra htrue
    have hlen := List.length_eraseP_of_mem hmem (Bool.of_not_eq_false htrue)
    have hpos := List.length_pos_of_mem hmem
    rw [heq] at hlen
    omega
  · intro hall
    exact List.eraseP_of_forall_not fun pfd hmem => by simp [hall pfd hmem]

theorem unchanged_refl (s : PollReactorImpl) : s.Unchanged s := ⟨rfl, fun _ _ => rfl⟩

theorem step_atomic_iff {s s' : PollReactorImpl} {call : Call} {ret : Int}
    (hstep : step call s = .ok (ret, s')) : Atomic ⟨s, call, ret, s'⟩ ↔ s.Rightful call := by
  cases call with
  | register handle handler type => exact iff_of_true trivial trivial
  | unregister handle handler type =>
      cases handler with
      | none =>
          rw [step, unregisterHandler, if_pos (by simp)] at hstep
          cases hstep
          exact iff_of_true (fun _ => s.unchanged_refl) trivial
      | some h =>
          rw [step] at hstep
          cases hfind : s.demuxTable.getHandler handle type with
          | none =>
              rw [unregisterHandler_missing _ hfind] at hstep
              cases hstep
              exact iff_of_true (fun _ => s.unchanged_refl) (Or.inl hfind)
          | some h₁ =>
              by_cases heq : h₁ = h
              · subst heq
                obtain ⟨r, -, hok⟩ := unregisterHandler_bound hfind
                rw [hok] at hstep
                cases hstep
                refine iff_of_true ?_ (Or.inr (Or.inl hfind))
                rintro ⟨⟩
              · rw [unregisterHandler_other hfind heq] at hstep
                cases hstep
                have hrightful : s.Rightful (.unregister handle (some h) type) ↔
                    ∀ pfd ∈ s.waitPfds, PollFd.waitsFor handle type pfd = false := by
                  simp [Rightful, hfind, heq]
                rw [hrightful, ← eraseP_eq_iff]
                exact ⟨fun hatomic => (hatomic rfl).waitPfds_eq,
                  fun herase _ => ⟨herase, fun _ _ => rfl⟩⟩

end PollReactorImpl

end Unp.Poll
