import Unp.Poll.Reactor
import Unp.Select.Table

/-!
# `select_reactor_impl`: registering and unregistering

A registration is a bit in one of the three sets that `select` waits for, and a pair in the table.
Both operations change the bit first. The table then says whether the handler is the bound one, and
the bit is not put back when it is not; `poll_reactor_impl` does the same with the entries of its
vector.

What is said here of both reactors is about runs of any calls; a run ends where a call goes wrong.
-/

namespace Unp.Select

open Unp.Machine Unp.Run
open Unp.Epoll (EventType HandlerId)
open Unp.Net (HandleSet fdSetSize invalidHandle)
open Unp.Poll (Call PollReactorImpl)

/-- The sets of `select_reactor_handle_sets`. -/
inductive WaitSet where
  | readSet
  | writeSet
  | exceptionSet
  deriving Repr, DecidableEq

/-- The `switch` over the event type; its default returns. -/
def waitSetOf : EventType → Option WaitSet
  | .read => some .readSet
  | .accept => some .readSet
  | .write => some .writeSet
  | .except => some .exceptionSet
  | _ => none

structure SelectReactorImpl where
  waitSets : WaitSet → HandleSet
  demuxTable : SelectDemultiplexTable

namespace SelectReactorImpl

/-- The table is made with the default capacity. -/
def new : SelectReactorImpl := ⟨fun _ => .reset, .new 8⟩

def registerHandler (handle : Int) (handler : Option HandlerId) (type : EventType)
    (s : SelectReactorImpl) : Res (Int × SelectReactorImpl) :=
  if handle = invalidHandle ∨ handler = none ∨ type = .none then pure (-1, s)
  else match waitSetOf type with
    | none => pure (-1, s)
    | some w => do
        let set ← (s.waitSets w).setBit handle
        let (ret, demuxTable) ← s.demuxTable.bind handle handler type
        pure (ret, ⟨Function.update s.waitSets w set, demuxTable⟩)

def unregisterHandler (handle : Int) (handler : Option HandlerId) (type : EventType)
    (s : SelectReactorImpl) : Res (Int × SelectReactorImpl) :=
  if handle = invalidHandle ∨ handler = none ∨ type = .none then pure (-1, s)
  else match waitSetOf type with
    | none => pure (-1, s)
    | some w => do
        let set ← (s.waitSets w).unsetBit handle
        let (ret, demuxTable) ← s.demuxTable.unbind handle handler type
        pure (ret, ⟨Function.update s.waitSets w set, demuxTable⟩)

def step : Call → SelectReactorImpl → Res (Int × SelectReactorImpl)
  | .register handle handler type, s => s.registerHandler handle handler type
  | .unregister handle handler type, s => s.unregisterHandler handle handler type

/-- The bits of the sets and everything the table finds are the same. -/
structure Unchanged (s s' : SelectReactorImpl) : Prop where
  isSet_eq : ∀ w handle, (s'.waitSets w).isSet handle = (s.waitSets w).isSet handle
  getHandler_eq : ∀ handle type,
    s'.demuxTable.getHandler handle type = s.demuxTable.getHandler handle type

/-- An unregistration that fails leaves everything as it was. -/
def Atomic (e : Entry SelectReactorImpl Call Int) : Prop :=
  match e.input with
  | .register _ _ _ => True
  | .unregister _ _ _ => e.output = -1 → e.before.Unchanged e.after

/-- Nobody unregisters a handler that is not bound for this very event while the bit is set. -/
def Rightful (s : SelectReactorImpl) : Call → Prop
  | .unregister handle (some h) type =>
      ∀ w ∈ waitSetOf type, (s.waitSets w).isSet handle = .ok true →
        (s.demuxTable.handlersOf handle.toNat).find type = some h
  | _ => True

/-! ## One call -/

section Steps
variable {s s' : SelectReactorImpl} {ret : Int}

theorem unchanged_refl (s : SelectReactorImpl) : s.Unchanged s := ⟨fun _ _ => rfl, fun _ _ => rfl⟩

/-- The bit is looked up in the set of the event type, and the handle is one of the table. -/
theorem registerHandler_exact {handle : Int} {handler : Option HandlerId} {type : EventType}
    (hs : s.demuxTable.Exact) (h : s.registerHandler handle handler type = .ok (ret, s')) :
    s'.demuxTable.Exact := by
  unfold registerHandler at h
  split at h
  · cases h
    exact hs
  · next hvalid =>
      simp only [not_or] at hvalid
      obtain ⟨h₁, rfl⟩ := Option.ne_none_iff_exists'.mp hvalid.2.1
      split at h
      · cases h
        exact hs
      · obtain ⟨set, hset, h⟩ := bind_eq_ok h
        obtain ⟨⟨ret, t⟩, hbind, h⟩ := bind_eq_ok h
        cases h
        obtain ⟨b, rfl⟩ := HandleSet.setBit_handle hvalid.1 hset
        by_cases hreach : (b : Nat) < s.demuxTable.eventVector.length ∨ 2 ≤ (b : Nat)
        · obtain ⟨t', hok, ht', -⟩ :=
            SelectDemultiplexTable.bind_spec hs b.isLt h₁ hvalid.2.2 hreach
          rw [hok] at hbind
          cases hbind
          exact ht'
        · rw [SelectDemultiplexTable.bind_fault b.isLt h₁ type hreach] at hbind
          cases hbind

/-- An unregistration returns because nothing was asked for, or it has gone through the set and the
table. -/
theorem unregisterHandler_cases {handle : Int} {h : HandlerId} {type : EventType}
    (hok : s.unregisterHandler handle (some h) type = .ok (ret, s')) :
    (ret = -1 ∧ s' = s ∧ ∀ w ∈ waitSetOf type, (s.waitSets w).isSet handle ≠ .ok true) ∨
      (type ≠ .none ∧ ∃ w set t, waitSetOf type = some w ∧
        (s.waitSets w).unsetBit handle = .ok set ∧
        s.demuxTable.unbind handle (some h) type = .ok (ret, t) ∧
        s' = ⟨Function.update s.waitSets w set, t⟩) := by
  unfold unregisterHandler at hok
  split at hok
  · next hinvalid =>
      cases hok
      refine Or.inl ⟨rfl, rfl, ?_⟩
      intro w hw
      rcases hinvalid with rfl | hnone | rfl
      · rintro ⟨⟩
      · cases hnone
      · cases hw
  · next hvalid =>
      simp only [not_or] at hvalid
      split at hok
      · next hnone =>
          cases hok
          refine Or.inl ⟨rfl, rfl, ?_⟩
          intro w hw
          rw [hnone] at hw
          cases hw
      · next w hw =>
          obtain ⟨set, hset, hok⟩ := bind_eq_ok hok
          obtain ⟨⟨ret, t⟩, hunbind, hok⟩ := bind_eq_ok hok
          cases hok
          exact Or.inr ⟨hvalid.2.2, w, set, t, hw, hset, hunbind, rfl⟩

theorem step_exact {call : Call} (hs : s.demuxTable.Exact) (hstep : step call s = .ok (ret, s')) :
    s'.demuxTable.Exact := by
  cases call with
  | register handle handler type => exact registerHandler_exact hs hstep
  | unregister handle handler type =>
      cases handler with
      | none =>
          rw [step, unregisterHandler, if_pos (by simp)] at hstep
          cases hstep
          exact hs
      | some h =>
          rcases unregisterHandler_cases hstep with
            ⟨-, rfl, -⟩ | ⟨htype, w, set, t, -, -, hunbind, rfl⟩
          · exact hs
          · rcases SelectDemultiplexTable.unbind_cases hs htype hunbind with
              ⟨-, rfl, -⟩ | ⟨-, ht, -⟩
            · exact hs
            · exact ht

theorem step_atomic_iff {call : Call} (hs : s.demuxTable.Exact)
    (hstep : step call s = .ok (ret, s')) : Atomic ⟨s, call, ret, s'⟩ ↔ s.Rightful call := by
  cases call with
  | register handle handler type => exact iff_of_true trivial trivial
  | unregister handle handler type =>
      cases handler with
      | none =>
          rw [step, unregisterHandler, if_pos (by simp)] at hstep
          cases hstep
          exact iff_of_true (fun _ => s.unchanged_refl) trivial
      | some h =>
          rcases unregisterHandler_cases hstep with
            ⟨-, rfl, hbits⟩ | ⟨htype, w, set, t, hw, hset, hunbind, rfl⟩
          · exact iff_of_true (fun _ => s'.unchanged_refl) fun w hw hbit =>
              absurd hbit (hbits w hw)
          · have hrightful : s.Rightful (.unregister handle (some h) type) ↔
                ((s.waitSets w).isSet handle = .ok true →
                  (s.demuxTable.handlersOf handle.toNat).find type = some h) := by
              simp [Rightful, hw]
            rw [hrightful]
            by_cases hbit : (s.waitSets w).isSet handle = .ok true
            · -- the bit goes, so the call has to succeed
              obtain ⟨b, rfl⟩ := HandleSet.exists_bit hbit
              rcases SelectDemultiplexTable.unbind_cases hs htype hunbind with
                ⟨rfl, -, hother⟩ | ⟨rfl, -, hfind⟩
              · refine iff_of_false ?_ fun himp => hother ⟨by omega, himp hbit⟩
                intro hatomic
                have hsame := (hatomic rfl).isSet_eq w b
                dsimp only at hsame
                rw [Function.update_self, hbit, HandleSet.unsetBit_clears hbit hset] at hsame
                cases hsame
              · refine iff_of_true ?_ fun _ => hfind
                rintro ⟨⟩
            · refine iff_of_true ?_ fun h => absurd h hbit
              intro hret
              have hsame : set = s.waitSets w := HandleSet.unsetBit_idle hbit hset
              rcases SelectDemultiplexTable.unbind_cases hs htype hunbind with
                ⟨-, rfl, -⟩ | ⟨rfl, -, -⟩
              · rw [hsame, Function.update_eq_self]
                exact s.unchanged_refl
              · cases hret

end Steps

end SelectReactorImpl

/-- **A failed unregistration is atomic** in the poll and the select reactor exactly when it is
rightful, in every run. -/
theorem unregister_atomic_iff (calls : List Call) :
    (∀ history s', run PollReactorImpl.step calls .new = .ok (history, s') →
      ∀ e ∈ history, PollReactorImpl.Atomic e ↔ e.before.Rightful e.input) ∧
    (∀ history s', run SelectReactorImpl.step calls .new = .ok (history, s') →
      ∀ e ∈ history, SelectReactorImpl.Atomic e ↔ e.before.Rightful e.input) := by
  constructor
  · intro history s' hrun e he
    have hall := run_invariant (fun _ => True) (fun _ _ => True)
      (fun s call ret s' => PollReactorImpl.Atomic ⟨s, call, ret, s'⟩ ↔ s.Rightful call)
      (fun s call ret s' _ hstep _ => ⟨trivial, PollReactorImpl.step_atomic_iff hstep⟩) trivial hrun
      fun _ _ => trivial
    exact (hall.2 e he).2
  · intro history s' hrun e he
    have hall := run_invariant (fun s => s.demuxTable.Exact) (fun _ _ => True)
      (fun s call ret s' => SelectReactorImpl.Atomic ⟨s, call, ret, s'⟩ ↔ s.Rightful call)
      (fun s call ret s' hs hstep _ => ⟨SelectReactorImpl.step_exact hs hstep,
        SelectReactorImpl.step_atomic_iff hs hstep⟩)
      (SelectDemultiplexTable.new_exact 8) hrun fun _ _ => trivial
    exact (hall.2 e he).2

/-- Two handles are registered, and one of them is unregistered with a handler it does not have. -/
def wrongHandler : List Call :=
  [.register 5 (some 1) .read, .register 6 (some 1) .read, .unregister 5 (some 2) .read]

theorem unregister_atomic_wrongHandler :
    (∃ history s', run PollReactorImpl.step wrongHandler .new = .ok (history, s') ∧
      ∀ e ∈ history, PollReactorImpl.Atomic e ↔ e.before.Rightful e.input) ∧
    (∃ history s', run SelectReactorImpl.step wrongHandler .new = .ok (history, s') ∧
      ∀ e ∈ history, SelectReactorImpl.Atomic e ↔ e.before.Rightful e.input) :=
  ⟨⟨_, _, rfl, (unregister_atomic_iff wrongHandler).1 _ _ rfl⟩,
    ⟨_, _, rfl, (unregister_atomic_iff wrongHandler).2 _ _ rfl⟩⟩

/-- Handle `5` is not waited for any more, and its handler is still bound. -/
theorem unregister_not_atomic :
    (∃ history s', run PollReactorImpl.step wrongHandler .new = .ok (history, s') ∧
      ∃ e ∈ history, ¬ PollReactorImpl.Atomic e) ∧
    (∃ history s', run SelectReactorImpl.step wrongHandler .new = .ok (history, s') ∧
      ∃ e ∈ history, ¬ SelectReactorImpl.Atomic e) := by
  constructor
  · refine ⟨_, _, rfl, _, List.mem_cons_of_mem _ (List.mem_cons_of_mem _ List.mem_cons_self), ?_⟩
    intro hatomic
    have hpfds := (hatomic rfl).waitPfds_eq
    revert hpfds
    decide
  · refine ⟨_, _, rfl, _, List.mem_cons_of_mem _ (List.mem_cons_of_mem _ List.mem_cons_self), ?_⟩
    intro hatomic
    have hbit := (hatomic rfl).isSet_eq .readSet 5
    revert hbit
    decide

end Unp.Select
