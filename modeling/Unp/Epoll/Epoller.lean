import Unp.Epoll.EventRepo
import Unp.Lib.Run

/-!
# `epoller`: the interest list and its copy

`epoller` keeps a map from handles to `epoll_event`s next to the interest list that the kernel keeps
for `epoll_fd_`. Every system call gets its outcome as an argument: one that fails leaves the list
of the kernel alone.

The map is a mirror of the list as long as no `epoll_ctl` of `add` fails: `add` changes the map
first and does not take the change back. `del` asks the kernel first.
-/

namespace Unp.Epoll

open Unp.Machine Unp.Run

def epollIn : UInt32 := 1

def epollOut : UInt32 := 4

/-- `struct epoll_event`; `fd` is what `data` holds. -/
structure EpollEvent where
  events : UInt32
  fd : Handle
  deriving Repr, DecidableEq

abbrev InterestList := AList fun _ : Handle => EpollEvent

inductive CtlOp where
  | add
  | mod
  | del
  deriving Repr, DecidableEq

/-- `epoll_ctl`. -/
def epollCtl (succeeds : Bool) (op : CtlOp) (handle : Handle) (ev : EpollEvent)
    (kernel : InterestList) : Int × InterestList :=
  if succeeds then
    match op with
    | .add => (0, kernel.insert handle ev)
    | .mod => (0, kernel.insert handle ev)
    | .del => (0, kernel.erase handle)
  else (-1, kernel)

structure Epoller where
  kernel : InterestList
  handleEventMap : InterestList
  deriving DecidableEq

namespace Epoller

def new : Epoller := ⟨∅, ∅⟩

/-- The second half of `add`: the map has the event already when the kernel is asked. -/
def store (ctl : Bool) (op : CtlOp) (handle : Handle) (ev : EpollEvent) (e : Epoller) :
    Int × Epoller :=
  let (ret, kernel) := epollCtl ctl op handle ev e.kernel
  (if ret ≠ 0 then -1 else 0, ⟨kernel, e.handleEventMap.insert handle ev⟩)

def add (ctl : Bool) (handle : Handle) (event : UInt32) (e : Epoller) : Int × Epoller :=
  match e.handleEventMap.lookup handle with
  | some current =>
      if current.events &&& event ≠ 0 then (-1, e)
      else e.store ctl .mod handle { current with events := current.events ||| event }
  | none => e.store ctl .add handle ⟨event, handle⟩

/-- The second half of `del`, after a successful `EPOLL_CTL_MOD`. -/
def remove (ctl : Bool) (handle : Handle) (left : EpollEvent) (e : Epoller) : Int × Epoller :=
  let e := { e with handleEventMap := e.handleEventMap.insert handle left }
  if left.events = 0 then
    let (ret, kernel) := epollCtl ctl .del handle left e.kernel
    if ret ≠ 0 then (-1, { e with kernel })
    else (0, ⟨kernel, e.handleEventMap.erase handle⟩)
  else (0, e)

def del (ctlMod ctlDel : Bool) (handle : Handle) (event : UInt32) (e : Epoller) : Int × Epoller :=
  match e.handleEventMap.lookup handle with
  | none => (-1, e)
  | some current =>
      if current.events &&& event = 0 then (-1, e)
      else
        let left := { current with events := current.events &&& ~~~event }
        let (ret, kernel) := epollCtl ctlMod .mod handle left e.kernel
        if ret ≠ 0 then (-1, { e with kernel }) else { e with kernel }.remove ctlDel handle left

/-- The mask `epoller_` holds for a handle; 0 when it holds none. -/
def mask (e : Epoller) (handle : Handle) : UInt32 :=
  ((e.handleEventMap.lookup handle).map EpollEvent.events).getD 0

/-! ## The mirror -/

/-- The map holds the handles of the interest list, with their masks. -/
def Mirrors (e : Epoller) : Prop :=
  ∀ handle, (e.handleEventMap.lookup handle).map EpollEvent.events =
    (e.kernel.lookup handle).map EpollEvent.events

theorem new_mirrors : Mirrors new := fun _ => rfl

/-- The same event written to both sides. -/
theorem Mirrors.insert {e : Epoller} (he : Mirrors e) (handle : Handle) (ev : EpollEvent) :
    Mirrors ⟨e.kernel.insert handle ev, e.handleEventMap.insert handle ev⟩ := by
  intro other
  by_cases heq : other = handle
  · subst heq
    rw [AList.lookup_insert, AList.lookup_insert]
  · rw [AList.lookup_insert_ne heq, AList.lookup_insert_ne heq]
    exact he other

theorem Mirrors.erase {e : Epoller} (he : Mirrors e) (handle : Handle) :
    Mirrors ⟨e.kernel.erase handle, e.handleEventMap.erase handle⟩ := by
  intro other
  by_cases heq : other = handle
  · subst heq
    rw [AList.lookup_erase, AList.lookup_erase]
  · rw [AList.lookup_erase_ne heq, AList.lookup_erase_ne heq]
    exact he other

theorem store_true (op : CtlOp) (hop : op ≠ .del) (handle : Handle) (ev : EpollEvent)
    (e : Epoller) : e.store true op handle ev =
      (0, ⟨e.kernel.insert handle ev, e.handleEventMap.insert handle ev⟩) := by
  cases op with
  | add => rfl
  | mod => rfl
  | del => exact absurd rfl hop

theorem store_false (op : CtlOp) (handle : Handle) (ev : EpollEvent) (e : Epoller) :
    e.store false op handle ev = (-1, ⟨e.kernel, e.handleEventMap.insert handle ev⟩) := rfl

/-- `add` takes its change to the map back in no case, so that a system call that fails leaves the
two sides different, unless there was nothing to change. -/
def AddSettles (ctl : Bool) (handle : Handle) (event : UInt32) (e : Epoller) : Prop :=
  ctl = true ∨ ∃ current ∈ e.handleEventMap.lookup handle,
    current.events &&& event ≠ 0 ∨ event = 0

theorem add_mirrors {ctl : Bool} {handle : Handle} {event : UInt32} {e : Epoller}
    (he : Mirrors e) (hadd : AddSettles ctl handle event e) :
    Mirrors (e.add ctl handle event).2 := by
  unfold add
  rcases hadd with rfl | ⟨current, hcur, hevent⟩
  · split
    · split
      · exact he
      · rw [store_true _ (by decide)]
        exact he.insert _ _
    · rw [store_true _ (by decide)]
      exact he.insert _ _
  · rw [Option.mem_def] at hcur
    rw [hcur]
    show Mirrors (if current.events &&& event ≠ 0 then (-1, e) else _).2
    split
    · exact he
    · next hnew =>
        obtain rfl : event = 0 := hevent.resolve_left hnew
        intro other
        cases ctl with
        | true =>
            rw [store_true _ (by decide)]
            exact he.insert _ _ other
        | false =>
            -- the event that is written is the one that stands there
            rw [store_false]
            by_cases heq : other = handle
            · subst heq
              rw [← he other, hcur, AList.lookup_insert]
              simp
            · rw [AList.lookup_insert_ne heq]
              exact he other

/-- Bits that are new to a mask change it. -/
theorem or_ne_self {events event : UInt32} (hnew : events &&& event = 0) (hne : event ≠ 0) :
    events ||| event ≠ events := by
  intro heq
  have hsplit : (events ||| event) &&& event = (events &&& event) ||| (event &&& event) :=
    UInt32.toBitVec_inj.mp BitVec.and_or_distrib_right
  rw [heq, hnew, UInt32.and_self, UInt32.zero_or] at hsplit
  exact hne hsplit.symm

theorem add_breaks {ctl : Bool} {handle : Handle} {event : UInt32} {e : Epoller}
    (he : Mirrors e) (hadd : ¬ AddSettles ctl handle event e) :
    ¬ Mirrors (e.add ctl handle event).2 := by
  rw [AddSettles, not_or] at hadd
  obtain ⟨hctl, hadd⟩ := hadd
  obtain rfl : ctl = false := by simpa using hctl
  intro hmirrors
  have hhandle := hmirrors handle
  rw [add] at hhandle
  cases hcur : e.handleEventMap.lookup handle with
  | none =>
      have hkernel := he handle
      simp only [hcur, store_false, AList.lookup_insert] at hhandle hkernel
      rw [← hkernel] at hhandle
      cases hhandle
  | some current =>
      have hnot : ¬ (current.events &&& event ≠ 0 ∨ event = 0) :=
        fun h => hadd ⟨current, hcur, h⟩
      rw [not_or, not_not] at hnot
      have hkernel := he handle
      simp only [hcur, hnot.1, ne_eq, not_true_eq_false, if_false, store_false,
        AList.lookup_insert] at hhandle hkernel
      rw [← hkernel] at hhandle
      exact or_ne_self hnot.1 hnot.2 (Option.some.inj hhandle)

theorem remove_mirrors (ctl : Bool) {handle : Handle} {left : EpollEvent} {e : Epoller}
    (he : Mirrors ⟨e.kernel, e.handleEventMap.insert handle left⟩) :
    Mirrors (e.remove ctl handle left).2 := by
  unfold remove
  dsimp only
  split
  · cases ctl with
    | true => exact he.erase handle
    | false => exact he
  · exact he

/-- `del` keeps the two sides equal, whichever of its two system calls fails. -/
theorem del_mirrors (ctlMod ctlDel : Bool) (handle : Handle) (event : UInt32) {e : Epoller}
    (he : Mirrors e) : Mirrors (e.del ctlMod ctlDel handle event).2 := by
  unfold del
  split
  · exact he
  · split
    · exact he
    · cases ctlMod with
      | true => exact remove_mirrors ctlDel (he.insert _ _)
      | false => exact he

/-! ## Runs -/

/-- A call, with the outcome of the system calls it makes. -/
inductive Call where
  | add (handle : Handle) (event : UInt32) (ctl : Bool)
  | del (handle : Handle) (event : UInt32) (ctlMod ctlDel : Bool)
  deriving Repr, DecidableEq

def step (call : Call) (e : Epoller) : Res (Int × Epoller) :=
  match call with
  | .add handle event ctl => .ok (e.add ctl handle event)
  | .del handle event ctlMod ctlDel => .ok (e.del ctlMod ctlDel handle event)

/-- No `epoll_ctl` of an `add` fails that had something to change. -/
def Settles (e : Epoller) : Call → Prop
  | .add handle event ctl => AddSettles ctl handle event e
  | .del _ _ _ _ => True

/-- **The map mirrors the kernel** after every call exactly when no `epoll_ctl` of `add` fails,
except one that adds no bit to a handle in the map. -/
theorem mirrors_kernel_iff (calls : List Call) :
    AllGood step (fun e => Mirrors e.after) new calls ↔ Along step Settles new calls := by
  refine run_good_iff ?_ ?_ calls new_mirrors
  · intro e call he hsettles
    cases call with
    | add handle event ctl =>
        have hadd := add_mirrors he hsettles
        exact ⟨_, _, rfl, hadd, hadd⟩
    | del handle event ctlMod ctlDel =>
        have hdel := del_mirrors ctlMod ctlDel handle event he
        exact ⟨_, _, rfl, hdel, hdel⟩
  · intro e call ret e' he hsettles hstep
    cases call with
    | add handle event ctl =>
        have hret : e.add ctl handle event = (ret, e') := Except.ok.inj hstep
        have hbreaks := add_breaks he hsettles
        rwa [hret] at hbreaks
    | del handle event ctlMod ctlDel => exact absurd trivial hsettles

/-- Registering a descriptor the kernel refuses: the map has it, the interest list does not. -/
theorem mirror_breaks_failed_add :
    ¬ AllGood step (fun e => Mirrors e.after) new [.add 5 epollIn false] := by
  rintro ⟨history, e, hrun, hall⟩
  obtain ⟨ret, e', rest, hstep, -, rfl⟩ := run_cons_ok hrun
  cases hstep
  have := hall _ List.mem_cons_self 5
  revert this
  decide +kernel

end Epoller

end Unp.Epoll
