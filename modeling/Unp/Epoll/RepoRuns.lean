import Unp.Epoll.Bound
import Unp.Lib.Run

/-!
# Runs of `PollEventRepo`

The handle set is to be the set of the handles with bound events, an operation on one handle is not
to be seen through another, and `hasTimeoutHandler` is to tell whether a timeout handler is bound.
Two operations forget a part of this: `unbind(handle)` empties the handle set, whichever handles are
in it, and `unbind` of a timeout handler leaves the entry of its time point behind, when the entry
has become empty too.

A timeout handler is bound at `t` when it is in `timeoutsAt t`: `bindNew` puts it there, `unbind`
and `unbindTimeoutHandlers` take it out, and nothing else touches it.
-/

namespace Unp.Epoll

open Unp.Machine Unp.Run

namespace PollEventRepo

/-- `clear` is not a call on a handle, and neither are those that bind and unbind timeouts. -/
inductive Op where
  | bindNew (expiration : Expirations) (handle : Handle) (event : EventType)
      (handler : Option HandlerId)
  | unbind (expiration : Expirations) (handle : Handle) (event : EventType)
      (handler : Option HandlerId)
  | unbindHandle (handle : Handle)
  | unbindTimeoutHandlers (t : TimePoint)
  | clear

/-- For a timeout the handle is not looked at; the reactor passes `INVALID_HANDLE`. -/
def Op.NonNegative : Op → Prop
  | .bindNew _ handle event _ => event = .timeout ∨ 0 ≤ handle
  | .unbind _ handle event _ => event = .timeout ∨ 0 ≤ handle
  | .unbindHandle handle => 0 ≤ handle
  | _ => True

abbrev RepoCall := { op : Op // op.NonNegative }

def step (call : RepoCall) (r : PollEventRepo) : Res (Int × PollEventRepo) :=
  match call.1 with
  | .bindNew expiration handle event handler => .ok (r.bindNew expiration handle event handler)
  | .unbind expiration handle event handler => r.unbind expiration handle event handler
  | .unbindHandle handle => .ok (r.unbindHandle handle)
  | .unbindTimeoutHandlers t => .ok (r.unbindTimeoutHandlers t)
  | .clear => .ok (0, r.clear)

/-- The call is one on this handle; `clear` is one on all. -/
def Op.Touches : Op → Handle → Prop
  | .bindNew _ handle event _, other => event ≠ .timeout ∧ other = handle
  | .unbind _ handle event _, other => event ≠ .timeout ∧ other = handle
  | .unbindHandle handle, other => other = handle
  | .unbindTimeoutHandlers _, _ => False
  | .clear, _ => True

/-- What the redundant members owe each other. -/
structure Exact (r : PollEventRepo) : Prop where
  handleSet_iff : ∀ handle, handle ∈ r.handleSet ↔ r.eventsOf handle ≠ ∅
  timeouts_iff : r.hasTimeoutHandler = true ↔ ∃ t h, h ∈ r.timeoutsAt t

/-- The other handles show nothing of the call. -/
def Framed (op : Op) (r r' : PollEventRepo) : Prop :=
  ∀ other, 0 ≤ other → ¬ op.Touches other →
    r'.hasHandle other = r.hasHandle other ∧ r'.getHandlers other = r.getHandlers other

/-- `unbind(handle)` finds no other handle with bound events; `unbind` does not take the only bound
timeout handler; `unbindTimeoutHandlers` does not take the last ones while another time point has an
empty entry. -/
def Careful (r : PollEventRepo) (call : RepoCall) : Prop :=
  match call.1 with
  | .unbindHandle handle => r.eventsOf handle ≠ ∅ → ∀ other ∈ r.handleSet, other = handle
  | .unbind expiration _ event handler =>
      event = .timeout → ∀ h ∈ handler, ∀ t ∈ expiration h, h ∈ r.timeoutsAt t →
        ∃ t' h', h' ∈ r.timeoutsAt t' ∧ (t', h') ≠ (t, h)
  | .unbindTimeoutHandlers t =>
      t ∈ r.timeoutHandlers → (∃ t' ∈ r.timeoutHandlers, t' ≠ t) →
        ∃ t' h', h' ∈ r.timeoutsAt t' ∧ t' ≠ t
  | _ => True

/-! ## Timeouts -/

section Timeouts
variable {r : PollEventRepo} {t : TimePoint} {h : HandlerId}

theorem hasTimeoutHandler_iff : r.hasTimeoutHandler = true ↔ ∃ t, t ∈ r.timeoutHandlers := by
  unfold hasTimeoutHandler
  rw [decide_eq_true_eq]
  constructor
  · intro hne
    obtain ⟨⟨t, bound⟩, hmem⟩ := List.exists_mem_of_length_pos (Nat.pos_of_ne_zero hne)
    exact ⟨t, AList.mem_keys.mpr (List.mem_keys_of_mem hmem)⟩
  · rintro ⟨t, hmem⟩ hzero
    have hkeys := AList.mem_keys.mp hmem
    rw [AList.keys, List.length_eq_zero_iff.mp hzero] at hkeys
    cases hkeys

/-- One direction is never in question. -/
theorem exact_of_bound (hset : ∀ handle, handle ∈ r.handleSet ↔ r.eventsOf handle ≠ ∅)
    (hentry : (∃ t, t ∈ r.timeoutHandlers) → ∃ t h, h ∈ r.timeoutsAt t) : Exact r where
  handleSet_iff := hset
  timeouts_iff := by
    rw [hasTimeoutHandler_iff]
    exact ⟨hentry, fun ⟨t, _, hbound⟩ => ⟨t, mem_timeoutHandlers hbound⟩⟩

theorem Exact.exists_bound (hr : Exact r) (hmem : t ∈ r.timeoutHandlers) :
    ∃ t h, h ∈ r.timeoutsAt t :=
  hr.timeouts_iff.mp (hasTimeoutHandler_iff.mpr ⟨t, hmem⟩)

end Timeouts

/-! ## One call -/

/-- The invariant. -/
structure Kept (r : PollEventRepo) : Prop where
  indexed : Indexed r
  entry : (∃ t, t ∈ r.timeoutHandlers) → ∃ t h, h ∈ r.timeoutsAt t

theorem new_kept : Kept new where
  indexed := new_indexed
  entry := by
    rintro ⟨t, hmem⟩
    exact absurd hmem (AList.notMem_empty _)

theorem Kept.exact {r : PollEventRepo} (hr : Kept r) : Exact r :=
  exact_of_bound hr.indexed.mem_iff hr.entry

section Frame
variable {r r' : PollEventRepo} {other : Handle}

theorem Indexed.hasHandle_eq (hr : Indexed r) :
    r.hasHandle other = decide (r.eventsOf other ≠ ∅) :=
  decide_eq_decide.mpr (hr.mem_iff other)

theorem Indexed.getHandlers_eq (hr : Indexed r) (hother : 0 ≤ other) :
    r.getHandlers other = .ok (r.eventsOf other) := by
  unfold getHandlers
  split
  · next hmem => exact readAt_eventsOf hother ((hr.mem_iff other).mp hmem)
  · next hmem => rw [not_not.mp ((hr.mem_iff other).not.mp hmem)]

/-- What a handle shows is determined by its events. -/
theorem framed_of_events {op : Op} (hr : Indexed r) (hr' : Indexed r')
    (hevents : ∀ other, ¬ op.Touches other → r'.eventsOf other = r.eventsOf other) :
    Framed op r r' := by
  intro other hother htouches
  rw [hr.hasHandle_eq, hr'.hasHandle_eq, hr.getHandlers_eq hother, hr'.getHandlers_eq hother,
    hevents other htouches]
  exact ⟨rfl, rfl⟩

end Frame

section Steps
variable {r : PollEventRepo}

/-- A call that keeps the invariant, and is not seen through other handles. -/
def Keeps (op : Op) (r r' : PollEventRepo) : Prop := Kept r' ∧ Framed op r r'

theorem Kept.refl (hr : Kept r) (op : Op) : Keeps op r r :=
  ⟨hr, framed_of_events hr.indexed hr.indexed fun _ _ => rfl⟩

/-- Only the timeout handlers change. -/
theorem Kept.timeouts {r' : PollEventRepo} (hr : Kept r) (hsame : SameEvents r r')
    (hentry : (∃ t, t ∈ r'.timeoutHandlers) → ∃ t h, h ∈ r'.timeoutsAt t) (op : Op) :
    Keeps op r r' := by
  have hr' := hsame.indexed hr.indexed
  exact ⟨⟨hr', hentry⟩, framed_of_events hr.indexed hr' fun other _ => hsame.eventsOf other⟩

/-- Only the events of one handle change. -/
theorem Kept.events {r' : PollEventRepo} (hr : Kept r) (hr' : Indexed r')
    (htimeouts : r'.timeoutHandlers = r.timeoutHandlers) {op : Op} {handle : Handle}
    (hevents : ∀ other, other ≠ handle → r'.eventsOf other = r.eventsOf other)
    (htouches : op.Touches handle) : Keeps op r r' := by
  refine ⟨⟨hr', ?_⟩, framed_of_events hr.indexed hr' fun other hother => hevents other ?_⟩
  · have hentry := hr.entry
    unfold timeoutsAt at hentry ⊢
    rwa [htimeouts]
  · rintro rfl
    exact hother htouches

theorem keeps_bindNew (hr : Kept r) (expiration : Expirations) (handle : Handle)
    (event : EventType) (handler : Option HandlerId) :
    Keeps (.bindNew expiration handle event handler) r
      (r.bindNew expiration handle event handler).2 := by
  by_cases htimeout : event = .timeout
  · subst htimeout
    refine hr.timeouts (bindNew_timeout ..) ?_ _
    cases handler with
    | none => exact hr.entry
    | some h =>
        rw [bindNew_timeout_eq]
        cases expiration h with
        | none => exact hr.entry
        | some t =>
            intro _
            refine ⟨t, h, ?_⟩
            show h ∈ (r.bindTimeout t h).2.timeoutsAt t
            unfold bindTimeout
            split
            · next hmem => exact hmem
            · rw [timeoutsAt_insert, if_pos rfl, OrderedSet.mem_insert]
              exact Or.inl rfl
  · have hstored : storedAs event ≠ .timeout := by
      cases event <;> simp_all [storedAs]
    unfold bindNew
    cases handler with
    | none => exact hr.refl _
    | some h =>
        show Keeps _ r (if storedAs event = .none then (-1, r) else _).2
        rw [if_neg hstored]
        split
        · exact hr.refl _
        · split
          · exact hr.refl _
          · next hhandle =>
              refine hr.events (hr.indexed.setEvent hhandle) rfl (fun other hne => ?_)
                ⟨htimeout, rfl⟩
              rw [eventsOf_setEvent, if_neg hne]

theorem keeps_unbind (hr : Kept r) {expiration : Expirations} {handle : Handle} {event : EventType}
    {handler : Option HandlerId} (hpos : event = .timeout ∨ 0 ≤ handle)
    (hcareful : event = .timeout → ∀ h ∈ handler, ∀ t ∈ expiration h, h ∈ r.timeoutsAt t →
      ∃ t' h', h' ∈ r.timeoutsAt t' ∧ (t', h') ≠ (t, h)) :
    ∃ ret r', r.unbind expiration handle event handler = .ok (ret, r') ∧
      Keeps (.unbind expiration handle event handler) r r' := by
  cases handler with
  | none => exact ⟨_, _, rfl, hr.refl _⟩
  | some h =>
      by_cases htimeout : event = .timeout
      · subst htimeout
        rw [unbind_timeout_eq]
        cases hexp : expiration h with
        | none => exact ⟨_, _, rfl, hr.refl _⟩
        | some t =>
            refine ⟨_, _, rfl, hr.timeouts (unbindTimeout_sameEvents t h r) ?_ _⟩
            rcases unbindTimeout_cases t h r with ⟨-, heq⟩ | ⟨hmem, heq⟩
            · rw [heq]
              exact hr.entry
            · -- some other handler is left, so that no entry is empty for nothing
              rw [heq]
              intro _
              obtain ⟨t', h', hother⟩ := hcareful rfl h rfl t hexp hmem
              exact ⟨t', h', mem_timeoutsAt_erase.mpr hother⟩
      · have hpos := hpos.resolve_left htimeout
        unfold unbind
        dsimp only
        rw [if_neg htimeout]
        split
        · exact ⟨_, _, rfl, hr.refl _⟩
        · split
          · exact ⟨_, _, rfl, hr.refl _⟩
          · next hmem =>
              have hne := (hr.indexed.mem_iff handle).mp (not_not.mp hmem)
              cases hlookup : (r.eventsOf handle).lookup event with
              | none => exact ⟨_, _, unbindEvent_missing hpos hne hlookup, hr.refl _⟩
              | some h' =>
                  -- only the handler that is bound can be unbound
                  have hin := mem_of_lookup hlookup
                  by_cases hwrong : h' ≠ h
                  · exact ⟨_, _, by rw [unbindEvent_eq hpos hlookup, if_pos hwrong], hr.refl _⟩
                  · refine ⟨_, _, by rw [unbindEvent_eq hpos hlookup, if_neg hwrong], ?_⟩
                    refine hr.events (hr.indexed.eraseEvent hpos hin) rfl (fun other hother => ?_)
                      ⟨htimeout, rfl⟩
                    rw [eventsOf_eraseEvent hpos hin, if_neg hother]

theorem unbindHandle_cases {handle : Handle} (hpos : 0 ≤ handle) (r : PollEventRepo) :
    (r.eventsOf handle = ∅ ∧ r.unbindHandle handle = (-1, r)) ∨
    (r.eventsOf handle ≠ ∅ ∧ r.unbindHandle handle =
      (0, { r with handleSet := ∅, eventsTable := r.eventsTable.set (slot handle) ∅ })) := by
  have hvalid : handle ≠ invalidHandle := by
    rintro rfl
    exact absurd hpos (by decide)
  unfold unbindHandle eventsOf
  rw [if_neg hvalid]
  cases r.eventsTable[slot handle]? with
  | none => exact Or.inl ⟨rfl, rfl⟩
  | some events =>
      by_cases hempty : events = ∅
      · exact Or.inl ⟨hempty, if_pos (entries_length_eq_zero.mpr hempty)⟩
      · exact Or.inr ⟨hempty, if_neg (entries_length_eq_zero.not.mpr hempty)⟩

/-- The events of the other handles stay where they are, whatever becomes of the handle set. -/
theorem eventsOf_cleared {handle : Handle} (hne : r.eventsOf handle ≠ ∅) (other : Handle) :
    { r with handleSet := ∅, eventsTable := r.eventsTable.set (slot handle) ∅ }.eventsOf other =
      if other = handle then ∅ else r.eventsOf other :=
  getD_set (slot_lt_length hne) ∅ other

theorem keeps_unbindHandle (hr : Kept r) {handle : Handle} (hpos : 0 ≤ handle)
    (hcareful : r.eventsOf handle ≠ ∅ → ∀ other ∈ r.handleSet, other = handle) :
    Keeps (.unbindHandle handle) r (r.unbindHandle handle).2 := by
  rcases unbindHandle_cases hpos r with ⟨-, heq⟩ | ⟨hne, heq⟩
  · rw [heq]
    exact hr.refl _
  · rw [heq]
    have hevents := eventsOf_cleared hne
    have htouches : (Op.unbindHandle handle).Touches handle := rfl
    have hr' : Indexed { r with
        handleSet := ∅, eventsTable := r.eventsTable.set (slot handle) ∅ } := by
      refine ⟨fun other => ?_, ?_⟩
      · -- no other handle has bound events
        rw [hevents]
        apply iff_of_false (Finset.notMem_empty _)
        split
        · exact fun h => h rfl
        · next hother =>
            rw [← hr.indexed.mem_iff]
            exact fun hmem => hother (hcareful hne other hmem)
      · rw [List.length_set]
        exact hr.indexed.length_lt
    exact hr.events hr' rfl (fun other hother => (hevents other).trans (if_neg hother)) htouches

theorem keeps_unbindTimeoutHandlers (hr : Kept r) {t : TimePoint}
    (hcareful : t ∈ r.timeoutHandlers → (∃ t' ∈ r.timeoutHandlers, t' ≠ t) →
      ∃ t' h', h' ∈ r.timeoutsAt t' ∧ t' ≠ t) :
    Keeps (.unbindTimeoutHandlers t) r (r.unbindTimeoutHandlers t).2 := by
  rcases unbindTimeoutHandlers_cases t r with ⟨-, heq⟩ | ⟨hmem, heq⟩
  · rw [heq]
    exact hr.refl _
  · rw [heq]
    have hsame : SameEvents r { r with timeoutHandlers := r.timeoutHandlers.erase t } := ⟨rfl, rfl⟩
    refine hr.timeouts hsame ?_ _
    rintro ⟨t', hmem'⟩
    obtain ⟨hne, hmem'⟩ := AList.mem_erase.mp hmem'
    obtain ⟨t'', h'', hbound, hother⟩ := hcareful hmem ⟨t', hmem', hne⟩
    refine ⟨t'', h'', ?_⟩
    rw [timeoutsAt_erase, if_neg hother]
    exact hbound

theorem keeps_clear (hr : Kept r) : Keeps .clear r r.clear := by
  refine ⟨⟨⟨fun handle => ?_, ?_⟩, hr.entry⟩, fun other _ htouches => absurd trivial htouches⟩
  · exact iff_of_false (Finset.notMem_empty _) fun h => h rfl
  · show ([] : List EventMap).length < 2 ^ 32
    decide

end Steps

/-! ## Runs -/

/-- What a call owes: the members agree after it, and the other handles show nothing of it. -/
def Sound (e : Entry PollEventRepo RepoCall Int) : Prop :=
  Exact e.after ∧ Framed e.input.1 e.before e.after

/-- A careful call keeps the invariant. -/
theorem step_keeps {r : PollEventRepo} {call : RepoCall} (hr : Kept r) (hcareful : Careful r call) :
    ∃ ret r', step call r = .ok (ret, r') ∧ Keeps call.1 r r' := by
  obtain ⟨op, hpos⟩ := call
  cases op with
  | bindNew expiration handle event handler => exact ⟨_, _, rfl, keeps_bindNew hr ..⟩
  | unbind expiration handle event handler => exact keeps_unbind hr hpos hcareful
  | unbindHandle handle => exact ⟨_, _, rfl, keeps_unbindHandle hr hpos hcareful⟩
  | unbindTimeoutHandlers t => exact ⟨_, _, rfl, keeps_unbindTimeoutHandlers hr hcareful⟩
  | clear => exact ⟨_, _, rfl, keeps_clear hr⟩

/-- A call that is not careful leaves members that disagree. -/
theorem step_careless {r r' : PollEventRepo} {call : RepoCall} {ret : Int} (hr : Kept r)
    (hcareless : ¬ Careful r call) (hstep : step call r = .ok (ret, r')) : ¬ Exact r' := by
  obtain ⟨op, hpos⟩ := call
  intro hexact
  cases op with
  | bindNew expiration handle event handler => exact hcareless trivial
  | unbind expiration handle event handler =>
      apply hcareless
      intro htimeout h hh t ht hmem
      subst htimeout
      rw [Option.mem_def] at hh ht
      subst hh
      have hret : r.unbind expiration handle .timeout (some h) = .ok (ret, r') := hstep
      rw [unbind_timeout_eq, ht] at hret
      have hret : r.unbindTimeout t h = (ret, r') := Except.ok.inj hret
      rcases unbindTimeout_cases t h r with ⟨hnot, -⟩ | ⟨-, heq⟩
      · exact absurd hmem hnot
      · cases heq.symm.trans hret
        -- the entry is there, so a handler is bound, and it was bound before
        obtain ⟨t', h', hbound⟩ := hexact.exists_bound ((AList.mem_insert _).mpr (Or.inl rfl))
        exact ⟨t', h', mem_timeoutsAt_erase.mp hbound⟩
  | unbindHandle handle =>
      apply hcareless
      intro hne other hmem
      have hret : r.unbindHandle handle = (ret, r') := Except.ok.inj hstep
      rcases unbindHandle_cases hpos r with ⟨hempty, -⟩ | ⟨-, heq⟩
      · exact absurd hempty hne
      · cases heq.symm.trans hret
        by_contra hother
        have hevents := eventsOf_cleared hne other
        rw [if_neg hother] at hevents
        have hin := (hexact.handleSet_iff other).mpr
          (by rw [hevents]; exact (hr.indexed.mem_iff other).mp hmem)
        exact absurd hin (Finset.notMem_empty _)
  | unbindTimeoutHandlers t =>
      apply hcareless
      intro hmem hother
      obtain ⟨t', hmem', hne⟩ := hother
      have hret : r.unbindTimeoutHandlers t = (ret, r') := Except.ok.inj hstep
      rcases unbindTimeoutHandlers_cases t r with ⟨hnot, -⟩ | ⟨-, heq⟩
      · exact absurd hmem hnot
      · cases heq.symm.trans hret
        obtain ⟨t'', h'', hbound⟩ := hexact.exists_bound (AList.mem_erase.mpr ⟨hne, hmem'⟩)
        rw [timeoutsAt_erase] at hbound
        split at hbound
        · exact absurd hbound (OrderedSet.notMem_empty _)
        · next hother => exact ⟨t'', h'', hbound, hother⟩
  | clear => exact hcareless trivial

/-- **The members of the table agree** after every call, and no call on a handle is seen through
another, exactly when all calls are careful. -/
theorem repo_sound_iff (calls : List RepoCall) :
    AllGood step Sound new calls ↔ Along step Careful new calls := by
  refine run_good_iff ?_ ?_ calls new_kept
  · intro r call hr hcareful
    obtain ⟨ret, r', hstep, hkept, hframed⟩ := step_keeps hr hcareful
    exact ⟨ret, r', hstep, hkept, hkept.exact, hframed⟩
  · intro r call ret r' hr hcareless hstep hsound
    exact step_careless hr hcareless hstep hsound.1

/-- Two handles with a bound event, and `unbind(5)`. -/
def twoHandles : List RepoCall :=
  [⟨.bindNew (fun _ => none) 5 .read (some 0), Or.inr (by decide)⟩,
    ⟨.bindNew (fun _ => none) 6 .read (some 1), Or.inr (by decide)⟩,
    ⟨.unbindHandle 5, by show (0 : Handle) ≤ 5; decide⟩]

/-- Handle 6 still has its event, and is not in the handle set any more. -/
theorem unsound_twoHandles : ¬ AllGood step Sound new twoHandles := by
  have hset : ∃ s, run step twoHandles new = .ok s ∧ ∃ e ∈ s.1,
      (6 : Handle) ∉ e.after.handleSet ∧ EventType.read ∈ e.after.eventsOf 6 := by
    decide +kernel
  rintro ⟨history, r, hrun, hall⟩
  obtain ⟨s, hs, e, he, hnot, hmem⟩ := hset
  rw [hrun] at hs
  cases hs
  exact hnot (((hall e he).1.handleSet_iff 6).mpr (ne_empty_of_mem hmem))

end PollEventRepo

end Unp.Epoll
