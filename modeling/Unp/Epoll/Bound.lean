import Unp.Epoll.EventRepo

/-!
# What is bound

The operations of `PollEventRepo` on the events of one handle, seen through `eventsOf`: each writes
the slot of its own handle. `Indexed` is what the vector and the handle set owe each other.
-/

namespace Unp.Epoll

open Unp.Machine

namespace PollEventRepo

/-- The events bound to a handle, as `getHandler` finds them. -/
def eventsOf (r : PollEventRepo) (handle : Handle) : EventMap :=
  r.eventsTable[slot handle]?.getD ∅

/-- The number of bound pairs of a handle and an event. -/
def boundCount (r : PollEventRepo) : Nat :=
  (r.eventsTable.map fun events => events.entries.length).sum

structure Indexed (r : PollEventRepo) : Prop where
  mem_iff : ∀ handle, handle ∈ r.handleSet ↔ r.eventsOf handle ≠ ∅
  length_lt : r.eventsTable.length < 2 ^ 32

theorem new_eventsOf (handle : Handle) : new.eventsOf handle = ∅ := rfl

theorem new_indexed : Indexed new where
  mem_iff handle := by
    rw [new_eventsOf]
    simp [new]
  length_lt := by simp [new]

theorem entries_length_eq_zero {events : EventMap} : events.entries.length = 0 ↔ events = ∅ := by
  constructor
  · intro h
    exact AList.ext (List.length_eq_zero_iff.mp h)
  · rintro rfl
    rfl

theorem ne_empty_of_mem {events : EventMap} {event : EventType} (h : event ∈ events) :
    events ≠ ∅ := by
  rintro rfl
  exact AList.notMem_empty _ h

theorem mem_of_lookup {events : EventMap} {event : EventType} {h : HandlerId}
    (hbound : events.lookup event = some h) : event ∈ events :=
  AList.lookup_isSome.mp (by rw [hbound]; rfl)

theorem getHandler_eq {r : PollEventRepo} {handle : Handle} {type : EventType}
    (hhandle : handle ≠ invalidHandle) (htype : type ≠ .none) :
    r.getHandler handle type = (r.eventsOf handle).lookup type := by
  rw [getHandler, if_neg (by simp [hhandle, htype]), eventsOf]
  cases r.eventsTable[slot handle]? <;> rfl

theorem slot_lt_length {r : PollEventRepo} {handle : Handle} (h : r.eventsOf handle ≠ ∅) :
    slot handle < r.eventsTable.length := by
  by_contra hge
  rw [eventsOf, List.getElem?_eq_none (Nat.le_of_not_lt hge)] at h
  exact h rfl

theorem length_erase {events : EventMap} {event : EventType} (h : event ∈ events) :
    (events.erase event).entries.length + 1 = events.entries.length := by
  have hkeys : ∀ m : EventMap, m.keys.length = m.entries.length := fun m => List.length_map _
  have hpos := List.length_pos_of_mem (AList.mem_keys.mp h)
  have herase := List.length_erase_of_mem (AList.mem_keys.mp h)
  rw [← AList.keys_erase, hkeys, hkeys] at herase
  rw [hkeys] at hpos
  omega

/-! ## Writing a slot -/

/-- Replacing one entry of a vector changes a sum over it by that entry. -/
theorem sum_map_set {α : Type} (f : α → Nat) (d : α) (l : List α) {i : Nat} (hi : i < l.length)
    (a : α) : ((l.set i a).map f).sum + f (l[i]?.getD d) = (l.map f).sum + f a := by
  induction l generalizing i with
  | nil => simp at hi
  | cons x xs ih =>
      cases i with
      | zero =>
          simp only [List.set_cons_zero, List.map_cons, List.sum_cons, List.getElem?_cons_zero,
            Option.getD_some]
          omega
      | succ i =>
          have := ih (Nat.lt_of_succ_lt_succ hi)
          simp only [List.set_cons_succ, List.map_cons, List.sum_cons, List.getElem?_cons_succ]
          omega

theorem getElem?_resize (table : List EventMap) (size i : Nat) :
    (resize table size)[i]?.getD ∅ = table[i]?.getD ∅ := by
  rw [resize, List.getElem?_append]
  split
  · rfl
  · next h =>
      rw [List.getElem?_eq_none (Nat.le_of_not_lt h), List.getElem?_replicate]
      split <;> rfl

theorem grown_getD (r : PollEventRepo) (handle other : Handle) :
    (r.grown handle)[slot other]?.getD ∅ = r.eventsOf other := by
  unfold grown eventsOf
  split
  · exact getElem?_resize ..
  · rfl

theorem length_grown (r : PollEventRepo) (handle : Handle) :
    (r.grown handle).length = max r.eventsTable.length (slot handle + 1) := by
  unfold grown
  split
  · rw [resize, List.length_append, List.length_replicate]
    omega
  · omega

theorem slot_lt_grown (r : PollEventRepo) (handle : Handle) :
    slot handle < (r.grown handle).length := by
  rw [length_grown]
  omega

theorem sum_grown (r : PollEventRepo) (handle : Handle) :
    ((r.grown handle).map fun events => events.entries.length).sum = r.boundCount := by
  unfold grown boundCount
  split
  · simp [resize]
  · rfl

/-- What a slot holds after it, or another one, has been written. -/
theorem getD_set {table : List EventMap} {handle : Handle} (h : slot handle < table.length)
    (events : EventMap) (other : Handle) :
    (table.set (slot handle) events)[slot other]?.getD ∅ =
      if other = handle then events else table[slot other]?.getD ∅ := by
  rw [List.getElem?_set]
  by_cases heq : other = handle
  · rw [if_pos heq, heq, if_pos rfl, if_pos h]
    rfl
  · rw [if_neg heq, if_neg (fun hslot => heq (slot_injective hslot).symm)]

/-! ## `setEvent` -/

section SetEvent
variable (handle : Handle) (event : EventType) (h : HandlerId) (r : PollEventRepo)

theorem eventsOf_setEvent (other : Handle) :
    (r.setEvent handle event h).eventsOf other =
      if other = handle then (r.eventsOf handle).insert event h else r.eventsOf other := by
  rw [eventsOf, setEvent, getD_set (slot_lt_grown r handle), grown_getD, grown_getD]

variable {handle event h r}

theorem boundCount_setEvent (hnew : event ∉ r.eventsOf handle) :
    (r.setEvent handle event h).boundCount = r.boundCount + 1 := by
  have hsum := sum_map_set (fun events : EventMap => events.entries.length) ∅ (r.grown handle)
    (slot_lt_grown r handle) ((r.eventsOf handle).insert event h)
  rw [sum_grown, grown_getD, AList.entries_insert_of_notMem hnew, List.length_cons] at hsum
  show (((r.grown handle).set (slot handle) _).map _).sum = _
  rw [grown_getD]
  omega

theorem Indexed.setEvent (hr : Indexed r) (hhandle : handle ≠ invalidHandle) :
    Indexed (r.setEvent handle event h) where
  mem_iff other := by
    have hne : (r.eventsOf handle).insert event h ≠ ∅ :=
      ne_empty_of_mem ((AList.mem_insert _).mpr (Or.inl rfl))
    rw [eventsOf_setEvent, PollEventRepo.setEvent, Finset.mem_insert]
    split
    · next heq => simp [heq, hne]
    · next hother => simp [hother, hr.mem_iff]
  length_lt := by
    have hslot := slot_lt hhandle
    have := hr.length_lt
    simp only [PollEventRepo.setEvent, List.length_set, length_grown]
    omega

end SetEvent

/-! ## `unbindEvent` -/

section UnbindEvent
variable {handle : Handle} {event : EventType} {h : HandlerId} {r : PollEventRepo}

/-- A negative handle indexes the vector far behind its end. -/
theorem unbindEvent_fault (hr : Indexed r) (hneg : ¬ 0 ≤ handle) :
    r.unbindEvent handle event h = .error .outOfBounds := by
  have hlen := hr.length_lt
  have hslot := le_signedSlot hneg
  rw [unbindEvent, readAt, List.getElem?_eq_none (by omega)]
  rfl

theorem readAt_eventsOf (hhandle : 0 ≤ handle) (hne : r.eventsOf handle ≠ ∅) :
    readAt r.eventsTable (signedSlot handle) = .ok (r.eventsOf handle) := by
  have hlt := slot_lt_length hne
  rw [readAt, signedSlot_eq_slot hhandle, eventsOf, List.getElem?_eq_getElem hlt]
  rfl

theorem unbindEvent_eq (hhandle : 0 ≤ handle) {h' : HandlerId}
    (hbound : (r.eventsOf handle).lookup event = some h') :
    r.unbindEvent handle event h = .ok
      (if h' ≠ h then (-1, r) else (0, r.eraseEvent handle event (r.eventsOf handle))) := by
  have hne := ne_empty_of_mem (mem_of_lookup hbound)
  rw [unbindEvent, readAt_eventsOf hhandle hne, ok_bind, hbound]
  show (if h' ≠ h then _ else _) = _
  split <;> rfl

theorem unbindEvent_missing (hhandle : 0 ≤ handle) (hne : r.eventsOf handle ≠ ∅)
    (hmissing : (r.eventsOf handle).lookup event = none) :
    r.unbindEvent handle event h = .ok (-1, r) := by
  rw [unbindEvent, readAt_eventsOf hhandle hne, ok_bind, hmissing]
  rfl

theorem eventsOf_eraseEvent (hhandle : 0 ≤ handle) (hmem : event ∈ r.eventsOf handle)
    (other : Handle) : (r.eraseEvent handle event (r.eventsOf handle)).eventsOf other =
      if other = handle then (r.eventsOf handle).erase event else r.eventsOf other := by
  have hlt := slot_lt_length (ne_empty_of_mem hmem)
  rw [eventsOf, eraseEvent, signedSlot_eq_slot hhandle, getD_set hlt]
  rfl

theorem boundCount_eraseEvent (hhandle : 0 ≤ handle) (hmem : event ∈ r.eventsOf handle) :
    (r.eraseEvent handle event (r.eventsOf handle)).boundCount + 1 = r.boundCount := by
  have hsum := sum_map_set (fun events : EventMap => events.entries.length) ∅ r.eventsTable
    (slot_lt_length (ne_empty_of_mem hmem)) ((r.eventsOf handle).erase event)
  have hlen := length_erase hmem
  show ((r.eventsTable.set (signedSlot handle) _).map _).sum + 1 = (r.eventsTable.map _).sum
  rw [signedSlot_eq_slot hhandle]
  rw [← eventsOf] at hsum
  omega

theorem Indexed.eraseEvent (hr : Indexed r) (hhandle : 0 ≤ handle)
    (hmem : event ∈ r.eventsOf handle) :
    Indexed (r.eraseEvent handle event (r.eventsOf handle)) where
  mem_iff other := by
    rw [eventsOf_eraseEvent hhandle hmem, PollEventRepo.eraseEvent]
    by_cases heq : other = handle
    · subst heq
      simp only [if_pos, entries_length_eq_zero]
      split
      · next hleft => simp [hleft]
      · next hleft => simp [hleft, hr.mem_iff, ne_empty_of_mem hmem]
    · simp only [if_neg heq]
      split
      · simp [heq, hr.mem_iff]
      · exact hr.mem_iff other
  length_lt := by
    simp only [PollEventRepo.eraseEvent, List.length_set]
    exact hr.length_lt

end UnbindEvent

/-! ## Timeouts -/

/-- The two tables differ in their timeout handlers only. -/
structure SameEvents (r r' : PollEventRepo) : Prop where
  handleSet_eq : r'.handleSet = r.handleSet
  eventsTable_eq : r'.eventsTable = r.eventsTable

section SameEvents
variable {r r' : PollEventRepo}

theorem SameEvents.eventsOf (h : SameEvents r r') (handle : Handle) :
    r'.eventsOf handle = r.eventsOf handle := by
  rw [PollEventRepo.eventsOf, h.eventsTable_eq, PollEventRepo.eventsOf]

theorem SameEvents.indexed (h : SameEvents r r') (hr : Indexed r) : Indexed r' where
  mem_iff handle := by rw [h.handleSet_eq, h.eventsOf, hr.mem_iff]
  length_lt := by rw [h.eventsTable_eq]; exact hr.length_lt

theorem bindTimeout_sameEvents (t : TimePoint) (h : HandlerId) (r : PollEventRepo) :
    SameEvents r (r.bindTimeout t h).2 := by
  unfold bindTimeout
  split <;> exact ⟨rfl, rfl⟩

theorem unbindTimeout_sameEvents (t : TimePoint) (h : HandlerId) (r : PollEventRepo) :
    SameEvents r (r.unbindTimeout t h).2 := by
  unfold unbindTimeout
  split
  · exact ⟨rfl, rfl⟩
  · split <;> exact ⟨rfl, rfl⟩

theorem bindNew_timeout_eq (expiration : Expirations) (handle : Handle) (h : HandlerId)
    (r : PollEventRepo) : r.bindNew expiration handle .timeout (some h) =
      match expiration h with
      | none => (-1, r)
      | some t => r.bindTimeout t h := rfl

theorem bindNew_timeout (expiration : Expirations) (handle : Handle) (handler : Option HandlerId)
    (r : PollEventRepo) : SameEvents r (r.bindNew expiration handle .timeout handler).2 := by
  cases handler with
  | none => exact ⟨rfl, rfl⟩
  | some h =>
      rw [bindNew_timeout_eq]
      cases expiration h with
      | none => exact ⟨rfl, rfl⟩
      | some t => exact bindTimeout_sameEvents t h r

theorem unbind_timeout_eq (expiration : Expirations) (handle : Handle) (h : HandlerId)
    (r : PollEventRepo) : r.unbind expiration handle .timeout (some h) =
      match expiration h with
      | none => .ok (-1, r)
      | some t => .ok (r.unbindTimeout t h) := rfl

theorem unbind_timeout {expiration : Expirations} {handle : Handle} {handler : Option HandlerId}
    {ret : Int} (hret : r.unbind expiration handle .timeout handler = .ok (ret, r')) :
    SameEvents r r' := by
  cases handler with
  | none =>
      cases hret
      exact ⟨rfl, rfl⟩
  | some h =>
      rw [unbind_timeout_eq] at hret
      cases hexp : expiration h with
      | none =>
          rw [hexp] at hret
          cases hret
          exact ⟨rfl, rfl⟩
      | some t =>
          rw [hexp] at hret
          have hsame := unbindTimeout_sameEvents t h r
          rw [Except.ok.inj hret] at hsame
          exact hsame

end SameEvents

/-! ## The handlers of a time point -/

section TimePoints
variable {r : PollEventRepo} {t t' : TimePoint} {h h' : HandlerId}

/-- A bound handler has an entry. -/
theorem mem_timeoutHandlers (hbound : h ∈ r.timeoutsAt t) : t ∈ r.timeoutHandlers := by
  by_contra hnot
  rw [timeoutsAt, AList.lookup_eq_none.mpr hnot] at hbound
  exact OrderedSet.notMem_empty _ hbound

theorem timeoutsAt_insert (bound : OrderedSet HandlerId) (t' : TimePoint) :
    { r with timeoutHandlers := r.timeoutHandlers.insert t bound }.timeoutsAt t' =
      if t' = t then bound else r.timeoutsAt t' := by
  unfold timeoutsAt
  by_cases heq : t' = t
  · subst heq
    rw [if_pos rfl, AList.lookup_insert]
    rfl
  · rw [if_neg heq, AList.lookup_insert_ne heq]

theorem timeoutsAt_erase (t' : TimePoint) :
    { r with timeoutHandlers := r.timeoutHandlers.erase t }.timeoutsAt t' =
      if t' = t then .empty else r.timeoutsAt t' := by
  unfold timeoutsAt
  by_cases heq : t' = t
  · subst heq
    rw [if_pos rfl, AList.lookup_erase]
    rfl
  · rw [if_neg heq, AList.lookup_erase_ne heq]

theorem mem_timeoutsAt_erase {t t' : TimePoint} {h h' : HandlerId} :
    h' ∈ { r with timeoutHandlers :=
        r.timeoutHandlers.insert t ((r.timeoutsAt t).erase h) }.timeoutsAt t' ↔
      h' ∈ r.timeoutsAt t' ∧ (t', h') ≠ (t, h) := by
  rw [timeoutsAt_insert]
  split
  · next heq => simp [heq, and_comm]
  · next hne => simp [hne]

theorem mem_bindTimeout :
    h' ∈ (r.bindTimeout t h).2.timeoutsAt t' ↔ h' ∈ r.timeoutsAt t' ∨ (t, h) = (t', h') := by
  unfold bindTimeout
  split
  · next hbound =>
      refine ⟨Or.inl, ?_⟩
      rintro (hmem | heq)
      · exact hmem
      · cases heq
        exact hbound
  · rw [timeoutsAt_insert]
    split
    · next heq => simp [heq, or_comm, eq_comm]
    · next hne => simp [Ne.symm hne]

/-- The handler is taken from its time point, whose entry stays. -/
theorem unbindTimeout_cases (t : TimePoint) (h : HandlerId) (r : PollEventRepo) :
    (h ∉ r.timeoutsAt t ∧ r.unbindTimeout t h = (-1, r)) ∨
    (h ∈ r.timeoutsAt t ∧ r.unbindTimeout t h = (0, { r with
      timeoutHandlers := r.timeoutHandlers.insert t ((r.timeoutsAt t).erase h) })) := by
  unfold unbindTimeout timeoutsAt
  cases r.timeoutHandlers.lookup t with
  | none => exact Or.inl ⟨OrderedSet.notMem_empty _, rfl⟩
  | some bound =>
      by_cases hmem : h ∈ bound
      · exact Or.inr ⟨hmem, if_neg (not_not.mpr hmem)⟩
      · exact Or.inl ⟨hmem, if_pos hmem⟩

theorem mem_unbindTimeout :
    h' ∈ (r.unbindTimeout t h).2.timeoutsAt t' ↔ h' ∈ r.timeoutsAt t' ∧ (t', h') ≠ (t, h) := by
  rcases unbindTimeout_cases t h r with ⟨hnot, heq⟩ | ⟨-, heq⟩
  · rw [heq]
    refine ⟨fun hmem => ⟨hmem, ?_⟩, And.left⟩
    rintro heq
    cases heq
    exact hnot hmem
  · rw [heq]
    exact mem_timeoutsAt_erase

theorem unbindTimeoutHandlers_cases (t : TimePoint) (r : PollEventRepo) :
    (t ∉ r.timeoutHandlers ∧ r.unbindTimeoutHandlers t = (-1, r)) ∨
    (t ∈ r.timeoutHandlers ∧ r.unbindTimeoutHandlers t =
      (0, { r with timeoutHandlers := r.timeoutHandlers.erase t })) := by
  unfold unbindTimeoutHandlers
  cases hlookup : r.timeoutHandlers.lookup t with
  | none => exact Or.inl ⟨AList.lookup_eq_none.mp hlookup, rfl⟩
  | some bound => exact Or.inr ⟨AList.lookup_isSome.mp (by rw [hlookup]; rfl), rfl⟩

theorem mem_unbindTimeoutHandlers :
    h' ∈ (r.unbindTimeoutHandlers t).2.timeoutsAt t' ↔ h' ∈ r.timeoutsAt t' ∧ t' ≠ t := by
  rcases unbindTimeoutHandlers_cases t r with ⟨hnot, heq⟩ | ⟨-, heq⟩
  · rw [heq]
    refine ⟨fun hmem => ⟨hmem, ?_⟩, And.left⟩
    rintro rfl
    exact hnot (mem_timeoutHandlers hmem)
  · rw [heq, timeoutsAt_erase]
    split
    · next heq => simp [heq]
    · next hne => simp [hne]

/-- `getLatestTimeoutHandlers` has the handlers of the point that `getLastestTimeoutPoint` names. -/
theorem mem_getLatestTimeoutHandlers :
    h ∈ r.getLatestTimeoutHandlers ↔ h ∈ r.timeoutsAt r.getLastestTimeoutPoint := by
  unfold getLatestTimeoutHandlers getLastestTimeoutPoint
  cases hfirst : r.firstTimePoint with
  | none =>
      apply iff_of_false (OrderedSet.notMem_empty _)
      intro hmem
      have hkey := AList.mem_keys.mp (mem_timeoutHandlers hmem)
      rw [List.min?_eq_none_iff.mp hfirst] at hkey
      cases hkey
  | some t => rfl

section Calls
variable {expiration : Expirations} {handle : Handle} {event : EventType}
  {handler : Option HandlerId}

theorem bindNew_timeoutHandlers (htimeout : event ≠ .timeout) :
    (r.bindNew expiration handle event handler).2.timeoutHandlers = r.timeoutHandlers := by
  have hstored : storedAs event ≠ .timeout := by
    cases event <;> simp [storedAs] at htimeout ⊢
  unfold bindNew
  cases handler with
  | none => rfl
  | some h =>
      simp only [if_neg hstored]
      split
      · rfl
      · split <;> rfl

/-- `bindNew` adds one handler at most, and only for `TIMEOUT_EVENT`. -/
theorem mem_bindNew :
    h' ∈ (r.bindNew expiration handle event handler).2.timeoutsAt t' ↔
      h' ∈ r.timeoutsAt t' ∨ (event = .timeout ∧ handler = some h' ∧ expiration h' = some t') := by
  by_cases htimeout : event = .timeout
  · subst htimeout
    cases handler with
    | none => simp [bindNew]
    | some h =>
        rw [bindNew_timeout_eq]
        cases hexp : expiration h with
        | none =>
            refine ⟨Or.inl, fun hmem => hmem.resolve_right ?_⟩
            rintro ⟨-, heq, hexp'⟩
            cases heq
            cases hexp.symm.trans hexp'
        | some t =>
            rw [mem_bindTimeout]
            constructor
            · rintro (hmem | heq)
              · exact Or.inl hmem
              · cases heq
                exact Or.inr ⟨rfl, rfl, hexp⟩
            · rintro (hmem | ⟨-, heq, hexp'⟩)
              · exact Or.inl hmem
              · cases heq
                cases hexp.symm.trans hexp'
                exact Or.inr rfl
  · rw [timeoutsAt, bindNew_timeoutHandlers htimeout]
    exact ⟨Or.inl, fun hmem => hmem.resolve_right fun hand => htimeout hand.1⟩

theorem unbind_timeoutHandlers {ret : Int} {r' : PollEventRepo} (htimeout : event ≠ .timeout)
    (hret : r.unbind expiration handle event handler = .ok (ret, r')) :
    r'.timeoutHandlers = r.timeoutHandlers := by
  cases handler with
  | none =>
      cases hret
      rfl
  | some h =>
      simp only [unbind, if_neg htimeout] at hret
      split at hret
      · cases hret
        rfl
      split at hret
      · cases hret
        rfl
      unfold unbindEvent at hret
      obtain ⟨events, -, hret⟩ := bind_eq_ok hret
      split at hret
      · cases hret
        rfl
      · split at hret
        · cases hret
          rfl
        · cases hret
          rfl

/-- What `unbind` does for `TIMEOUT_EVENT`. -/
theorem mem_unbind {ret : Int} {r' : PollEventRepo}
    (hret : r.unbind expiration handle .timeout handler = .ok (ret, r')) :
    h' ∈ r'.timeoutsAt t' ↔
      h' ∈ r.timeoutsAt t' ∧ ¬ (handler = some h' ∧ expiration h' = some t') := by
  cases handler with
  | none =>
      cases hret
      simp
  | some h =>
      rw [unbind_timeout_eq] at hret
      cases hexp : expiration h with
      | none =>
          rw [hexp] at hret
          cases hret
          refine ⟨fun hmem => ⟨hmem, ?_⟩, And.left⟩
          rintro ⟨heq, hexp'⟩
          cases heq
          cases hexp.symm.trans hexp'
      | some t =>
          rw [hexp] at hret
          rw [← show (r.unbindTimeout t h).2 = r' from congrArg Prod.snd (Except.ok.inj hret),
            mem_unbindTimeout]
          refine and_congr_right fun _ => not_congr ?_
          constructor
          · intro heq
            cases heq
            exact ⟨rfl, hexp⟩
          · rintro ⟨heq, hexp'⟩
            cases heq
            cases hexp.symm.trans hexp'
            rfl

end Calls

end TimePoints

end PollEventRepo

end Unp.Epoll
