import Unp.Epoll.Consistency

/-!
# Unregistering undoes registering

For `READ_EVENT` and `WRITE_EVENT` it does, in every state a reactor can reach. `ACCEPT_EVENT` is
kept as `READ_EVENT` but looked up as itself, so that it is never found again.

The states are those of any calls, proper or not: a mask may have lost the bit of a bound event, but
it has no bit without one.
-/

namespace Unp.Epoll

open Unp.Machine Unp.Run PollEventRepo

namespace EpollReactorImpl

/-- What holds in every state: no mask has a bit that no bound event stands for. -/
structure Covered (s : EpollReactorImpl) : Prop where
  indexed : s.demuxTable.Indexed
  covers : ∀ handle, Covers (pollMask (s.demuxTable.eventsOf handle).keys) (s.epoller.mask handle)
  range : -2 ^ 31 ≤ s.fdCount

theorem new_covered : Covered new where
  indexed := new_indexed
  covers _ := UInt32.or_zero
  range := by decide

section Steps
variable {expiration : Expirations} {handle : Handle} {handler : Option HandlerId} {h h' : HandlerId}
  {type : EventType} {s s' : EpollReactorImpl} {e' : Epoller}
  {ret ret' fdCount : Int}

theorem Covered.of_sameEvents (hs : Covered s) (hsame : SameEvents s.demuxTable s'.demuxTable)
    (hmask : ∀ handle, s'.epoller.mask handle = s.epoller.mask handle)
    (hrange : -2 ^ 31 ≤ s'.fdCount) : Covered s' where
  indexed := hsame.indexed hs.indexed
  covers handle := by
    rw [hsame.eventsOf, hmask]
    exact hs.covers handle
  range := hrange

theorem counted_eq (h : counted ret fdCount s = .ok (ret', s')) :
    s'.demuxTable = s.demuxTable ∧ s'.epoller = s.epoller ∧
      (-2 ^ 31 ≤ s.fdCount → -2 ^ 31 ≤ s'.fdCount) := by
  unfold counted at h
  split at h
  · obtain ⟨c, hc, hret⟩ := bind_eq_ok h
    obtain ⟨rfl, hrange⟩ := checkedI32_eq_ok hc
    cases hret
    exact ⟨rfl, rfl, fun _ => hrange.1⟩
  · cases h
    exact ⟨rfl, rfl, id⟩

theorem Covered.register (hs : Covered s)
    (hstep : s.registerHandler expiration true handle handler type = .ok (ret, s')) :
    Covered s' := by
  by_cases href : handle = invalidHandle ∨ handler = none ∨ type = .none ∨
      s.demuxTable.getHandler handle type ≠ none ∨ s.epoller.mask handle &&& pollEvent type ≠ 0
  · rw [registerHandler_refused href] at hstep
    cases hstep
    exact hs
  simp only [not_or, not_not] at href
  obtain ⟨hhandle, hhandler, hnone, hfound, hfree⟩ := href
  by_cases htimeout : type = .timeout
  · -- a timeout has no bit, so that the masks stay
    subst htimeout
    obtain ⟨e', hadd, hmasks⟩ := Epoller.add_done hfree
    rw [registerHandler, if_neg (by simp [hhandle, hhandler]), if_neg (not_not.mpr hfound), hadd]
      at hstep
    obtain ⟨htable, hepoller, hrange⟩ := counted_eq hstep
    refine hs.of_sameEvents ?_ (fun other => ?_) (hrange hs.range)
    · rw [htable]
      exact bindNew_timeout ..
    · rw [hepoller]
      refine (hmasks other).trans ?_
      split
      · next heq => rw [heq, show pollEvent .timeout = 0 from rfl, UInt32.or_zero]
      · rfl
  · obtain ⟨h, rfl⟩ := Option.ne_none_iff_exists'.mp hhandler
    obtain ⟨e', hmasks, heq⟩ := registerHandler_bind hhandle hnone htimeout hfound hfree
    rw [heq] at hstep
    obtain ⟨fdCount, hcount, hstep⟩ := bind_eq_ok hstep
    obtain ⟨rfl, hrange⟩ := checkedI32_eq_ok hcount
    cases hstep
    refine ⟨hs.indexed.setEvent hhandle, ?_, hrange.1⟩
    intro other
    show Covers (pollMask ((s.demuxTable.setEvent handle (storedAs type) h).eventsOf other).keys)
      (e'.mask other)
    rw [hmasks other, eventsOf_setEvent]
    split
    · rw [AList.keys_insert, pollMask_insert, pollEvent_storedAs]
      exact (hs.covers handle).or _
    · exact hs.covers other

theorem Covered.unregister (hs : Covered s)
    (hstep : s.unregisterHandler expiration true true handle handler type = .ok (ret, s')) :
    Covered s' := by
  by_cases href : handle = invalidHandle ∨ handler = none ∨ type = .none ∨
      s.demuxTable.getHandler handle type = none ∨ s.epoller.mask handle &&& pollEvent type = 0
  · rw [unregisterHandler_refused href] at hstep
    cases hstep
    exact hs
  simp only [not_or] at href
  obtain ⟨hhandle, hhandler, hnone, hfound, hmask⟩ := href
  obtain ⟨h, rfl⟩ := Option.ne_none_iff_exists'.mp hhandler
  obtain ⟨h', hfound⟩ := Option.ne_none_iff_exists'.mp hfound
  obtain ⟨e', hmasks, heq⟩ := unregisterHandler_found hs.indexed hhandle hfound hmask
  rw [heq] at hstep
  split at hstep
  · cases hstep
  · next hpos =>
      split at hstep
      · -- a wrong handler: the mask gets smaller, the events stay
        cases hstep
        refine ⟨hs.indexed, ?_, hs.range⟩
        intro other
        show Covers _ (e'.mask other)
        rw [hmasks other]
        split
        · next heq => exact heq ▸ (hs.covers handle).less
        · exact hs.covers other
      · obtain ⟨fdCount, hcount, hstep⟩ := bind_eq_ok hstep
        obtain ⟨rfl, hrange⟩ := checkedI32_eq_ok hcount
        cases hstep
        have hmem : type ∈ s.demuxTable.eventsOf handle :=
          mem_of_lookup ((getHandler_eq hhandle hnone).symm.trans hfound)
        have hpos := not_not.mp hpos
        refine ⟨hs.indexed.eraseEvent hpos hmem, ?_, hrange.1⟩
        intro other
        show Covers (pollMask ((s.demuxTable.eraseEvent handle type _).eventsOf other).keys)
          (e'.mask other)
        rw [hmasks other, eventsOf_eraseEvent hpos hmem]
        split
        · rw [AList.keys_erase]
          apply Covers.and_not
          rw [← pollMask_erase (AList.mem_keys.mp hmem)]
          exact hs.covers handle
        · exact hs.covers other

/-- Every call keeps the masks covered. -/
theorem Covered.step {req : Request} (hs : Covered s)
    (hstep : EpollReactorImpl.step req s = .ok (ret, s')) : Covered s' := by
  obtain ⟨expiration, call⟩ := req
  cases call with
  | register handle handler type => exact hs.register hstep
  | unregister handle handler type => exact hs.unregister hstep
  | registerTimeout handler type =>
      have hret : s.registerTimeout expiration handler type = (ret, s') := Except.ok.inj hstep
      unfold registerTimeout at hret
      split at hret
      · cases hret
        exact hs
      · next hargs =>
          obtain rfl : type = .timeout := by simpa using (not_or.mp hargs).2
          cases hret
          exact hs.of_sameEvents (bindNew_timeout ..) (fun _ => rfl) hs.range
  | unregisterTimeout handler type =>
      have hret : s.unregisterTimeout expiration handler type = .ok (ret, s') := hstep
      unfold unregisterTimeout at hret
      split at hret
      · cases hret
        exact hs
      · next hargs =>
          obtain rfl : type = .timeout := by simpa using (not_or.mp hargs).2
          obtain ⟨⟨_, table⟩, hunbind, hret⟩ := bind_eq_ok hret
          cases hret
          exact hs.of_sameEvents (unbind_timeout hunbind) (fun _ => rfl) hs.range

end Steps

/-- **Every state that calls can reach is covered.** -/
theorem run_covered {requests : List Request} {history : List (Entry EpollReactorImpl Request Int)}
    {s : EpollReactorImpl} (hrun : run step requests new = .ok (history, s)) : Covered s :=
  (run_invariant Covered (fun _ _ => True) (fun _ _ _ _ => True)
    (fun _ _ _ _ hs hstep _ => ⟨hs.step hstep, trivial⟩) new_covered hrun fun _ _ => trivial).1

/-! ## Undoing a registration -/

/-- The lookups of the table, the masks and the count are the old ones. -/
structure Restored (s s₂ : EpollReactorImpl) : Prop where
  getHandler_eq : ∀ handle type,
    s₂.demuxTable.getHandler handle type = s.demuxTable.getHandler handle type
  hasHandle_eq : ∀ handle, s₂.demuxTable.hasHandle handle = s.demuxTable.hasHandle handle
  mask_eq : ∀ handle, s₂.epoller.mask handle = s.epoller.mask handle
  fdCount_eq : s₂.fdCount = s.fdCount

section Undo
variable {expiration expiration' : Expirations} {handle : Handle} {handler : Option HandlerId}
  {h : HandlerId} {type : EventType} {s s₁ : EpollReactorImpl} {e' e'' : Epoller}

/-- A handle without events has no bit in its mask. -/
theorem Covered.mask_eq_zero (hs : Covered s) (hfree : s.demuxTable.eventsOf handle = ∅) :
    s.epoller.mask handle = 0 := by
  have hcovers := hs.covers handle
  rw [hfree] at hcovers
  exact (UInt32.or_eq_zero_iff.mp hcovers).1

/-- The state after a registration for a handle without events. -/
theorem Covered.registered (hs : Covered s) (hfree : s.demuxTable.eventsOf handle = ∅)
    (htype : IsIo type)
    (hreg : s.registerHandler expiration true handle handler type = .ok (0, s₁)) :
    ∃ h, handler = some h ∧ handle ≠ invalidHandle ∧
      s.epoller.MaskSet handle (pollEvent type) s₁.epoller ∧ s₁.fdCount = s.fdCount + 1 ∧
      s₁.fdCount < 2 ^ 31 ∧ s₁.demuxTable = s.demuxTable.setEvent handle (storedAs type) h := by
  obtain ⟨hnone, htimeout⟩ := isIo_ne_none htype
  have hmask := hs.mask_eq_zero hfree
  have hhandle : handle ≠ invalidHandle := by
    intro heq
    rw [registerHandler_refused (Or.inl heq)] at hreg
    cases hreg
  cases handler with
  | none =>
      rw [registerHandler_refused (Or.inr (Or.inl rfl))] at hreg
      cases hreg
  | some h =>
      have hfound : s.demuxTable.getHandler handle type = none := by
        rw [PollEventRepo.getHandler_eq hhandle hnone, hfree, AList.lookup_empty]
      obtain ⟨e', hmasks, heq⟩ := registerHandler_bind hhandle hnone htimeout hfound
        (by rw [hmask, UInt32.zero_and])
      rw [hmask, UInt32.zero_or] at hmasks
      rw [heq] at hreg
      obtain ⟨fdCount, hcount, hreg⟩ := bind_eq_ok hreg
      obtain ⟨rfl, hrange⟩ := checkedI32_eq_ok hcount
      cases hreg
      exact ⟨h, rfl, hhandle, hmasks, rfl, hrange.2, rfl⟩

/-- Erasing the event that has just been bound restores what was there. -/
theorem restored_of_erase (hs : Covered s) (hfree : s.demuxTable.eventsOf handle = ∅)
    (hpos : 0 ≤ handle) (hhandle : handle ≠ invalidHandle)
    (hset : s.epoller.MaskSet handle (pollEvent type) e')
    (hclear : e'.MaskSet handle (pollEvent type &&& ~~~(pollEvent type)) e'') :
    Restored s ⟨s.fdCount, (s.demuxTable.setEvent handle type h).eraseEvent handle type
      ((s.demuxTable.setEvent handle type h).eventsOf handle), e''⟩ := by
  have hmem : type ∈ (s.demuxTable.setEvent handle type h).eventsOf handle := by
    rw [eventsOf_setEvent, if_pos rfl]
    exact (AList.mem_insert _).mpr (Or.inl rfl)
  have hevents : ∀ other, ((s.demuxTable.setEvent handle type h).eraseEvent handle type
      ((s.demuxTable.setEvent handle type h).eventsOf handle)).eventsOf other =
      s.demuxTable.eventsOf other := by
    intro other
    rw [eventsOf_eraseEvent hpos hmem, eventsOf_setEvent, if_pos rfl]
    split
    · next heq =>
        rw [heq, hfree]
        apply AList.ext
        show List.kerase type ((⟨type, h⟩ : Σ _ : EventType, HandlerId) :: _) = []
        simp
    · next hne => rw [eventsOf_setEvent, if_neg hne]
  have hbound : Indexed (s.demuxTable.setEvent handle type h) := hs.indexed.setEvent hhandle
  have hindexed := hbound.eraseEvent hpos hmem
  refine ⟨fun other t => ?_, fun other => ?_, fun other => ?_, rfl⟩
  · by_cases hargs : other = invalidHandle ∨ t = .none
    · rw [getHandler, if_pos hargs, getHandler, if_pos hargs]
    · rw [not_or] at hargs
      rw [PollEventRepo.getHandler_eq hargs.1 hargs.2, PollEventRepo.getHandler_eq hargs.1 hargs.2,
        hevents]
  · have hiff := (hindexed.mem_iff other).trans (by rw [hevents, ← hs.indexed.mem_iff])
    exact decide_eq_decide.mpr hiff
  · show e''.mask other = _
    rw [hclear other]
    split
    · next heq => rw [heq, hs.mask_eq_zero hfree, UInt32.and_not_self]
    · next hne => rw [hset other, if_neg hne]

end Undo

/-- **Unregistering undoes registering**, in every state that calls can reach and for every handle
without events, exactly when the event is not `ACCEPT_EVENT` and the handle is not negative.
`dispatch_timeout_events` is not among the calls. -/
theorem unregister_undoes_register_iff (requests : List Request)
    (history : List (Entry EpollReactorImpl Request Int)) (s : EpollReactorImpl)
    (hrun : run step requests new = .ok (history, s)) (expiration expiration' : Expirations)
    (handle : Handle) (handler : Option HandlerId) (type : EventType) (htype : IsIo type)
    (hfree : s.demuxTable.eventsOf handle = ∅) (s₁ : EpollReactorImpl)
    (hreg : s.registerHandler expiration true handle handler type = .ok (0, s₁)) :
    (∃ s₂, s₁.unregisterHandler expiration' true true handle handler type = .ok (0, s₂) ∧
      Restored s s₂) ↔ type ≠ .accept ∧ 0 ≤ handle := by
  have hs := run_covered hrun
  obtain ⟨hnone, -⟩ := isIo_ne_none htype
  obtain ⟨h, rfl, hhandle, hset, hcount, hlt, htable⟩ := hs.registered hfree htype hreg
  have hs₁ := hs.register hreg
  have hevents : (s₁.demuxTable.eventsOf handle) = (∅ : EventMap).insert (storedAs type) h := by
    rw [htable, eventsOf_setEvent, if_pos rfl, hfree]
  have hmask : s₁.epoller.mask handle = pollEvent type := by rw [hset handle, if_pos rfl]
  by_cases haccept : type = .accept
  · -- it is kept as `READ_EVENT` and not found
    subst haccept
    refine iff_of_false ?_ fun hcond => hcond.1 rfl
    rintro ⟨s₂, hunreg, -⟩
    have hfound : s₁.demuxTable.getHandler handle .accept = none := by
      rw [PollEventRepo.getHandler_eq hhandle hnone, hevents]
      rfl
    rw [unregisterHandler_refused (Or.inr (Or.inr (Or.inr (Or.inl hfound))))] at hunreg
    cases hunreg
  · have hstored : storedAs type = type := by
      rcases htype with rfl | rfl | rfl
      · rfl
      · rfl
      · exact absurd rfl haccept
    have hfound : s₁.demuxTable.getHandler handle type = some h := by
      rw [PollEventRepo.getHandler_eq hhandle hnone, hevents, hstored, AList.lookup_insert]
    obtain ⟨e'', hclear, heq⟩ := unregisterHandler_found (h := h) hs₁.indexed hhandle hfound
      (by rw [hmask, UInt32.and_self]; exact pollEvent_ne_zero htype)
    rw [heq, if_neg (not_not.mpr rfl)]
    by_cases hpos : 0 ≤ handle
    · -- the event is found and erased, and its bit goes
      refine iff_of_true ?_ ⟨haccept, hpos⟩
      have hrange := hs.range
      rw [if_neg (not_not.mpr hpos), checkedI32_ok (by omega) (by omega), hcount,
        Int.add_sub_cancel, htable, hstored]
      rw [hmask] at hclear
      exact ⟨_, rfl, restored_of_erase hs hfree hpos hhandle hset hclear⟩
    · -- `eventsTable_` is indexed with a negative number
      refine iff_of_false ?_ fun hcond => hpos hcond.2
      rw [if_pos hpos]
      rintro ⟨s₂, hunreg, -⟩
      cases hunreg

/-- `register_handler(6, 1, WRITE_EVENT)` on a new reactor. -/
def writeRegistered : List Request := [⟨fun _ => none, .register 6 (some 1) .write⟩]

/-- With an event bound to descriptor 6, one is bound to descriptor 5 and taken back. -/
theorem unregister_undoes_register_read :
    ∃ history s, run step writeRegistered new = .ok (history, s) ∧
      s.demuxTable.getHandler 6 .write = some 1 ∧
      ∃ s₁, s.registerHandler (fun _ => none) true 5 (some 0) .read = .ok (0, s₁) ∧
        ((∃ s₂, s₁.unregisterHandler (fun _ => none) true true 5 (some 0) .read = .ok (0, s₂) ∧
          Restored s s₂) ↔ EventType.read ≠ .accept ∧ (0 : Handle) ≤ 5) := by
  have hrun : ∃ r, run step writeRegistered new = .ok r ∧
      r.2.demuxTable.getHandler 6 .write = some 1 ∧ (r.2.demuxTable.eventsOf 5).keys = [] ∧
      ∃ r', r.2.registerHandler (fun _ => none) true 5 (some 0) .read = .ok r' ∧ r'.1 = 0 := by
    decide +kernel
  obtain ⟨⟨history, s⟩, hrun, hbound, hkeys, ⟨ret, s₁⟩, hreg, rfl⟩ := hrun
  have hfree : s.demuxTable.eventsOf 5 = ∅ :=
    AList.ext (List.map_eq_nil_iff.mp hkeys)
  exact ⟨history, s, hrun, hbound, s₁, hreg, unregister_undoes_register_iff writeRegistered history s
    hrun (fun _ => none) (fun _ => none) 5 (some 0) .read (Or.inl rfl) hfree s₁ hreg⟩

/-- A listening socket: the registration returns 0, and taking it back is refused. -/
theorem accept_not_undone :
    ∃ r, new.registerHandler (fun _ => none) true 5 (some 0) .accept = .ok r ∧ r.1 = 0 ∧
      ¬ ∃ s₂, r.2.unregisterHandler (fun _ => none) true true 5 (some 0) .accept = .ok (0, s₂) ∧
        Restored new s₂ := by
  have hreg : ∃ r, new.registerHandler (fun _ => none) true 5 (some 0) .accept = .ok r ∧
      r.1 = 0 ∧ ∃ r', r.2.unregisterHandler (fun _ => none) true true 5 (some 0) .accept = .ok r' ∧
        r'.1 = -1 := by
    decide +kernel
  obtain ⟨r, hreg, hret, ⟨ret, s'⟩, hunreg, rfl⟩ := hreg
  refine ⟨r, hreg, hret, ?_⟩
  rintro ⟨s₂, hunreg', -⟩
  cases hunreg.symm.trans hunreg'

end EpollReactorImpl

end Unp.Epoll
