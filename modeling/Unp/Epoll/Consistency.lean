import Unp.Epoll.Reactor

/-!
# The three records of a registration

Masks, bound events and `fd_count_` say the same of a reactor as long as every event is unregistered
with the handler that is bound: `unregister_handler` clears the mask before the table gets to say
that the handler is a wrong one. (And as long as the handles that are unregistered are not negative,
which the table takes for an index, and the count stays an `int`.)

Whatever is called, the masks are covered by the bound events; this is what remains of the agreement
in every state a reactor can reach, and it is enough for a registration to be undone.
-/

namespace Unp.Epoll

open Unp.Machine Unp.Run PollEventRepo

/-! ## Bits -/

section Bits
variable {a p q : UInt32}

theorem and_not_and_self : (a &&& ~~~p) &&& p = 0 := by
  rw [UInt32.and_assoc, UInt32.and_comm (~~~p), UInt32.and_not_self, UInt32.and_zero]

/-- One equation of words follows from another when it does so bit by bit. -/
theorem eq_of_bits {x y u v : UInt32} (h : u = v)
    (hbits : ∀ i (hi : i < 32), u.toBitVec[i] = v.toBitVec[i] → x.toBitVec[i] = y.toBitVec[i]) :
    x = y := by
  apply UInt32.toBitVec_inj.mp
  ext i hi
  exact hbits i hi (by rw [h])

/-- Taking away what was added gives back what was there. -/
theorem or_and_not (h : p &&& q = 0) : (p ||| q) &&& ~~~p = q := by
  apply eq_of_bits h
  intro i hi hbit
  simp only [UInt32.toBitVec_and, UInt32.toBitVec_or, UInt32.toBitVec_not, BitVec.getElem_and,
    BitVec.getElem_or, BitVec.getElem_not] at hbit ⊢
  cases hp : p.toBitVec[i] <;> cases hq : q.toBitVec[i] <;> simp_all

/-- The bits of `a` are among those of `b`. -/
def Covers (b a : UInt32) : Prop := a ||| b = b

theorem Covers.or (h : Covers q a) (p : UInt32) : Covers (p ||| q) (a ||| p) := by
  rw [Covers, UInt32.or_assoc, ← UInt32.or_assoc p, UInt32.or_self, UInt32.or_comm p,
    ← UInt32.or_assoc, h]

theorem Covers.and_not (h : Covers (p ||| q) a) : Covers q (a &&& ~~~p) := by
  apply eq_of_bits h
  intro i hi hbit
  simp only [UInt32.toBitVec_and, UInt32.toBitVec_or, UInt32.toBitVec_not, BitVec.getElem_and,
    BitVec.getElem_or, BitVec.getElem_not] at hbit ⊢
  cases hp : p.toBitVec[i] <;> cases hq : q.toBitVec[i] <;> simp_all

theorem Covers.less (h : Covers q a) : Covers q (a &&& ~~~p) := by
  apply Covers.and_not
  rw [Covers, UInt32.or_comm p, ← UInt32.or_assoc, h]

end Bits

namespace EpollReactorImpl

/-! ## What a call does

Said once for each of the two operations; the sections below derive everything from it. -/

section Calls
variable {expiration : Expirations} {handle : Handle} {handler : Option HandlerId} {h h' : HandlerId}
  {type : EventType} {s : EpollReactorImpl}

/-- A call that passes the tests of its arguments and of the table is refused for the mask. -/
theorem mask_refuses {a b c found mask : Prop} (href : a ∨ b ∨ c ∨ found ∨ mask)
    (hargs : ¬ (a ∨ b ∨ c)) (hfound : ¬ found) : mask := by
  rw [not_or, not_or] at hargs
  rcases href with href | href | href | href | href
  · exact absurd href hargs.1
  · exact absurd href hargs.2.1
  · exact absurd href hargs.2.2
  · exact absurd href hfound
  · exact href

theorem registerHandler_refused
    (href : handle = invalidHandle ∨ handler = none ∨ type = .none ∨
      s.demuxTable.getHandler handle type ≠ none ∨ s.epoller.mask handle &&& pollEvent type ≠ 0) :
    s.registerHandler expiration true handle handler type = .ok (-1, s) := by
  unfold registerHandler
  split
  · rfl
  · split
    · rfl
    · next hargs hfound =>
        rw [Epoller.add_refused true (mask_refuses href hargs hfound)]
        rfl

/-- A registration that is not refused binds, if the count can still grow. -/
theorem registerHandler_bind (hhandle : handle ≠ invalidHandle) (hnone : type ≠ .none)
    (htimeout : type ≠ .timeout) (hfound : s.demuxTable.getHandler handle type = none)
    (hfree : s.epoller.mask handle &&& pollEvent type = 0) :
    ∃ e', s.epoller.MaskSet handle (s.epoller.mask handle ||| pollEvent type) e' ∧
      s.registerHandler expiration true handle (some h) type = (do
        let fdCount ← checkedI32 (s.fdCount + 1)
        pure (0, ⟨fdCount, s.demuxTable.setEvent handle (storedAs type) h, e'⟩)) := by
  obtain ⟨e', hadd, hmasks⟩ := Epoller.add_done hfree
  refine ⟨e', hmasks, ?_⟩
  have hstored : storedAs type ≠ .none ∧ storedAs type ≠ .timeout := by
    cases type <;> simp_all [storedAs]
  have hargs : ¬ (handle = invalidHandle ∨ some h = none ∨ type = .none) := by
    simp [hhandle, hnone]
  rw [registerHandler, if_neg hargs, if_neg (not_not.mpr hfound), hadd]
  simp only [bindNew, if_neg hstored.1, if_neg hstored.2, if_neg hhandle]
  rfl

theorem unregisterHandler_refused
    (href : handle = invalidHandle ∨ handler = none ∨ type = .none ∨
      s.demuxTable.getHandler handle type = none ∨ s.epoller.mask handle &&& pollEvent type = 0) :
    s.unregisterHandler expiration true true handle handler type = .ok (-1, s) := by
  unfold unregisterHandler
  split
  · rfl
  · split
    · rfl
    · next hargs hfound =>
        rw [Epoller.del_refused true true (mask_refuses href hargs hfound)]
        rfl

/-- The mask is cleared first; then the table looks at the handle and at the handler. -/
theorem unregisterHandler_found (hr : s.demuxTable.Indexed) (hhandle : handle ≠ invalidHandle)
    (hfound : s.demuxTable.getHandler handle type = some h')
    (hmask : s.epoller.mask handle &&& pollEvent type ≠ 0) :
    ∃ e', s.epoller.MaskSet handle (s.epoller.mask handle &&& ~~~(pollEvent type)) e' ∧
      s.unregisterHandler expiration true true handle (some h) type =
        if ¬ 0 ≤ handle then .error .outOfBounds
        else if h' ≠ h then .ok (-1, { s with epoller := e' })
        else (do
          let fdCount ← checkedI32 (s.fdCount - 1)
          pure (0, ⟨fdCount,
            s.demuxTable.eraseEvent handle type (s.demuxTable.eventsOf handle), e'⟩)) := by
  obtain ⟨e', hdel, hmasks⟩ := Epoller.del_done hmask
  refine ⟨e', hmasks, ?_⟩
  have hnone : type ≠ .none := by
    rintro rfl
    exact hmask (UInt32.and_zero)
  have htimeout : type ≠ .timeout := by
    rintro rfl
    exact hmask (UInt32.and_zero)
  have hargs : ¬ (handle = invalidHandle ∨ some h = none ∨ type = .none) := by
    simp [hhandle, hnone]
  have hlookup : (s.demuxTable.eventsOf handle).lookup type = some h' := by
    rw [← getHandler_eq hhandle hnone, hfound]
  have hmem : handle ∈ s.demuxTable.handleSet := by
    rw [hr.mem_iff]
    exact ne_empty_of_mem (mem_of_lookup hlookup)
  rw [unregisterHandler, if_neg hargs, if_neg (by simp [hfound]), hdel]
  simp only [unbind, if_neg hnone, if_neg htimeout, if_neg (not_not.mpr hmem)]
  by_cases hneg : 0 ≤ handle
  · rw [unbindEvent_eq hneg hlookup, if_neg (not_not.mpr hneg)]
    by_cases hwrong : h' ≠ h
    · rw [if_pos hwrong, if_pos hwrong]
      rfl
    · rw [if_neg hwrong, if_neg hwrong]
      rfl
  · rw [unbindEvent_fault hr hneg, if_pos hneg]
    rfl

end Calls

/-! ## Consistency -/

/-- The mask of every handle is the union of those of its events, and `fd_count_` is the number of
bound pairs. -/
structure Consistent (s : EpollReactorImpl) : Prop where
  mask_eq : ∀ handle, s.epoller.mask handle = pollMask (s.demuxTable.eventsOf handle).keys
  count_eq : s.fdCount = s.demuxTable.boundCount

/-- `READ_EVENT`, `WRITE_EVENT` and `ACCEPT_EVENT`. -/
def IsIo (type : EventType) : Prop := type = .read ∨ type = .write ∨ type = .accept

/-- Registering or unregistering one of these events for a handle. -/
def Call.OnIo : Call → Prop
  | .register _ _ type => IsIo type
  | .unregister _ _ type => IsIo type
  | _ => False

abbrev IoRequest := { req : Request // req.call.OnIo }

def ioStep (req : IoRequest) (s : EpollReactorImpl) : Res (Int × EpollReactorImpl) := step req.1 s

/-- A new event is bound only while the count can grow; an event that is bound is unregistered only
with its own handler, and for a handle that is not negative. -/
def Proper (s : EpollReactorImpl) (req : IoRequest) : Prop :=
  match req.1.call with
  | .register handle (some _) type =>
      handle ≠ invalidHandle → storedAs type ∉ s.demuxTable.eventsOf handle →
        s.demuxTable.boundCount < 2 ^ 31 - 1
  | .unregister handle (some h) type =>
      ∀ h' ∈ s.demuxTable.getHandler handle type, h' = h ∧ 0 ≤ handle
  | _ => True

/-- The invariant: consistency, and what the operations need to keep it. -/
structure Synced (s : EpollReactorImpl) : Prop where
  consistent : Consistent s
  indexed : s.demuxTable.Indexed
  keys_io : ∀ handle, ∀ type ∈ s.demuxTable.eventsOf handle, type = .read ∨ type = .write
  count_lt : s.demuxTable.boundCount < 2 ^ 31

theorem new_synced : Synced new where
  consistent := ⟨fun _ => rfl, rfl⟩
  indexed := new_indexed
  keys_io handle type hmem := absurd hmem (by rw [new, new_eventsOf]; exact AList.notMem_empty _)
  count_lt := by simp [new, PollEventRepo.new, boundCount]

section Io
variable {types : List EventType} {type : EventType}

/-- Events that are kept under different types do not share a bit. -/
theorem pollEvent_disjoint {t : EventType} (htype : IsIo type) (ht : t = .read ∨ t = .write)
    (hne : storedAs type ≠ t) : pollEvent type &&& pollEvent t = 0 := by
  rcases htype with rfl | rfl | rfl <;> rcases ht with rfl | rfl
  all_goals first | exact absurd rfl hne | decide

theorem pollEvent_ne_zero (htype : IsIo type) : pollEvent type ≠ 0 := by
  rcases htype with rfl | rfl | rfl <;> decide

/-- A bit of the mask tells whether the event it stands for is bound. -/
theorem pollMask_and_iff (hkeys : ∀ t ∈ types, t = .read ∨ t = .write) (htype : IsIo type) :
    pollMask types &&& pollEvent type ≠ 0 ↔ storedAs type ∈ types := by
  constructor
  · intro hne
    by_contra hnot
    apply hne
    rw [UInt32.and_comm]
    refine pollMask_disjoint fun t ht => pollEvent_disjoint htype (hkeys t ht) ?_
    rintro rfl
    exact hnot ht
  · intro hmem heq
    rw [pollMask_erase hmem, pollEvent_storedAs, UInt32.and_comm] at heq
    have hsplit : pollEvent type &&& (pollEvent type ||| pollMask (types.erase (storedAs type))) =
        (pollEvent type &&& pollEvent type) |||
          (pollEvent type &&& pollMask (types.erase (storedAs type))) :=
      UInt32.toBitVec_inj.mp BitVec.and_or_distrib_left
    rw [heq, UInt32.and_self] at hsplit
    exact pollEvent_ne_zero htype (UInt32.or_eq_zero_iff.mp hsplit.symm).1

end Io

section Steps
variable {expiration : Expirations} {handle : Handle} {handler : Option HandlerId} {h h' : HandlerId}
  {type : EventType} {s : EpollReactorImpl} {e' : Epoller}

theorem Synced.mask_and_iff (hs : Synced s) (htype : IsIo type) :
    s.epoller.mask handle &&& pollEvent type ≠ 0 ↔
      storedAs type ∈ s.demuxTable.eventsOf handle := by
  rw [hs.consistent.mask_eq]
  exact pollMask_and_iff (hs.keys_io handle) htype

theorem isIo_ne_none (htype : IsIo type) : type ≠ .none ∧ type ≠ .timeout := by
  rcases htype with rfl | rfl | rfl <;> decide

/-- An event that is found is kept under its own type. -/
theorem Synced.storedAs_eq (hs : Synced s) (hmem : type ∈ s.demuxTable.eventsOf handle) :
    storedAs type = type := by
  rcases hs.keys_io handle type hmem with rfl | rfl <;> rfl

/-- The event gets bound and its bit set. -/
theorem Synced.bound (hs : Synced s) (htype : IsIo type) (hhandle : handle ≠ invalidHandle)
    (hnew : storedAs type ∉ s.demuxTable.eventsOf handle)
    (hmasks : s.epoller.MaskSet handle (s.epoller.mask handle ||| pollEvent type) e')
    (hcount : s.demuxTable.boundCount < 2 ^ 31 - 1) :
    Synced ⟨s.fdCount + 1, s.demuxTable.setEvent handle (storedAs type) h, e'⟩ where
  consistent :=
    { mask_eq := by
        intro other
        show e'.mask other =
          pollMask ((s.demuxTable.setEvent handle (storedAs type) h).eventsOf other).keys
        rw [hmasks other, eventsOf_setEvent]
        split
        · rw [AList.keys_insert, pollMask_insert, hs.consistent.mask_eq, pollEvent_storedAs,
            UInt32.or_comm]
        · exact hs.consistent.mask_eq other
      count_eq := by
        show s.fdCount + 1 = ((s.demuxTable.setEvent handle (storedAs type) h).boundCount : Int)
        rw [boundCount_setEvent hnew, hs.consistent.count_eq]
        rfl }
  indexed := hs.indexed.setEvent hhandle
  keys_io := by
    intro other t ht
    rw [eventsOf_setEvent] at ht
    split at ht
    · rcases (AList.mem_insert _).mp ht with rfl | ht
      · rcases htype with rfl | rfl | rfl <;> decide
      · exact hs.keys_io handle t ht
    · exact hs.keys_io other t ht
  count_lt := by
    show (s.demuxTable.setEvent handle (storedAs type) h).boundCount < 2 ^ 31
    rw [boundCount_setEvent hnew]
    omega

/-- The event gets unbound and its bit cleared. -/
theorem Synced.unbound (hs : Synced s) (htype : IsIo type) (hhandle : 0 ≤ handle)
    (hmem : type ∈ s.demuxTable.eventsOf handle)
    (hmasks : s.epoller.MaskSet handle (s.epoller.mask handle &&& ~~~(pollEvent type)) e') :
    Synced ⟨s.fdCount - 1,
      s.demuxTable.eraseEvent handle type (s.demuxTable.eventsOf handle), e'⟩ where
  consistent :=
    { mask_eq := by
        intro other
        show e'.mask other =
          pollMask ((s.demuxTable.eraseEvent handle type _).eventsOf other).keys
        rw [hmasks other, eventsOf_eraseEvent hhandle hmem]
        split
        · -- no other event of the handle has this bit
          rw [AList.keys_erase, hs.consistent.mask_eq, pollMask_erase (AList.mem_keys.mp hmem)]
          refine or_and_not (pollMask_disjoint ?_)
          intro t ht
          have hkeys := List.mem_of_mem_erase ht
          apply pollEvent_disjoint htype (hs.keys_io handle t hkeys)
          rw [hs.storedAs_eq hmem]
          rintro rfl
          exact (s.demuxTable.eventsOf handle).keys_nodup.not_mem_erase ht
        · exact hs.consistent.mask_eq other
      count_eq := by
        have hcount := boundCount_eraseEvent hhandle hmem
        have := hs.consistent.count_eq
        show s.fdCount - 1 = ((s.demuxTable.eraseEvent handle type _).boundCount : Int)
        omega }
  indexed := hs.indexed.eraseEvent hhandle hmem
  keys_io := by
    intro other t ht
    rw [eventsOf_eraseEvent hhandle hmem] at ht
    split at ht
    · exact hs.keys_io handle t (AList.mem_erase.mp ht).2
    · exact hs.keys_io other t ht
  count_lt := by
    have hcount := boundCount_eraseEvent hhandle hmem
    have := hs.count_lt
    show (s.demuxTable.eraseEvent handle type _).boundCount < 2 ^ 31
    omega

variable (expiration handle handler) in
/-- What a registration does in a state of the invariant. -/
theorem Synced.register (hs : Synced s) (htype : IsIo type) :
    ((handle = invalidHandle ∨ handler = none ∨ storedAs type ∈ s.demuxTable.eventsOf handle) ∧
      s.registerHandler expiration true handle handler type = .ok (-1, s)) ∨
    ∃ h e', handler = some h ∧ handle ≠ invalidHandle ∧
      storedAs type ∉ s.demuxTable.eventsOf handle ∧
      s.epoller.MaskSet handle (s.epoller.mask handle ||| pollEvent type) e' ∧
      s.registerHandler expiration true handle handler type = (do
        let fdCount ← checkedI32 (s.fdCount + 1)
        pure (0, ⟨fdCount, s.demuxTable.setEvent handle (storedAs type) h, e'⟩)) := by
  obtain ⟨hnone, htimeout⟩ := isIo_ne_none htype
  by_cases hhandle : handle = invalidHandle
  · exact Or.inl ⟨Or.inl hhandle, registerHandler_refused (Or.inl hhandle)⟩
  cases handler with
  | none => exact Or.inl ⟨Or.inr (Or.inl rfl), registerHandler_refused (Or.inr (Or.inl rfl))⟩
  | some h =>
      by_cases hmem : storedAs type ∈ s.demuxTable.eventsOf handle
      · left
        refine ⟨Or.inr (Or.inr hmem), registerHandler_refused ?_⟩
        exact Or.inr (Or.inr (Or.inr (Or.inr ((hs.mask_and_iff htype).mpr hmem))))
      · right
        have hfound : s.demuxTable.getHandler handle type = none := by
          rw [getHandler_eq hhandle hnone, AList.lookup_eq_none]
          intro hin
          rw [hs.storedAs_eq hin] at hmem
          exact hmem hin
        have hfree : s.epoller.mask handle &&& pollEvent type = 0 :=
          not_not.mp ((hs.mask_and_iff htype).not.mpr hmem)
        obtain ⟨e', hmasks, heq⟩ := registerHandler_bind (h := h) hhandle hnone htimeout hfound hfree
        exact ⟨h, e', rfl, hhandle, hmem, hmasks, heq⟩

variable (expiration handle handler) in
/-- What an unregistration does in a state of the invariant. -/
theorem Synced.unregister (hs : Synced s) (htype : IsIo type) :
    ((handler = none ∨ s.demuxTable.getHandler handle type = none) ∧
      s.unregisterHandler expiration true true handle handler type = .ok (-1, s)) ∨
    ∃ h h' e', handler = some h ∧ s.demuxTable.getHandler handle type = some h' ∧
      type ∈ s.demuxTable.eventsOf handle ∧
      s.epoller.MaskSet handle (s.epoller.mask handle &&& ~~~(pollEvent type)) e' ∧
      s.unregisterHandler expiration true true handle handler type =
        if ¬ 0 ≤ handle then .error .outOfBounds
        else if h' ≠ h then .ok (-1, { s with epoller := e' })
        else (do
          let fdCount ← checkedI32 (s.fdCount - 1)
          pure (0, ⟨fdCount,
            s.demuxTable.eraseEvent handle type (s.demuxTable.eventsOf handle), e'⟩)) := by
  obtain ⟨hnone, -⟩ := isIo_ne_none htype
  by_cases hhandle : handle = invalidHandle
  · exact Or.inl ⟨Or.inr (if_pos (Or.inl hhandle)), unregisterHandler_refused (Or.inl hhandle)⟩
  cases handler with
  | none => exact Or.inl ⟨Or.inl rfl, unregisterHandler_refused (Or.inr (Or.inl rfl))⟩
  | some h =>
      cases hfound : s.demuxTable.getHandler handle type with
      | none =>
          refine Or.inl ⟨Or.inr rfl, unregisterHandler_refused ?_⟩
          exact Or.inr (Or.inr (Or.inr (Or.inl hfound)))
      | some h' =>
          right
          have hmem : type ∈ s.demuxTable.eventsOf handle :=
            mem_of_lookup ((getHandler_eq hhandle hnone).symm.trans hfound)
          have hmask := (hs.mask_and_iff htype).mpr (by rwa [hs.storedAs_eq hmem])
          obtain ⟨e', hmasks, heq⟩ :=
            unregisterHandler_found (h := h) hs.indexed hhandle hfound hmask
          exact ⟨h, h', e', rfl, rfl, hmem, hmasks, heq⟩

end Steps

/-- A proper call keeps the invariant. -/
theorem Synced.step {s : EpollReactorImpl} {req : IoRequest} (hs : Synced s)
    (hproper : Proper s req) : ∃ ret s', ioStep req s = .ok (ret, s') ∧ Synced s' := by
  have hcount := hs.consistent.count_eq
  have hlt := hs.count_lt
  obtain ⟨⟨expiration, call⟩, hio⟩ := req
  cases call with
  | register handle handler type =>
      rcases hs.register expiration handle handler hio with
        ⟨-, heq⟩ | ⟨h, e', rfl, hhandle, hnew, hmasks, heq⟩
      · exact ⟨_, _, heq, hs⟩
      · have hroom : s.demuxTable.boundCount < 2 ^ 31 - 1 := hproper hhandle hnew
        rw [checkedI32_ok (by omega) (by omega)] at heq
        exact ⟨_, _, heq, hs.bound hio hhandle hnew hmasks hroom⟩
  | unregister handle handler type =>
      rcases hs.unregister expiration handle handler hio with
        ⟨-, heq⟩ | ⟨h, h', e', rfl, hfound, hmem, hmasks, heq⟩
      · exact ⟨_, _, heq, hs⟩
      · obtain ⟨rfl, hhandle⟩ := hproper h' hfound
        rw [if_neg (not_not.mpr hhandle), if_neg (not_not.mpr rfl),
          checkedI32_ok (by omega) (by omega)] at heq
        exact ⟨_, _, heq, hs.unbound hio hhandle hmem hmasks⟩
  | registerTimeout handler type => exact hio.elim
  | unregisterTimeout handler type => exact hio.elim

/-- A call that is not proper does not return, or leaves a bound event without its bit. -/
theorem Synced.step_improper {s s' : EpollReactorImpl} {req : IoRequest} {ret : Int}
    (hs : Synced s) (hproper : ¬ Proper s req) (hstep : ioStep req s = .ok (ret, s')) :
    ¬ Consistent s' := by
  have hcount := hs.consistent.count_eq
  obtain ⟨⟨expiration, call⟩, hio⟩ := req
  cases call with
  | register handle handler type =>
      rcases hs.register expiration handle handler hio with
        ⟨hrefused, -⟩ | ⟨h, e', rfl, hhandle, hnew, hmasks, heq⟩
      · refine absurd ?_ hproper
        cases handler with
        | none => trivial
        | some h =>
            intro hhandle hnew
            rcases hrefused with href | href | href
            · exact absurd href hhandle
            · cases href
            · exact absurd href hnew
      · by_cases hroom : s.demuxTable.boundCount < 2 ^ 31 - 1
        · exact absurd (fun _ _ => hroom) hproper
        · -- `fd_count_` overflows
          rw [checkedI32_overflow (by omega), error_bind] at heq
          cases heq.symm.trans hstep
  | unregister handle handler type =>
      rcases hs.unregister expiration handle handler hio with
        ⟨hrefused, -⟩ | ⟨h, h', e', rfl, hfound, hmem, hmasks, heq⟩
      · refine absurd ?_ hproper
        cases handler with
        | none => trivial
        | some h =>
            intro h' hfound
            rcases hrefused with href | href
            · cases href
            · rw [href] at hfound
              cases hfound
      · have hret := heq.symm.trans hstep
        split at hret
        · cases hret
        · next hhandle =>
            have hwrong : h' ≠ h := by
              rintro rfl
              apply hproper
              intro h'' hfound'
              rw [hfound] at hfound'
              cases hfound'
              exact ⟨rfl, not_not.mp hhandle⟩
            rw [if_pos hwrong] at hret
            cases hret
            -- the bit is gone and the event is not
            intro hcons
            have hmask := hcons.mask_eq handle
            rw [show e'.mask handle = _ from hmasks handle, if_pos rfl] at hmask
            refine (hs.mask_and_iff hio).mpr (by rwa [hs.storedAs_eq hmem]) ?_
            rw [hs.consistent.mask_eq, ← hmask, and_not_and_self]
  | registerTimeout handler type => exact hio.elim
  | unregisterTimeout handler type => exact hio.elim

/-- **Three-way consistency**: after every call the masks are those of the bound events and
`fd_count_` is their number, exactly when all calls are proper. -/
theorem consistent_iff (requests : List IoRequest) :
    AllGood ioStep (fun e => Consistent e.after) new requests ↔
      Along ioStep Proper new requests := by
  refine run_good_iff ?_ ?_ requests new_synced
  · intro s req hs hproper
    obtain ⟨ret, s', hstep, hs'⟩ := hs.step hproper
    exact ⟨ret, s', hstep, hs', hs'.consistent⟩
  · intro s req ret s' hs hproper hstep
    exact hs.step_improper hproper hstep

/-- An event is bound to one handler and unregistered with another. -/
def wrongHandler : List IoRequest :=
  [⟨⟨fun _ => none, .register 5 (some 0) .read⟩, Or.inl rfl⟩,
    ⟨⟨fun _ => none, .unregister 5 (some 1) .read⟩, Or.inl rfl⟩]

/-- The event stays bound and its bit is cleared. -/
theorem inconsistent_wrongHandler :
    ¬ AllGood ioStep (fun e => Consistent e.after) new wrongHandler := by
  have hmask : ∃ r, run ioStep wrongHandler new = .ok r ∧ ∃ e ∈ r.1,
      e.after.epoller.mask 5 ≠ pollMask (e.after.demuxTable.eventsOf 5).keys := by
    decide +kernel
  rintro ⟨history, s, hrun, hall⟩
  obtain ⟨r, hr, e, he, hne⟩ := hmask
  rw [hrun] at hr
  cases hr
  exact hne ((hall e he).mask_eq 5)

end EpollReactorImpl

end Unp.Epoll
