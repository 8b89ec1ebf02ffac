import Unp.Timer.Moves

/-!
# The hooks of the handlers

The hook of a handler is in one of the lists of the wheel or in the local list of a call that is under
way. The invariant: it is in one of them at most once, only the handlers of users are linked, none of
these has been destroyed, and no list of the first bucket is occupied without its bit.
-/

namespace Unp.Timer

open Unp.Machine Unp.Slots Unp.Run

namespace Wheel

theorem linked_of_empty {w : Wheel} (h : ∀ p, w.lists p = []) : w.linked = 0 := by
  apply Multiset.eq_zero_of_forall_notMem
  intro x hx
  obtain ⟨p, hx⟩ := mem_linked.mp hx
  simp [h p] at hx

theorem isLinked_iff {w : Wheel} {h : HandlerId} : w.isLinked h = true ↔ h ∈ w.linked := by
  rw [mem_linked, isLinked, List.any_eq_true]
  constructor
  · rintro ⟨b, -, hb⟩
    obtain ⟨s, -, hs⟩ := List.any_eq_true.mp hb
    exact ⟨(b, s), of_decide_eq_true hs⟩
  · rintro ⟨⟨b, s⟩, hs⟩
    exact ⟨b, List.mem_finRange b,
      List.any_eq_true.mpr ⟨s, List.mem_finRange s, decide_eq_true hs⟩⟩

theorem unlink_linked (w : Wheel) (h : HandlerId) :
    (w.unlink h).linked = w.linked.filter (· ≠ h) := by
  rw [linked, linked, unlink, contents_filter]
  exact Multiset.filter_congr fun x _ => by simp

/-! ## Cancelling -/

/-- What cancelling the handlers in `gone` leaves of the others. -/
structure Cancelled (gone : HandlerId → Prop) (w w' : Wheel) : Prop where
  handlers_eq : ∀ x, ¬ gone x → w'.handlers x = w.handlers x
  destroyed_eq : ∀ x, ¬ gone x → w'.destroyed x = w.destroyed x
  clock_eq : w'.clock = w.clock
  fns_eq : w'.fns = w.fns
  internals_eq : w'.internals = w.internals

theorem Cancelled.refl (gone : HandlerId → Prop) (w : Wheel) : Cancelled gone w w :=
  ⟨fun _ _ => rfl, fun _ _ => rfl, rfl, rfl, rfl⟩

theorem Cancelled.trans {gone : HandlerId → Prop} {w₁ w₂ w₃ : Wheel} (h₁ : Cancelled gone w₁ w₂)
    (h₂ : Cancelled gone w₂ w₃) : Cancelled gone w₁ w₃ where
  handlers_eq x hx := (h₂.handlers_eq x hx).trans (h₁.handlers_eq x hx)
  destroyed_eq x hx := (h₂.destroyed_eq x hx).trans (h₁.destroyed_eq x hx)
  clock_eq := h₂.clock_eq.trans h₁.clock_eq
  fns_eq := h₂.fns_eq.trans h₁.fns_eq
  internals_eq := h₂.internals_eq.trans h₁.internals_eq

theorem Cancelled.mono {gone gone' : HandlerId → Prop} {w w' : Wheel} (h : Cancelled gone w w')
    (hle : ∀ x, gone x → gone' x) : Cancelled gone' w w' :=
  { h with
    handlers_eq := fun x hx => h.handlers_eq x fun hg => hx (hle x hg)
    destroyed_eq := fun x hx => h.destroyed_eq x fun hg => hx (hle x hg) }

/-- The wheel after `unregister_handler`. -/
def withoutRegistered (w : Wheel) (h : HandlerId) : Wheel :=
  if h ∈ w.registered then
    { w.setHandler h { w.handlers h with isRegistered := false } with
      registered := w.registered.erase h }
  else { w with registered := [] }

theorem ensureUnregistered_cases {w w' : Wheel} {h : HandlerId}
    (hrun : w.ensureUnregistered h = .ok w') :
    ((w.handlers h).isRegistered = false ∧ w' = w) ∨
      ((w.handlers h).isRegistered = true ∧ w.HeapIntact ∧ w' = w.withoutRegistered h) := by
  rw [ensureUnregistered] at hrun
  split at hrun
  · next hflag =>
    obtain ⟨heap, hheap, hrun⟩ := bind_eq_ok hrun
    obtain ⟨hintact, rfl⟩ := heap_eq_ok hheap
    refine Or.inr ⟨hflag, hintact, ?_⟩
    rw [withoutRegistered]
    split at hrun
    · next hmem =>
      cases hrun
      rw [if_pos hmem]
    · next hmem =>
      cases hrun
      rw [if_neg hmem]
  · next hflag =>
    cases hrun
    exact Or.inl ⟨Bool.eq_false_of_not_eq_true hflag, rfl⟩

/-- The handler has been reset, and deleted if it is the timer's. -/
def withReset (w : Wheel) (h : HandlerId) : Wheel :=
  if h.needDestroy then
    (w.setHandler h { w.handlers h with expiration := 0, slotInBucket := -1 }).delete h
  else w.setHandler h { w.handlers h with expiration := 0, slotInBucket := -1 }

theorem cancelHandler_eq_ok {slot : Int} {w w' : Wheel} {h : HandlerId}
    (hrun : cancelHandler slot w h = .ok w') :
    (w.handlers h).slotInBucket = slot ∧
      ∃ w₁, w.ensureUnregistered h = .ok w₁ ∧ w' = w₁.withReset h := by
  rw [cancelHandler] at hrun
  split at hrun
  · cases hrun
  · next hslot =>
    obtain ⟨w₁, hunregister, hrun⟩ := bind_eq_ok hrun
    refine ⟨not_not.mp hslot, w₁, hunregister, ?_⟩
    cases hrun
    rw [withReset]

theorem withoutRegistered_cancelled (w : Wheel) (h : HandlerId) :
    Cancelled (· = h) w (w.withoutRegistered h) := by
  rw [withoutRegistered]
  split
  · refine ⟨fun x hx => ?_, fun _ _ => rfl, rfl, rfl, rfl⟩
    simp only [setHandler]
    rw [Function.update_of_ne hx]
  · exact ⟨fun _ _ => rfl, fun _ _ => rfl, rfl, rfl, rfl⟩

theorem withReset_cancelled (w : Wheel) (h : HandlerId) :
    Cancelled (· = h) w (w.withReset h) := by
  rw [withReset]
  split
  · refine ⟨fun x hx => ?_, fun x hx => ?_, rfl, rfl, rfl⟩ <;>
    · simp only [delete, setHandler]
      rw [Function.update_of_ne hx]
  · refine ⟨fun x hx => ?_, fun _ _ => rfl, rfl, rfl, rfl⟩
    simp only [setHandler]
    rw [Function.update_of_ne hx]

theorem cancelHandler_ok {slot : Int} {w w' : Wheel} {h : HandlerId}
    (hrun : cancelHandler slot w h = .ok w') :
    w'.lists = w.lists ∧ w'.bits = w.bits ∧ w'.timerCount = w.timerCount ∧
      Cancelled (· = h) w w' := by
  obtain ⟨-, w₁, hunregister, rfl⟩ := cancelHandler_eq_ok hrun
  have hreset : (w₁.withReset h).lists = w₁.lists ∧ (w₁.withReset h).bits = w₁.bits ∧
      (w₁.withReset h).timerCount = w₁.timerCount := by
    rw [withReset]
    split <;> exact ⟨rfl, rfl, rfl⟩
  have hthen := withReset_cancelled w₁ h
  rcases ensureUnregistered_cases hunregister with ⟨-, rfl⟩ | ⟨-, -, rfl⟩
  · exact ⟨hreset.1, hreset.2.1, hreset.2.2, hthen⟩
  · have hwithout : (w.withoutRegistered h).lists = w.lists ∧
        (w.withoutRegistered h).bits = w.bits ∧
        (w.withoutRegistered h).timerCount = w.timerCount := by
      rw [withoutRegistered]
      split <;> exact ⟨rfl, rfl, rfl⟩
    exact ⟨hreset.1.trans hwithout.1, hreset.2.1.trans hwithout.2.1, hreset.2.2.trans hwithout.2.2,
      (withoutRegistered_cancelled w h).trans hthen⟩

theorem cancelHandlers_ok {slot : Int} {hs : List HandlerId} {w w' : Wheel}
    (hrun : hs.foldlM (cancelHandler slot) w = .ok w') :
    w'.lists = w.lists ∧ w'.bits = w.bits ∧ w'.timerCount = w.timerCount ∧
      Cancelled (· ∈ hs) w w' := by
  apply foldlM_invariant (fun v : Wheel => v.lists = w.lists ∧ v.bits = w.bits ∧
    v.timerCount = w.timerCount ∧ Cancelled (· ∈ hs) w v) ?_ ⟨rfl, rfl, rfl, .refl _ w⟩ hrun
  rintro v h hh v' ⟨hlists, hbits, hcount, hgone⟩ hone
  obtain ⟨hlists', hbits', hcount', hone⟩ := cancelHandler_ok hone
  exact ⟨hlists'.trans hlists, hbits'.trans hbits, hcount'.trans hcount,
    hgone.trans (hone.mono fun x hx => hx ▸ hh)⟩

/-- One list is emptied, and the counter lowered by its length. -/
theorem cancelTimeoutsFromList_ok {w w' : Wheel} {p : Place}
    (hrun : w.cancelTimeoutsFromList p = .ok w') :
    w'.lists = Function.update w.lists p [] ∧
      u64 (w'.timerCount + (w.lists p).length) = u64 w.timerCount ∧
      (w.timerCount < 2 ^ 64 → w'.timerCount < 2 ^ 64) ∧ Cancelled (· ∈ w.lists p) w w' := by
  rw [cancelTimeoutsFromList] at hrun
  split at hrun
  · next hnil =>
    cases hrun
    refine ⟨?_, ?_, id, .refl _ _⟩
    · rw [← hnil, Function.update_eq_self]
    · rw [hnil, List.length_nil, Nat.add_zero]
  · next h hs hcons =>
    obtain ⟨w₁, hfold, hrun⟩ := bind_eq_ok hrun
    cases hrun
    obtain ⟨hlists, -, hcount, hgone⟩ := cancelHandlers_ok hfold
    rw [hcons]
    simp only [hcount]
    refine ⟨hlists, ?_, fun _ => ?_, ⟨hgone.handlers_eq, hgone.destroyed_eq, hgone.clock_eq,
      hgone.fns_eq, hgone.internals_eq⟩⟩ <;>
    · generalize (h :: hs).length = k
      unfold u64 subU64
      omega

theorem cancelPlaces_ok {ps : List Place} {w w' : Wheel}
    (hrun : ps.foldlM cancelTimeoutsFromList w = .ok w') :
    (∀ p, p ∈ ps ∨ w.lists p = [] → w'.lists p = []) ∧
      u64 (w'.timerCount + w.linked.card) = u64 (w.timerCount + w'.linked.card) ∧
      (w.timerCount < 2 ^ 64 → w'.timerCount < 2 ^ 64) ∧ Cancelled (· ∈ w.linked) w w' := by
  induction ps generalizing w with
  | nil =>
      cases hrun
      exact ⟨fun p hp => by simpa using hp, rfl, id, .refl _ _⟩
  | cons q ps ih =>
      rw [List.foldlM_cons] at hrun
      obtain ⟨w₁, hone, hrun⟩ := bind_eq_ok hrun
      obtain ⟨hlists, hcount, hlt, hgone⟩ := cancelTimeoutsFromList_ok hone
      obtain ⟨hempty, hcounts, hlts, hrest⟩ := ih hrun
      have hsplit := linked_of_cleared hlists
      have hcard : w.linked.card = (w.lists q).length + w₁.linked.card := by
        rw [hsplit, Multiset.card_add, Multiset.coe_card]
      refine ⟨fun p hp => ?_, ?_, fun h => hlts (hlt h), ?_⟩
      · apply hempty
        rw [hlists]
        by_cases hpq : p = q
        · subst hpq
          exact Or.inr (Function.update_self ..)
        · rw [Function.update_of_ne hpq]
          exact hp.imp (fun h => (List.mem_cons.mp h).resolve_left hpq) id
      · rw [hcard]
        unfold u64 at *
        omega
      · refine (hgone.mono fun x hx => mem_linked.mpr ⟨q, hx⟩).trans (hrest.mono fun x hx => ?_)
        rw [hsplit]
        exact Multiset.mem_add.mpr (Or.inr hx)

theorem mem_places (p : Place) : p ∈ places := by
  rw [places, List.mem_flatMap]
  exact ⟨p.1, List.mem_finRange _, List.mem_map.mpr ⟨p.2, List.mem_finRange _, rfl⟩⟩

/-- The last lines of `cancelAll`. -/
theorem cancelAll_eq_ok {w w' : Wheel} (hrun : w.cancelAll = .ok w') :
    ∃ w₁, places.foldlM cancelTimeoutsFromList w = .ok w₁ ∧
      ((w₁.timerCount = 0 ∧ w₁.HeapIntact ∧ w' = { w₁ with registered := [] }) ∨
        (w₁.timerCount ≠ 0 ∧ w' = w₁)) := by
  rw [cancelAll] at hrun
  obtain ⟨w₁, hfold, hrun⟩ := bind_eq_ok hrun
  refine ⟨w₁, hfold, ?_⟩
  split at hrun
  · next hzero =>
    obtain ⟨heap, hheap, hrun⟩ := bind_eq_ok hrun
    cases hrun
    exact Or.inl ⟨hzero, (heap_eq_ok hheap).1, rfl⟩
  · next hpos =>
    cases hrun
    exact Or.inr ⟨hpos, rfl⟩

/-- After `cancelAll` nothing is linked, and the counter has been lowered by what was. -/
theorem cancelAll_ok {w w' : Wheel} (hrun : w.cancelAll = .ok w') :
    (∀ p, w'.lists p = []) ∧ u64 (w'.timerCount + w.linked.card) = u64 w.timerCount ∧
      (w.timerCount < 2 ^ 64 → w'.timerCount < 2 ^ 64) ∧ Cancelled (· ∈ w.linked) w w' := by
  obtain ⟨w₁, hfold, hend⟩ := cancelAll_eq_ok hrun
  obtain ⟨hempty, hcount, hlt, hgone⟩ := cancelPlaces_ok hfold
  have hnone : ∀ p, w₁.lists p = [] := fun p => hempty p (Or.inl (mem_places p))
  rw [linked_of_empty hnone, Multiset.card_zero, Nat.add_zero] at hcount
  rcases hend with ⟨-, -, rfl⟩ | ⟨-, rfl⟩
  · exact ⟨hnone, hcount, hlt, ⟨hgone.handlers_eq, hgone.destroyed_eq, hgone.clock_eq,
      hgone.fns_eq, hgone.internals_eq⟩⟩
  · exact ⟨hnone, hcount, hlt, hgone⟩

end Wheel

namespace HHWheelTimer

open Wheel

/-! ## The invariant -/

/-- The handlers whose hooks are in a list. -/
def hooked (t : HHWheelTimer) : Multiset HandlerId :=
  t.wheel.linked + (t.pending : Multiset HandlerId)

theorem hooked_of_eq {t t' : HHWheelTimer} (hlists : t'.wheel.lists = t.wheel.lists)
    (hcalls : t'.calls = t.calls) : t'.hooked = t.hooked := by
  rw [hooked, hooked, pending, pending, linked_of_lists_eq hlists, hcalls]

theorem mem_hooked {t : HHWheelTimer} {x : HandlerId} :
    x ∈ t.hooked ↔ x ∈ t.wheel.linked ∨ x ∈ t.pending := by
  rw [hooked, Multiset.mem_add, Multiset.mem_coe]

theorem isLinked_iff {t : HHWheelTimer} {h : HandlerId} : t.isLinked h = true ↔ h ∈ t.hooked := by
  rw [isLinked, Bool.or_eq_true, decide_eq_true_eq, Wheel.isLinked_iff, mem_hooked]

theorem pending_cons (call : Call) (calls : List Call) (w : Wheel) (control : Control) :
    (⟨w, control, call :: calls⟩ : HHWheelTimer).pending =
      call.expiredTimers ++ calls.flatMap Call.expiredTimers := by
  rw [pending, List.flatMap_cons]

structure WellLinked (t : HHWheelTimer) : Prop where
  bitSync : BitSync t.wheel
  nodup : t.hooked.Nodup
  users : ∀ x ∈ t.hooked, x.isInternal = false
  alive : ∀ x ∈ t.hooked, t.wheel.destroyed x = false
  outside : t.control = .outside → t.calls = []
  inLoop : t.control = .loop → t.calls ≠ []

theorem new_wellLinked : WellLinked new where
  bitSync s hs := absurd rfl hs
  nodup := by
    rw [hooked, linked_of_empty fun _ => rfl]
    exact Multiset.nodup_zero
  users x hx := by
    rw [hooked, linked_of_empty fun _ => rfl] at hx
    exact absurd hx (Multiset.notMem_zero x)
  alive _ _ := rfl
  outside _ := rfl
  inLoop h := by cases h

section WellLinked
variable {t : HHWheelTimer}

theorem WellLinked.linked_nodup (h : WellLinked t) : t.wheel.linked.Nodup :=
  Multiset.nodup_of_le (Multiset.le_add_right _ _) h.nodup

theorem WellLinked.linked_users (h : WellLinked t) {x : HandlerId} (hx : x ∈ t.wheel.linked) :
    x.isInternal = false := h.users x (mem_hooked.mpr (Or.inl hx))

/-- A handler waits in a call or is linked in the wheel, but not both. -/
theorem WellLinked.not_linked (h : WellLinked t) {x : HandlerId} (hx : x ∈ t.pending) :
    x ∉ t.wheel.linked := fun hmem =>
  Multiset.disjoint_left.mp (Multiset.nodup_add.mp h.nodup).2.2 hmem hx

end WellLinked

/-! ## Every move keeps it -/

theorem clearRegistered_bitSync {w : Wheel} (h : HandlerId) (hsync : BitSync w) :
    BitSync (w.clearRegistered h) := fun s hs => hsync s hs

theorem clearRegistered_linked (w : Wheel) (h : HandlerId) :
    (w.clearRegistered h).linked = w.linked := linked_of_lists_eq rfl

section Walk
variable {t : HHWheelTimer} (cfg : Config) (h : HandlerId)

/-- The handler of a call is either passed by the walk, and taken out there, or not taken out. -/
theorem mem_walked_iff (hw : WellLinked t)
    (hdue : ∀ p, h ∈ t.wheel.lists p → Visited t.wheel.expireTick (t.wheel.curTick cfg) p →
      p.1 ≠ 0 → t.wheel.tick cfg h ≤ t.wheel.curTick cfg) :
    h ∈ ((t.wheel.clearRegistered h).walked cfg).1 ↔
      ∃ p, h ∈ t.wheel.lists p ∧ Visited t.wheel.expireTick (t.wheel.curTick cfg) p := by
  have hsync := clearRegistered_bitSync h hw.bitSync
  have hwalk := walked_spec cfg hsync
  constructor
  · intro hmem
    obtain ⟨p, hp, hv⟩ := hwalk.drained_origin hmem
    rw [entered_lists] at hp
    rw [entered_expireTick] at hv
    exact ⟨p, hp, hv⟩
  · rintro ⟨p, hp, hv⟩
    have hgone : h ∉ ((t.wheel.clearRegistered h).walked cfg).2.linked := by
      intro hmem
      obtain ⟨q, hq⟩ := mem_linked.mp hmem
      refine hwalk.takes (fun q hq => ?_) q hq
      rw [entered_lists] at hq
      obtain rfl := place_unique hw.linked_nodup hq hp
      rw [tick, entered_handlers, clearRegistered_expiration, entered_expireTick]
      exact ⟨hv, hdue q hp hv⟩
    have hlinked : h ∈ (t.wheel.clearRegistered h).linked := mem_linked.mpr ⟨p, hp⟩
    rw [walked_linked cfg hsync, Multiset.mem_add] at hlinked
    exact hlinked.resolve_right hgone

/-- What is drained is what is going to be fired, and `h` when the walk passes it. -/
theorem length_expiredTimers (hw : WellLinked t) :
    ((t.wheel.clearRegistered h).walked cfg).1.length =
      ((t.wheel.clearRegistered h).expiredTimers cfg h).length +
        if h ∈ ((t.wheel.clearRegistered h).walked cfg).1 then 1 else 0 := by
  have hsync := clearRegistered_bitSync h hw.bitSync
  have hflag : (((t.wheel.clearRegistered h).walked cfg).2.handlers h).isRegistered = false := by
    rw [(walked_spec cfg hsync).frame.isRegistered_eq, entered_handlers]
    exact clearRegistered_isRegistered t.wheel h
  have hnodup : ((t.wheel.clearRegistered h).walked cfg).1.Nodup := by
    have hlinked := hw.linked_nodup
    rw [← clearRegistered_linked t.wheel h, walked_linked cfg hsync] at hlinked
    exact Multiset.coe_nodup.mp (Multiset.nodup_add.mp hlinked).1
  have hexpired : (t.wheel.clearRegistered h).expiredTimers cfg h =
      ((t.wheel.clearRegistered h).walked cfg).1.erase h := by
    rw [expiredTimers, hnodup.erase_eq_filter, hflag]
    apply List.filter_congr
    intro c _
    by_cases hc : c = h <;> simp [hc]
  rw [hexpired]
  split
  · next hmem =>
    rw [List.length_erase_of_mem hmem]
    have := List.length_pos_of_mem hmem
    omega
  · next hmem => rw [List.erase_of_not_mem hmem, Nat.add_zero]

end Walk

/-- The walk of a call takes handlers out of the wheel; some of them wait in the call then. -/
theorem entered_hooked_le (cfg : Config) (h : HandlerId) {w : Wheel} (hsync : BitSync w)
    (calls : List Call) (control : Control) :
    (⟨(w.walked cfg).2, .loop, ⟨h, w.curTick cfg, w.expiredTimers cfg h⟩ :: calls⟩ :
      HHWheelTimer).hooked ≤ (⟨w, control, calls⟩ : HHWheelTimer).hooked := by
  have hsub : (w.expiredTimers cfg h : Multiset HandlerId) ≤ (w.walked cfg).1 :=
    Multiset.coe_le.mpr (List.filter_sublist.subperm)
  rw [hooked, hooked, pending_cons, ← Multiset.coe_add]
  show (w.walked cfg).2.linked + ((w.expiredTimers cfg h : Multiset HandlerId) + _) ≤ w.linked + _
  rw [walked_linked cfg hsync, ← add_assoc, add_comm (w.walked cfg).2.linked]
  exact add_le_add_left (add_le_add_left hsub _) _

theorem destroy_pending (t : HHWheelTimer) (h : HandlerId) :
    (t.destroy h).pending = t.pending.filter (· ≠ h) := by
  rw [pending, pending, destroy, List.flatMap_map, List.filter_flatMap]

theorem destroy_hooked (t : HHWheelTimer) (h : HandlerId) :
    (t.destroy h).hooked = t.hooked.filter (· ≠ h) := by
  rw [hooked, hooked, Multiset.filter_add, destroy_pending]
  congr 1
  exact Wheel.unlink_linked t.wheel h

theorem destroy_bitSync {t : HHWheelTimer} (h : HandlerId) (hsync : BitSync t.wheel) :
    BitSync (t.destroy h).wheel := by
  intro s hs
  apply hsync
  intro hnil
  apply hs
  show (t.wheel.lists (0, s)).filter (· ≠ h) = []
  rw [hnil, List.filter_nil]

theorem released_wheel (t : HHWheelTimer) (h : HandlerId) :
    (t.released h).wheel = if h.needDestroy then (t.destroy h).wheel else t.wheel := by
  rw [released]
  split <;> rfl

section Released
variable (t : HHWheelTimer) (h : HandlerId)

@[simp] theorem released_timerCount : (t.released h).wheel.timerCount = t.wheel.timerCount := by
  rw [released_wheel]
  split <;> rfl

@[simp] theorem released_handlers : (t.released h).wheel.handlers = t.wheel.handlers := by
  rw [released_wheel]
  split <;> rfl

@[simp] theorem released_registered : (t.released h).wheel.registered = t.wheel.registered := by
  rw [released_wheel]
  split <;> rfl

@[simp] theorem released_bits : (t.released h).wheel.bits = t.wheel.bits := by
  rw [released_wheel]
  split <;> rfl

@[simp] theorem released_fns : (t.released h).wheel.fns = t.wheel.fns := by
  rw [released_wheel]
  split <;> rfl

@[simp] theorem released_internals : (t.released h).wheel.internals = t.wheel.internals := by
  rw [released_wheel]
  split <;> rfl

@[simp] theorem released_clock : (t.released h).wheel.clock = t.wheel.clock := by
  rw [released_wheel]
  split <;> rfl

end Released

theorem released_calls (t : HHWheelTimer) (h : HandlerId) :
    (t.released h).calls = if h.needDestroy then (t.destroy h).calls else t.calls := by
  rw [released]
  split <;> rfl

theorem released_hooked (t : HHWheelTimer) (h : HandlerId) :
    (t.released h).hooked = if h.needDestroy then t.hooked.filter (· ≠ h) else t.hooked := by
  rw [← destroy_hooked, hooked, pending, released_wheel, released_calls]
  split <;> rfl

theorem released_hooked_le (t : HHWheelTimer) (h : HandlerId) : (t.released h).hooked ≤ t.hooked := by
  rw [released_hooked]
  split
  · exact Multiset.filter_le _ _
  · exact le_refl _

/-- What is scheduled is hooked into the wheel. -/
theorem scheduled_hooked {cfg : Config} {t : HHWheelTimer} {input : Input} {h : HandlerId}
    {timeout : Int} {w : Wheel}
    (hnext : ((t.prepared input).wheel.inserted cfg h timeout).scheduleNextTimeoutInReactor cfg
      (t.wheel.curTick cfg) = .ok w) :
    ({ t with wheel := w } : HHWheelTimer).hooked = h ::ₘ t.hooked := by
  have hlinked : w.linked = h ::ₘ t.wheel.linked := by
    rw [linked_of_lists_eq (scheduleNext_rearmed hnext).lists_eq, inserted_linked, prepared_linked]
  rw [hooked, hlinked, Multiset.cons_add]
  rfl

theorem cancelled_hooked {t : HHWheelTimer} {w : Wheel} (hcancel : t.wheel.cancelAll = .ok w) :
    ({ t with wheel := w } : HHWheelTimer).hooked = t.pending := by
  rw [hooked, linked_of_empty (cancelAll_ok hcancel).1, zero_add]
  rfl

/-- Nothing is hooked in or unhooked at the end of a call. -/
theorem returned_hooked {cfg : Config} {t : HHWheelTimer} {h : HandlerId} {curTick : Int}
    {calls : List Call} {w : Wheel} (control : Control) (hcalls : t.calls = ⟨h, curTick, []⟩ :: calls)
    (hrearm : t.wheel.rearm cfg curTick = .ok w) :
    (⟨w, control, calls⟩ : HHWheelTimer).hooked = t.hooked := by
  rw [hooked, hooked, pending, pending, hcalls, List.flatMap_cons, List.nil_append,
    linked_of_lists_eq (rearm_rearmed hrearm).lists_eq]

/-- All that comes in is what is scheduled. -/
theorem Move.hooked_cases {cfg : Config} {t t' : HHWheelTimer} {input : Input}
    {events : List Event} (hmove : Move cfg t input events t') (hsync : BitSync t.wheel) :
    t'.hooked ≤ t.hooked ∨ ∃ h timeout, t.schedules input = some (h, timeout) ∧
      t'.knows h = true ∧ h ∉ t.hooked ∧ t'.hooked = h ::ₘ t.hooked := by
  cases hmove with
  | idle => exact Or.inl (le_refl _)
  | looked | fired | left | resumed => exact Or.inl (hooked_of_eq rfl rfl).le
  | scheduled huser hschedules hknows halive hlinked hnext =>
      refine Or.inr ⟨_, _, hschedules, ?_, fun hmem => ?_, scheduled_hooked hnext⟩
      · rw [← hknows]
        apply knows_of_fns_eq
        exact (scheduleNext_rearmed hnext).fns_eq.trans (inserted_fns _ _ _ _)
      · rw [isLinked_iff.mpr hmem] at hlinked
        cases hlinked
  | cancelled huser hcancel =>
      rw [cancelled_hooked hcancel]
      exact Or.inl (Multiset.le_add_left _ _)
  | @entered h w hcontrol hclear =>
      subst hclear
      exact Or.inl (entered_hooked_le cfg h (clearRegistered_bitSync h hsync) t.calls t.control)
  | @called h c curTick cs calls hcontrol hcalls =>
      rw [hooked, hooked, pending, pending, hcalls, List.flatMap_cons, List.flatMap_cons]
      exact Or.inl (add_le_add_right (Multiset.coe_le.mpr (List.sublist_cons_self c _).subperm) _)
  | @returned h curTick calls w hcontrol hcalls hrearm =>
      rw [← returned_hooked t.control hcalls hrearm]
      exact Or.inl (released_hooked_le _ h)

theorem Move.bitSync {cfg : Config} {t t' : HHWheelTimer} {input : Input} {events : List Event}
    (hmove : Move cfg t input events t') (hsync : BitSync t.wheel) : BitSync t'.wheel := by
  cases hmove with
  | idle | called => exact hsync
  | looked | fired | left | resumed => exact fun s hs => hsync s hs
  | @scheduled _ h timeout w huser hschedules hknows halive hlinked hnext =>
      have hrearmed := scheduleNext_rearmed hnext
      have hprepared : BitSync (t.prepared input).wheel := by
        intro s hs
        rw [prepared_lists] at hs
        rw [prepared_bits]
        exact hsync s hs
      intro s hs
      rw [hrearmed.lists_eq] at hs
      rw [hrearmed.bits_eq]
      exact inserted_bitSync cfg h timeout hprepared s hs
  | cancelled huser hcancel => exact fun s hs => absurd ((cancelAll_ok hcancel).1 _) hs
  | @entered h w hcontrol hclear =>
      subst hclear
      exact (walked_spec cfg (clearRegistered_bitSync h hsync)).bitSync
  | @returned h curTick calls w hcontrol hcalls hrearm =>
      have hrearmed := rearm_rearmed hrearm
      have hw : BitSync w := by
        intro s hs
        rw [hrearmed.lists_eq] at hs
        rw [hrearmed.bits_eq]
        exact hsync s hs
      rw [released_wheel]
      split
      · exact destroy_bitSync (t := { t with wheel := w, calls := calls }) h hw
      · exact hw

theorem Move.alive {cfg : Config} {t t' : HHWheelTimer} {input : Input} {events : List Event}
    (hmove : Move cfg t input events t') (hw : WellLinked t) :
    ∀ x ∈ t'.hooked, t'.wheel.destroyed x = false := by
  have hcases := hmove.hooked_cases hw.bitSync
  cases hmove with
  | idle | looked | fired | left | resumed => exact hw.alive
  | @scheduled _ h timeout w huser hschedules hknows halive hlinked hnext =>
      intro x hx
      rw [scheduled_hooked hnext, Multiset.mem_cons] at hx
      have hkind : x.isInternal = false :=
        hx.elim (fun heq => heq ▸ isInternal_of_knows hknows) (hw.users x)
      show w.destroyed x = false
      rw [(scheduleNext_rearmed hnext).destroyed_eq x hkind, inserted_destroyed]
      by_cases hxh : x = h
      · rw [hxh]
        exact halive
      · exact (prepared_destroyed hschedules hxh).trans (hw.alive x (hx.resolve_left hxh))
  | @cancelled w huser hcancel =>
      intro x hx
      rw [cancelled_hooked hcancel, Multiset.mem_coe] at hx
      show w.destroyed x = false
      rw [(cancelAll_ok hcancel).2.2.2.destroyed_eq x (hw.not_linked hx)]
      exact hw.alive x (mem_hooked.mpr (Or.inr hx))
  | @entered h w hcontrol hclear =>
      subst hclear
      intro x hx
      have hsync := clearRegistered_bitSync h hw.bitSync
      show ((t.wheel.clearRegistered h).walked cfg).2.destroyed x = false
      rw [(walked_spec cfg hsync).frame.destroyed_eq, entered_destroyed]
      exact hw.alive x (Multiset.mem_of_le
        (entered_hooked_le cfg h hsync t.calls t.control) hx)
  | called =>
      rcases hcases with hle | ⟨h, timeout, hschedules, -⟩
      · exact fun x hx => hw.alive x (Multiset.mem_of_le hle hx)
      · cases hschedules
  | @returned h curTick calls w hcontrol hcalls hrearm =>
      intro x hx
      rw [released_hooked, returned_hooked t.control hcalls hrearm] at hx
      -- only the handler of the call is deleted, and its hook goes with it
      have hsame : ∀ y ∈ t.hooked, w.destroyed y = false := fun y hy =>
        ((rearm_rearmed hrearm).destroyed_eq y (hw.users y hy)).trans (hw.alive y hy)
      rw [released_wheel]
      split
      · next hdestroy =>
        rw [if_pos hdestroy, Multiset.mem_filter] at hx
        exact (Function.update_of_ne hx.2 _ _).trans (hsame x hx.1)
      · next hstays =>
        rw [if_neg hstays] at hx
        exact hsame x hx

theorem Move.wellLinked {cfg : Config} {t t' : HHWheelTimer} {input : Input} {events : List Event}
    (hmove : Move cfg t input events t') (hw : WellLinked t) : WellLinked t' := by
  have hhooked : t'.hooked.Nodup ∧ ∀ x ∈ t'.hooked, x.isInternal = false := by
    rcases hmove.hooked_cases hw.bitSync with hle | ⟨h, timeout, -, hknows, hnot, heq⟩
    · exact ⟨Multiset.nodup_of_le hle hw.nodup, fun x hx => hw.users x (Multiset.mem_of_le hle hx)⟩
    · rw [heq]
      refine ⟨Multiset.nodup_cons.mpr ⟨hnot, hw.nodup⟩, fun x hx => ?_⟩
      rcases Multiset.mem_cons.mp hx with rfl | hx
      · exact isInternal_of_knows hknows
      · exact hw.users x hx
  have hstands : (t'.control = .outside → t'.calls = []) ∧ (t'.control = .loop → t'.calls ≠ []) := by
    cases hmove with
    | idle | looked | scheduled | cancelled => exact ⟨hw.outside, hw.inLoop⟩
    | fired | called | returned => constructor <;> intro hcon <;> cases hcon
    | entered => exact ⟨(fun hcon => by cases hcon), fun _ => List.cons_ne_nil _ _⟩
    | left hcontrol hcalls => exact ⟨fun _ => hcalls, fun hcon => by cases hcon⟩
    | resumed hcontrol hcalls =>
        refine ⟨(fun hcon => by cases hcon), fun _ => ?_⟩
        show t.calls ≠ []
        rw [hcalls]
        exact List.cons_ne_nil _ _
  exact ⟨hmove.bitSync hw.bitSync, hhooked.1, hhooked.2, hmove.alive hw, hstands.1, hstands.2⟩

/-! ## Runs -/

/-- The rule for runs: what every move keeps under a condition on the state and the input holds in
every state of a run that meets the condition throughout. -/
theorem run_moves {cfg : Config} (Inv : HHWheelTimer → Prop) (Cond : HHWheelTimer → Input → Prop)
    (Good : HHWheelTimer → List Event → HHWheelTimer → Prop)
    (hkeep : ∀ t input events t', WellLinked t → Inv t → Cond t input →
      Move cfg t input events t' → Inv t' ∧ Good t events t')
    (hnew : Inv new) {inputs : List Input} {history : List (Entry HHWheelTimer Input (List Event))}
    {t : HHWheelTimer} (hrun : run (step cfg) inputs new = .ok (history, t))
    (hcond : ∀ e ∈ history, Cond e.before e.input) :
    (WellLinked t ∧ Inv t) ∧
      ∀ e ∈ history, (WellLinked e.after ∧ Inv e.after) ∧ Good e.before e.output e.after := by
  have hall := @run_history _ _ _ (step cfg) (fun _ t => WellLinked t ∧ Inv t) Cond
    (fun _ e => (WellLinked e.after ∧ Inv e.after) ∧ Good e.before e.output e.after)
    (fun past t input events t' ht hcond hstep => by
      have hmove := step_move hstep
      obtain ⟨hinv, hgood⟩ := hkeep t input events t' ht.1 ht.2 hcond hmove
      have hlinked := hmove.wellLinked ht.1
      exact ⟨⟨hlinked, hinv⟩, ⟨hlinked, hinv⟩, hgood⟩)
    inputs new t [] history ⟨new_wellLinked, hnew⟩ hrun hcond
  refine ⟨hall.1, ?_⟩
  intro e he
  obtain ⟨earlier, later, hsplit⟩ := List.append_of_mem he
  exact hall.2 earlier e later hsplit

/-- The rule for facts about a state and the events that led to it. -/
theorem run_moves_past {cfg : Config} (Inv : List Event → HHWheelTimer → Prop)
    (Cond : HHWheelTimer → Input → Prop)
    (hkeep : ∀ past t input events t', WellLinked t → Inv past t → Cond t input →
      Move cfg t input events t' → Inv (past ++ events) t')
    (hnew : Inv [] new) {inputs : List Input} {history : List (Entry HHWheelTimer Input (List Event))}
    {t : HHWheelTimer} (hrun : run (step cfg) inputs new = .ok (history, t))
    (hcond : ∀ e ∈ history, Cond e.before e.input) : Inv (history.flatMap Entry.output) t :=
  (@run_history _ _ _ (step cfg) (fun past t => WellLinked t ∧ Inv (past.flatMap Entry.output) t) Cond
    (fun _ _ => True)
    (fun past t input events t' ht hcond hstep => by
      have hmove := step_move hstep
      rw [List.flatMap_append, List.flatMap_singleton]
      exact ⟨⟨hmove.wellLinked ht.1, hkeep _ t input events t' ht.1 ht.2 hcond hmove⟩, trivial⟩)
    inputs new t [] history ⟨new_wellLinked, hnew⟩ hrun hcond).1.2

end HHWheelTimer
end Unp.Timer
