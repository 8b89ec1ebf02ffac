import Unp.Timer.Linked

/-!
# The heap of the reactor

`isRegistered` tells a handler that it is in the heap of the reactor, so it is not put there twice. That
is right until a callback registers its own handler and the flag is cleared behind it: the handler stays
in the heap, and can come in once more. The invariant is kept for any set of handlers whose callbacks
do not do that.
-/

namespace Unp.Timer

open Unp.Machine Unp.Run

namespace Wheel

/-- The handler has been made. -/
def Made (w : Wheel) : HandlerId → Prop
  | .user _ => True
  | .fn n => n < w.fns
  | .internal n => n < w.internals

theorem Made.mono {w w' : Wheel} {x : HandlerId} (h : Made w x) (hfns : w.fns ≤ w'.fns)
    (hinternals : w.internals ≤ w'.internals) : Made w' x := by
  cases x with
  | user n => trivial
  | fn n => exact Nat.lt_of_lt_of_le h hfns
  | internal n => exact Nat.lt_of_lt_of_le h hinternals

/-- The handlers of `S` are in the heap at most once, and only when their flag says so. -/
def Registry (S : HandlerId → Prop) (w : Wheel) : Prop :=
  ∀ x, S x → w.registered.count x ≤ if (w.handlers x).isRegistered then 1 else 0

section Registry
variable {S : HandlerId → Prop} {w w' : Wheel}

theorem Registry.flagged (h : Registry S w) {x : HandlerId} (hx : S x) (hmem : x ∈ w.registered) :
    (w.handlers x).isRegistered = true := by
  by_contra hflag
  have hcount := h x hx
  rw [if_neg hflag] at hcount
  have := List.count_pos_iff.mpr hmem
  omega

theorem Registry.of_le (h : Registry S w)
    (hle : ∀ x, w'.registered.count x ≤ w.registered.count x)
    (hflag : ∀ x ∈ w'.registered, (w'.handlers x).isRegistered = (w.handlers x).isRegistered) :
    Registry S w' := by
  intro x hx
  by_cases hmem : x ∈ w'.registered
  · rw [hflag x hmem]
    exact (hle x).trans (h x hx)
  · rw [List.count_eq_zero_of_not_mem hmem]
    exact Nat.zero_le _

theorem Registry.of_eq (h : Registry S w) (hreg : w'.registered = w.registered)
    (hflag : ∀ x ∈ w.registered, (w'.handlers x).isRegistered = (w.handlers x).isRegistered) :
    Registry S w' :=
  h.of_le (fun x => by rw [hreg]) fun x hx => hflag x (hreg ▸ hx)

theorem Registry.empty (hreg : w'.registered = []) : Registry S w' := by
  intro x _
  rw [hreg, List.count_nil]
  exact Nat.zero_le _

/-- The flag is cleared of a handler that is not in the heap, or does not matter. -/
theorem Registry.clearRegistered {h : HandlerId} (hw : Registry S w)
    (hnot : S h → h ∉ w.registered) : Registry S (w.clearRegistered h) := by
  intro x hx
  by_cases hxh : x = h
  · subst hxh
    show w.registered.count x ≤ _
    rw [List.count_eq_zero_of_not_mem (hnot hx)]
    exact Nat.zero_le _
  · have hsame : (w.clearRegistered h).handlers x = w.handlers x := Function.update_of_ne hxh _ _
    rw [hsame]
    exact hw x hx

end Registry

/-! ## Arming the reactor -/

/-- What arming the reactor does to its heap. -/
inductive Armed (w w' : Wheel) : Prop where
  | kept : w'.registered = w.registered →
      (∀ x, (w'.handlers x).isRegistered = (w.handlers x).isRegistered) →
      w'.destroyed = w.destroyed → Armed w w'
  | linked {x : HandlerId} : x ∈ w.linked → (w.handlers x).isRegistered = false →
      w'.registered = w.registered ++ [x] → (w'.handlers x).isRegistered = true →
      (∀ y, y ≠ x → (w'.handlers y).isRegistered = (w.handlers y).isRegistered) →
      w'.destroyed = w.destroyed → Armed w w'
  | internal : w'.internals = w.internals + 1 →
      w'.registered = w.registered ++ [.internal w.internals] →
      (w'.handlers (.internal w.internals)).isRegistered = true →
      w'.destroyed (.internal w.internals) = false →
      (∀ y, y ≠ .internal w.internals →
        (w'.handlers y).isRegistered = (w.handlers y).isRegistered ∧
          w'.destroyed y = w.destroyed y) → Armed w w'

theorem withRegistered_flag (w : Wheel) (h : HandlerId) :
    ((w.withRegistered h).handlers h).isRegistered = true := by
  simp only [withRegistered, setHandler]
  rw [Function.update_self]

theorem withRegistered_handlers (w : Wheel) {h x : HandlerId} (hx : x ≠ h) :
    (w.withRegistered h).handlers x = w.handlers x := Function.update_of_ne hx _ _

theorem scheduleNext_armed {cfg : Config} {base : Int} {w w' : Wheel}
    (h : w.scheduleNextTimeoutInReactor cfg base = .ok w') : Armed w w' := by
  rcases scheduleNext_cases h with
    ⟨timeout, e, -, rfl⟩ | ⟨x, e, hx, ⟨-, rfl⟩ | ⟨hflag, -, rfl⟩⟩
  · refine .internal rfl rfl (withRegistered_flag _ _) (Function.update_self ..) ?_
    intro y hy
    constructor
    · show ((Wheel.withRegistered _ _).handlers y).isRegistered = _
      rw [withRegistered_handlers _ hy]
      simp only [withInternal, setSheduled, newHandler, setHandler]
      rw [Function.update_of_ne hy, Function.update_of_ne hy]
    · exact Function.update_of_ne hy _ _
  · exact .kept rfl (fun _ => rfl) rfl
  · refine .linked hx hflag rfl (withRegistered_flag w x) ?_ rfl
    intro y hy
    show ((w.withRegistered x).handlers y).isRegistered = _
    rw [withRegistered_handlers w hy]

theorem rearm_armed {cfg : Config} {base : Int} {w w' : Wheel} (h : w.rearm cfg base = .ok w') :
    Armed w w' := by
  rw [rearm] at h
  split at h
  · exact scheduleNext_armed h
  · cases h
    exact .kept rfl (fun _ => rfl) rfl

section Armed
variable {S : HandlerId → Prop} {w w' : Wheel}

theorem Armed.mem (h : Armed w w') {x : HandlerId} (hx : x ∈ w'.registered) :
    x ∈ w.registered ∨ (x ∈ w.linked ∧ (w.handlers x).isRegistered = false) ∨
      (x = .internal w.internals ∧ w'.internals = w.internals + 1 ∧ w'.destroyed x = false) := by
  cases h with
  | kept hreg => exact Or.inl (hreg ▸ hx)
  | linked hlinked hflag hreg =>
      rw [hreg, List.mem_append, List.mem_singleton] at hx
      rcases hx with hx | rfl
      · exact Or.inl hx
      · exact Or.inr (Or.inl ⟨hlinked, hflag⟩)
  | internal hnext hreg _ halive =>
      rw [hreg, List.mem_append, List.mem_singleton] at hx
      rcases hx with hx | rfl
      · exact Or.inl hx
      · exact Or.inr (Or.inr ⟨rfl, hnext, halive⟩)

theorem Armed.flag_mono (h : Armed w w') {x : HandlerId}
    (hx : (w.handlers x).isRegistered = true) : (w'.handlers x).isRegistered = true := by
  cases h with
  | kept _ hflag => exact (hflag x).trans hx
  | @linked y _ _ _ hset hothers =>
      by_cases hxy : x = y
      · rw [hxy]
        exact hset
      · exact (hothers x hxy).trans hx
  | internal _ _ hset _ hothers =>
      by_cases hxn : x = .internal w.internals
      · rw [hxn]
        exact hset
      · exact (hothers x hxn).1.trans hx

/-- Arming the reactor deletes no handler. -/
theorem Armed.destroyed (h : Armed w w') {x : HandlerId} (hx : w.destroyed x = false) :
    w'.destroyed x = false := by
  cases h with
  | kept _ _ hdestroyed | linked _ _ _ _ _ hdestroyed => rw [hdestroyed, hx]
  | internal _ _ _ halive hothers =>
      by_cases hxn : x = .internal w.internals
      · rw [hxn, halive]
      · rw [(hothers x hxn).2, hx]

/-- A handler comes into the heap that was not there, and its flag is set. -/
theorem Registry.push {x : HandlerId} (hw : Registry S w) (hnot : S x → x ∉ w.registered)
    (hreg : w'.registered = w.registered ++ [x]) (hflag : (w'.handlers x).isRegistered = true)
    (hothers : ∀ y, y ≠ x → (w'.handlers y).isRegistered = (w.handlers y).isRegistered) :
    Registry S w' := by
  intro y hy
  rw [hreg, List.count_append]
  by_cases hyx : y = x
  · subst hyx
    rw [List.count_eq_zero_of_not_mem (hnot hy), hflag, if_pos rfl, List.count_singleton_self]
  · rw [hothers y hyx, List.count_singleton, if_neg (by simpa using Ne.symm hyx), Nat.add_zero]
    exact hw y hy

theorem Armed.registry (h : Armed w w') (hmade : ∀ x ∈ w.registered, w.Made x)
    (hw : Registry S w) : Registry S w' := by
  cases h with
  | kept hreg hflag => exact hw.of_eq hreg fun x _ => hflag x
  | linked _ hflag hreg hset hothers _ =>
      refine hw.push (fun hx hmem => ?_) hreg hset hothers
      rw [hw.flagged hx hmem] at hflag
      cases hflag
  | internal _ hreg hset _ hothers =>
      refine hw.push (fun _ hmem => ?_) hreg hset fun y hy => (hothers y hy).1
      exact Nat.lt_irrefl _ (hmade _ hmem)

end Armed

/-! ## Cancelling -/

section Cancel
variable {S : HandlerId → Prop}

theorem withReset_registered (w : Wheel) (h : HandlerId) :
    (w.withReset h).registered = w.registered := by
  rw [withReset]
  split <;> rfl

theorem withReset_isRegistered (w : Wheel) (h x : HandlerId) :
    ((w.withReset h).handlers x).isRegistered = (w.handlers x).isRegistered := by
  rw [withReset]
  split
  · exact update_member (·.isRegistered) (by rfl) x
  · exact update_member (·.isRegistered) (by rfl) x

theorem count_withoutRegistered (w : Wheel) (h x : HandlerId) :
    (w.withoutRegistered h).registered.count x ≤ w.registered.count x := by
  rw [withoutRegistered]
  split
  · exact List.erase_sublist.count_le x
  · exact Nat.zero_le _

theorem withoutRegistered_registry {w : Wheel} (h : HandlerId) (hw : Registry S w) :
    Registry S (w.withoutRegistered h) ∧ (S h → h ∉ (w.withoutRegistered h).registered) := by
  rw [withoutRegistered]
  split
  · have hgone : S h → h ∉ w.registered.erase h := by
      intro hs hmem
      have hpos := List.count_pos_iff.mpr hmem
      rw [List.count_erase_self] at hpos
      have hone := hw h hs
      split at hone <;> omega
    have herase : Registry S { w with registered := w.registered.erase h } :=
      hw.of_le (fun x => List.erase_sublist.count_le x) fun _ _ => rfl
    exact ⟨(herase.clearRegistered hgone).of_eq rfl fun _ _ => rfl, hgone⟩
  · exact ⟨Registry.empty rfl, fun _ => List.not_mem_nil⟩

/-- A handler that has been cancelled is not in the heap. -/
theorem cancelHandler_registry {slot : Int} {w w' : Wheel} {h : HandlerId}
    (hrun : cancelHandler slot w h = .ok w') (hw : Registry S w) :
    Registry S w' ∧ (S h → h ∉ w'.registered) := by
  obtain ⟨-, w₁, hunregister, rfl⟩ := cancelHandler_eq_ok hrun
  have hfirst : Registry S w₁ ∧ (S h → h ∉ w₁.registered) := by
    rcases ensureUnregistered_cases hunregister with ⟨hflag, rfl⟩ | ⟨-, -, rfl⟩
    · refine ⟨hw, fun hs hmem => ?_⟩
      rw [hw.flagged hs hmem] at hflag
      cases hflag
    · exact withoutRegistered_registry h hw
  refine ⟨hfirst.1.of_eq (withReset_registered w₁ h) fun x _ => withReset_isRegistered w₁ h x, ?_⟩
  rw [withReset_registered]
  exact hfirst.2

theorem count_cancelHandler {slot : Int} {w w' : Wheel} {h : HandlerId}
    (hrun : cancelHandler slot w h = .ok w') (x : HandlerId) :
    w'.registered.count x ≤ w.registered.count x := by
  obtain ⟨-, w₁, hunregister, rfl⟩ := cancelHandler_eq_ok hrun
  rw [withReset_registered]
  rcases ensureUnregistered_cases hunregister with ⟨-, rfl⟩ | ⟨-, -, rfl⟩
  · exact le_refl _
  · exact count_withoutRegistered w h x

/-- Cancelling only takes out of the heap, one fold inside the other. -/
theorem foldlM_registry {α : Type} {f : Wheel → α → Res Wheel}
    (hf : ∀ w a w', f w a = .ok w' → (Registry S w → Registry S w') ∧
      ∀ x, w'.registered.count x ≤ w.registered.count x)
    {l : List α} {w w' : Wheel} (hrun : l.foldlM f w = .ok w') :
    (Registry S w → Registry S w') ∧ ∀ x, w'.registered.count x ≤ w.registered.count x := by
  apply foldlM_invariant (fun v : Wheel => (Registry S w → Registry S v) ∧
    ∀ x, v.registered.count x ≤ w.registered.count x) ?_ ⟨id, fun _ => le_refl _⟩ hrun
  rintro v a - v' ⟨hv, hle⟩ hone
  obtain ⟨hv', hle'⟩ := hf v a v' hone
  exact ⟨fun hw => hv' (hv hw), fun x => (hle' x).trans (hle x)⟩

theorem cancelTimeoutsFromList_registry {w w' : Wheel} {p : Place}
    (hrun : w.cancelTimeoutsFromList p = .ok w') :
    (Registry S w → Registry S w') ∧ ∀ x, w'.registered.count x ≤ w.registered.count x := by
  rw [cancelTimeoutsFromList] at hrun
  split at hrun
  · cases hrun
    exact ⟨id, fun _ => le_refl _⟩
  · obtain ⟨w₁, hfold, hrun⟩ := bind_eq_ok hrun
    cases hrun
    obtain ⟨hreg, hle⟩ := foldlM_registry
      (fun v x v' hone => ⟨fun hv => (cancelHandler_registry hone hv).1,
        count_cancelHandler hone⟩) hfold
    exact ⟨fun hw => (hreg (hw.of_eq rfl fun _ _ => rfl)).of_eq rfl fun _ _ => rfl, hle⟩

theorem cancelAll_registry {w w' : Wheel} (hrun : w.cancelAll = .ok w') :
    (Registry S w → Registry S w') ∧ ∀ x, w'.registered.count x ≤ w.registered.count x := by
  obtain ⟨w₁, hfold, hend⟩ := cancelAll_eq_ok hrun
  have hall := @foldlM_registry S _ cancelTimeoutsFromList
    (fun _ _ _ hone => cancelTimeoutsFromList_registry hone) _ _ _ hfold
  rcases hend with ⟨-, -, rfl⟩ | ⟨-, rfl⟩
  · exact ⟨fun _ => Registry.empty rfl, fun x => Nat.zero_le _⟩
  · exact hall

theorem cancelAll_registered_subset {w w' : Wheel} (hrun : w.cancelAll = .ok w') {x : HandlerId}
    (hx : x ∈ w'.registered) : x ∈ w.registered := by
  have hle := (cancelAll_registry (S := fun _ => True) hrun).2 x
  exact List.count_pos_iff.mp (Nat.lt_of_lt_of_le (List.count_pos_iff.mpr hx) hle)

end Cancel

/-! ## Handlers that are deleted -/

/-- No handler that has been deleted is in the heap, and those that can be deleted know whether they
are. -/
def HeapSound (w : Wheel) : Prop := w.HeapIntact ∧ Registry (·.needDestroy = true) w

theorem new_heapSound : HeapSound new :=
  ⟨fun _ hx => absurd hx List.not_mem_nil, Registry.empty rfl⟩

theorem HeapSound.of_eq {w w' : Wheel} (h : HeapSound w) (hreg : w'.registered = w.registered)
    (hflag : ∀ x, (w'.handlers x).isRegistered = (w.handlers x).isRegistered)
    (hdestroyed : w'.destroyed = w.destroyed) : HeapSound w' := by
  refine ⟨fun x hx => ?_, h.2.of_eq hreg fun x _ => hflag x⟩
  rw [hdestroyed]
  exact h.1 x (hreg ▸ hx)

theorem withReset_destroyed (w : Wheel) (h x : HandlerId) :
    (w.withReset h).destroyed x = w.destroyed x ∨ (x = h ∧ h.needDestroy = true) := by
  rw [withReset]
  split
  · next hdestroy =>
    by_cases hx : x = h
    · exact Or.inr ⟨hx, hdestroy⟩
    · exact Or.inl (Function.update_of_ne hx _ _)
  · exact Or.inl rfl

theorem ensureUnregistered_destroyed {w w' : Wheel} {h : HandlerId}
    (hrun : w.ensureUnregistered h = .ok w') : w'.destroyed = w.destroyed := by
  rcases ensureUnregistered_cases hrun with ⟨-, rfl⟩ | ⟨-, -, rfl⟩
  · rfl
  · rw [withoutRegistered]
    split <;> rfl

theorem cancelHandler_heapSound {slot : Int} {w w' : Wheel} {h : HandlerId}
    (hrun : cancelHandler slot w h = .ok w') (hw : HeapSound w) : HeapSound w' := by
  obtain ⟨hreg, hgone⟩ := cancelHandler_registry hrun hw.2
  refine ⟨fun x hx => ?_, hreg⟩
  have hwas : x ∈ w.registered := List.count_pos_iff.mp
    (Nat.lt_of_lt_of_le (List.count_pos_iff.mpr hx) (count_cancelHandler hrun x))
  obtain ⟨-, w₁, hunregister, rfl⟩ := cancelHandler_eq_ok hrun
  rcases withReset_destroyed w₁ h x with hsame | ⟨rfl, hdestroy⟩
  · rw [hsame, ensureUnregistered_destroyed hunregister]
    exact hw.1 x hwas
  · exact absurd hx (hgone hdestroy)

theorem cancelTimeoutsFromList_heapSound {w w' : Wheel} {p : Place}
    (hrun : w.cancelTimeoutsFromList p = .ok w') (hw : HeapSound w) : HeapSound w' := by
  rw [cancelTimeoutsFromList] at hrun
  split at hrun
  · cases hrun
    exact hw
  · obtain ⟨w₁, hfold, hrun⟩ := bind_eq_ok hrun
    cases hrun
    have hw₁ : HeapSound w₁ := by
      refine foldlM_invariant HeapSound (fun v x _ v' hv hone => ?_) ?_ hfold
      · exact cancelHandler_heapSound hone hv
      · exact hw.of_eq rfl (fun _ => rfl) rfl
    exact hw₁.of_eq rfl (fun _ => rfl) rfl

theorem cancelAll_heapSound {w w' : Wheel} (hrun : w.cancelAll = .ok w') (hw : HeapSound w) :
    HeapSound w' := by
  obtain ⟨w₁, hfold, hend⟩ := cancelAll_eq_ok hrun
  have hw₁ : HeapSound w₁ := foldlM_invariant HeapSound
    (fun _ _ _ _ hv hone => cancelTimeoutsFromList_heapSound hone hv) hw hfold
  rcases hend with ⟨-, -, rfl⟩ | ⟨-, rfl⟩
  · exact ⟨fun x hx => absurd hx List.not_mem_nil, Registry.empty rfl⟩
  · exact hw₁

theorem inserted_registered (cfg : Config) (h : HandlerId) (timeout : Int) (w : Wheel) :
    (w.inserted cfg h timeout).registered = w.registered := by
  rw [inserted, (scheduleTimeoutImpl_frame _ _ _ _).registered_eq]
  rfl

theorem inserted_isRegistered (cfg : Config) (h : HandlerId) (timeout : Int) (w : Wheel)
    (x : HandlerId) :
    ((w.inserted cfg h timeout).handlers x).isRegistered = (w.handlers x).isRegistered := by
  rw [inserted, (scheduleTimeoutImpl_frame _ _ _ _).isRegistered_eq]
  exact update_member (·.isRegistered) (by rfl) x

theorem inserted_internals (cfg : Config) (h : HandlerId) (timeout : Int) (w : Wheel) :
    (w.inserted cfg h timeout).internals = w.internals := by
  rw [inserted, (scheduleTimeoutImpl_frame _ _ _ _).internals_eq]
  rfl

section Walked
variable (cfg : Config) (h : HandlerId) {w : Wheel} (hsync : BitSync w)
include hsync

theorem walked_registered :
    ((w.clearRegistered h).walked cfg).2.registered = w.registered := by
  have hwalk := walked_spec cfg (w := w.clearRegistered h) fun s hs => hsync s hs
  rw [hwalk.frame.registered_eq, entered_registered]
  rfl

theorem walked_isRegistered (x : HandlerId) :
    (((w.clearRegistered h).walked cfg).2.handlers x).isRegistered =
      ((w.clearRegistered h).handlers x).isRegistered := by
  have hwalk := walked_spec cfg (w := w.clearRegistered h) fun s hs => hsync s hs
  rw [hwalk.frame.isRegistered_eq, entered_handlers]

theorem walked_counters : ((w.clearRegistered h).walked cfg).2.fns = w.fns ∧
    ((w.clearRegistered h).walked cfg).2.internals = w.internals := by
  have hframe := (walked_spec cfg (w := w.clearRegistered h) fun s hs => hsync s hs).frame
  rw [hframe.fns_eq, hframe.internals_eq, entered_fns, entered_internals]
  exact ⟨rfl, rfl⟩

end Walked

end Wheel

namespace HHWheelTimer

open Wheel

/-! ## Every move keeps it -/

theorem prepared_counters (t : HHWheelTimer) (input : Input) :
    t.wheel.fns ≤ (t.prepared input).wheel.fns ∧
      (t.prepared input).wheel.internals = t.wheel.internals := by
  cases input with
  | scheduleTimeoutFn timeout => exact ⟨Nat.le_succ _, rfl⟩
  | _ => exact ⟨le_refl _, rfl⟩

/-- Handlers are made, and not unmade. -/
theorem Move.made {cfg : Config} {t t' : HHWheelTimer} {input : Input} {events : List Event}
    (hmove : Move cfg t input events t') (hsync : BitSync t.wheel) {x : HandlerId}
    (hx : t.wheel.Made x) : t'.wheel.Made x := by
  cases hmove with
  | idle | called => exact hx
  | looked | fired | left | resumed => exact hx.mono (le_refl _) (le_refl _)
  | scheduled huser hschedules hknows halive hlinked hnext =>
      have hrearmed := scheduleNext_rearmed hnext
      obtain ⟨hfns, hinternals⟩ := prepared_counters t input
      apply hx.mono
      · rw [hrearmed.fns_eq, inserted_fns]
        exact hfns
      · refine le_trans ?_ hrearmed.internals_le
        rw [inserted_internals, hinternals]
  | cancelled huser hcancel =>
      have hgone := (cancelAll_ok hcancel).2.2.2
      exact hx.mono hgone.fns_eq.ge hgone.internals_eq.ge
  | @entered h w hcontrol hclear =>
      subst hclear
      obtain ⟨hfns, hinternals⟩ := walked_counters cfg h hsync
      exact hx.mono hfns.ge hinternals.ge
  | returned hcontrol hcalls hrearm =>
      have hrearmed := rearm_rearmed hrearm
      apply hx.mono
      · rw [released_fns]
        exact hrearmed.fns_eq.ge
      · rw [released_internals]
        exact hrearmed.internals_le

/-- What can come into the heap: handlers that are linked, and those that the timer makes. -/
theorem Move.registered_cases {cfg : Config} {t t' : HHWheelTimer} {input : Input}
    {events : List Event} (hmove : Move cfg t input events t') (hsync : BitSync t.wheel)
    {x : HandlerId} (hx : x ∈ t'.wheel.registered) :
    x ∈ t.wheel.registered ∨ (x ∈ t'.wheel.linked ∨ x ∈ t.wheel.linked) ∨
      (x.isInternal = true ∧ t'.wheel.Made x) := by
  cases hmove with
  | idle | looked | called | left | resumed => exact Or.inl hx
  | scheduled huser hschedules hknows halive hlinked hnext =>
      rcases (scheduleNext_armed hnext).mem hx with hx | ⟨hx, -⟩ | ⟨rfl, hmade, -⟩
      · rw [inserted_registered, prepared_registered] at hx
        exact Or.inl hx
      · refine Or.inr (Or.inl (Or.inl ?_))
        rw [linked_of_lists_eq (scheduleNext_rearmed hnext).lists_eq]
        exact hx
      · refine Or.inr (Or.inr ⟨rfl, ?_⟩)
        show _ < _
        exact hmade ▸ Nat.lt_succ_self _
  | cancelled huser hcancel => exact Or.inl (cancelAll_registered_subset hcancel hx)
  | fired => exact Or.inl (List.mem_of_mem_erase hx)
  | @entered h w hcontrol hclear =>
      subst hclear
      rw [walked_registered cfg h hsync] at hx
      exact Or.inl hx
  | returned hcontrol hcalls hrearm =>
      rw [released_registered] at hx
      rcases (rearm_armed hrearm).mem hx with hx | ⟨hx, -⟩ | ⟨rfl, hmade, -⟩
      · exact Or.inl hx
      · exact Or.inr (Or.inl (Or.inr hx))
      · refine Or.inr (Or.inr ⟨rfl, ?_⟩)
        show _ < _
        rw [released_internals]
        exact hmade ▸ Nat.lt_succ_self _

/-- All that is in a list or in the heap, or is being handled, has been made. -/
structure AllMade (t : HHWheelTimer) : Prop where
  hooked : ∀ x ∈ t.hooked, t.wheel.Made x
  registered : ∀ x ∈ t.wheel.registered, t.wheel.Made x
  called : ∀ h, t.control = .callback h → t.wheel.Made h
  calls : ∀ call ∈ t.calls, t.wheel.Made call.handler

theorem new_allMade : AllMade new where
  hooked x hx := by
    rw [hooked, linked_of_empty fun _ => rfl] at hx
    exact absurd hx (Multiset.notMem_zero x)
  registered x hx := absurd hx List.not_mem_nil
  called h hcon := by cases hcon
  calls call hcall := absurd hcall List.not_mem_nil

theorem made_of_knows {t : HHWheelTimer} {h : HandlerId} (hknows : t.knows h = true) :
    t.wheel.Made h := by
  cases h with
  | user n => trivial
  | fn n =>
      have hlt : n < t.wheel.fns := of_decide_eq_true hknows
      exact hlt
  | internal n => cases hknows

theorem Move.called_made {cfg : Config} {t t' : HHWheelTimer} {input : Input} {events : List Event}
    (hmove : Move cfg t input events t') (hmade : AllMade t) :
    (∀ h, t'.control = .callback h → t.wheel.Made h) ∧
      ∀ call ∈ t'.calls, t.wheel.Made call.handler := by
  cases hmove with
  | idle | looked | scheduled | cancelled => exact ⟨hmade.called, hmade.calls⟩
  | fired houtside hintact hmem =>
      refine ⟨fun x hcon => ?_, hmade.calls⟩
      cases hcon
      exact hmade.registered _ hmem
  | entered hcontrol =>
      refine ⟨(fun x hcon => by cases hcon), ?_⟩
      exact List.forall_mem_cons.mpr ⟨hmade.called _ hcontrol, hmade.calls⟩
  | called hcontrol hcalls =>
      have hall := hmade.calls
      rw [hcalls] at hall
      refine ⟨fun x hcon => ?_, List.forall_mem_cons.mpr (List.forall_mem_cons.mp hall)⟩
      cases hcon
      apply hmade.hooked
      rw [mem_hooked, pending, hcalls, List.flatMap_cons]
      exact Or.inr List.mem_cons_self
  | @returned h curTick calls w hcontrol hcalls hrearm =>
      refine ⟨(fun x hcon => by cases hcon), fun call hcall => ?_⟩
      have hall := hmade.calls
      rw [hcalls] at hall
      have hrest := (List.forall_mem_cons.mp hall).2
      rw [released_calls] at hcall
      split at hcall
      · obtain ⟨call₀, hcall₀, rfl⟩ := List.mem_map.mp hcall
        exact hrest call₀ hcall₀
      · exact hrest call hcall
  | left | resumed => exact ⟨(fun x hcon => by cases hcon), hmade.calls⟩

theorem Move.allMade {cfg : Config} {t t' : HHWheelTimer} {input : Input} {events : List Event}
    (hmove : Move cfg t input events t') (hsync : BitSync t.wheel) (hmade : AllMade t) :
    AllMade t' := by
  have hhooked : ∀ x ∈ t'.hooked, t'.wheel.Made x := by
    intro x hx
    rcases hmove.hooked_cases hsync with hle | ⟨h, timeout, -, hknows, -, heq⟩
    · exact hmove.made hsync (hmade.hooked x (Multiset.mem_of_le hle hx))
    · rw [heq, Multiset.mem_cons] at hx
      rcases hx with rfl | hx
      · exact made_of_knows hknows
      · exact hmove.made hsync (hmade.hooked x hx)
  have hregistered : ∀ x ∈ t'.wheel.registered, t'.wheel.Made x := by
    intro x hx
    rcases hmove.registered_cases hsync hx with hx | (hx | hx) | ⟨-, hx⟩
    · exact hmove.made hsync (hmade.registered x hx)
    · exact hhooked x (mem_hooked.mpr (Or.inl hx))
    · exact hmove.made hsync (hmade.hooked x (mem_hooked.mpr (Or.inl hx)))
    · exact hx
  obtain ⟨hcalled, hcalls⟩ := hmove.called_made hmade
  exact ⟨hhooked, hregistered, fun h hcon => hmove.made hsync (hcalled h hcon),
    fun call hcall => hmove.made hsync (hcalls call hcall)⟩

/-- Where the flag of a handler of `S` is cleared, it is not in the heap. -/
def ClearsRight (S : HandlerId → Prop) (t : HHWheelTimer) (input : Input) : Prop :=
  input = .proceed → match t.control with
    | .callback h => S h → h ∉ t.wheel.registered
    | _ => True

instance decidableClearsRight (S : HandlerId → Prop) [DecidablePred S] (t : HHWheelTimer)
    (input : Input) : Decidable (t.ClearsRight S input) := by
  unfold ClearsRight
  exact match t.control with
    | .callback _ => inferInstance
    | .outside | .loop | .override _ => inferInstance

theorem Move.registry {S : HandlerId → Prop} {cfg : Config} {t t' : HHWheelTimer} {input : Input}
    {events : List Event} (hmove : Move cfg t input events t') (hsync : BitSync t.wheel)
    (hmade : AllMade t) (hclears : t.ClearsRight S input) (hw : Registry S t.wheel) :
    Registry S t'.wheel := by
  cases hmove with
  | idle | called => exact hw
  | looked | left | resumed => exact hw.of_eq rfl fun _ _ => rfl
  | @scheduled _ h timeout w huser hschedules hknows halive hlinked hnext =>
      -- a handler that is just being made is not in the heap
      have hprepared : Registry S (t.prepared input).wheel := by
        refine hw.of_eq (prepared_registered t input) ?_
        intro x hx
        cases input with
        | scheduleTimeoutFn timeout =>
            have hne : x ≠ .fn t.wheel.fns := by
              rintro rfl
              exact Nat.lt_irrefl _ (hmade.registered _ hx)
            exact congrArg TimeoutHandler.isRegistered (Function.update_of_ne hne _ _)
        | _ => rfl
      refine (scheduleNext_armed hnext).registry ?_ (hprepared.of_eq (inserted_registered _ _ _ _)
        fun x _ => inserted_isRegistered _ _ _ _ x)
      intro x hx
      rw [inserted_registered, prepared_registered] at hx
      obtain ⟨hfns, hinternals⟩ := prepared_counters t input
      apply (hmade.registered x hx).mono
      · rw [inserted_fns]
        exact hfns
      · rw [inserted_internals, hinternals]
  | cancelled huser hcancel => exact (cancelAll_registry hcancel).1 hw
  | fired => exact hw.of_le (fun x => List.erase_sublist.count_le x) fun _ _ => rfl
  | @entered h w hcontrol hclear =>
      subst hclear
      have hgone := hclears rfl
      rw [hcontrol] at hgone
      exact (hw.clearRegistered hgone).of_eq (walked_registered cfg h hsync)
        fun x _ => walked_isRegistered cfg h hsync x
  | @returned h curTick calls w hcontrol hcalls hrearm =>
      have harmed := (rearm_armed hrearm).registry hmade.registered hw
      exact harmed.of_eq (released_registered _ h) fun x _ => by rw [released_handlers]

/-- Where a handler is deleted at the end of its call, it is neither linked nor in the heap. -/
def DeletesRight (t : HHWheelTimer) (input : Input) : Prop :=
  input = .proceed → match t.control with
    | .loop => ∀ call ∈ t.calls.head?, call.expiredTimers = [] →
        call.handler.needDestroy = true →
        t.isLinked call.handler = false ∧ call.handler ∉ t.wheel.registered
    | _ => True

instance decidableDeletesRight (t : HHWheelTimer) (input : Input) :
    Decidable (t.DeletesRight input) := by
  unfold DeletesRight
  exact match t.control with
    | .loop => inferInstance
    | .outside | .callback _ | .override _ => inferInstance

/-- The handler that is deleted is not in the heap, also when the reactor has just been armed. -/
theorem returned_not_registered {cfg : Config} {t : HHWheelTimer} {h : HandlerId} {curTick : Int}
    {calls : List Call} {w : Wheel} (hmade : AllMade t)
    (hcalls : t.calls = ⟨h, curTick, []⟩ :: calls) (hrearm : t.wheel.rearm cfg curTick = .ok w)
    (hlinked : t.isLinked h = false) (hgone : h ∉ t.wheel.registered) : h ∉ w.registered := by
  intro hmem
  rcases (rearm_armed hrearm).mem hmem with hmem | ⟨hmem, -⟩ | ⟨heq, -⟩
  · exact hgone hmem
  · rw [isLinked_iff.mpr (mem_hooked.mpr (Or.inl hmem))] at hlinked
    cases hlinked
  · have hold := hmade.calls ⟨h, curTick, []⟩ (by rw [hcalls]; exact List.mem_cons_self)
    rw [heq] at hold
    exact Nat.lt_irrefl _ hold

theorem Move.heapSound {cfg : Config} {t t' : HHWheelTimer} {input : Input} {events : List Event}
    (hmove : Move cfg t input events t') (hw : WellLinked t) (hmade : AllMade t)
    (hclears : t.ClearsRight (·.needDestroy = true) input) (hdeletes : t.DeletesRight input)
    (hs : HeapSound t.wheel) : HeapSound t'.wheel := by
  refine ⟨?_, hmove.registry hw.bitSync hmade hclears hs.2⟩
  have hlinkedAlive := hmove.alive hw
  cases hmove with
  | idle | called => exact hs.1
  | looked | left | resumed => exact fun x hx => hs.1 x hx
  | @scheduled _ h timeout w huser hschedules hknows halive hlinked hnext =>
      have harmed := scheduleNext_armed hnext
      intro x hx
      rcases harmed.mem hx with hx | ⟨hx, -⟩ | ⟨-, -, hnew⟩
      · rw [inserted_registered, prepared_registered] at hx
        apply harmed.destroyed
        rw [inserted_destroyed]
        by_cases hxh : x = h
        · rw [hxh]
          exact halive
        · exact (prepared_destroyed hschedules hxh).trans (hs.1 x hx)
      · apply hlinkedAlive
        rw [mem_hooked]
        refine Or.inl ?_
        rw [linked_of_lists_eq (scheduleNext_rearmed hnext).lists_eq]
        exact hx
      · exact hnew
  | cancelled huser hcancel => exact (cancelAll_heapSound hcancel hs).1
  | fired => exact fun x hx => hs.1 x (List.mem_of_mem_erase hx)
  | @entered h w hcontrol hclear =>
      subst hclear
      intro x hx
      have hsync := clearRegistered_bitSync h hw.bitSync
      rw [walked_registered cfg h hw.bitSync] at hx
      show ((t.wheel.clearRegistered h).walked cfg).2.destroyed x = false
      rw [(walked_spec cfg hsync).frame.destroyed_eq, entered_destroyed]
      exact hs.1 x hx
  | @returned h curTick calls w hcontrol hcalls hrearm =>
      have harmed := rearm_armed hrearm
      have hends := hdeletes rfl
      rw [hcontrol, hcalls] at hends
      intro x hx
      rw [released_registered] at hx
      -- it was in the heap, was linked, or has just been made
      have hstays : w.destroyed x = false := by
        rcases harmed.mem hx with hx | ⟨hx, -⟩ | ⟨-, -, hnew⟩
        · exact harmed.destroyed (hs.1 x hx)
        · exact harmed.destroyed (hw.alive x (mem_hooked.mpr (Or.inl hx)))
        · exact hnew
      rw [released_wheel]
      split
      · next hdestroy =>
        obtain ⟨hlinked, hgone⟩ := hends _ rfl rfl hdestroy
        have hne : x ≠ h := by
          rintro rfl
          exact returned_not_registered hmade hcalls hrearm hlinked hgone hx
        exact (Function.update_of_ne hne _ _).trans hstays
      · exact hstays

end HHWheelTimer
end Unp.Timer
