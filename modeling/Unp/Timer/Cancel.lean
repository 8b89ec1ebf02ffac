import Unp.Timer.Registry
import Unp.Timer.SlotInBucket
import Mathlib.Data.List.ProdSigma

/-!
# `cancelAll`

A handler is linked once, so what is cancelled in one list does not change what the next lists
hold: `cancelAll` gets through when every list agrees on `slotInBucket_` before it starts. Handlers
with different pasts can share a list above the first bucket, and need not agree. A bit is cleared for
the slot of a handler that is cancelled; one that has lost its handler stays set.
-/

namespace Unp.Timer

open Unp.Machine Unp.Slots Unp.Run

namespace Wheel

/-- The handlers of a list have the same `slotInBucket_`. -/
def Agree (w : Wheel) (p : Place) : Prop :=
  ∀ x ∈ w.lists p, ∀ y ∈ w.lists p, (w.handlers x).slotInBucket = (w.handlers y).slotInBucket

theorem Agree.of_nil {w : Wheel} {p : Place} (h : w.lists p = []) : Agree w p := by
  intro x hx
  rw [h] at hx
  exact absurd hx List.not_mem_nil

theorem agree_of_eq {w w' : Wheel} {p : Place} (hlists : w'.lists p = w.lists p)
    (hslots : ∀ x ∈ w.lists p, (w'.handlers x).slotInBucket = (w.handlers x).slotInBucket) :
    Agree w' p ↔ Agree w p := by
  unfold Agree
  rw [hlists]
  constructor
  · intro h x hx y hy
    rw [← hslots x hx, ← hslots y hy]
    exact h x hx y hy
  · intro h x hx y hy
    rw [hslots x hx, hslots y hy]
    exact h x hx y hy

/-! ## One list -/

/-- A handler is cancelled; the others keep their slots. -/
theorem cancelHandler_slots {slot : Int} {w w' : Wheel} {h : HandlerId}
    (hrun : cancelHandler slot w h = .ok w') :
    w'.bits = w.bits ∧
      ∀ x, x ≠ h → (w'.handlers x).slotInBucket = (w.handlers x).slotInBucket := by
  obtain ⟨-, hbits, -, hgone⟩ := cancelHandler_ok hrun
  exact ⟨hbits, fun x hx => by rw [hgone.handlers_eq x hx]⟩

theorem ensureUnregistered_returns {w : Wheel} (h : HandlerId) (hintact : w.HeapIntact) :
    ∃ w', w.ensureUnregistered h = .ok w' := by
  rw [ensureUnregistered]
  split
  · rw [unregister, heap, if_pos hintact, ok_bind]
    split <;> exact ⟨_, rfl⟩
  · exact ⟨w, rfl⟩

theorem cancelHandler_returns_iff (slot : Int) {w : Wheel} (hw : HeapSound w) (h : HandlerId) :
    (∃ w', cancelHandler slot w h = .ok w') ↔ (w.handlers h).slotInBucket = slot := by
  constructor
  · rintro ⟨w', hrun⟩
    exact (cancelHandler_eq_ok hrun).1
  · intro heq
    obtain ⟨w₁, hunregister⟩ := ensureUnregistered_returns h hw.1
    rw [cancelHandler, if_neg (not_not.mpr heq), hunregister]
    exact ⟨_, rfl⟩

theorem cancelHandlers_returns_iff (slot : Int) {hs : List HandlerId} (hnodup : hs.Nodup)
    {w : Wheel} (hw : HeapSound w) : (∃ w', hs.foldlM (cancelHandler slot) w = .ok w') ↔
      ∀ x ∈ hs, (w.handlers x).slotInBucket = slot := by
  refine foldlM_returns_iff HeapSound (fun w x => (w.handlers x).slotInBucket = slot)
    (fun w x hw => cancelHandler_returns_iff slot hw x) ?_ hnodup hw
  intro w h w' hw hrun
  refine ⟨cancelHandler_heapSound hrun hw, ?_⟩
  intro x hx
  rw [(cancelHandler_slots hrun).2 x hx]

theorem cancelHandlers_slots {slot : Int} {hs : List HandlerId} {w w' : Wheel}
    (hrun : hs.foldlM (cancelHandler slot) w = .ok w') :
    w'.bits = w.bits ∧
      ∀ x, x ∉ hs → (w'.handlers x).slotInBucket = (w.handlers x).slotInBucket := by
  refine foldlM_invariant (fun v : Wheel => v.bits = w.bits ∧
    ∀ x, x ∉ hs → (v.handlers x).slotInBucket = (w.handlers x).slotInBucket) ?_
    ⟨rfl, fun _ _ => rfl⟩ hrun
  rintro v h hh v' ⟨hbits, hslots⟩ hone
  obtain ⟨hbits₁, hslots₁⟩ := cancelHandler_slots hone
  constructor
  · exact hbits₁.trans hbits
  · intro x hx
    have hne : x ≠ h := by
      rintro rfl
      exact hx hh
    rw [hslots₁ x hne]
    exact hslots x hx

theorem slotOf_coe (s : Slot) : slotOf (s : Int) = s := by
  apply Fin.ext
  simp only [slotOf]
  omega

/-- The bit of slot `s` is cleared with the list that `h` is in front of. -/
def Clears (w : Wheel) (h : HandlerId) (s : Slot) : Prop :=
  (w.handlers h).slotInBucket ≠ -1 ∧ slotOf (w.handlers h).slotInBucket = s

instance decidableClears (w : Wheel) (h : HandlerId) (s : Slot) : Decidable (w.Clears h s) :=
  inferInstanceAs (Decidable (_ ∧ _))

/-- Unless it is -1, the slot of the first handler loses its bit. -/
theorem cancelTimeoutsFromList_slots {w w' : Wheel} {p : Place}
    (hrun : w.cancelTimeoutsFromList p = .ok w') :
    (∀ s, w'.bits s = true ↔ w.bits s = true ∧ ∀ h ∈ (w.lists p).head?, ¬ w.Clears h s) ∧
      ∀ x, x ∉ w.lists p → (w'.handlers x).slotInBucket = (w.handlers x).slotInBucket := by
  rw [cancelTimeoutsFromList] at hrun
  split at hrun
  · next hnil =>
    cases hrun
    exact ⟨fun s => by simp [hnil], fun _ _ => rfl⟩
  · next h hs hcons =>
    obtain ⟨w₁, hfold, hrun⟩ := bind_eq_ok hrun
    cases hrun
    obtain ⟨hbits, hslots⟩ := cancelHandlers_slots hfold
    rw [hcons]
    refine ⟨?_, hslots⟩
    intro s
    simp only [List.head?_cons, Option.mem_def, Option.some.injEq, forall_eq', hbits]
    split
    · next hnone => exact ⟨fun hset => ⟨hset, fun hclears => hclears.1 hnone⟩, fun hset => hset.1⟩
    · next hslot =>
      by_cases hs : s = slotOf (w.handlers h).slotInBucket
      · rw [hs, Function.update_self]
        exact iff_of_false Bool.false_ne_true fun hset => hset.2 ⟨hslot, rfl⟩
      · rw [Function.update_of_ne hs]
        exact ⟨fun hset => ⟨hset, fun hclears => hs hclears.2.symm⟩, fun hset => hset.1⟩

/-- `cancelTimeoutsFromList_` compares with the first handler, so it compares all. -/
theorem cancelTimeoutsFromList_returns_iff {w : Wheel} {p : Place} (hw : HeapSound w)
    (hnodup : (w.lists p).Nodup) : (∃ w', w.cancelTimeoutsFromList p = .ok w') ↔ Agree w p := by
  rw [cancelTimeoutsFromList]
  split
  · next hnil => exact iff_of_true ⟨w, rfl⟩ (.of_nil hnil)
  · next h hs hcons =>
    have hcleared : HeapSound { w with
        bits := if (w.handlers h).slotInBucket = -1 then w.bits
          else Function.update w.bits (slotOf (w.handlers h).slotInBucket) false
        lists := Function.update w.lists p [] } := hw.of_eq rfl (fun _ => rfl) rfl
    have hfold := cancelHandlers_returns_iff (w.handlers h).slotInBucket (hcons ▸ hnodup) hcleared
    constructor
    · rintro ⟨w', hrun⟩
      obtain ⟨w₁, hrun, -⟩ := bind_eq_ok hrun
      have hall := hfold.mp ⟨w₁, hrun⟩
      intro x hx y hy
      rw [hcons] at hx hy
      exact (hall x hx).trans (hall y hy).symm
    · intro hagree
      obtain ⟨w₁, hrun⟩ := hfold.mpr fun x hx =>
        hagree x (hcons ▸ hx) h (hcons ▸ List.mem_cons_self)
      simp only [hrun, ok_bind]
      exact ⟨_, rfl⟩

/-! ## All lists -/

theorem nodup_list {w : Wheel} (hnodup : w.linked.Nodup) (p : Place) : (w.lists p).Nodup := by
  rw [linked, contents_clear w.lists p, Multiset.nodup_add] at hnodup
  exact Multiset.coe_nodup.mp hnodup.1

/-- Cancelling one list leaves the others as they are. -/
theorem cancelTimeoutsFromList_others {w w' : Wheel} {p : Place}
    (hrun : w.cancelTimeoutsFromList p = .ok w') (hnodup : w.linked.Nodup) :
    w'.linked.Nodup ∧ ∀ q, q ≠ p → w'.lists q = w.lists q ∧
      ∀ x ∈ w.lists q, (w'.handlers x).slotInBucket = (w.handlers x).slotInBucket := by
  have hlists := (cancelTimeoutsFromList_ok hrun).1
  constructor
  · rw [linked_of_cleared hlists] at hnodup
    exact (Multiset.nodup_add.mp hnodup).2.1
  · intro q hq
    constructor
    · rw [hlists, Function.update_of_ne hq]
    · intro x hx
      apply (cancelTimeoutsFromList_slots hrun).2
      intro hp
      exact hq (place_unique hnodup hx hp)

theorem nodup_places : places.Nodup := (List.nodup_finRange 4).product (List.nodup_finRange 256)

/-- Every list loses its bit, and nothing else does. -/
theorem cancelPlaces_bits {ps : List Place} (hps : ps.Nodup) {w w' : Wheel}
    (hrun : ps.foldlM cancelTimeoutsFromList w = .ok w') (hnodup : w.linked.Nodup) (s : Slot) :
    w'.bits s = true ↔ w.bits s = true ∧ ∀ p ∈ ps, ∀ h ∈ (w.lists p).head?, ¬ w.Clears h s := by
  induction ps generalizing w with
  | nil =>
      cases hrun
      simp
  | cons p ps ih =>
      obtain ⟨hnot, hps⟩ := List.nodup_cons.mp hps
      rw [List.foldlM_cons] at hrun
      obtain ⟨w₁, hone, hrun⟩ := bind_eq_ok hrun
      obtain ⟨hnodup₁, hothers⟩ := cancelTimeoutsFromList_others hone hnodup
      rw [ih hps hrun hnodup₁, (cancelTimeoutsFromList_slots hone).1 s, List.forall_mem_cons, and_assoc]
      -- the lists that follow are as they were
      have hsame : ∀ q ∈ ps, (∀ h ∈ (w₁.lists q).head?, ¬ w₁.Clears h s) ↔
          ∀ h ∈ (w.lists q).head?, ¬ w.Clears h s := by
        intro q hq
        obtain ⟨hlist, hslots⟩ := hothers q fun heq => hnot (heq ▸ hq)
        rw [hlist]
        refine forall₂_congr fun h hh => ?_
        rw [Clears, Clears, hslots h (List.mem_of_mem_head? hh)]
      exact and_congr_right fun _ => and_congr_right fun _ => forall₂_congr hsame

/-- **When `cancelAll` returns**: every list agrees on `slotInBucket_`. -/
theorem cancelAll_returns_iff {w : Wheel} (hw : HeapSound w) (hnodup : w.linked.Nodup) :
    (∃ w', w.cancelAll = .ok w') ↔ ∀ p, Agree w p := by
  have hfold : (∃ w', places.foldlM cancelTimeoutsFromList w = .ok w') ↔ ∀ p ∈ places, Agree w p := by
    refine foldlM_returns_iff (fun w => HeapSound w ∧ w.linked.Nodup) Agree
      (fun w p hw => cancelTimeoutsFromList_returns_iff hw.1 (nodup_list hw.2 p)) ?_
      nodup_places ⟨hw, hnodup⟩
    intro w p w' hw hrun
    obtain ⟨hnodup', hothers⟩ := cancelTimeoutsFromList_others hrun hw.2
    exact ⟨⟨cancelTimeoutsFromList_heapSound hrun hw.1, hnodup'⟩,
      fun q hq => agree_of_eq (hothers q hq).1 (hothers q hq).2⟩
  rw [show (∀ p, Agree w p) ↔ ∀ p ∈ places, Agree w p from
    ⟨fun h p _ => h p, fun h p => h p (mem_places p)⟩, ← hfold]
  constructor
  · rintro ⟨w', hrun⟩
    obtain ⟨w₁, hrun, -⟩ := cancelAll_eq_ok hrun
    exact ⟨w₁, hrun⟩
  · rintro ⟨w₁, hrun⟩
    have hsound : HeapSound w₁ := foldlM_invariant HeapSound
      (fun _ _ _ _ hv hone => cancelTimeoutsFromList_heapSound hone hv) hw hrun
    rw [cancelAll, hrun, ok_bind]
    split
    · rw [heap, if_pos hsound.1]
      exact ⟨_, rfl⟩
    · exact ⟨_, rfl⟩

theorem cancelAll_bits {w w' : Wheel} (hrun : w.cancelAll = .ok w') (hnodup : w.linked.Nodup)
    (s : Slot) :
    w'.bits s = true ↔ w.bits s = true ∧ ∀ p, ∀ h ∈ (w.lists p).head?, ¬ w.Clears h s := by
  obtain ⟨w₁, hfold, hend⟩ := cancelAll_eq_ok hrun
  have hbits := cancelPlaces_bits nodup_places hfold hnodup s
  have hall : (∀ p ∈ places, ∀ h ∈ (w.lists p).head?, ¬ w.Clears h s) ↔
      ∀ p, ∀ h ∈ (w.lists p).head?, ¬ w.Clears h s :=
    ⟨fun h p => h p (mem_places p), fun h p _ => h p⟩
  rw [hall] at hbits
  rcases hend with ⟨-, -, rfl⟩ | ⟨-, rfl⟩
  · exact hbits
  · exact hbits

/-- The first handler of a list of the first bucket takes its bit along. -/
theorem Slotted.clears {Above : Int → Prop} {Full : Prop} {w : Wheel} (hw : Slotted Above Full w)
    {x : HandlerId} {s : Slot} (hx : x ∈ w.lists (0, s)) : w.Clears x s := by
  have hslot := hw.first hx
  rw [Clears, hslot, slotOf_coe]
  exact ⟨by omega, rfl⟩

/-- `cancelAll` returns, no list holds anything then and no bit is set. -/
def CancelsAll (w : Wheel) : Prop :=
  ∃ w', w.cancelAll = .ok w' ∧ (∀ p, w'.lists p = []) ∧ ∀ s, w'.bits s = false

/-- Every bit that is set belongs to the slot of a linked handler. -/
def BitsBacked (w : Wheel) : Prop :=
  ∀ s, w.bits s = true → ∃ p, ∃ x ∈ w.lists p, w.Clears x s

theorem Slotted.bitsBacked {Above : Int → Prop} {Full : Prop} {w : Wheel}
    (hw : Slotted Above Full w) (hfull : Full) : BitsBacked w := by
  intro s hs
  obtain ⟨x, hx⟩ := List.exists_mem_of_ne_nil _ (hw.occupied hfull hs)
  exact ⟨(0, s), x, hx, hw.clears hx⟩

theorem cancelsAll_iff {Above : Int → Prop} {Full : Prop} {w : Wheel} (hw : HeapSound w)
    (hnodup : w.linked.Nodup) (hslotted : Slotted Above Full w) :
    CancelsAll w ↔ (∀ p, p.1 ≠ 0 → Agree w p) ∧ BitsBacked w := by
  constructor
  · rintro ⟨w', hrun, -, hclear⟩
    have hagree := (cancelAll_returns_iff hw hnodup).mp ⟨w', hrun⟩
    refine ⟨fun p _ => hagree p, fun s hs => ?_⟩
    by_contra hnone
    have hset := (cancelAll_bits hrun hnodup s).mpr ⟨hs, fun p h hh hclears =>
      hnone ⟨p, h, List.mem_of_mem_head? hh, hclears⟩⟩
    rw [hclear s] at hset
    cases hset
  · rintro ⟨habove, hbacked⟩
    have hagree : ∀ p, Agree w p := by
      rintro ⟨k, s⟩
      by_cases hk : k = 0
      · subst hk
        intro x hx y hy
        rw [hslotted.first hx, hslotted.first hy]
      · exact habove (k, s) hk
    obtain ⟨w', hrun⟩ := (cancelAll_returns_iff hw hnodup).mpr hagree
    refine ⟨w', hrun, (cancelAll_ok hrun).1, fun s => ?_⟩
    by_contra hset
    obtain ⟨hs, hhead⟩ := (cancelAll_bits hrun hnodup s).mp (Bool.eq_true_of_not_eq_false hset)
    obtain ⟨p, x, hx, hclears⟩ := hbacked s hs
    -- the first handler of the list has the slot of `x`
    obtain ⟨h, hs', hcons⟩ := List.exists_cons_of_ne_nil (List.ne_nil_of_mem hx)
    refine hhead p h (by rw [hcons]; rfl) ?_
    rw [Clears, hagree p h (by rw [hcons]; exact List.mem_cons_self) x hx]
    exact hclears

end Wheel

namespace HHWheelTimer

open Wheel

/-! ## Runs -/

/-- A handler that is scheduled a turn of the first wheel ahead or more comes with a slot of which
`Above` holds. -/
def FarComes (Above : Int → Prop) (cfg : Config) (t : HHWheelTimer) (input : Input) : Prop :=
  match t.schedules input with
  | some (h, timeout) => wheelSize ≤ getTickFromDuration cfg (max timeout 0) →
      Above ((t.prepared input).wheel.handlers h).slotInBucket
  | none => True

/-- It has not been in the first bucket since it was made or cancelled. -/
abbrev FarUnused : Config → HHWheelTimer → Input → Prop := FarComes (· = -1)

instance decidableFarComes (Above : Int → Prop) [DecidablePred Above] (cfg : Config)
    (t : HHWheelTimer) (input : Input) : Decidable (FarComes Above cfg t input) := by
  unfold FarComes
  exact match t.schedules input with
    | some _ => inferInstance
    | none => inferInstance

/-- Only a timeout of at least 256 ticks leads above the first bucket. -/
theorem placeOf_above {base ticks : Int} (h : (placeOf base (ticks + base)).1 ≠ 0) :
    wheelSize ≤ ticks := by
  by_contra hlt
  apply h
  have hdiff : ticks + base - base = ticks := by omega
  simp only [placeOf, hdiff]
  split
  · rfl
  · rw [if_pos (by omega)]

/-- No handler is deleted that is linked or in the heap, and those scheduled far ahead come with
`slotInBucket_ = -1`. -/
def KeepsCancellable (cfg : Config) (t : HHWheelTimer) (input : Input) : Prop :=
  FarUnused cfg t input ∧ t.ClearsRight (·.needDestroy = true) input ∧ t.DeletesRight input

instance decidableKeepsCancellable (cfg : Config) (t : HHWheelTimer) (input : Input) :
    Decidable (t.KeepsCancellable cfg input) :=
  inferInstanceAs (Decidable (_ ∧ _ ∧ _))

section Slotted
variable {Above : Int → Prop} {Full : Prop}

theorem setScheduled_slot (cfg : Config) (h : HandlerId) (timeout : Int) (w : Wheel)
    (x : HandlerId) :
    ((w.setScheduled cfg h timeout).handlers x).slotInBucket = (w.handlers x).slotInBucket :=
  update_member (·.slotInBucket) (by rfl) x

theorem Move.slotted {cfg : Config} {t t' : HHWheelTimer} {input : Input} {events : List Event}
    (hmove : Move cfg t input events t') (hw : WellLinked t) (hfar : FarComes Above cfg t input)
    (hdeletes : Full → t.DeletesRight input) (hslotted : Slotted Above Full t.wheel) :
    Slotted Above Full t'.wheel := by
  have hlinkedUsers : ∀ x ∈ t.wheel.linked, x.isInternal = false := fun x => hw.linked_users
  cases hmove with
  | idle | called => exact hslotted
  | looked | fired | left | resumed => exact hslotted.of_eq rfl rfl fun _ _ => rfl
  | @scheduled _ h timeout w huser hschedules hknows halive hlinked hnext =>
      have hnot : h ∉ t.wheel.linked := fun hmem => by
        rw [isLinked_iff.mpr (mem_hooked.mpr (Or.inl hmem))] at hlinked
        cases hlinked
      have hprepared : Slotted Above Full (t.prepared input).wheel := by
        refine hslotted.of_eq (prepared_lists t input) (prepared_bits t input) fun x hx => ?_
        have hne : x ≠ h := fun heq => hnot (heq ▸ hx)
        rw [prepared_handlers hschedules hne]
      have hset : Slotted Above Full ((t.prepared input).wheel.setScheduled cfg h timeout) :=
        hprepared.of_eq rfl rfl fun x _ => setScheduled_slot cfg h timeout _ x
      have hinserted : Slotted Above Full ((t.prepared input).wheel.inserted cfg h timeout) := by
        apply hset.insert
        · rw [setScheduled_linked, prepared_linked]
          exact hnot
        · intro hplace
          rw [setScheduled_slot]
          rw [FarComes, hschedules] at hfar
          exact hfar (placeOf_above hplace)
      apply hinserted.rearmed (scheduleNext_rearmed hnext)
      intro x hx
      rw [inserted_linked, prepared_linked, Multiset.mem_cons] at hx
      exact hx.elim (fun heq => heq ▸ isInternal_of_knows hknows) (hlinkedUsers x)
  | @cancelled w huser hcancel =>
      have hempty := (cancelAll_ok hcancel).1
      refine ⟨fun hx => ?_, fun _ hx => ?_, fun hfull s hs => ?_⟩
      · rw [hempty] at hx
        exact absurd hx List.not_mem_nil
      · rw [hempty] at hx
        exact absurd hx List.not_mem_nil
      · -- the list of the slot was not empty, so the bit has been cleared with it
        obtain ⟨hset, hhead⟩ := (cancelAll_bits hcancel hw.linked_nodup s).mp hs
        obtain ⟨h, hs', hcons⟩ := List.exists_cons_of_ne_nil (hslotted.occupied hfull hset)
        exact absurd (hslotted.clears (s := s) (x := h) (by rw [hcons]; exact List.mem_cons_self))
          (hhead (0, s) h (by rw [hcons]; rfl))
  | @entered h w hcontrol hclear =>
      subst hclear
      have hcleared : Slotted Above Full (t.wheel.clearRegistered h) :=
        hslotted.of_eq rfl rfl fun x _ => update_member (·.slotInBucket) (by rfl) x
      exact walked_slotted cfg (clearRegistered_bitSync h hw.bitSync) hw.linked_nodup hcleared
  | @returned h curTick calls w hcontrol hcalls hrearm =>
      -- a handler that is deleted is in no list, so no list loses its only one
      have hrearmed := hslotted.rearmed (rearm_rearmed hrearm) hlinkedUsers
      rw [released_wheel]
      split
      · next hdestroy =>
        refine hrearmed.unlink fun hfull hmem => ?_
        have hends := hdeletes hfull rfl
        rw [hcontrol, hcalls] at hends
        have hunlinked := (hends _ rfl rfl hdestroy).1
        rw [linked_of_lists_eq (rearm_rearmed hrearm).lists_eq] at hmem
        rw [isLinked_iff.mpr (mem_hooked.mpr (Or.inl hmem))] at hunlinked
        cases hunlinked
      · exact hrearmed

end Slotted

/-- **When `cancelAll` is safe.** In every state that a run reaches, as long as the heap is in order,
it returns and leaves nothing behind if and only if the handlers of each list above the first bucket
agree on `slotInBucket_`, and every bit that is set is the slot of a linked handler. That is so in a
run that schedules no used handler a turn of the first wheel ahead and deletes none that is linked or
in the heap. -/
theorem cancelAll_safe_iff (cfg : Config) (inputs : List Input)
    (history : List (Entry HHWheelTimer Input (List Event))) (t : HHWheelTimer)
    (hrun : run (step cfg) inputs new = .ok (history, t)) :
    (HeapSound t.wheel →
      (CancelsAll t.wheel ↔ (∀ p, p.1 ≠ 0 → Agree t.wheel p) ∧ BitsBacked t.wheel)) ∧
      ((∀ e ∈ history, e.before.KeepsCancellable cfg e.input) → CancelsAll t.wheel) := by
  obtain ⟨⟨hw, hslotted⟩, -⟩ := run_moves (fun t => Slotted (fun _ => True) False t.wheel)
    (fun _ _ => True) (fun _ _ _ => True)
    (fun t input _ _ hw hslotted _ hmove => ⟨hmove.slotted hw
      (by unfold FarComes; split <;> simp) (fun hfalse => hfalse.elim) hslotted, trivial⟩)
    new_slotted hrun fun _ _ => trivial
  refine ⟨fun hsound => cancelsAll_iff hsound hw.linked_nodup hslotted, fun hcond => ?_⟩
  obtain ⟨⟨hw, hunused, hmade, hsound⟩, -⟩ := run_moves
    (fun t => Slotted (· = -1) True t.wheel ∧ AllMade t ∧ HeapSound t.wheel) (KeepsCancellable cfg)
    (fun _ _ _ => True)
    (fun t input _ _ hw hinv hcond hmove => ⟨⟨hmove.slotted hw hcond.1 (fun _ => hcond.2.2) hinv.1,
      hmove.allMade hw.bitSync hinv.2.1,
      hmove.heapSound hw hinv.2.1 hcond.2.1 hcond.2.2 hinv.2.2⟩, trivial⟩)
    ⟨new_slotted, new_allMade, new_heapSound⟩ hrun hcond
  apply (cancelsAll_iff hsound hw.linked_nodup hunused).mpr
  refine ⟨fun p hp x hx y hy => ?_, hunused.bitsBacked trivial⟩
  rw [hunused.above hp hx, hunused.above hp hy]

/-- Two new handlers share a list of the second bucket; one that has been fired and one that
`scheduleTimeoutFn` has made are in the first. -/
theorem cancelAll_safe_fired : ∃ r,
    run (step (lateAfter 1 0 20 (by decide))) [.scheduleTimeout (.user 0) 10, .fire (.user 0),
      .proceed, .proceed, .proceed, .scheduleTimeout (.user 1) 2560, .scheduleTimeout (.user 2) 2560,
      .scheduleTimeout (.user 0) 100, .scheduleTimeoutFn 50] new = .ok r ∧
    r.2.wheel.timerCount = 4 ∧ CancelsAll r.2.wheel := by
  have hrun : ∃ r,
      run (step (lateAfter 1 0 20 (by decide))) [.scheduleTimeout (.user 0) 10, .fire (.user 0),
        .proceed, .proceed, .proceed, .scheduleTimeout (.user 1) 2560,
        .scheduleTimeout (.user 2) 2560, .scheduleTimeout (.user 0) 100, .scheduleTimeoutFn 50]
        new = .ok r ∧
      r.2.wheel.timerCount = 4 ∧
      ∀ e ∈ r.1, e.before.KeepsCancellable (lateAfter 1 0 20 (by decide)) e.input := by
    decide +kernel
  obtain ⟨⟨history, t⟩, hrun, hcount, hcond⟩ := hrun
  exact ⟨(history, t), hrun, hcount, (cancelAll_safe_iff _ _ history t hrun).2 hcond⟩

/-- **`cancelAll` trips its assertion.** A handler has been fired from slot 1 and is scheduled again,
256 ticks ahead, next to one that is new: the list holds the slots 1 and -1. -/
theorem cancelAll_trips : ∃ r,
    run (step (lateAfter 1 0 20 (by decide))) [.scheduleTimeout (.user 0) 10, .fire (.user 0),
      .proceed, .proceed, .proceed, .scheduleTimeout (.user 0) 2560,
      .scheduleTimeout (.user 1) 2560] new = .ok r ∧
    r.2.control = .outside ∧ r.2.wheel.cancelAll = .error .assertion := by
  decide +kernel

end HHWheelTimer
end Unp.Timer
