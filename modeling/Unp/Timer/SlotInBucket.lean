import Unp.Timer.Linked

/-!
# `slotInBucket_`

`cancelTimeoutsFromList_` expects all handlers of a list to have the same `slotInBucket_`. In the
first bucket they do: it is the slot of the list. In the others it is what a handler brings along,
-1 when it has not been in the first bucket since it was made or cancelled, and otherwise the slot
it was last put into; firing does not reset it.
-/

namespace Unp.Timer

open Unp.Machine Unp.Slots Unp.Run

namespace Wheel

/-- What `slotInBucket_` and the bits say about the lists: in the first bucket it is the slot, in
the others `Above` holds of it, and, where `Full` holds, no bit is set for an empty list. -/
structure Slotted (Above : Int → Prop) (Full : Prop) (w : Wheel) : Prop where
  first : ∀ {s x}, x ∈ w.lists (0, s) → (w.handlers x).slotInBucket = s
  above : ∀ {p x}, p.1 ≠ 0 → x ∈ w.lists p → Above (w.handlers x).slotInBucket
  occupied : Full → ∀ {s}, w.bits s = true → w.lists (0, s) ≠ []

section Slotted
variable {Above : Int → Prop} {Full : Prop}

/-- A change that leaves the lists, the bits and the slots of the linked handlers alone. -/
theorem Slotted.of_eq {w w' : Wheel} (h : Slotted Above Full w) (hlists : w'.lists = w.lists)
    (hbits : w'.bits = w.bits)
    (hslots : ∀ x ∈ w.linked, (w'.handlers x).slotInBucket = (w.handlers x).slotInBucket) :
    Slotted Above Full w' where
  first hx := by
    rw [hlists] at hx
    rw [hslots _ (mem_linked.mpr ⟨_, hx⟩)]
    exact h.first hx
  above hp hx := by
    rw [hlists] at hx
    rw [hslots _ (mem_linked.mpr ⟨_, hx⟩)]
    exact h.above hp hx
  occupied hfull _ hs := by
    rw [hlists]
    exact h.occupied hfull (hbits ▸ hs)

theorem new_slotted : Slotted Above Full new where
  first hx := absurd hx List.not_mem_nil
  above _ hx := absurd hx List.not_mem_nil
  occupied _ _ hs := absurd hs Bool.false_ne_true

/-! ## Inserting -/

section Insert
variable (w : Wheel) (h : HandlerId) (base e : Int)

theorem scheduleTimeoutImpl_slot_of_ne {x : HandlerId} (hx : x ≠ h) :
    ((w.scheduleTimeoutImpl h base e).handlers x).slotInBucket = (w.handlers x).slotInBucket := by
  simp only [scheduleTimeoutImpl]
  split
  · rw [Function.update_of_ne hx]
  · rfl

theorem scheduleTimeoutImpl_slot_first (hp : (placeOf base e).1 = 0) :
    ((w.scheduleTimeoutImpl h base e).handlers h).slotInBucket = (placeOf base e).2 := by
  simp only [scheduleTimeoutImpl, if_pos hp]
  rw [Function.update_self]

theorem scheduleTimeoutImpl_slot_above (hp : (placeOf base e).1 ≠ 0) :
    ((w.scheduleTimeoutImpl h base e).handlers h).slotInBucket = (w.handlers h).slotInBucket := by
  simp only [scheduleTimeoutImpl, if_neg hp]

/-- A bit is set with an insertion into its list. -/
theorem scheduleTimeoutImpl_bits {s : Slot} (hs : (w.scheduleTimeoutImpl h base e).bits s = true) :
    w.bits s = true ∨ (0, s) = placeOf base e := by
  simp only [scheduleTimeoutImpl] at hs
  split at hs
  · next hp =>
    by_cases hslot : s = (placeOf base e).2
    · exact Or.inr (Prod.ext hp.symm hslot)
    · rw [Function.update_of_ne hslot] at hs
      exact Or.inl hs
  · exact Or.inl hs

end Insert

/-- A handler that is not linked is inserted. -/
theorem Slotted.insert {w : Wheel} {h : HandlerId} {base e : Int} (hw : Slotted Above Full w)
    (hnot : h ∉ w.linked) (habove : (placeOf base e).1 ≠ 0 → Above (w.handlers h).slotInBucket) :
    Slotted Above Full (w.scheduleTimeoutImpl h base e) := by
  have hne : ∀ {x p}, x ∈ w.lists p → x ≠ h := by
    intro x p hx heq
    exact hnot (mem_linked.mpr ⟨p, heq ▸ hx⟩)
  refine ⟨?_, ?_, ?_⟩
  · intro s x hx
    rcases (mem_scheduleTimeoutImpl w h base e x _).mp hx with hx | ⟨rfl, hp⟩
    · rw [scheduleTimeoutImpl_slot_of_ne w h base e (hne hx)]
      exact hw.first hx
    · rw [scheduleTimeoutImpl_slot_first w x base e (by rw [← hp]), ← hp]
  · intro p x hp hx
    rcases (mem_scheduleTimeoutImpl w h base e x p).mp hx with hx | ⟨rfl, rfl⟩
    · rw [scheduleTimeoutImpl_slot_of_ne w h base e (hne hx)]
      exact hw.above hp hx
    · rw [scheduleTimeoutImpl_slot_above w x base e hp]
      exact habove hp
  · intro hfull s hs
    have hmem : ∃ x, x ∈ (w.scheduleTimeoutImpl h base e).lists (0, s) := by
      rcases scheduleTimeoutImpl_bits w h base e hs with hs | hp
      · obtain ⟨x, hx⟩ := List.exists_mem_of_ne_nil _ (hw.occupied hfull hs)
        exact ⟨x, (mem_scheduleTimeoutImpl w h base e x _).mpr (Or.inl hx)⟩
      · exact ⟨h, (mem_scheduleTimeoutImpl w h base e h _).mpr (Or.inr ⟨rfl, hp⟩)⟩
    obtain ⟨x, hx⟩ := hmem
    exact List.ne_nil_of_mem hx

/-! ## Expiring -/

/-- The handlers `tmp`, taken out of a list above the first bucket, are put back. -/
theorem reinserted_slotted (cfg : Config) (curTick : Int) {tmp : List HandlerId} {w : Wheel}
    (hw : Slotted Above Full w) (hnodup : tmp.Nodup) (hnot : ∀ x ∈ tmp, x ∉ w.linked)
    (habove : ∀ x ∈ tmp, Above (w.handlers x).slotInBucket) :
    Slotted Above Full (tmp.foldl
      (fun w h => scheduleTimeoutImpl { w with timerCount := subU64 w.timerCount 1 } h curTick
        (w.tick cfg h)) w) := by
  induction tmp generalizing w with
  | nil => exact hw
  | cons h tmp ih =>
      rw [List.foldl_cons]
      obtain ⟨hhead, hnodup⟩ := List.nodup_cons.mp hnodup
      obtain ⟨hnoth, hnot⟩ := List.forall_mem_cons.mp hnot
      obtain ⟨haboveh, habove⟩ := List.forall_mem_cons.mp habove
      obtain ⟨w₀, hw₀⟩ : ∃ w₀ : Wheel, w₀ = { w with timerCount := subU64 w.timerCount 1 } :=
        ⟨_, rfl⟩
      obtain ⟨e, he⟩ : ∃ e, e = w.tick cfg h := ⟨_, rfl⟩
      rw [← hw₀, ← he]
      have hlinked : w₀.linked = w.linked := linked_of_lists_eq (by rw [hw₀])
      have hhandlers : w₀.handlers = w.handlers := by rw [hw₀]
      have hslotted₀ : Slotted Above Full w₀ :=
        hw.of_eq (by rw [hw₀]) (by rw [hw₀]) fun x _ => by rw [hhandlers]
      -- the rest of `tmp` keeps its slots, and is still not linked
      have hother : ∀ x ∈ tmp, x ≠ h := fun x hx heq => hhead (heq ▸ hx)
      refine ih (hslotted₀.insert (hlinked ▸ hnoth) fun _ => by rw [hhandlers]; exact haboveh)
        hnodup ?_ ?_
      · intro x hx hmem
        rw [linked_scheduleTimeoutImpl, hlinked, Multiset.mem_cons] at hmem
        exact hmem.elim (hother x hx) (hnot x hx)
      · intro x hx
        rw [scheduleTimeoutImpl_slot_of_ne w₀ h curTick e (hother x hx), hhandlers]
        exact habove x hx

theorem cascadeTimers_slotted (cfg : Config) (curTick : Int) {w : Wheel} (p : Place)
    (hp : p.1 ≠ 0) (hw : Slotted Above Full w) (hnodup : w.linked.Nodup) :
    Slotted Above Full (w.cascadeTimers cfg p.1 p.2 curTick) := by
  obtain ⟨w₀, hw₀, hcasc⟩ := exists_cascadeTimers_eq cfg w p curTick
  have hlists : w₀.lists = Function.update w.lists p [] := by rw [hw₀]
  have hhandlers : w₀.handlers = w.handlers := by rw [hw₀]
  have hfirst : ∀ s, w₀.lists (0, s) = w.lists (0, s) := by
    intro s
    rw [hlists, Function.update_of_ne fun heq => hp (by rw [← heq])]
  have hslotted₀ : Slotted Above Full w₀ := by
    refine ⟨?_, ?_, ?_⟩
    · intro s x hx
      rw [hfirst] at hx
      rw [hhandlers]
      exact hw.first hx
    · intro q x hq hx
      by_cases hqp : q = p
      · rw [hlists, hqp, Function.update_self] at hx
        exact absurd hx List.not_mem_nil
      · rw [hlists, Function.update_of_ne hqp] at hx
        rw [hhandlers]
        exact hw.above hq hx
    · intro hfull s hs
      rw [hw₀] at hs
      rw [hfirst]
      exact hw.occupied hfull hs
  rw [linked_of_cleared hlists, Multiset.nodup_add] at hnodup
  rw [hcasc]
  refine reinserted_slotted cfg curTick hslotted₀ (Multiset.coe_nodup.mp hnodup.1) ?_ ?_
  · exact fun x hx => Multiset.disjoint_left.mp hnodup.2.2 (Multiset.mem_coe.mpr hx)
  · intro x hx
    rw [hhandlers]
    exact hw.above hp hx

theorem cascadeAt_slotted (cfg : Config) (t curTick : Int) {w : Wheel} (hw : Slotted Above Full w)
    (hnodup : w.linked.Nodup) : Slotted Above Full (w.cascadeAt cfg t curTick) := by
  have hone : ∀ (k : Fin 4) (s : Slot) {w : Wheel}, k ≠ 0 → Slotted Above Full w ∧ w.linked.Nodup →
      Slotted Above Full (w.cascadeTimers cfg k s curTick) ∧
        (w.cascadeTimers cfg k s curTick).linked.Nodup := by
    rintro k s w hk ⟨hw, hnodup⟩
    refine ⟨cascadeTimers_slotted cfg curTick (k, s) hk hw hnodup, ?_⟩
    rw [(cascadeTimers_cascaded cfg w (k, s) curTick hk).linked_eq]
    exact hnodup
  have h₁ := hone 1 (levelSlot 1 t) (by decide) ⟨hw, hnodup⟩
  have h₂ := hone 2 (levelSlot 2 t) (by decide) h₁
  have h₃ := hone 3 (levelSlot 3 t) (by decide) h₂
  simp only [cascadeAt]
  split
  · split
    · split
      · exact h₃.1
      · exact h₂.1
    · exact h₁.1
  · exact hw

theorem drainSlot_slotted (s : Slot) {w : Wheel} (hw : Slotted Above Full w) :
    Slotted Above Full (drainSlot s w).2 := by
  rw [drainSlot]
  split
  · have hsub : ∀ {x q}, x ∈ Function.update w.lists (0, s) [] q → x ∈ w.lists q := by
      intro x q hx
      by_cases hq : q = (0, s)
      · rw [hq, Function.update_self] at hx
        exact absurd hx List.not_mem_nil
      · rwa [Function.update_of_ne hq] at hx
    refine ⟨fun hx => hw.first (hsub hx), fun hp hx => hw.above hp (hsub hx), ?_⟩
    intro hfull s' hs
    by_cases hss : s' = s
    · simp only [hss, Function.update_self] at hs
      cases hs
    · have hplace : ((0 : Fin 4), s') ≠ (0, s) := by simp [hss]
      simp only [Function.update_of_ne hss] at hs
      simp only [Function.update_of_ne hplace]
      exact hw.occupied hfull hs
  · exact hw

theorem tickBody_slotted (cfg : Config) (t curTick : Int) {w : Wheel} (hw : Slotted Above Full w)
    (hnodup : w.linked.Nodup) : Slotted Above Full (tickBody cfg t curTick w).2 := by
  have hcasc := cascadeAt_slotted cfg t curTick hw hnodup
  exact drainSlot_slotted _ (hcasc.of_eq rfl rfl fun _ _ => rfl)

theorem walk_slotted (cfg : Config) (curTick : Int) (n : Nat) {w : Wheel} (hw : Slotted Above Full w)
    (hnodup : w.linked.Nodup) (hsync : BitSync w) : Slotted Above Full (walk cfg curTick n w).2 := by
  induction n generalizing w with
  | zero => exact hw
  | succ n ih =>
      have htick := tickBody_ticked cfg w.expireTick curTick hsync
      have hle : (tickBody cfg w.expireTick curTick w).2.linked ≤ w.linked := by
        rw [htick.linked_eq]
        exact Multiset.le_add_left _ _
      rw [walk_succ]
      exact ih (tickBody_slotted cfg _ _ hw hnodup) (Multiset.nodup_of_le hle hnodup) htick.bitSync

theorem walked_slotted (cfg : Config) {w : Wheel} (hsync : BitSync w) (hnodup : w.linked.Nodup)
    (hslotted : Slotted Above Full w) : Slotted Above Full (w.walked cfg).2 := by
  have hentered : Slotted Above Full w.entered :=
    hslotted.of_eq (entered_lists w) (entered_bits w) fun _ _ => by rw [entered_handlers]
  refine walk_slotted cfg _ _ hentered ?_ ?_
  · rw [linked_of_lists_eq (entered_lists w)]
    exact hnodup
  · intro s hs
    rw [entered_lists] at hs
    rw [entered_bits]
    exact hsync s hs

/-- Arming the reactor touches no linked handler but for its flag. -/
theorem Slotted.rearmed {w w' : Wheel} (hslotted : Slotted Above Full w) (hrearmed : Rearmed w w')
    (husers : ∀ x ∈ w.linked, x.isInternal = false) : Slotted Above Full w' :=
  hslotted.of_eq hrearmed.lists_eq hrearmed.bits_eq fun x hx => hrearmed.slot_eq x (husers x hx)

/-- Deleting a handler takes it out of the lists, and leaves its bit. -/
theorem Slotted.unlink {w : Wheel} {h : HandlerId} (hslotted : Slotted Above Full w)
    (hgone : Full → h ∉ w.linked) : Slotted Above Full ((w.unlink h).delete h) := by
  have hsub : ∀ {x p}, x ∈ ((w.unlink h).delete h).lists p → x ∈ w.lists p :=
    fun hx => List.mem_of_mem_filter hx
  refine ⟨fun hx => hslotted.first (hsub hx), fun hp hx => hslotted.above hp (hsub hx), ?_⟩
  intro hfull s hs
  obtain ⟨x, hx⟩ := List.exists_mem_of_ne_nil _ (hslotted.occupied hfull hs)
  refine List.ne_nil_of_mem (List.mem_filter.mpr ⟨hx, ?_⟩)
  apply decide_eq_true
  rintro rfl
  exact hgone hfull (mem_linked.mpr ⟨_, hx⟩)

end Slotted

end Wheel
end Unp.Timer
