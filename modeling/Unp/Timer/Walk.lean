import Unp.Timer.Wheel

/-!
# The walk over the ticks that have passed

What one tick does to the lists is said once, in terms of where handlers are: a place that is
cascaded at a tick is emptied and its handlers go where `placeOf` sends them, the slot of the tick
is drained, and nothing else moves. Everything the other modules need about the loop of
`timeoutExpired` follows by induction over the ticks.
-/

namespace Unp.Timer

open Unp.Machine Unp.Slots

namespace Wheel

/-- A member that is assigned what it was stays the same for every handler. -/
theorem update_member {β : Type} (member : TimeoutHandler → β)
    {handlers : HandlerId → TimeoutHandler} {h : HandlerId} {info : TimeoutHandler}
    (hsame : member info = member (handlers h)) (x : HandlerId) :
    member (Function.update handlers h info x) = member (handlers x) := by
  by_cases hx : x = h
  · subst hx
    rw [Function.update_self, hsame]
  · rw [Function.update_of_ne hx]

/-- Lists, bits and slots apart, nothing has changed. -/
structure Frame (w w' : Wheel) : Prop where
  expiration_eq : ∀ x, (w'.handlers x).expiration = (w.handlers x).expiration
  isRegistered_eq : ∀ x, (w'.handlers x).isRegistered = (w.handlers x).isRegistered
  registered_eq : w'.registered = w.registered
  fns_eq : w'.fns = w.fns
  internals_eq : w'.internals = w.internals
  destroyed_eq : w'.destroyed = w.destroyed
  clock_eq : w'.clock = w.clock

theorem Frame.refl (w : Wheel) : Frame w w :=
  ⟨fun _ => rfl, fun _ => rfl, rfl, rfl, rfl, rfl, rfl⟩

theorem Frame.trans {w₁ w₂ w₃ : Wheel} (h₁ : Frame w₁ w₂) (h₂ : Frame w₂ w₃) : Frame w₁ w₃ where
  expiration_eq x := (h₂.expiration_eq x).trans (h₁.expiration_eq x)
  isRegistered_eq x := (h₂.isRegistered_eq x).trans (h₁.isRegistered_eq x)
  registered_eq := h₂.registered_eq.trans h₁.registered_eq
  fns_eq := h₂.fns_eq.trans h₁.fns_eq
  internals_eq := h₂.internals_eq.trans h₁.internals_eq
  destroyed_eq := h₂.destroyed_eq.trans h₁.destroyed_eq
  clock_eq := h₂.clock_eq.trans h₁.clock_eq

theorem Frame.tick_eq {w w' : Wheel} (h : Frame w w') (cfg : Config) (x : HandlerId) :
    w'.tick cfg x = w.tick cfg x := by
  rw [tick, tick, h.expiration_eq]

/-- The handlers whose hooks are in one of the lists. -/
def linked (w : Wheel) : Multiset HandlerId := contents w.lists

theorem mem_linked {w : Wheel} {x : HandlerId} : x ∈ w.linked ↔ ∃ p, x ∈ w.lists p :=
  mem_contents

theorem linked_of_lists_eq {w w' : Wheel} (h : w'.lists = w.lists) : w'.linked = w.linked := by
  rw [linked, linked, h]

theorem linked_of_cleared {w w' : Wheel} {p : Place} (h : w'.lists = Function.update w.lists p []) :
    w.linked = (w.lists p : Multiset HandlerId) + w'.linked := by
  rw [linked, linked, h]
  exact contents_clear _ _

/-- What is said of all places can be checked list by list. -/
instance decidableForallPlace (C : Place → Prop) [DecidablePred C] : Decidable (∀ p, C p) :=
  decidable_of_iff (((List.finRange 4).all fun b => (List.finRange 256).all fun s =>
    decide (C (b, s))) = true) (by simp [Prod.forall])

instance decidableExistsPlace (C : Place → Prop) [DecidablePred C] : Decidable (∃ p, C p) :=
  decidable_of_iff (((List.finRange 4).any fun b => (List.finRange 256).any fun s =>
    decide (C (b, s))) = true) (by simp [Prod.exists])

/-! ## One insertion -/

section Insert
variable (w : Wheel) (h : HandlerId) (base e : Int)

theorem scheduleTimeoutImpl_frame : Frame w (w.scheduleTimeoutImpl h base e) := by
  refine ⟨?_, ?_, rfl, rfl, rfl, rfl, rfl⟩
  · intro x
    simp only [scheduleTimeoutImpl]
    split
    · exact update_member (·.expiration) (by rfl) x
    · rfl
  · intro x
    simp only [scheduleTimeoutImpl]
    split
    · exact update_member (·.isRegistered) (by rfl) x
    · rfl

theorem scheduleTimeoutImpl_expireTick :
    (w.scheduleTimeoutImpl h base e).expireTick = w.expireTick := rfl

/-- The list at `placeOf base e` is the only one that changes. -/
theorem mem_scheduleTimeoutImpl (x : HandlerId) (p : Place) :
    x ∈ (w.scheduleTimeoutImpl h base e).lists p ↔
      x ∈ w.lists p ∨ (x = h ∧ p = placeOf base e) := by
  simp only [scheduleTimeoutImpl]
  by_cases hp : p = placeOf base e
  · subst hp
    simp [Function.update_self]
  · simp [hp]

theorem bits_scheduleTimeoutImpl {s : Slot} (hs : w.bits s = true) :
    (w.scheduleTimeoutImpl h base e).bits s = true := by
  simp only [scheduleTimeoutImpl]
  split
  · by_cases hp : s = (placeOf base e).2
    · rw [hp, Function.update_self]
    · rw [Function.update_of_ne hp]
      exact hs
  · exact hs

theorem scheduleTimeoutImpl_bitSync (hsync : BitSync w) :
    BitSync (w.scheduleTimeoutImpl h base e) := by
  intro s hne
  by_cases hp : (0, s) = placeOf base e
  · simp only [scheduleTimeoutImpl, ← hp, if_true]
    rw [Function.update_self]
  · simp only [scheduleTimeoutImpl, Function.update_of_ne hp] at hne
    exact bits_scheduleTimeoutImpl w h base e (hsync s hne)

theorem linked_scheduleTimeoutImpl :
    (w.scheduleTimeoutImpl h base e).linked = h ::ₘ w.linked :=
  contents_push _ _ _

end Insert

/-! ## A cascade -/

/-- The handlers `tmp` have been put back where `placeOf` sends them. -/
structure Reinserted (cfg : Config) (curTick : Int) (tmp : List HandlerId) (w w' : Wheel) :
    Prop where
  frame : Frame w w'
  expireTick_eq : w'.expireTick = w.expireTick
  mem_iff : ∀ x p, x ∈ w'.lists p ↔
    x ∈ w.lists p ∨ (x ∈ tmp ∧ p = placeOf curTick (w.tick cfg x))
  linked_eq : w'.linked = (tmp : Multiset HandlerId) + w.linked
  count_eq : w.timerCount < 2 ^ 64 → w'.timerCount = w.timerCount
  bitSync : BitSync w → BitSync w'

theorem u64_pred_succ {n : Nat} (h : n < 2 ^ 64) : u64 (subU64 n 1 + 1) = n := by
  unfold u64 subU64
  omega

theorem reinserted_foldl (cfg : Config) (curTick : Int) (tmp : List HandlerId) (w : Wheel) :
    Reinserted cfg curTick tmp w (tmp.foldl
      (fun w h => scheduleTimeoutImpl { w with timerCount := subU64 w.timerCount 1 } h curTick
        (w.tick cfg h)) w) := by
  induction tmp generalizing w with
  | nil =>
      exact ⟨Frame.refl w, rfl, fun x p => by simp, by simp, fun _ => rfl, fun h => h⟩
  | cons h tmp ih =>
      rw [List.foldl_cons]
      obtain ⟨w₀, hw₀⟩ : ∃ w₀ : Wheel, w₀ = { w with timerCount := subU64 w.timerCount 1 } :=
        ⟨_, rfl⟩
      obtain ⟨w₁, hw₁⟩ : ∃ w₁, w₁ = w₀.scheduleTimeoutImpl h curTick (w.tick cfg h) := ⟨_, rfl⟩
      rw [← hw₀, ← hw₁]
      have hlists : w₀.lists = w.lists := by rw [hw₀]
      have hframe : Frame w w₁ := by
        rw [hw₁]
        refine Frame.trans ?_ (scheduleTimeoutImpl_frame _ _ _ _)
        rw [hw₀]
        exact ⟨fun _ => rfl, fun _ => rfl, rfl, rfl, rfl, rfl, rfl⟩
      have hrest := ih w₁
      -- the list is taken from the front, so the places of the rest are computed in `w₁`
      refine ⟨hframe.trans hrest.frame, ?_, fun x p => ?_, ?_, fun hlt => ?_, fun hsync => ?_⟩
      · rw [hrest.expireTick_eq, hw₁, scheduleTimeoutImpl_expireTick, hw₀]
      · rw [hrest.mem_iff, hframe.tick_eq, hw₁, mem_scheduleTimeoutImpl, hlists, List.mem_cons]
        constructor
        · rintro ((hx | ⟨rfl, hp⟩) | ⟨hx, hp⟩)
          · exact Or.inl hx
          · exact Or.inr ⟨Or.inl rfl, hp⟩
          · exact Or.inr ⟨Or.inr hx, hp⟩
        · rintro (hx | ⟨rfl | hx, hp⟩)
          · exact Or.inl (Or.inl hx)
          · exact Or.inl (Or.inr ⟨rfl, hp⟩)
          · exact Or.inr ⟨hx, hp⟩
      · rw [hrest.linked_eq, hw₁, linked_scheduleTimeoutImpl, linked_of_lists_eq hlists,
          Multiset.add_cons, ← Multiset.cons_coe, Multiset.cons_add]
      · -- one down, one up, also where the counter wraps around
        have hcount₀ : w₀.timerCount = subU64 w.timerCount 1 := by rw [hw₀]
        have hcount₁ : w₁.timerCount = w.timerCount := by
          rw [← u64_pred_succ hlt, ← hcount₀, hw₁]
          rfl
        rw [hrest.count_eq (hcount₁ ▸ hlt), hcount₁]
      · apply hrest.bitSync
        rw [hw₁]
        apply scheduleTimeoutImpl_bitSync
        intro s hne
        rw [hlists] at hne
        rw [hw₀]
        exact hsync s hne

/-- What a cascade of some places does. Handlers in these places move, the others stay. -/
structure Cascaded (cfg : Config) (curTick : Int) (places : List Place) (w w' : Wheel) : Prop where
  frame : Frame w w'
  expireTick_eq : w'.expireTick = w.expireTick
  origin : ∀ {x q}, x ∈ w'.lists q → (x ∈ w.lists q ∧ q ∉ places) ∨
    ((∃ p ∈ places, x ∈ w.lists p) ∧ q = placeOf curTick (w.tick cfg x))
  stays : ∀ {x q}, x ∈ w.lists q → q ∉ places → x ∈ w'.lists q
  linked_eq : w'.linked = w.linked
  count_eq : w.timerCount < 2 ^ 64 → w'.timerCount = w.timerCount
  bitSync : BitSync w → BitSync w'

/-- The list is emptied first, then its handlers are inserted again. -/
theorem exists_cascadeTimers_eq (cfg : Config) (w : Wheel) (p : Place) (curTick : Int) :
    ∃ w₀ : Wheel, w₀ = { w with lists := Function.update w.lists p [] } ∧
      w.cascadeTimers cfg p.1 p.2 curTick = (w.lists p).foldl
        (fun w h => scheduleTimeoutImpl { w with timerCount := subU64 w.timerCount 1 } h curTick
          (w.tick cfg h)) w₀ :=
  ⟨_, rfl, rfl⟩

theorem cascadeTimers_cascaded (cfg : Config) (w : Wheel) (p : Place) (curTick : Int)
    (hp : p.1 ≠ 0) : Cascaded cfg curTick [p] w (w.cascadeTimers cfg p.1 p.2 curTick) := by
  obtain ⟨w₀, hw₀, hcasc⟩ := exists_cascadeTimers_eq cfg w p curTick
  have hre := reinserted_foldl cfg curTick (w.lists p) w₀
  rw [hcasc]
  have hframe : Frame w w₀ := by
    rw [hw₀]
    exact ⟨fun _ => rfl, fun _ => rfl, rfl, rfl, rfl, rfl, rfl⟩
  have hmem : ∀ x q, x ∈ w₀.lists q ↔ x ∈ w.lists q ∧ q ≠ p := by
    intro x q
    rw [hw₀]
    by_cases hq : q = p
    · subst hq
      simp [Function.update_self]
    · simp [hq]
  refine ⟨hframe.trans hre.frame, ?_, ?_, ?_, ?_, ?_, ?_⟩
  · rw [hre.expireTick_eq, hw₀]
  · intro x q hx
    rcases (hre.mem_iff x q).mp hx with hx | ⟨hx, hq⟩
    · have := (hmem x q).mp hx
      exact Or.inl ⟨this.1, by simpa using this.2⟩
    · rw [hframe.tick_eq] at hq
      exact Or.inr ⟨⟨p, by simp, hx⟩, hq⟩
  · intro x q hx hq
    exact (hre.mem_iff x q).mpr (Or.inl ((hmem x q).mpr ⟨hx, by simpa using hq⟩))
  · have hcleared : w₀.lists = Function.update w.lists p [] := by rw [hw₀]
    rw [hre.linked_eq, linked_of_cleared hcleared]
  · intro hlt
    rw [hre.count_eq (by rw [hw₀]; exact hlt), hw₀]
  · intro hsync
    apply hre.bitSync
    intro s hne
    -- the first bucket is not touched
    have hplace : ((0 : Fin 4), s) ≠ p := fun heq => hp (by rw [← heq])
    rw [hw₀] at hne ⊢
    simp only [Function.update_of_ne hplace] at hne
    exact hsync s hne

theorem Cascaded.trans {cfg : Config} {curTick : Int} {ps qs : List Place} {w₁ w₂ w₃ : Wheel}
    (h₁ : Cascaded cfg curTick ps w₁ w₂) (h₂ : Cascaded cfg curTick qs w₂ w₃) :
    Cascaded cfg curTick (ps ++ qs) w₁ w₃ := by
  refine ⟨h₁.frame.trans h₂.frame, h₂.expireTick_eq.trans h₁.expireTick_eq, ?_, ?_,
    h₂.linked_eq.trans h₁.linked_eq, fun hlt => ?_, fun h => h₂.bitSync (h₁.bitSync h)⟩
  · intro x q hx
    rcases h₂.origin hx with ⟨hx₂, hq⟩ | ⟨⟨p, hp, hx₂⟩, hplace⟩
    · rcases h₁.origin hx₂ with ⟨hx₁, hq'⟩ | ⟨⟨p, hp, hx₁⟩, hplace⟩
      · exact Or.inl ⟨hx₁, by simp [hq, hq']⟩
      · exact Or.inr ⟨⟨p, by simp [hp], hx₁⟩, hplace⟩
    · rw [h₁.frame.tick_eq] at hplace
      rcases h₁.origin hx₂ with ⟨hx₁, _⟩ | ⟨⟨p', hp', hx₁⟩, _⟩
      · exact Or.inr ⟨⟨p, by simp [hp], hx₁⟩, hplace⟩
      · exact Or.inr ⟨⟨p', by simp [hp'], hx₁⟩, hplace⟩
  · intro x q hx hq
    rw [List.mem_append, not_or] at hq
    exact h₂.stays (h₁.stays hx hq.1) hq.2
  · have heq := h₁.count_eq hlt
    rw [h₂.count_eq (heq ▸ hlt), heq]

theorem cascadeAt_cascaded (cfg : Config) (t curTick : Int) (w : Wheel) :
    Cascaded cfg curTick (cascades t) w (w.cascadeAt cfg t curTick) := by
  have h₁ := cascadeTimers_cascaded cfg w (1, levelSlot 1 t) curTick (by simp)
  have h₂ := cascadeTimers_cascaded cfg (w.cascadeTimers cfg 1 (levelSlot 1 t) curTick)
    (2, levelSlot 2 t) curTick (by simp)
  have h₃ := cascadeTimers_cascaded cfg
    ((w.cascadeTimers cfg 1 (levelSlot 1 t) curTick).cascadeTimers cfg 2 (levelSlot 2 t) curTick)
    (3, levelSlot 3 t) curTick (by simp)
  simp only [cascades, cascadeAt]
  split
  · split
    · split
      · exact h₁.trans (h₂.trans h₃)
      · exact h₁.trans h₂
    · exact h₁
  · exact ⟨Frame.refl w, rfl, fun hx => Or.inl ⟨hx, by simp⟩, fun hx _ => hx, rfl, fun _ => rfl,
      fun h => h⟩

/-! ## One tick -/

/-- What the tick `t` does: the cascades, then the slot of the tick. -/
structure Ticked (cfg : Config) (t curTick : Int) (w : Wheel) (drained : List HandlerId)
    (w' : Wheel) : Prop where
  frame : Frame w w'
  origin : ∀ {x q}, x ∈ w'.lists q → q ≠ (0, slotOf t) ∧ ((x ∈ w.lists q ∧ q ∉ cascades t) ∨
    ((∃ p ∈ cascades t, x ∈ w.lists p) ∧ q = placeOf curTick (w.tick cfg x)))
  stays : ∀ {x q}, x ∈ w.lists q → q ∉ cascades t → q ≠ (0, slotOf t) → x ∈ w'.lists q
  drained_origin : ∀ {x}, x ∈ drained → x ∈ w.lists (0, slotOf t) ∨
    ((∃ p ∈ cascades t, x ∈ w.lists p) ∧ (0, slotOf t) = placeOf curTick (w.tick cfg x))
  linked_eq : w.linked = (drained : Multiset HandlerId) + w'.linked
  count_eq : w.timerCount < 2 ^ 64 → w'.timerCount = w.timerCount
  bitSync : BitSync w'

theorem slot_not_cascaded (t : Int) (s : Slot) : ((0 : Fin 4), s) ∉ cascades t := by
  unfold cascades
  split <;> [split; skip] <;> [split; skip; skip] <;> simp

/-- What draining a slot does when the bits are right: it takes the whole list, also when the bit
is not set, since the list is empty then. -/
structure Drains (s : Slot) (w : Wheel) (drained : List HandlerId) (w' : Wheel) : Prop where
  frame : Frame w w'
  drained_eq : drained = w.lists (0, s)
  lists_eq : w'.lists = Function.update w.lists (0, s) []
  count_eq : w'.timerCount = w.timerCount
  bitSync : BitSync w'

theorem drainSlot_drains (s : Slot) {w : Wheel} (hsync : BitSync w) :
    Drains s w (drainSlot s w).1 (drainSlot s w).2 := by
  rw [drainSlot]
  split
  · refine ⟨⟨fun _ => rfl, fun _ => rfl, rfl, rfl, rfl, rfl, rfl⟩, rfl, rfl, rfl, ?_⟩
    intro s' hne
    by_cases hs : s' = s
    · subst hs
      exact absurd (Function.update_self ..) hne
    · have hplace : ((0 : Fin 4), s') ≠ (0, s) := by simp [hs]
      have hlist : w.lists (0, s') ≠ [] := by
        rwa [← Function.update_of_ne hplace [] w.lists]
      show Function.update w.bits s false s' = true
      rw [Function.update_of_ne hs]
      exact hsync s' hlist
  · next hbit =>
    have hnil : w.lists (0, s) = [] := by_contra fun hne => hbit (hsync s hne)
    exact ⟨Frame.refl w, hnil.symm, by rw [← hnil, Function.update_eq_self], rfl, hsync⟩

theorem Drains.mem_iff {s : Slot} {w w' : Wheel} {drained : List HandlerId}
    (h : Drains s w drained w') (x : HandlerId) (q : Place) :
    x ∈ w'.lists q ↔ x ∈ w.lists q ∧ q ≠ (0, s) := by
  rw [h.lists_eq]
  by_cases hq : q = (0, s)
  · subst hq
    simp
  · simp [hq]

theorem tickBody_ticked (cfg : Config) (t curTick : Int) {w : Wheel} (hsync : BitSync w) :
    Ticked cfg t curTick w (tickBody cfg t curTick w).1 (tickBody cfg t curTick w).2 := by
  have hcasc := cascadeAt_cascaded cfg t curTick w
  rw [tickBody]
  generalize w.cascadeAt cfg t curTick = wc at hcasc
  have hdrain := drainSlot_drains (slotOf t) (w := { wc with expireTick := t + 1 })
    (hcasc.bitSync hsync)
  have hframe : Frame wc { wc with expireTick := t + 1 } :=
    ⟨fun _ => rfl, fun _ => rfl, rfl, rfl, rfl, rfl, rfl⟩
  refine ⟨(hcasc.frame.trans hframe).trans hdrain.frame, ?_, ?_, ?_, ?_, ?_, hdrain.bitSync⟩
  · intro x q hx
    obtain ⟨hxc, hq⟩ := (hdrain.mem_iff x q).mp hx
    exact ⟨hq, hcasc.origin hxc⟩
  · intro x q hx hq hslot
    exact (hdrain.mem_iff x q).mpr ⟨hcasc.stays hx hq, hslot⟩
  · intro x hx
    rw [hdrain.drained_eq] at hx
    rcases hcasc.origin hx with ⟨hxw, _⟩ | hmoved
    · exact Or.inl hxw
    · exact Or.inr hmoved
  · rw [← hcasc.linked_eq, hdrain.drained_eq]
    exact linked_of_cleared hdrain.lists_eq
  · intro hlt
    rw [hdrain.count_eq, hcasc.count_eq hlt]

/-! ## The loop -/

/-- The walk from tick `first` to tick `last` passes the place `p`. -/
def Visited (first last : Int) (p : Place) : Prop := ∃ t, first ≤ t ∧ t ≤ last ∧ VisitedAt t p

instance decidableVisited (first last : Int) (p : Place) : Decidable (Visited first last p) :=
  decidable_of_iff (∃ i ∈ List.range (last + 1 - first).toNat, VisitedAt (first + i) p) (by
    constructor
    · rintro ⟨i, hi, hv⟩
      rw [List.mem_range] at hi
      exact ⟨first + i, by omega, by omega, hv⟩
    · rintro ⟨t, h₁, h₂, hv⟩
      refine ⟨(t - first).toNat, by rw [List.mem_range]; omega, ?_⟩
      have ht : first + (t - first).toNat = t := by omega
      rwa [ht])

/-- A handler that is due goes to the slot of the current tick. -/
theorem placeOf_due {curTick e : Int} (h : e ≤ curTick) : placeOf curTick e = (0, slotOf curTick) := by
  unfold placeOf
  by_cases hlt : e - curTick < 0
  · simp only [if_pos hlt]
  · have heq : e = curTick := by omega
    subst heq
    have hsmall : e - e < wheelSize := by
      unfold wheelSize
      omega
    simp only [if_neg hlt, if_pos hsmall]

theorem walk_succ (cfg : Config) (curTick : Int) (n : Nat) (w : Wheel) :
    walk cfg curTick (n + 1) w =
      ((tickBody cfg w.expireTick curTick w).1 ++
        (walk cfg curTick n (tickBody cfg w.expireTick curTick w).2).1,
        (walk cfg curTick n (tickBody cfg w.expireTick curTick w).2).2) := rfl

theorem tickBody_expireTick (cfg : Config) (t curTick : Int) (w : Wheel) :
    (tickBody cfg t curTick w).2.expireTick = t + 1 := by
  unfold tickBody drainSlot
  split <;> rfl

/-- What the loop does, from the tick `w.expireTick` to `curTick`. -/
structure Walked (cfg : Config) (curTick : Int) (w : Wheel) (drained : List HandlerId)
    (w' : Wheel) : Prop where
  frame : Frame w w'
  /-- Unvisited handlers stay where they are. -/
  stays : ∀ {x q}, x ∈ w.lists q → ¬ Visited w.expireTick curTick q → x ∈ w'.lists q
  /-- What is drained was linked in a place the walk passes. -/
  drained_origin : ∀ {x}, x ∈ drained → ∃ p, x ∈ w.lists p ∧ Visited w.expireTick curTick p
  /-- A handler that is only linked where the walk passes is not linked any more, unless it comes from
  above the first bucket and is not due. -/
  takes : ∀ {x}, (∀ p, x ∈ w.lists p →
    Visited w.expireTick curTick p ∧ (p.1 ≠ 0 → w.tick cfg x ≤ curTick)) → ∀ p, x ∉ w'.lists p
  linked_eq : w.linked = (drained : Multiset HandlerId) + w'.linked
  count_eq : w.timerCount < 2 ^ 64 → w'.timerCount = w.timerCount
  bitSync : BitSync w'

/-- A walk that has no tick to go. -/
theorem Walked.none {cfg : Config} {curTick : Int} {w : Wheel} (hdone : curTick < w.expireTick)
    (hsync : BitSync w) : Walked cfg curTick w [] w := by
  have hnone : ∀ p, ¬ Visited w.expireTick curTick p := by
    rintro p ⟨t, h₁, h₂, -⟩
    omega
  exact
    { frame := Frame.refl w
      stays := fun hx _ => hx
      drained_origin := fun hx => absurd hx List.not_mem_nil
      takes := fun hall p hx => hnone p (hall p hx).1
      linked_eq := by simp
      count_eq := fun _ => rfl
      bitSync := hsync }

/-- Later ticks are ticks of the whole walk. -/
theorem Visited.earlier {t curTick : Int} {p : Place} (h : Visited (t + 1) curTick p) :
    Visited t curTick p := by
  obtain ⟨t', h₁, h₂, hv⟩ := h
  exact ⟨t', by omega, h₂, hv⟩

/-- One tick, and the walk behind it. -/
theorem Ticked.walked {cfg : Config} {t curTick : Int} {w w₁ w' : Wheel}
    {drained rest : List HandlerId} (htick : Ticked cfg t curTick w drained w₁)
    (ht : t = w.expireTick) (hle : t ≤ curTick) (hexp : w₁.expireTick = t + 1)
    (hrest : Walked cfg curTick w₁ rest w') : Walked cfg curTick w (drained ++ rest) w' := by
  have hstays := @hrest.stays
  have horigin' := @hrest.drained_origin
  have htakes := @hrest.takes
  rw [hexp] at hstays horigin' htakes
  have hnow : ∀ {p}, VisitedAt t p → Visited t curTick p := fun h => ⟨t, le_refl _, hle, h⟩
  refine ⟨htick.frame.trans hrest.frame, ?_, ?_, ?_, ?_, fun hlt => ?_, hrest.bitSync⟩
  · -- neither this tick nor a later one touches the place
    intro x q hx hq
    rw [← ht] at hq
    apply hstays
    · exact htick.stays hx (fun hc => hq (hnow (Or.inr hc))) (fun hs => hq (hnow (Or.inl hs)))
    · exact fun hv => hq hv.earlier
  · intro x hx
    rw [← ht]
    rcases List.mem_append.mp hx with hx | hx
    · rcases htick.drained_origin hx with hx | ⟨⟨p, hp, hx⟩, -⟩
      · exact ⟨_, hx, hnow (Or.inl rfl)⟩
      · exact ⟨p, hx, hnow (Or.inr hp)⟩
    · -- a later tick may drain what this one has cascaded
      obtain ⟨p, hx, hv⟩ := horigin' hx
      rcases (htick.origin hx).2 with ⟨hx, -⟩ | ⟨⟨p', hp', hx⟩, -⟩
      · exact ⟨p, hx, hv.earlier⟩
      · exact ⟨p', hx, hnow (Or.inr hp')⟩
  · intro x hall
    apply htakes
    intro q hx
    rw [htick.frame.tick_eq]
    obtain ⟨hslot, horigin⟩ := htick.origin hx
    rcases horigin with ⟨hx, hq⟩ | ⟨⟨p, hp, hx⟩, hq⟩
    · -- it has not moved, and its place is not visited at this tick
      obtain ⟨⟨t', h₁, h₂, hv⟩, hdue⟩ := hall q hx
      rw [← ht] at h₁
      refine ⟨⟨t', ?_, h₂, hv⟩, hdue⟩
      by_contra hcon
      have heq : t' = t := by omega
      subst heq
      exact hv.elim hslot hq
    · -- it has been cascaded, to the slot of the last tick
      have habove : p.1 ≠ 0 := fun hzero => slot_not_cascaded t p.2 (by rw [← hzero]; exact hp)
      rw [placeOf_due ((hall p hx).2 habove)] at hq
      refine ⟨⟨curTick, ?_, le_refl _, Or.inl hq⟩, fun hcon => absurd (by rw [hq]) hcon⟩
      by_contra hcon
      have heq : t = curTick := by omega
      exact hslot (by rw [hq, heq])
  · rw [htick.linked_eq, hrest.linked_eq, ← Multiset.coe_add, add_assoc]
  · have heq := htick.count_eq hlt
    rw [hrest.count_eq (heq ▸ hlt), heq]

theorem walk_walked (cfg : Config) (curTick : Int) (n : Nat) {w : Wheel}
    (hn : w.expireTick + n = curTick + 1 ∨ (n = 0 ∧ curTick < w.expireTick)) (hsync : BitSync w) :
    Walked cfg curTick w (walk cfg curTick n w).1 (walk cfg curTick n w).2 := by
  induction n generalizing w with
  | zero => exact Walked.none (by omega) hsync
  | succ n ih =>
      rw [walk_succ]
      have htick := tickBody_ticked cfg w.expireTick curTick hsync
      have hexp := tickBody_expireTick cfg w.expireTick curTick w
      exact htick.walked rfl (by omega) hexp (ih (by omega) htick.bitSync)

/-- The loop of `timeoutExpired`. -/
theorem walk_ticksLeft (cfg : Config) (curTick : Int) {w : Wheel} (hsync : BitSync w) :
    Walked cfg curTick w (walk cfg curTick (w.ticksLeft curTick) w).1
      (walk cfg curTick (w.ticksLeft curTick) w).2 := by
  apply walk_walked _ _ _ _ hsync
  unfold ticksLeft
  omega

end Wheel
end Unp.Timer
