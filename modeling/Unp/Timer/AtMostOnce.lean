import Unp.Timer.Registry

/-!
# At most one firing for each scheduling

A handler can be fired by the reactor, where it is registered, and by the wheel, when a walk drains
its slot. A call of `timeoutExpired` keeps the two apart when the walk finds the handler that the
reactor has fired, and drains no other one that is registered. The invariant: a handler that can still
be fired has been scheduled more often than it has been fired.
-/

namespace Unp.Timer

open Unp.Machine Unp.Slots Unp.Run

namespace Wheel

/-- Before a call of `timeoutExpired` for `h`, which is not in the heap: when `h` is due, the walk
passes the places it is linked in, and no other registered handler is linked where the walk passes. -/
def FiresApart (cfg : Config) (curTick : Int) (h : HandlerId) (w : Wheel) : Prop :=
  h ∉ w.registered ∧ ∀ p, ∀ x ∈ w.lists p,
    if x = h then w.tick cfg x ≤ curTick → Visited w.expireTick curTick p
    else Visited w.expireTick curTick p → x ∉ w.registered

instance decidableFiresApart (cfg : Config) (curTick : Int) (h : HandlerId) (w : Wheel) :
    Decidable (FiresApart cfg curTick h w) :=
  inferInstanceAs (Decidable (h ∉ w.registered ∧ ∀ p, ∀ x ∈ w.lists p,
    if x = h then w.tick cfg x ≤ curTick → Visited w.expireTick curTick p
    else Visited w.expireTick curTick p → x ∉ w.registered))

end Wheel

namespace HHWheelTimer

open Wheel

/-- Where the next step is a call of `timeoutExpired`, it keeps the two ways apart. -/
def KeepsApart (cfg : Config) (t : HHWheelTimer) (input : Input) : Prop :=
  input = .proceed → match t.control with
    | .callback h => t.wheel.FiresApart cfg (t.wheel.curTick cfg) h
    | _ => True

instance decidableKeepsApart (cfg : Config) (t : HHWheelTimer) (input : Input) :
    Decidable (t.KeepsApart cfg input) := by
  unfold KeepsApart
  exact match t.control with
    | .callback _ => inferInstance
    | .outside | .loop | .override _ => inferInstance

/-! ## The invariant -/

/-- The reactor has fired the handler, its callback runs, and it may not have been scheduled since. -/
def Stale (cfg : Config) (t : HHWheelTimer) (x : HandlerId) : Prop :=
  t.control = .callback x ∧ (t.wheel.handlers x).isRegistered = true ∧
    t.wheel.tick cfg x ≤ t.wheel.curTick cfg

/-- The handler can still be fired: it waits in a call, the reactor has it, or it is linked. -/
def Owed (cfg : Config) (t : HHWheelTimer) (x : HandlerId) : Prop :=
  x ∈ t.pending ∨ x ∈ t.wheel.registered ∨ (x ∈ t.wheel.linked ∧ ¬ Stale cfg t x)

theorem owed_of_hooked {cfg : Config} {t : HHWheelTimer} {x : HandlerId} (hx : x ∈ t.hooked)
    (hfresh : ¬ Stale cfg t x) : Owed cfg t x := by
  rcases mem_hooked.mp hx with hx | hx
  · exact Or.inr (Or.inr ⟨hx, hfresh⟩)
  · exact Or.inl hx

theorem not_stale {cfg : Config} {t : HHWheelTimer} {x : HandlerId}
    (hcontrol : t.control ≠ .callback x) : ¬ Stale cfg t x := fun h => hcontrol h.1

/-- What is owed has been scheduled and not been fired for it. -/
structure Booked (cfg : Config) (past : List Event) (t : HHWheelTimer) : Prop where
  made : AllMade t
  registry : Registry (fun _ => True) t.wheel
  apart : ∀ x ∈ t.pending, x ∉ t.wheel.registered
  paid : ∀ x, x.isInternal = false → firings x past ≤ schedulings x past
  owed : ∀ x, x.isInternal = false → Owed cfg t x → firings x past < schedulings x past

theorem new_booked (cfg : Config) : Booked cfg [] new where
  made := new_allMade
  registry := Registry.empty rfl
  apart _ _ := List.not_mem_nil
  paid _ _ := le_refl _
  owed x _ hx := by
    rcases hx with hx | hx | ⟨hx, -⟩
    · exact absurd hx List.not_mem_nil
    · exact absurd hx List.not_mem_nil
    · rw [linked_of_empty fun _ => rfl] at hx
      exact absurd hx (Multiset.notMem_zero x)

/-! ## The moves -/

theorem Move.eq_of_fired {cfg : Config} {t t' : HHWheelTimer} {input : Input} {events : List Event}
    (hmove : Move cfg t input events t') {x : HandlerId} (hx : x ∈ firedHandlers events) :
    events = [.fired x] := by
  cases hmove with
  | fired | called => rw [List.mem_singleton.mp hx]
  | _ => exact absurd hx List.not_mem_nil

theorem Stale.later {cfg : Config} {t t' : HHWheelTimer} {x : HandlerId} (h : Stale cfg t x)
    (hcontrol : t'.control = t.control) (hclock : t.wheel.clock ≤ t'.wheel.clock)
    (hflag : (t.wheel.handlers x).isRegistered = true → (t'.wheel.handlers x).isRegistered = true)
    (hexp : (t'.wheel.handlers x).expiration = (t.wheel.handlers x).expiration) :
    Stale cfg t' x := by
  refine ⟨hcontrol.trans h.1, hflag h.2.1, ?_⟩
  rw [tick, hexp]
  exact h.2.2.trans (tickOf_le (cfg.now_mono hclock))

/-- Scheduling a handler, or arming the reactor with a linked one, makes nothing else fire. -/
theorem Owed.of_scheduled {cfg : Config} {t : HHWheelTimer} {input : Input} {h x : HandlerId}
    {timeout : Int} {w : Wheel} (hschedules : t.schedules input = some (h, timeout))
    (hnext : ((t.prepared input).wheel.inserted cfg h timeout).scheduleNextTimeoutInReactor cfg
      (t.wheel.curTick cfg) = .ok w) (hx : x.isInternal = false) (hxh : x ≠ h)
    (howed : Owed cfg { t with wheel := w } x) : Owed cfg t x := by
  have hrearmed := scheduleNext_rearmed hnext
  have harmed := scheduleNext_armed hnext
  have hsame := prepared_handlers hschedules hxh
  have hflag : (((t.prepared input).wheel.inserted cfg h timeout).handlers x).isRegistered =
      (t.wheel.handlers x).isRegistered := by
    rw [inserted_isRegistered, hsame]
  have hlinked : x ∈ ((t.prepared input).wheel.inserted cfg h timeout).linked →
      x ∈ t.wheel.linked := by
    intro hmem
    rw [inserted_linked, prepared_linked, Multiset.mem_cons] at hmem
    exact hmem.resolve_left hxh
  rcases howed with hx' | hx' | ⟨hx', hfresh⟩
  · exact Or.inl hx'
  · rcases harmed.mem hx' with hx' | ⟨hx', hunflagged⟩ | ⟨rfl, -⟩
    · rw [inserted_registered, prepared_registered] at hx'
      exact Or.inr (Or.inl hx')
    · refine Or.inr (Or.inr ⟨hlinked hx', fun hstale => ?_⟩)
      rw [hflag, hstale.2.1] at hunflagged
      cases hunflagged
    · cases hx
  · -- its place, its flag and its expiration are as they were
    have hx' : x ∈ w.linked := hx'
    rw [linked_of_lists_eq hrearmed.lists_eq] at hx'
    refine Or.inr (Or.inr ⟨hlinked hx', fun hstale => hfresh (hstale.later rfl ?_ ?_ ?_)⟩)
    · show t.wheel.clock ≤ w.clock
      rw [hrearmed.clock_eq, inserted_clock, prepared_clock]
      exact Nat.le_succ _
    · intro hset
      rw [← hflag] at hset
      exact harmed.flag_mono hset
    · show (w.handlers x).expiration = _
      rw [hrearmed.expiration_eq x hx, inserted_expiration _ _ _ _ hxh, hsame]

/-- What the walk leaves or takes out was linked, and the handler of the call is only left when it is
not due. -/
theorem Owed.of_entered {cfg : Config} {t : HHWheelTimer} {h x : HandlerId} (hw : WellLinked t)
    (hcontrol : t.control = .callback h)
    (hapart : t.wheel.FiresApart cfg (t.wheel.curTick cfg) h)
    (howed : Owed cfg ⟨((t.wheel.clearRegistered h).walked cfg).2, .loop,
      ⟨h, (t.wheel.clearRegistered h).curTick cfg,
        (t.wheel.clearRegistered h).expiredTimers cfg h⟩ :: t.calls⟩ x) : Owed cfg t x := by
  have hsync := clearRegistered_bitSync h hw.bitSync
  have hwalk := walked_spec cfg hsync
  have hother : x ≠ h → x ∈ t.wheel.linked → Owed cfg t x := by
    intro hxh hx
    refine Or.inr (Or.inr ⟨hx, not_stale ?_⟩)
    rw [hcontrol]
    exact fun heq => hxh (Control.callback.inj heq).symm
  rcases howed with hx | hx | ⟨hx, -⟩
  · rw [pending_cons, List.mem_append] at hx
    rcases hx with hx | hx
    · obtain ⟨hdrained, hkeep⟩ := List.mem_filter.mp hx
      apply hother
      · rintro rfl
        simp at hkeep
      · rw [← clearRegistered_linked t.wheel h, walked_linked cfg hsync]
        exact Multiset.mem_add.mpr (Or.inl (Multiset.mem_coe.mpr hdrained))
    · exact Or.inl hx
  · rw [walked_registered cfg h hw.bitSync] at hx
    exact Or.inr (Or.inl hx)
  · have hlinked : x ∈ t.wheel.linked := by
      rw [← clearRegistered_linked t.wheel h, walked_linked cfg hsync]
      exact Multiset.mem_add.mpr (Or.inr hx)
    by_cases hxh : x = h
    · -- when it is due the walk passes every place it is linked in, so it is not left
      refine Or.inr (Or.inr ⟨hlinked, fun hstale => ?_⟩)
      obtain ⟨p, hp⟩ := mem_linked.mp hx
      refine hwalk.takes (fun q hq => ?_) p hp
      have htick : (t.wheel.clearRegistered h).entered.tick cfg x = t.wheel.tick cfg x := by
        rw [tick, entered_handlers, clearRegistered_expiration]
        rfl
      rw [entered_lists] at hq
      rw [entered_expireTick, htick]
      have hvisited := hapart.2 q x hq
      rw [if_pos hxh] at hvisited
      exact ⟨hvisited hstale.2.2, fun _ => hstale.2.2⟩
    · exact hother hxh hlinked

theorem Move.owed {cfg : Config} {t t' : HHWheelTimer} {input : Input} {events : List Event}
    (hmove : Move cfg t input events t') (hw : WellLinked t) (hcond : t.KeepsApart cfg input)
    {x : HandlerId} (hx : x.isInternal = false) (howed : Owed cfg t' x) :
    Owed cfg t x ∨ events = [.scheduled x] := by
  cases hmove with
  | idle => exact Or.inl howed
  | looked h =>
      refine Or.inl (howed.imp id (Or.imp id fun hlinked => ⟨hlinked.1, fun hstale => ?_⟩))
      exact hlinked.2 (hstale.later rfl (Nat.le_succ _) id rfl)
  | @scheduled _ h timeout w huser hschedules hknows halive hlinked hnext =>
      by_cases hxh : x = h
      · rw [hxh]
        exact Or.inr rfl
      · exact Or.inl (howed.of_scheduled hschedules hnext hx hxh)
  | @cancelled w huser hcancel =>
      left
      rcases howed with hx' | hx' | ⟨hx', -⟩
      · exact Or.inl hx'
      · exact Or.inr (Or.inl (cancelAll_registered_subset hcancel hx'))
      · have hx' : x ∈ w.linked := hx'
        rw [linked_of_empty (cancelAll_ok hcancel).1] at hx'
        exact absurd hx' (Multiset.notMem_zero x)
  | fired houtside =>
      left
      rcases howed with hx' | hx' | ⟨hx', -⟩
      · exact Or.inl hx'
      · exact Or.inr (Or.inl (List.mem_of_mem_erase hx'))
      · exact Or.inr (Or.inr ⟨hx', not_stale (by simp [houtside])⟩)
  | @entered h w hcontrol hclear =>
      subst hclear
      have hapart := hcond rfl
      rw [hcontrol] at hapart
      exact Or.inl (howed.of_entered hw hcontrol hapart)
  | @called h c curTick cs calls hcontrol hcalls =>
      left
      have hquiet : ¬ Stale cfg t x := not_stale (by simp [hcontrol])
      rcases howed with hx' | hx' | ⟨hx', -⟩
      · refine Or.inl ?_
        rw [pending_cons] at hx'
        rw [pending, hcalls, List.flatMap_cons]
        exact List.mem_cons_of_mem _ hx'
      · exact Or.inr (Or.inl hx')
      · exact Or.inr (Or.inr ⟨hx', hquiet⟩)
  | @returned h curTick calls w hcontrol hcalls hrearm =>
      left
      have hquiet : ¬ Stale cfg t x := not_stale (by simp [hcontrol])
      have hhooked : x ∈ (({ t with wheel := w, calls := calls } : HHWheelTimer).released h).hooked →
          Owed cfg t x := by
        intro hmem
        have hmem := Multiset.mem_of_le (released_hooked_le _ h) hmem
        rw [returned_hooked t.control hcalls hrearm] at hmem
        exact owed_of_hooked hmem hquiet
      rcases howed with hx' | hx' | ⟨hx', -⟩
      · exact hhooked (mem_hooked.mpr (Or.inr hx'))
      · rw [released_registered] at hx'
        -- what the reactor is armed with is linked, or is the timer's own
        rcases (rearm_armed hrearm).mem hx' with hx' | ⟨hx', -⟩ | ⟨rfl, -⟩
        · exact Or.inr (Or.inl hx')
        · exact Or.inr (Or.inr ⟨hx', hquiet⟩)
        · cases hx
      · exact hhooked (mem_hooked.mpr (Or.inl hx'))
  | left hcontrol hcalls =>
      refine Or.inl (howed.imp id (Or.imp id fun hlinked => ⟨hlinked.1, not_stale ?_⟩))
      simp [hcontrol]
  | resumed hcontrol hcalls =>
      refine Or.inl (howed.imp id (Or.imp id fun hlinked => ⟨hlinked.1, not_stale ?_⟩))
      simp [hcontrol]

/-- What is fired was owed, and is not any more. -/
theorem Move.spent {cfg : Config} {t t' : HHWheelTimer} {input : Input} {x : HandlerId}
    (hmove : Move cfg t input [.fired x] t') (hw : WellLinked t)
    (hregistry : Registry (fun _ => True) t.wheel)
    (hapart : ∀ y ∈ t.pending, y ∉ t.wheel.registered) : Owed cfg t x ∧ ¬ Owed cfg t' x := by
  cases hmove with
  | fired houtside hintact hmem hdue =>
      refine ⟨Or.inr (Or.inl hmem), ?_⟩
      rintro (hx | hx | ⟨-, hfresh⟩)
      · -- no call is under way
        rw [pending, hw.outside houtside] at hx
        exact List.not_mem_nil hx
      · -- it was in the heap once
        have hx : x ∈ t.wheel.registered.erase x := hx
        have hpos := List.count_pos_iff.mpr hx
        have hone := hregistry x trivial
        rw [List.count_erase_self] at hpos
        split at hone <;> omega
      · refine hfresh ⟨rfl, hregistry.flagged trivial hmem, ?_⟩
        exact (tickOf_le hdue).trans (tickOf_le (cfg.now_mono (Nat.le_succ _)))
  | @called h c curTick cs calls hcontrol hcalls =>
      have hpending : x ∈ t.pending := by
        rw [pending, hcalls, List.flatMap_cons]
        exact List.mem_cons_self
      refine ⟨Or.inl hpending, ?_⟩
      rintro (hx | hx | ⟨hx, -⟩)
      · have hnodup : t.pending.Nodup := Multiset.coe_nodup.mp (Multiset.nodup_add.mp hw.nodup).2.1
        rw [pending, hcalls, List.flatMap_cons] at hnodup
        rw [pending_cons] at hx
        exact (List.nodup_cons.mp hnodup).1 hx
      · exact hapart x hpending hx
      · exact hw.not_linked hpending hx

/-- What waits in a call is not registered meanwhile. -/
theorem Move.apart {cfg : Config} {t t' : HHWheelTimer} {input : Input} {events : List Event}
    (hmove : Move cfg t input events t') (hw : WellLinked t) (hcond : t.KeepsApart cfg input)
    (hapart : ∀ x ∈ t.pending, x ∉ t.wheel.registered) :
    ∀ x ∈ t'.pending, x ∉ t'.wheel.registered := by
  intro x hx hreg
  have hw' := hmove.wellLinked hw
  -- what waits already cannot come into the heap, being linked in neither state
  have hwaited : x ∈ t.pending → False := by
    intro hx₀
    rcases hmove.registered_cases hw.bitSync hreg with hreg | (hlinked | hlinked) | ⟨hkind, -⟩
    · exact hapart x hx₀ hreg
    · exact hw'.not_linked hx hlinked
    · exact hw.not_linked hx₀ hlinked
    · rw [hw.users x (mem_hooked.mpr (Or.inr hx₀))] at hkind
      cases hkind
  apply hwaited
  cases hmove with
  | idle | looked | scheduled | cancelled | fired | left | resumed => exact hx
  | @entered h w hcontrol hclear =>
      subst hclear
      rw [pending_cons, List.mem_append] at hx
      rcases hx with hx | hx
      · have hfires := hcond rfl
        rw [hcontrol] at hfires
        have hsync := clearRegistered_bitSync h hw.bitSync
        obtain ⟨hdrained, hkeep⟩ := List.mem_filter.mp hx
        obtain ⟨p, hp, hv⟩ := (walked_spec cfg hsync).drained_origin hdrained
        rw [entered_lists] at hp
        rw [entered_expireTick] at hv
        have hone := hfires.2 p x hp
        rw [walked_registered cfg h hw.bitSync] at hreg
        have hxh : x ≠ h := by
          rintro rfl
          simp at hkeep
        rw [if_neg hxh] at hone
        exact absurd hreg (hone hv)
      · exact hx
  | @called h c curTick cs calls hcontrol hcalls =>
      rw [pending_cons] at hx
      rw [pending, hcalls, List.flatMap_cons]
      exact List.mem_cons_of_mem _ hx
  | @returned h curTick calls w hcontrol hcalls hrearm =>
      have hsub : x ∈ calls.flatMap Call.expiredTimers := by
        rw [pending, released_calls] at hx
        split at hx
        · obtain ⟨call, hcall, hx⟩ := List.mem_flatMap.mp hx
          obtain ⟨call₀, hcall₀, rfl⟩ := List.mem_map.mp hcall
          exact List.mem_flatMap.mpr ⟨call₀, hcall₀, List.mem_of_mem_filter hx⟩
        · exact hx
      rw [pending, hcalls, List.flatMap_cons]
      exact hsub

theorem Move.booked {cfg : Config} {past : List Event} {t t' : HHWheelTimer} {input : Input}
    {events : List Event} (hmove : Move cfg t input events t') (hw : WellLinked t)
    (hbooked : Booked cfg past t) (hcond : t.KeepsApart cfg input) :
    Booked cfg (past ++ events) t' := by
  have hclears : t.ClearsRight (fun _ => True) input := by
    intro hproceed
    have hapart := hcond hproceed
    split
    · next h hcontrol =>
      rw [hcontrol] at hapart
      exact fun _ => hapart.1
    · trivial
  have hfirings : ∀ x, firings x (past ++ events) = firings x past + firings x events := by
    intro x
    rw [firings, firedHandlers, List.filterMap_append, List.count_append]
    rfl
  have hschedulings : ∀ x,
      schedulings x (past ++ events) = schedulings x past + schedulings x events := by
    intro x
    rw [schedulings, scheduledHandlers, List.filterMap_append, List.count_append]
    rfl
  -- a handler that this step fires, and one that it does not
  have hcases : ∀ x, (events = [.fired x] ∧ firings x events = 1) ∨ firings x events = 0 := by
    intro x
    by_cases hx : x ∈ firedHandlers events
    · have heq := hmove.eq_of_fired hx
      refine Or.inl ⟨heq, ?_⟩
      rw [heq]
      exact List.count_singleton_self
    · exact Or.inr (List.count_eq_zero_of_not_mem hx)
  refine ⟨hmove.allMade hw.bitSync hbooked.made,
    hmove.registry hw.bitSync hbooked.made hclears hbooked.registry,
    hmove.apart hw hcond hbooked.apart, fun x hx => ?_, fun x hx howed => ?_⟩
  · rw [hfirings, hschedulings]
    rcases hcases x with ⟨rfl, hone⟩ | hnone
    · have := hbooked.owed x hx (hmove.spent hw hbooked.registry hbooked.apart).1
      omega
    · have := hbooked.paid x hx
      omega
  · rw [hfirings, hschedulings]
    rcases hcases x with ⟨rfl, -⟩ | hnone
    · exact absurd howed (hmove.spent hw hbooked.registry hbooked.apart).2
    · rcases hmove.owed hw hcond hx howed with howed | rfl
      · have := hbooked.owed x hx howed
        omega
      · have := hbooked.paid x hx
        have hone : schedulings x [.scheduled x] = 1 := List.count_singleton_self
        omega

/-- **At most one firing for each scheduling.** In every run whose calls of `timeoutExpired` find
the handler they are made for, if it is due, and drain no other one that is registered, the callback
of a handler is invoked at most as often as the handler has been scheduled. -/
theorem fires_at_most_once (cfg : Config) (inputs : List Input)
    (history : List (Entry HHWheelTimer Input (List Event))) (t : HHWheelTimer)
    (hrun : run (step cfg) inputs new = .ok (history, t))
    (hcond : ∀ e ∈ history, e.before.KeepsApart cfg e.input) (x : HandlerId)
    (hx : x.isInternal = false) :
    firings x (history.flatMap Entry.output) ≤ schedulings x (history.flatMap Entry.output) :=
  (run_moves_past (Booked cfg) (KeepsApart cfg)
    (fun _ _ _ _ _ hw hbooked hcond hmove => hmove.booked hw hbooked hcond) (new_booked cfg) hrun
    hcond).paid x hx

/-- Two handlers in one slot: the reactor fires the first, the wheel the second, and both schedule
themselves again when they have been handled. -/
theorem fires_at_most_once_twoHandlers : ∃ r,
    run (step (lateAfter 2 5 20 (by decide))) [.scheduleTimeout (.user 0) 10,
      .scheduleTimeout (.user 1) 10, .fire (.user 0), .proceed, .proceed, .proceed, .proceed,
      .scheduleTimeout (.user 1) 0, .proceed, .proceed, .scheduleTimeout (.user 0) 0, .proceed,
      .fire (.user 1), .proceed, .proceed] new = .ok r ∧
    (∀ e ∈ r.1, e.before.KeepsApart (lateAfter 2 5 20 (by decide)) e.input) ∧
    firedHandlers (r.1.flatMap Entry.output) = [.user 0, .user 1, .user 1, .user 0] ∧
    firings (.user 1) (r.1.flatMap Entry.output) ≤ schedulings (.user 1) (r.1.flatMap Entry.output) := by
  have hrun : ∃ r,
      run (step (lateAfter 2 5 20 (by decide))) [.scheduleTimeout (.user 0) 10,
        .scheduleTimeout (.user 1) 10, .fire (.user 0), .proceed, .proceed, .proceed, .proceed,
        .scheduleTimeout (.user 1) 0, .proceed, .proceed, .scheduleTimeout (.user 0) 0, .proceed,
        .fire (.user 1), .proceed, .proceed] new = .ok r ∧
      (∀ e ∈ r.1, e.before.KeepsApart (lateAfter 2 5 20 (by decide)) e.input) ∧
      firedHandlers (r.1.flatMap Entry.output) = [.user 0, .user 1, .user 1, .user 0] := by
    decide +kernel
  obtain ⟨⟨history, t⟩, hrun, hcond, hfired⟩ := hrun
  exact ⟨(history, t), hrun, hcond, hfired,
    fires_at_most_once _ _ history t hrun hcond (.user 1) rfl⟩

/-- **A handler fires twice.** It is scheduled once, for 15 ms at 5 ms; the walk at 20 ms misses its
slot, so after the first firing it is registered again. -/
theorem fires_twice_fifteenMillis : ∃ r,
    run (step (lateAfter 1 5 20 (by decide))) [.scheduleTimeout (.user 0) 15, .fire (.user 0),
      .proceed, .proceed, .proceed, .fire (.user 0)] new = .ok r ∧
    firings (.user 0) (r.1.flatMap Entry.output) = 2 ∧
    schedulings (.user 0) (r.1.flatMap Entry.output) = 1 := by
  decide +kernel

end HHWheelTimer
end Unp.Timer
