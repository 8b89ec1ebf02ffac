import Unp.Timer.Linked

/-!
# Overdue handlers

`timeoutExpired` walks from `expireTick_` to the current tick, and `expireTick_` is where the last
call of `scheduleNextTimeoutInReactor_` has put it: at the tick of the first handler of the first
occupied slot, or at the next multiple of 256. Whether a handler that is due is found depends on
where it sits at that moment. When all that are due sit in places the walk passes, none is left; a
walk that starts behind one of them leaves it linked. Until the call returns, callbacks can put
handlers back.
-/

namespace Unp.Timer

open Unp.Machine Unp.Run

namespace Wheel

/-- The walk from `expireTick_` to `curTick` passes the places of all handlers that are due. -/
def DueReached (cfg : Config) (curTick : Int) (w : Wheel) : Prop :=
  ∀ p, ∀ x ∈ w.lists p, w.tick cfg x ≤ curTick → Visited w.expireTick curTick p

/-- No handler is linked whose tick has passed. -/
def NoneOverdue (cfg : Config) (curTick : Int) (w : Wheel) : Prop :=
  ∀ p, ∀ x ∈ w.lists p, ¬ w.tick cfg x ≤ curTick

instance decidableDueReached (cfg : Config) (curTick : Int) (w : Wheel) :
    Decidable (DueReached cfg curTick w) :=
  inferInstanceAs (Decidable (∀ p, ∀ x ∈ w.lists p, w.tick cfg x ≤ curTick →
    Visited w.expireTick curTick p))

instance decidableNoneOverdue (cfg : Config) (curTick : Int) (w : Wheel) :
    Decidable (NoneOverdue cfg curTick w) :=
  inferInstanceAs (Decidable (∀ p, ∀ x ∈ w.lists p, ¬ w.tick cfg x ≤ curTick))

/-- After the walk, nothing that is due is linked. -/
theorem walked_noneOverdue {cfg : Config} {w : Wheel} (hsync : BitSync w)
    (hreached : DueReached cfg (w.curTick cfg) w) :
    NoneOverdue cfg (w.curTick cfg) (w.walked cfg).2 := by
  have hwalk := walked_spec cfg hsync
  intro p x hx hdue
  rw [hwalk.frame.tick_eq] at hdue
  refine hwalk.takes (fun q hq => ?_) p hx
  rw [tick, entered_handlers] at *
  rw [entered_lists] at hq
  rw [entered_expireTick]
  exact ⟨hreached q x hq hdue, fun _ => hdue⟩

end Wheel

/-- `timeoutExpired` leaves no handler overdue when it returns. -/
def Event.NoneOverdue (cfg : Config) : Event → Prop
  | .scheduled _ | .fired _ => True
  | .expired curTick after => after.NoneOverdue cfg curTick

instance decidableEventNoneOverdue (cfg : Config) : ∀ ev : Event, Decidable (ev.NoneOverdue cfg)
  | .scheduled _ | .fired _ => inferInstanceAs (Decidable True)
  | .expired curTick after => Wheel.decidableNoneOverdue cfg curTick after

namespace HHWheelTimer

open Wheel

/-! ## The condition -/

/-- Where the next step is the call of `timeoutExpired`, it reaches the handlers that are due. -/
def ReachesDue (cfg : Config) (t : HHWheelTimer) : Prop :=
  match t.control with
  | .callback _ => t.wheel.DueReached cfg (t.wheel.curTick cfg)
  | _ => True

/-- What an override schedules, when it is called from a loop, expires after the ticks of all calls
that are under way. What a callback schedules is there before its own call walks. -/
def SchedulesLater (cfg : Config) (t : HHWheelTimer) (input : Input) : Prop :=
  match t.control, t.schedules input with
  | .override _, some (_, timeout) => ∀ call ∈ t.calls,
      call.curTick < tickOf cfg (cfg.now t.wheel.clock + max timeout 0 * nanosPerMilli)
  | _, _ => True

def KeepsUp (cfg : Config) (t : HHWheelTimer) (input : Input) : Prop :=
  (input = .proceed → t.ReachesDue cfg) ∧ t.SchedulesLater cfg input

instance decidableReachesDue (cfg : Config) (t : HHWheelTimer) : Decidable (t.ReachesDue cfg) := by
  unfold ReachesDue
  exact match t.control with
    | .callback _ => inferInstance
    | .outside | .loop | .override _ => inferInstance

instance decidableSchedulesLater (cfg : Config) (t : HHWheelTimer) (input : Input) :
    Decidable (t.SchedulesLater cfg input) := by
  unfold SchedulesLater
  exact match t.control, t.schedules input with
    | .override _, some _ => inferInstance
    | .override _, none => inferInstance
    | .outside, _ | .callback _, _ | .loop, _ => inferInstance

instance decidableKeepsUp (cfg : Config) (t : HHWheelTimer) (input : Input) :
    Decidable (t.KeepsUp cfg input) :=
  inferInstanceAs (Decidable (_ ∧ _))

/-! ## The invariant -/

/-- What is linked expires after the tick of every call that is under way. -/
def Ahead (cfg : Config) (t : HHWheelTimer) : Prop :=
  ∀ call ∈ t.calls, ∀ x ∈ t.wheel.linked, call.curTick < t.wheel.tick cfg x

/-- The calls have read the clock before, and nothing that is due for one of them is linked unless a
callback runs. -/
structure InTime (cfg : Config) (t : HHWheelTimer) : Prop where
  past : ∀ call ∈ t.calls, call.curTick ≤ t.wheel.curTick cfg
  ahead : (∀ h, t.control ≠ .callback h) → Ahead cfg t

theorem Ahead.of_le {cfg : Config} {t t' : HHWheelTimer} (h : Ahead cfg t)
    (hcalls : ∀ call ∈ t'.calls, ∃ call₀ ∈ t.calls, call₀.curTick = call.curTick)
    (hlinked : t'.wheel.linked ≤ t.wheel.linked)
    (hexp : ∀ x ∈ t'.wheel.linked,
      (t'.wheel.handlers x).expiration = (t.wheel.handlers x).expiration) : Ahead cfg t' := by
  intro call hcall x hx
  obtain ⟨call₀, hcall₀, hsame⟩ := hcalls call hcall
  rw [tick, hexp x hx, ← hsame]
  exact h call₀ hcall₀ x (Multiset.mem_of_le hlinked hx)

theorem curTick_le {cfg : Config} {w w' : Wheel} (h : w.clock ≤ w'.clock) :
    w.curTick cfg ≤ w'.curTick cfg := tickOf_le (cfg.now_mono h)

/-- Time passes, and calls return. -/
theorem InTime.past_of_le {cfg : Config} {t t' : HHWheelTimer} (h : InTime cfg t)
    (hcalls : ∀ call ∈ t'.calls, ∃ call₀ ∈ t.calls, call₀.curTick = call.curTick)
    (hclock : t.wheel.clock ≤ t'.wheel.clock) :
    ∀ call ∈ t'.calls, call.curTick ≤ t'.wheel.curTick cfg := by
  intro call hcall
  obtain ⟨call₀, hcall₀, hsame⟩ := hcalls call hcall
  rw [← hsame]
  exact (h.past call₀ hcall₀).trans (curTick_le hclock)

theorem released_calls_curTick (t : HHWheelTimer) (h : HandlerId) :
    ∀ call ∈ (t.released h).calls, ∃ call₀ ∈ t.calls, call₀.curTick = call.curTick := by
  intro call hcall
  rw [released_calls] at hcall
  split at hcall
  · obtain ⟨call₀, hcall₀, rfl⟩ := List.mem_map.mp hcall
    exact ⟨call₀, hcall₀, rfl⟩
  · exact ⟨call, hcall, rfl⟩

theorem released_linked_le (t : HHWheelTimer) (h : HandlerId) :
    (t.released h).wheel.linked ≤ t.wheel.linked := by
  rw [released_wheel]
  split
  · show (t.wheel.unlink h).linked ≤ _
    rw [unlink_linked]
    exact Multiset.filter_le _ _
  · exact le_refl _

/-- A handler that is scheduled is linked, with its new expiration; the others keep theirs. -/
theorem Ahead.scheduled {cfg : Config} {t : HHWheelTimer} {input : Input} {h : HandlerId}
    {timeout : Int} {w : Wheel} (hw : WellLinked t) (hahead : Ahead cfg t)
    (hschedules : t.schedules input = some (h, timeout)) (hkind : h.isInternal = false)
    (hlinked : t.isLinked h = false)
    (hnext : ((t.prepared input).wheel.inserted cfg h timeout).scheduleNextTimeoutInReactor cfg
      (t.wheel.curTick cfg) = .ok w)
    (hlater : ∀ call ∈ t.calls,
      call.curTick < tickOf cfg (cfg.now t.wheel.clock + max timeout 0 * nanosPerMilli)) :
    Ahead cfg { t with wheel := w } := by
  have hrearmed := scheduleNext_rearmed hnext
  intro call hcall x hx
  have hmem : x ∈ h ::ₘ t.wheel.linked := by
    have hx : x ∈ w.linked := hx
    rwa [linked_of_lists_eq hrearmed.lists_eq, inserted_linked, prepared_linked] at hx
  show call.curTick < w.tick cfg x
  rw [tick]
  rcases Multiset.mem_cons.mp hmem with rfl | hold
  · rw [hrearmed.expiration_eq x hkind, inserted_expiration_self, prepared_clock]
    exact hlater call hcall
  · have hne : x ≠ h := by
      rintro rfl
      rw [isLinked_iff.mpr (mem_hooked.mpr (Or.inl hold))] at hlinked
      cases hlinked
    rw [hrearmed.expiration_eq x (hw.linked_users hold), inserted_expiration _ _ _ _ hne,
      prepared_handlers hschedules hne]
    exact hahead call hcall x hold

/-- The walk of a new call leaves nothing that is due, for it or for the calls around it. -/
theorem InTime.entered {cfg : Config} {t : HHWheelTimer} {h : HandlerId} (hw : WellLinked t)
    (htime : InTime cfg t) (hreached : t.wheel.DueReached cfg (t.wheel.curTick cfg)) :
    InTime cfg ⟨((t.wheel.clearRegistered h).walked cfg).2, .loop,
      ⟨h, (t.wheel.clearRegistered h).curTick cfg,
        (t.wheel.clearRegistered h).expiredTimers cfg h⟩ :: t.calls⟩ := by
  have hsync := clearRegistered_bitSync h hw.bitSync
  have hcleared : (t.wheel.clearRegistered h).DueReached cfg
      ((t.wheel.clearRegistered h).curTick cfg) := by
    intro p x hx hdue
    rw [tick, clearRegistered_expiration] at hdue
    exact hreached p x hx hdue
  have hle : ∀ call ∈ (⟨h, (t.wheel.clearRegistered h).curTick cfg,
      (t.wheel.clearRegistered h).expiredTimers cfg h⟩ :: t.calls : List Call),
      call.curTick ≤ t.wheel.curTick cfg := by
    intro call hcall
    rcases List.mem_cons.mp hcall with rfl | hcall
    · exact le_refl (t.wheel.curTick cfg)
    · exact htime.past call hcall
  constructor
  · intro call hcall
    refine (hle call hcall).trans (curTick_le ?_)
    show t.wheel.clock ≤ ((t.wheel.clearRegistered h).walked cfg).2.clock
    rw [(walked_spec cfg hsync).frame.clock_eq, entered_clock]
    exact Nat.le_succ _
  · intro _ call hcall x hx
    obtain ⟨p, hp⟩ := mem_linked.mp hx
    exact (hle call hcall).trans_lt (Int.not_le.mp (walked_noneOverdue hsync hcleared p x hp))

theorem Move.inTime {cfg : Config} {t t' : HHWheelTimer} {input : Input} {events : List Event}
    (hmove : Move cfg t input events t') (hw : WellLinked t) (htime : InTime cfg t)
    (hcond : t.KeepsUp cfg input) : InTime cfg t' ∧ ∀ ev ∈ events, ev.NoneOverdue cfg := by
  obtain ⟨hreaches, hlater⟩ := hcond
  have hsame : ∀ call ∈ t.calls, ∃ call₀ ∈ t.calls, call₀.curTick = call.curTick :=
    fun call hcall => ⟨call, hcall, rfl⟩
  cases hmove with
  | idle => exact ⟨htime, by simp⟩
  | looked h => exact ⟨⟨htime.past_of_le hsame (Nat.le_succ _), htime.ahead⟩, by simp⟩
  | @scheduled _ h timeout w huser hschedules hknows halive hlinked hnext =>
      have hclock : w.clock = t.wheel.clock + 1 := by
        rw [(scheduleNext_rearmed hnext).clock_eq, inserted_clock, prepared_clock]
      refine ⟨⟨htime.past_of_le hsame (hclock ▸ Nat.le_succ _), ?_⟩, by simp [Event.NoneOverdue]⟩
      intro hquiet
      refine (htime.ahead hquiet).scheduled hw hschedules (isInternal_of_knows hknows) hlinked hnext ?_
      -- users call from outside, where no call is under way, or from an override
      cases hcontrol : t.control with
      | outside =>
          intro call hcall
          rw [hw.outside hcontrol] at hcall
          cases hcall
      | callback h => exact absurd hcontrol (hquiet h)
      | loop =>
          rw [hcontrol] at huser
          cases huser
      | override h =>
          rw [SchedulesLater, hcontrol, hschedules] at hlater
          exact hlater
  | @cancelled w huser hcancel =>
      obtain ⟨hempty, -, -, hgone⟩ := cancelAll_ok hcancel
      refine ⟨⟨htime.past_of_le hsame hgone.clock_eq.ge, ?_⟩, by simp⟩
      intro _ call _ x hx
      have hx : x ∈ w.linked := hx
      rw [linked_of_empty hempty] at hx
      exact absurd hx (Multiset.notMem_zero x)
  | fired =>
      exact ⟨⟨htime.past_of_le hsame (Nat.le_succ _), fun hquiet => absurd rfl (hquiet _)⟩,
        by simp [Event.NoneOverdue]⟩
  | @entered h w hcontrol hclear =>
      subst hclear
      have hreached := hreaches rfl
      rw [ReachesDue, hcontrol] at hreached
      exact ⟨htime.entered hw hreached, by simp⟩
  | @called h c curTick cs calls hcontrol hcalls =>
      refine ⟨⟨?_, fun hquiet => absurd rfl (hquiet c)⟩, by simp [Event.NoneOverdue]⟩
      refine htime.past_of_le ?_ (le_refl _)
      intro call hcall
      rw [hcalls]
      rcases List.mem_cons.mp hcall with rfl | hcall
      · exact ⟨_, List.mem_cons_self, rfl⟩
      · exact ⟨call, List.mem_cons_of_mem _ hcall, rfl⟩
  | @returned h curTick calls w hcontrol hcalls hrearm halive =>
      have hrearmed := rearm_rearmed hrearm
      have hlinked := linked_of_lists_eq hrearmed.lists_eq
      -- the loop has ended, and nothing that is linked is due for the innermost call
      have hahead := htime.ahead (by simp [hcontrol])
      have hrest : ∀ call ∈ (({ t with wheel := w, calls := calls } : HHWheelTimer).released h).calls,
          ∃ call₀ ∈ t.calls, call₀.curTick = call.curTick := by
        intro call hcall
        obtain ⟨call₀, hcall₀, hsame⟩ := released_calls_curTick _ h call hcall
        exact ⟨call₀, by rw [hcalls]; exact List.mem_cons_of_mem _ hcall₀, hsame⟩
      refine ⟨⟨htime.past_of_le hrest ?_, fun _ => hahead.of_le hrest
        ((released_linked_le _ h).trans hlinked.le) ?_⟩, ?_⟩
      · rw [released_clock]
        exact hrearmed.clock_eq.ge
      · intro x hx
        rw [released_handlers]
        have hmem := Multiset.mem_of_le ((released_linked_le _ h).trans hlinked.le) hx
        exact hrearmed.expiration_eq x (hw.linked_users hmem)
      · rintro ev hev
        obtain rfl := List.mem_singleton.mp hev
        intro p x hx
        have hmem : x ∈ t.wheel.linked := hlinked ▸ mem_linked.mpr ⟨p, hx⟩
        rw [tick, hrearmed.expiration_eq x (hw.linked_users hmem)]
        exact Int.not_le.mpr
          (hahead ⟨h, curTick, []⟩ (by rw [hcalls]; exact List.mem_cons_self) x hmem)
  | left hcontrol hcalls =>
      exact ⟨⟨htime.past_of_le hsame (le_refl _), fun _ => htime.ahead (by simp [hcontrol])⟩, by simp⟩
  | resumed hcontrol hcalls =>
      exact ⟨⟨htime.past_of_le hsame (le_refl _), fun _ => htime.ahead (by simp [hcontrol])⟩, by simp⟩

/-- **No handler is overdue after a call that reaches the due ones.** In every run in which every call
of `timeoutExpired` passes the places of all handlers that are due when it starts, and an override
that is called from a loop schedules for later than the calls under way: whenever `timeoutExpired`
returns, nested calls included, no linked handler has a tick at or before the current one. -/
theorem none_overdue_when_reached (cfg : Config) (inputs : List Input)
    (history : List (Entry HHWheelTimer Input (List Event))) (t : HHWheelTimer)
    (hrun : run (step cfg) inputs new = .ok (history, t))
    (hcond : ∀ e ∈ history, e.before.KeepsUp cfg e.input) :
    ∀ e ∈ history, ∀ ev ∈ e.output, ev.NoneOverdue cfg := by
  have hnew : InTime cfg new :=
    ⟨fun call hcall => absurd hcall List.not_mem_nil, fun _ call hcall => absurd hcall List.not_mem_nil⟩
  have hall := (run_moves (InTime cfg) (KeepsUp cfg)
    (fun _ events _ => ∀ ev ∈ events, ev.NoneOverdue cfg)
    (fun t input events t' hw htime hcond hmove => hmove.inTime hw htime hcond) hnew hrun hcond).2
  exact fun e he => (hall e he).2

/-- Two handlers of 10 ms share the slot of tick 1. The second is called from the loop of the first, and
both schedule themselves again when they have been handled. -/
theorem none_overdue_tenMillis : ∃ r,
    run (step (lateAfter 2 5 20 (by decide))) [.scheduleTimeout (.user 0) 10,
      .scheduleTimeout (.user 1) 10, .fire (.user 0), .proceed, .proceed, .proceed, .proceed,
      .scheduleTimeout (.user 1) 30, .proceed, .proceed, .scheduleTimeout (.user 0) 30, .proceed]
      new = .ok r ∧
    (r.1.flatMap fun e => firedHandlers e.output) = [.user 0, .user 1] ∧
    (∀ e ∈ r.1, e.before.KeepsUp (lateAfter 2 5 20 (by decide)) e.input) ∧
    ∀ e ∈ r.1, ∀ ev ∈ e.output, ev.NoneOverdue (lateAfter 2 5 20 (by decide)) := by
  have hrun : ∃ r,
      run (step (lateAfter 2 5 20 (by decide))) [.scheduleTimeout (.user 0) 10,
        .scheduleTimeout (.user 1) 10, .fire (.user 0), .proceed, .proceed, .proceed, .proceed,
        .scheduleTimeout (.user 1) 30, .proceed, .proceed, .scheduleTimeout (.user 0) 30, .proceed]
        new = .ok r ∧
      (r.1.flatMap fun e => firedHandlers e.output) = [.user 0, .user 1] ∧
      ∀ e ∈ r.1, e.before.KeepsUp (lateAfter 2 5 20 (by decide)) e.input := by
    decide +kernel
  obtain ⟨⟨history, t⟩, hrun, hfired, hcond⟩ := hrun
  exact ⟨(history, t), hrun, hfired, hcond, none_overdue_when_reached _ _ history t hrun hcond⟩

/-- **A handler is left overdue.** Scheduled for 15 ms at 5 ms, it sits in the slot of tick 1, one
tick for the timeout, but expires at 20 ms, in tick 2. That is where `expireTick_` points and where
the walk begins, so the handler is fired and stays linked. -/
theorem overdue_fifteenMillis : ∃ r,
    run (step (lateAfter 1 5 20 (by decide))) [.scheduleTimeout (.user 0) 15, .fire (.user 0),
      .proceed, .proceed] new = .ok r ∧
    ¬ ∀ e ∈ r.1, ∀ ev ∈ e.output, ev.NoneOverdue (lateAfter 1 5 20 (by decide)) := by
  decide +kernel

end HHWheelTimer
end Unp.Timer
