import Unp.Timer.Linked

/-!
# The counter

`timerCount_` decides whether the reactor is armed again. `timeoutExpired` lowers it once for the
handler it is called for, when the bit of `expireTick_` is set, and once for each handler it fires, when
that has been handled. The bit is not about the handler of the call: the counter is right as long as it
is set exactly when that handler is linked where the walk passes. A handler that is deleted while it is
linked is not taken off the counter.
-/

namespace Unp.Timer

open Unp.Machine Unp.Slots Unp.Run

namespace Wheel

/-! ## The condition -/

/-- Before a call of `timeoutExpired` for `h`: the bit of `expireTick_` is set if and only if `h` is
linked in a place the walk passes, and if that place is above the first bucket, `h` is due. -/
def BitFitsFired (cfg : Config) (curTick : Int) (h : HandlerId) (w : Wheel) : Prop :=
  (w.bits (slotOf w.expireTick) = true ↔ ∃ p, h ∈ w.lists p ∧ Visited w.expireTick curTick p) ∧
    ∀ p, h ∈ w.lists p → Visited w.expireTick curTick p → 0 < p.1.val → w.tick cfg h ≤ curTick

instance decidableBitFitsFired (cfg : Config) (curTick : Int) (h : HandlerId) (w : Wheel) :
    Decidable (BitFitsFired cfg curTick h w) :=
  inferInstanceAs (Decidable ((w.bits (slotOf w.expireTick) = true ↔
    ∃ p, h ∈ w.lists p ∧ Visited w.expireTick curTick p) ∧ ∀ p, h ∈ w.lists p →
      Visited w.expireTick curTick p → 0 < p.1.val → w.tick cfg h ≤ curTick))

end Wheel

namespace HHWheelTimer

open Wheel

/-- Where the code goes on with a call of `timeoutExpired`, the bit fits; where it goes on to the end of
one, a handler that is deleted there is not linked. -/
def CountsRight (cfg : Config) (t : HHWheelTimer) (input : Input) : Prop :=
  input = .proceed → match t.control with
    | .callback h => t.wheel.BitFitsFired cfg (t.wheel.curTick cfg) h
    | .loop => ∀ call ∈ t.calls.head?, call.expiredTimers = [] →
        call.handler.needDestroy = true → t.isLinked call.handler = false
    | _ => True

instance decidableCountsRight (cfg : Config) (t : HHWheelTimer) (input : Input) :
    Decidable (t.CountsRight cfg input) := by
  unfold CountsRight
  exact match t.control with
    | .callback _ => inferInstance
    | .loop => inferInstance
    | .outside | .override _ => inferInstance

/-! ## The invariant -/

/-- The handlers that have been taken from the local list of a call and are still counted: the one
that is being handled, and those of the calls around it. -/
def inHand (t : HHWheelTimer) : Nat :=
  match t.control with
  | .loop => t.calls.length - 1
  | _ => t.calls.length

/-- All that are hooked or in hand are counted. -/
def Counts (t : HHWheelTimer) : Prop := t.wheel.timerCount = u64 (t.hooked.card + t.inHand)

theorem Counts.lt {t : HHWheelTimer} (h : Counts t) : t.wheel.timerCount < 2 ^ 64 := by
  rw [h]
  exact Nat.mod_lt _ (by decide)

theorem Counts.of_eq {t t' : HHWheelTimer} (h : Counts t)
    (hcount : t'.wheel.timerCount = t.wheel.timerCount)
    (hcards : t'.hooked.card + t'.inHand = t.hooked.card + t.inHand) : Counts t' := by
  rw [Counts, hcount, hcards]
  exact h

theorem u64_succ_pred (n : Nat) : subU64 (u64 (n + 1)) 1 = u64 n := by
  unfold subU64 u64
  omega

theorem u64_succ (n : Nat) : u64 (u64 n + 1) = u64 (n + 1) := by
  unfold u64
  omega

theorem hooked_card (t : HHWheelTimer) :
    t.hooked.card = t.wheel.linked.card + t.pending.length := by
  rw [hooked, Multiset.card_add, Multiset.coe_card]

theorem new_counts : Counts new := by
  rw [Counts, hooked_card, linked_of_empty fun _ => rfl]
  rfl

/-! ## The moves -/

theorem Counts.scheduled {cfg : Config} {t : HHWheelTimer} {input : Input} {h : HandlerId}
    {timeout : Int} {w : Wheel} (hcounts : Counts t)
    (hnext : ((t.prepared input).wheel.inserted cfg h timeout).scheduleNextTimeoutInReactor cfg
      (t.wheel.curTick cfg) = .ok w) : Counts { t with wheel := w } := by
  have hcount : ((t.prepared input).wheel.inserted cfg h timeout).timerCount =
      u64 (t.wheel.timerCount + 1) := by
    cases input <;> rfl
  show w.timerCount = u64 (_ + t.inHand)
  rw [scheduled_hooked hnext, (scheduleNext_rearmed hnext).count_eq, hcount, hcounts, u64_succ,
    Multiset.card_cons, Nat.add_right_comm]

theorem Counts.cancelled {t : HHWheelTimer} {w : Wheel} (hcounts : Counts t)
    (hcancel : t.wheel.cancelAll = .ok w) : Counts { t with wheel := w } := by
  obtain ⟨-, hcount, hlt, -⟩ := cancelAll_ok hcancel
  have hlt := hlt hcounts.lt
  rw [hcounts, hooked_card] at hcount
  show w.timerCount = u64 (_ + t.inHand)
  rw [cancelled_hooked hcancel, Multiset.coe_card]
  unfold u64 at *
  omega

/-- The bit is tested and the lists are walked. -/
theorem Counts.entered {cfg : Config} {t : HHWheelTimer} {h : HandlerId} (hw : WellLinked t)
    (hcounts : Counts t) (hcontrol : t.control = .callback h)
    (hbit : t.wheel.BitFitsFired cfg (t.wheel.curTick cfg) h) :
    Counts ⟨((t.wheel.clearRegistered h).walked cfg).2, .loop,
      ⟨h, (t.wheel.clearRegistered h).curTick cfg,
        (t.wheel.clearRegistered h).expiredTimers cfg h⟩ :: t.calls⟩ := by
  have hsync := clearRegistered_bitSync h hw.bitSync
  have hwalk := walked_spec cfg hsync
  have hcard : t.wheel.linked.card = ((t.wheel.clearRegistered h).walked cfg).1.length +
      ((t.wheel.clearRegistered h).walked cfg).2.linked.card := by
    rw [← clearRegistered_linked t.wheel h, walked_linked cfg hsync, Multiset.card_add,
      Multiset.coe_card]
  have hlen := length_expiredTimers cfg h hw
  have hiff := mem_walked_iff cfg h hw fun p hp hvisited habove =>
    hbit.2 p hp hvisited (Nat.pos_of_ne_zero (Fin.val_ne_of_ne habove))
  have hinHand : t.inHand = t.calls.length := by
    rw [inHand, hcontrol]
  have hcounts : t.wheel.timerCount =
      u64 (t.wheel.linked.card + (t.calls.flatMap Call.expiredTimers).length + t.calls.length) := by
    rw [← pending, ← hooked_card, ← hinHand]
    exact hcounts
  rw [Counts, hooked_card, pending_cons, List.length_append]
  show ((t.wheel.clearRegistered h).walked cfg).2.timerCount =
    u64 (_ + (_ + (t.calls.flatMap Call.expiredTimers).length) + t.calls.length)
  by_cases hset : t.wheel.bits (slotOf t.wheel.expireTick) = true
  · -- one is taken off, and the walk drops the handler of the call
    rw [if_pos (hiff.mpr (hbit.1.mp hset))] at hlen
    have hentered : (t.wheel.clearRegistered h).entered.timerCount =
        subU64 t.wheel.timerCount 1 := by
      exact (entered_timerCount _).trans (if_pos hset)
    have hlt : (t.wheel.clearRegistered h).entered.timerCount < 2 ^ 64 := by
      rw [hentered]
      exact Nat.mod_lt _ (by decide)
    have hsum : t.wheel.linked.card + (t.calls.flatMap Call.expiredTimers).length +
        t.calls.length = ((t.wheel.clearRegistered h).walked cfg).2.linked.card +
          (((t.wheel.clearRegistered h).expiredTimers cfg h).length +
            (t.calls.flatMap Call.expiredTimers).length) + t.calls.length + 1 := by omega
    rw [hwalk.count_eq hlt, hentered, hcounts, hsum, u64_succ_pred]
  · -- nothing is taken off, and the walk drops nobody
    rw [if_neg fun hmem => hset (hbit.1.mpr (hiff.mp hmem))] at hlen
    have hentered : (t.wheel.clearRegistered h).entered.timerCount = t.wheel.timerCount := by
      exact (entered_timerCount _).trans (if_neg hset)
    have hlt : (t.wheel.clearRegistered h).entered.timerCount < 2 ^ 64 := by
      rw [hentered, hcounts]
      exact Nat.mod_lt _ (by decide)
    have hsum : t.wheel.linked.card + (t.calls.flatMap Call.expiredTimers).length +
        t.calls.length = ((t.wheel.clearRegistered h).walked cfg).2.linked.card +
          (((t.wheel.clearRegistered h).expiredTimers cfg h).length +
            (t.calls.flatMap Call.expiredTimers).length) + t.calls.length := by omega
    rw [hwalk.count_eq hlt, hentered, hcounts, hsum]

theorem Counts.returned {cfg : Config} {t : HHWheelTimer} {h : HandlerId} {curTick : Int}
    {calls : List Call} {w : Wheel} (hcounts : Counts t) (hcontrol : t.control = .loop)
    (hcalls : t.calls = ⟨h, curTick, []⟩ :: calls) (hrearm : t.wheel.rearm cfg curTick = .ok w)
    (hgone : h.needDestroy = true → t.isLinked h = false) :
    Counts (({ t with wheel := w, calls := calls } : HHWheelTimer).released h) := by
  have hhooked : (({ t with wheel := w, calls := calls } : HHWheelTimer).released h).hooked =
      t.hooked := by
    rw [released_hooked, returned_hooked t.control hcalls hrearm]
    split
    · next hdestroy =>
      apply Multiset.filter_eq_self.mpr
      rintro x hx rfl
      have hlinked := hgone hdestroy
      rw [isLinked_iff.mpr hx] at hlinked
      cases hlinked
    · rfl
  have hlength : (({ t with wheel := w, calls := calls } : HHWheelTimer).released h).calls.length =
      calls.length := by
    rw [released_calls]
    split
    · exact List.length_map _
    · rfl
  have hinHand : (({ t with wheel := w, calls := calls } : HHWheelTimer).released h).inHand =
      t.inHand := by
    have hloop : t.inHand = calls.length := by
      rw [inHand, hcontrol, hcalls]
      rfl
    rw [hloop, ← hlength]
    rfl
  refine hcounts.of_eq ?_ (by rw [hhooked, hinHand])
  rw [released_timerCount]
  exact (rearm_rearmed hrearm).count_eq

theorem Counts.resumed {t : HHWheelTimer} {h : HandlerId} {call : Call} {calls : List Call}
    {count : Nat} (hcounts : Counts t) (hcontrol : t.control = .override h)
    (hcalls : t.calls = call :: calls) (hcount : count = subU64 t.wheel.timerCount 1) :
    Counts { t with wheel := { t.wheel with timerCount := count }, control := .loop } := by
  have hinHand : t.inHand = calls.length + 1 := by
    rw [inHand, hcontrol, hcalls]
    rfl
  show count = u64 (t.hooked.card + (t.calls.length - 1))
  rw [hcount, hcounts, hinHand, ← Nat.add_assoc, u64_succ_pred, hcalls, List.length_cons,
    Nat.add_sub_cancel]

theorem Move.counts {cfg : Config} {t t' : HHWheelTimer} {input : Input} {events : List Event}
    (hmove : Move cfg t input events t') (hw : WellLinked t) (hcounts : Counts t)
    (hcond : t.CountsRight cfg input) : Counts t' := by
  cases hmove with
  | idle => exact hcounts
  | looked => exact hcounts.of_eq rfl rfl
  | scheduled huser hschedules hknows halive hlinked hnext => exact hcounts.scheduled hnext
  | cancelled huser hcancel => exact hcounts.cancelled hcancel
  | fired houtside =>
      refine hcounts.of_eq rfl ?_
      rw [inHand, inHand, houtside]
      rfl
  | @entered h w hcontrol hclear =>
      subst hclear
      have hbit := hcond rfl
      rw [hcontrol] at hbit
      exact hcounts.entered hw hcontrol hbit
  | @called h c curTick cs calls hcontrol hcalls =>
      -- the handler goes from the local list into the hand of the call
      refine hcounts.of_eq rfl ?_
      have hpending : t.pending.length =
          cs.length + 1 + (calls.flatMap Call.expiredTimers).length := by
        rw [pending, hcalls, List.flatMap_cons, List.length_append, List.length_cons]
      have hloop : t.inHand = calls.length := by
        rw [inHand, hcontrol, hcalls]
        rfl
      rw [hooked_card, hooked_card, pending_cons, List.length_append, hpending, hloop]
      show t.wheel.linked.card + (cs.length + _) + (calls.length + 1) = _
      omega
  | returned hcontrol hcalls hrearm halive =>
      have hgone := hcond rfl
      rw [hcontrol, hcalls] at hgone
      exact hcounts.returned hcontrol hcalls hrearm (hgone _ rfl rfl)
  | left hcontrol hcalls =>
      refine hcounts.of_eq rfl ?_
      rw [inHand, inHand, hcontrol]
      rfl
  | resumed hcontrol hcalls hcount => exact hcounts.resumed hcontrol hcalls hcount

/-- **The counter is exact.** In every run in which each call of `timeoutExpired` finds the bit of
`expireTick_` set if and only if its walk passes the handler it is made for, and no handler is deleted
while it is linked, `timerCount_` is the number of linked handlers, as a `size_t`, whenever no call is
under way; as long as there are fewer than `2 ^ 64` of them that is the number itself. -/
theorem timerCount_exact (cfg : Config) (inputs : List Input)
    (history : List (Entry HHWheelTimer Input (List Event))) (t : HHWheelTimer)
    (hrun : run (step cfg) inputs new = .ok (history, t))
    (hcond : ∀ e ∈ history, e.before.CountsRight cfg e.input) :
    ∀ e ∈ history, e.after.calls = [] →
      e.after.wheel.timerCount = u64 e.after.wheel.linked.card ∧
      (e.after.wheel.linked.card < 2 ^ 64 →
        e.after.wheel.timerCount = e.after.wheel.linked.card) := by
  have hall := (run_moves Counts (CountsRight cfg) (fun _ _ _ => True)
    (fun t input events t' hw hcounts hcond hmove => ⟨hmove.counts hw hcounts hcond, trivial⟩)
    new_counts hrun hcond).2
  intro e he hcalls
  have hcounts : e.after.wheel.timerCount = u64 e.after.wheel.linked.card := by
    have hnone : e.after.inHand = 0 := by
      rw [inHand, hcalls]
      split <;> rfl
    rw [(hall e he).1.2, hooked_card, hnone, pending, hcalls]
    rfl
  exact ⟨hcounts, fun hlt => by rw [hcounts, u64_of_lt hlt]⟩

/-- Two handlers in one slot are fired; a third, that `scheduleTimeoutFn` makes, is cancelled. -/
theorem timerCount_exact_threeHandlers : ∃ r,
    run (step (lateAfter 2 5 20 (by decide))) [.scheduleTimeout (.user 0) 10,
      .scheduleTimeout (.user 1) 10, .fire (.user 0), .proceed, .proceed, .proceed, .proceed,
      .scheduleTimeoutFn 500, .proceed, .proceed, .proceed, .cancelAll] new = .ok r ∧
    (∀ e ∈ r.1, e.before.CountsRight (lateAfter 2 5 20 (by decide)) e.input) ∧
    r.1.map (fun e => e.after.wheel.timerCount) = [1, 2, 2, 1, 1, 1, 1, 2, 1, 1, 1, 0] ∧
    ∀ e ∈ r.1, e.after.calls = [] →
      e.after.wheel.timerCount = u64 e.after.wheel.linked.card ∧
      (e.after.wheel.linked.card < 2 ^ 64 →
        e.after.wheel.timerCount = e.after.wheel.linked.card) := by
  have hrun : ∃ r,
      run (step (lateAfter 2 5 20 (by decide))) [.scheduleTimeout (.user 0) 10,
        .scheduleTimeout (.user 1) 10, .fire (.user 0), .proceed, .proceed, .proceed, .proceed,
        .scheduleTimeoutFn 500, .proceed, .proceed, .proceed, .cancelAll] new = .ok r ∧
      (∀ e ∈ r.1, e.before.CountsRight (lateAfter 2 5 20 (by decide)) e.input) ∧
      r.1.map (fun e => e.after.wheel.timerCount) = [1, 2, 2, 1, 1, 1, 1, 2, 1, 1, 1, 0] := by
    decide +kernel
  obtain ⟨⟨history, t⟩, hrun, hcond, hcounts⟩ := hrun
  exact ⟨(history, t), hrun, hcond, hcounts, timerCount_exact _ _ history t hrun hcond⟩

/-- **The counter runs ahead.** Three handlers, two of them in one slot, the third one tick later.
The reactor fires the first, the wheel the second; in the nested call the bit of the third is set,
so it is taken off the counter while it is still linked. -/
theorem timerCount_zero_with_linked : ∃ r,
    run (step (lateAfter 3 0 10 (by decide))) [.scheduleTimeout (.user 0) 10,
      .scheduleTimeout (.user 1) 10, .scheduleTimeout (.user 2) 20, .fire (.user 0), .proceed,
      .proceed, .proceed, .proceed, .proceed, .proceed, .proceed] new = .ok r ∧
    r.2.control = .outside ∧ r.2.calls = [] ∧ r.2.wheel.timerCount = 0 ∧
    .user 2 ∈ r.2.wheel.linked ∧ r.2.wheel.timerCount ≠ r.2.wheel.linked.card := by
  have hrun : ∃ r,
      run (step (lateAfter 3 0 10 (by decide))) [.scheduleTimeout (.user 0) 10,
        .scheduleTimeout (.user 1) 10, .scheduleTimeout (.user 2) 20, .fire (.user 0), .proceed,
        .proceed, .proceed, .proceed, .proceed, .proceed, .proceed] new = .ok r ∧
      r.2.control = .outside ∧ r.2.calls.length = 0 ∧ r.2.wheel.timerCount = 0 ∧
      r.2.wheel.isLinked (.user 2) = true := by
    decide +kernel
  obtain ⟨r, hrun, houtside, hcalls, hzero, hlinked⟩ := hrun
  have hmem := Wheel.isLinked_iff.mp hlinked
  have hpos := Multiset.card_pos_iff_exists_mem.mpr ⟨_, hmem⟩
  exact ⟨r, hrun, houtside, List.eq_nil_of_length_eq_zero hcalls, hzero, hmem,
    by rw [hzero]; exact hpos.ne⟩

end HHWheelTimer
end Unp.Timer
