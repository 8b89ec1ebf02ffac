import Unp.Timer.Moves

/-!
# Two ways to round

`scheduleTimeout` rounds the timeout and the current time down to ticks and adds the two; that sum
chooses the slot. `scheduleNextTimeoutInReactor_` and `cascadeTimers_` round the expiration, the sum
of both in nanoseconds. What the two parts leave over can make up one more tick. All of this is
computed with `int64_t`.
-/

namespace Unp.Timer

open Unp.Machine

/-- How far the tick at `now` has gone, in nanoseconds. -/
def phase (cfg : Config) (now : Int) : Int :=
  (now - cfg.startTime) % (cfg.interval * nanosPerMilli)

/-- What a timeout is longer than a whole number of ticks, in nanoseconds. -/
def excess (cfg : Config) (timeout : Int) : Int := timeout % cfg.interval * nanosPerMilli

theorem tickNanos_pos (cfg : Config) : 0 < cfg.interval * nanosPerMilli := by
  have := cfg.interval_pos
  unfold nanosPerMilli
  omega

theorem tickOf_eq_ediv {cfg : Config} {t : Int} (h : cfg.startTime ≤ t) :
    tickOf cfg t = (t - cfg.startTime) / (cfg.interval * nanosPerMilli) :=
  Int.tdiv_eq_ediv_of_nonneg (by omega)

theorem getTickFromDuration_eq_ediv {cfg : Config} {timeout : Int} (h : 0 ≤ timeout) :
    getTickFromDuration cfg timeout =
      timeout * nanosPerMilli / (cfg.interval * nanosPerMilli) := by
  have hmilli : 0 < nanosPerMilli := by decide
  rw [getTickFromDuration, Int.tdiv_eq_ediv_of_nonneg h, Int.mul_ediv_mul_of_pos_left _ _ hmilli]

theorem excess_eq_emod (cfg : Config) (timeout : Int) :
    excess cfg timeout = timeout * nanosPerMilli % (cfg.interval * nanosPerMilli) := by
  have hmilli : 0 < nanosPerMilli := by decide
  rw [excess, mul_comm timeout, mul_comm cfg.interval, Int.mul_emod_mul_of_pos _ _ hmilli, mul_comm]

/-- The tick of the expiration is the tick of the slot, or the one after it. -/
theorem tickOf_expiration {cfg : Config} {now timeout : Int} (hnow : cfg.startTime ≤ now)
    (htimeout : 0 ≤ timeout) :
    tickOf cfg (now + timeout * nanosPerMilli) =
      getTickFromDuration cfg timeout + tickOf cfg now +
        if phase cfg now + excess cfg timeout < cfg.interval * nanosPerMilli then 0 else 1 := by
  have hnanos : 0 ≤ timeout * nanosPerMilli :=
    Int.mul_nonneg htimeout (by decide)
  have hsum : now + timeout * nanosPerMilli - cfg.startTime =
      (now - cfg.startTime) + timeout * nanosPerMilli := by omega
  rw [tickOf_eq_ediv (by omega), tickOf_eq_ediv hnow, getTickFromDuration_eq_ediv htimeout, hsum,
    Int.add_ediv_of_pos (tickNanos_pos cfg), phase, excess_eq_emod]
  split <;> split <;> omega

/-! ## The computation -/

/-- An `int64_t`. -/
def FitsI64 (x : Int) : Prop := -2 ^ 63 ≤ x ∧ x < 2 ^ 63

instance decidableFitsI64 (x : Int) : Decidable (FitsI64 x) :=
  inferInstanceAs (Decidable (-2 ^ 63 ≤ x ∧ x < 2 ^ 63))

theorem tickOfCurTime_ok_iff {cfg : Config} {timePoint tick : Int} :
    tickOfCurTime cfg timePoint = .ok tick ↔ tick = tickOf cfg timePoint ∧
      FitsI64 (timePoint - cfg.startTime) ∧ FitsI64 (cfg.interval * nanosPerMilli) := by
  constructor
  · intro h
    refine ⟨tickOfCurTime_eq_ok h, ?_⟩
    obtain ⟨elapsed, helapsed, h⟩ := bind_eq_ok h
    obtain ⟨interval, hinterval, -⟩ := bind_eq_ok h
    exact ⟨(checkedI64_ok_iff.mp helapsed).2, (checkedI64_ok_iff.mp hinterval).2⟩
  · rintro ⟨rfl, helapsed, hinterval⟩
    rw [tickOfCurTime, checkedI64_ok_iff.mpr ⟨rfl, helapsed⟩, ok_bind, nanosOf,
      checkedI64_ok_iff.mpr ⟨rfl, hinterval⟩]
    rfl

theorem expirationAt_ok_iff {now timeout expiration : Int} :
    expirationAt now timeout = .ok expiration ↔ expiration = now + timeout * nanosPerMilli ∧
      FitsI64 (timeout * nanosPerMilli) ∧ FitsI64 (now + timeout * nanosPerMilli) := by
  constructor
  · intro h
    refine ⟨expirationAt_eq_ok h, ?_⟩
    obtain ⟨duration, hduration, h⟩ := bind_eq_ok h
    obtain ⟨rfl, hfits⟩ := checkedI64_ok_iff.mp hduration
    exact ⟨hfits, (checkedI64_ok_iff.mp h).2⟩
  · rintro ⟨rfl, hduration, hsum⟩
    rw [expirationAt, nanosOf, checkedI64_ok_iff.mpr ⟨rfl, hduration⟩, ok_bind]
    exact checkedI64_ok_iff.mpr ⟨rfl, hsum⟩

/-- The differences and products on the way to the two ticks. -/
def intermediates (cfg : Config) (now timeout : Int) : List Int :=
  [cfg.interval * nanosPerMilli, now - cfg.startTime, timeout * nanosPerMilli,
    now + timeout * nanosPerMilli, now + timeout * nanosPerMilli - cfg.startTime]

/-- The tick of the slot is not after the tick of the expiration, so it does not overflow either. -/
theorem slotTick_fits {cfg : Config} {now timeout : Int} (hnow : cfg.startTime ≤ now)
    (htimeout : 0 ≤ timeout) (hfits : FitsI64 (now + timeout * nanosPerMilli - cfg.startTime)) :
    FitsI64 (getTickFromDuration cfg timeout + tickOf cfg now) := by
  have hnanos : 0 ≤ timeout * nanosPerMilli := Int.mul_nonneg htimeout (by decide)
  have hexpiration := tickOf_expiration hnow htimeout
  rw [tickOf_eq_ediv (by omega)] at hexpiration
  have hle : (now + timeout * nanosPerMilli - cfg.startTime) / (cfg.interval * nanosPerMilli) ≤
      now + timeout * nanosPerMilli - cfg.startTime := Int.ediv_le_self _ (by omega)
  have hcurrent : 0 ≤ tickOf cfg now := by
    rw [tickOf_eq_ediv hnow]
    exact Int.ediv_nonneg (by omega) (tickNanos_pos cfg).le
  have hticks : 0 ≤ getTickFromDuration cfg timeout := by
    rw [getTickFromDuration_eq_ediv htimeout]
    exact Int.ediv_nonneg hnanos (tickNanos_pos cfg).le
  obtain ⟨-, hlt⟩ := hfits
  constructor
  · omega
  · split at hexpiration <;> omega

namespace Wheel

theorem setSheduled_expiration (w : Wheel) (h : HandlerId) (expiration : Int) :
    ((w.setSheduled h expiration).handlers h).expiration = expiration := by
  simp only [setSheduled, setHandler]
  rw [Function.update_self]

/-- **When the two ticks agree.** The tick that chooses the slot of a handler and the one that is
recomputed from its expiration are computed and are the same if and only if no intermediate result
overflows and what the current time and the timeout are longer than whole ticks is less than a tick
together. -/
theorem slot_tick_eq_iff (cfg : Config) (w : Wheel) (h : HandlerId) (now timeout : Int)
    (hnow : cfg.startTime ≤ now) (htimeout : 0 ≤ timeout) :
    (∃ currentTick expiration tick, tickOfCurTime cfg now = .ok currentTick ∧
        expirationAt now timeout = .ok expiration ∧
        thisTimerExpireTick cfg timeout currentTick = .ok tick ∧
        (w.setSheduled h expiration).checkedTick cfg h = .ok tick) ↔
      (∀ x ∈ intermediates cfg now timeout, FitsI64 x) ∧
        (now - cfg.startTime) % (cfg.interval * nanosPerMilli) +
          timeout % cfg.interval * nanosPerMilli < cfg.interval * nanosPerMilli := by
  have hexpiration := tickOf_expiration hnow htimeout
  rw [phase, excess] at hexpiration
  constructor
  · rintro ⟨currentTick, expiration, tick, hcurrent, hexp, hslot, hrecomputed⟩
    obtain ⟨rfl, helapsed, hinterval⟩ := tickOfCurTime_ok_iff.mp hcurrent
    obtain ⟨rfl, hduration, hsum⟩ := expirationAt_ok_iff.mp hexp
    obtain ⟨rfl, -⟩ := checkedI64_ok_iff.mp hslot
    rw [checkedTick, setSheduled_expiration] at hrecomputed
    obtain ⟨heq, hlater, -⟩ := tickOfCurTime_ok_iff.mp hrecomputed
    refine ⟨?_, ?_⟩
    · simp only [intermediates, List.forall_mem_cons]
      exact ⟨hinterval, helapsed, hduration, hsum, hlater, by simp⟩
    · -- the recomputed tick would be one more
      by_contra hover
      rw [if_neg hover] at hexpiration
      omega
  · rintro ⟨hfits, hless⟩
    simp only [intermediates, List.forall_mem_cons] at hfits
    obtain ⟨hinterval, helapsed, hduration, hsum, hlater, -⟩ := hfits
    rw [if_pos hless, add_zero] at hexpiration
    refine ⟨_, _, _, tickOfCurTime_ok_iff.mpr ⟨rfl, helapsed, hinterval⟩,
      expirationAt_ok_iff.mpr ⟨rfl, hduration, hsum⟩,
      checkedI64_ok_iff.mpr ⟨rfl, slotTick_fits hnow htimeout hlater⟩, ?_⟩
    rw [checkedTick, setSheduled_expiration]
    exact tickOfCurTime_ok_iff.mpr ⟨hexpiration.symm, hlater, hinterval⟩

/-- At 5 ms, with ticks of 10 ms: 14 ms and the half tick that has passed are less than two. -/
theorem slot_tick_eq_fourteenMillis :
    ∃ currentTick expiration tick,
      tickOfCurTime (lateAfter 1 5 20 (by decide)) (5 * nanosPerMilli) = .ok currentTick ∧
      expirationAt (5 * nanosPerMilli) 14 = .ok expiration ∧
      thisTimerExpireTick (lateAfter 1 5 20 (by decide)) 14 currentTick = .ok tick ∧
      (new.setSheduled (.user 0) expiration).checkedTick (lateAfter 1 5 20 (by decide)) (.user 0) =
        .ok tick :=
  (slot_tick_eq_iff (lateAfter 1 5 20 (by decide)) new (.user 0) (5 * nanosPerMilli) 14 (by decide)
    (by decide)).mpr ⟨by decide, by decide⟩

/-- **The ticks differ.** 15 ms at 5 ms: tick 1 for the slot, tick 2 for the expiration. -/
theorem slot_tick_ne_fifteenMillis :
    tickOfCurTime (lateAfter 1 5 20 (by decide)) (5 * nanosPerMilli) = .ok 0 ∧
      expirationAt (5 * nanosPerMilli) 15 = .ok (20 * nanosPerMilli) ∧
      thisTimerExpireTick (lateAfter 1 5 20 (by decide)) 15 0 = .ok 1 ∧
      (new.setSheduled (.user 0) (20 * nanosPerMilli)).checkedTick
        (lateAfter 1 5 20 (by decide)) (.user 0) = .ok 2 := by
  decide

end Wheel
end Unp.Timer
