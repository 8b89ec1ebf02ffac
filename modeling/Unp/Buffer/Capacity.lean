import Unp.Buffer.Chain

/-!
# The sizes of blocks

`calculate_actual_capacity` gives out powers of two from 1024 on, and from `MAXIMUM_CHAIN_SIZE / 2` on
exactly what was asked for. The largest power it can get to is `2 ^ 31`, which lies behind that limit
and is therefore kept when it is asked for itself.
-/

namespace Unp.Reactor
namespace BufferChain

open Unp.Machine

/-- The loop, where a doubling that would lose a bit is a fault. -/
def doubleChecked : Nat → Nat → Nat → Res Nat
  | 0, _, _ => .error .outOfFuel
  | fuel + 1, toAlloc, given =>
      if toAlloc < given then
        if 2 ^ 32 ≤ 2 * toAlloc then .error .overflow else doubleChecked fuel (2 * toAlloc) given
      else pure toAlloc

/-- `calculate_actual_capacity` with that loop. -/
def checkedCapacity (given : Nat) : Res Nat :=
  if given < maximumChainSize / 2 then doubleChecked 22 defaultChainSize given else pure given

/-- No bit is lost on the way to `2 ^ 31`. -/
theorem doubleChecked_eq {k fuel given : Nat} (hk : k + fuel = 32) (hg : given ≤ 2 ^ 31)
    (hk31 : k ≤ 31) :
    doubleChecked fuel (2 ^ k) given = .ok (doubleUntil fuel (2 ^ k) given) := by
  induction fuel generalizing k with
  | zero => omega
  | succ fuel ih =>
      rw [doubleChecked, doubleUntil]
      split
      · next hlt =>
          have hk30 : k < 31 := by
            by_contra hge
            obtain rfl : k = 31 := by omega
            omega
          have hpow : 2 ^ (k + 1) ≤ 2 ^ 31 := Nat.pow_le_pow_right (by decide) hk30
          have hdouble : 2 * 2 ^ k = 2 ^ (k + 1) := (pow_succ' 2 k).symm
          rw [hdouble, if_neg (by omega), u32_of_lt (by omega)]
          exact ih (by omega) hk30
      · rfl

theorem checkedCapacity_eq (given : Nat) :
    checkedCapacity given = .ok (calculateActualCapacity given) := by
  rw [checkedCapacity, calculateActualCapacity]
  split
  · next hg => exact @doubleChecked_eq 10 22 given rfl (le_of_lt_limit hg) (by decide)
  · rfl

/-- A power that is given out is given out for itself. -/
theorem calculateActualCapacity_pow {j : Nat} (hj : 10 ≤ j) :
    calculateActualCapacity (2 ^ j) = 2 ^ j := by
  by_cases hlimit : 2 ^ j < maximumChainSize / 2
  · obtain ⟨i, hi, -, hcalc, hle, hleast⟩ := calculateActualCapacity_eq_pow hlimit
    have hji : j ≤ i := (Nat.pow_le_pow_iff_right (by decide)).mp hle
    rcases Nat.eq_or_lt_of_le hi with rfl | hless
    · obtain rfl : j = 10 := Nat.le_antisymm hji hj
      exact hcalc
    · have hij : i - 1 < j := (Nat.pow_lt_pow_iff_right (by decide)).mp (hleast hless)
      obtain rfl : i = j := by omega
      exact hcalc
  · exact calculateActualCapacity_of_le (Nat.not_lt.mp hlimit)

theorem calculateActualCapacity_idem (given : Nat) :
    calculateActualCapacity (calculateActualCapacity given) = calculateActualCapacity given := by
  by_cases hg : given < maximumChainSize / 2
  · obtain ⟨j, hj, -, hcalc, -⟩ := calculateActualCapacity_eq_pow hg
    rw [hcalc, calculateActualCapacity_pow hj]
  · rw [calculateActualCapacity_of_le (Nat.not_lt.mp hg),
      calculateActualCapacity_of_le (Nat.not_lt.mp hg)]

/-- **The sizes of blocks.** The loop ends without losing a bit, what comes out is enough and stays what
it is, and so a copy has the capacity of its source. -/
theorem calculateActualCapacity_spec {given : Nat} (hlt : given < 2 ^ 32) :
    checkedCapacity given = .ok (calculateActualCapacity given) ∧
      given ≤ calculateActualCapacity given ∧ calculateActualCapacity given < 2 ^ 32 ∧
      calculateActualCapacity (calculateActualCapacity given) = calculateActualCapacity given ∧
      ∀ c : BufferChain, c.Ok → c.capacity = calculateActualCapacity given →
        ∃ copy, c.copyOf = .ok copy ∧ copy.capacity = c.capacity := by
  refine ⟨checkedCapacity_eq given, le_calculateActualCapacity given, calculateActualCapacity_lt hlt,
    calculateActualCapacity_idem given, ?_⟩
  intro c hok hcap
  refine ⟨_, copyOf_eq hok, ?_⟩
  show calculateActualCapacity c.capacity = c.capacity
  rw [hcap, calculateActualCapacity_idem]

theorem calculateActualCapacity_spec_1500 :
    checkedCapacity 1500 = .ok (calculateActualCapacity 1500) ∧ 1500 ≤ calculateActualCapacity 1500 ∧
      calculateActualCapacity 1500 < 2 ^ 32 ∧
      calculateActualCapacity (calculateActualCapacity 1500) = calculateActualCapacity 1500 ∧
      ∀ c : BufferChain, c.Ok → c.capacity = calculateActualCapacity 1500 →
        ∃ copy, c.copyOf = .ok copy ∧ copy.capacity = c.capacity :=
  calculateActualCapacity_spec (by decide)

example : calculateActualCapacity (2 ^ 31 - 2) = 2 ^ 31 ∧
    calculateActualCapacity (2 ^ 31 - 1) = 2 ^ 31 - 1 := by decide +kernel

end BufferChain
end Unp.Reactor
