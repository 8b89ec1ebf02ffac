import Mathlib.Order.CompletePartialOrder
import Mathlib.Order.Interval.Set.Disjoint

/-!
# Closed ranges of numbers

A list of ranges is consecutive when no range is empty and each begins right behind the one before.
Consecutive ranges tile the numbers from the first beginning to the last end.
-/

namespace Unp.Ranges

/-- The ranges lie one behind the other, from `first` to right before `stop`. -/
inductive Consecutive : Nat → Nat → List (Nat × Nat) → Prop
  | nil {stop} : Consecutive stop stop []
  | cons {first last stop ranges} : first ≤ last → Consecutive (last + 1) stop ranges →
      Consecutive first stop ((first, last) :: ranges)

/-- The ranges are not empty, do not overlap, and have in them exactly the numbers from `start` to
right before `stop`. -/
structure Tiles (start stop : Nat) (ranges : List (Nat × Nat)) : Prop where
  nonempty : ∀ range ∈ ranges, range.1 ≤ range.2
  disjoint : ranges.Pairwise fun r r' => Disjoint (Set.Icc r.1 r.2) (Set.Icc r'.1 r'.2)
  cover : ∀ i, (∃ range ∈ ranges, i ∈ Set.Icc range.1 range.2) ↔ i ∈ Set.Ico start stop

theorem consecutive_singleton {first last : Nat} (hle : first ≤ last) :
    Consecutive first (last + 1) [(first, last)] :=
  .cons hle .nil

namespace Consecutive
variable {start stop : Nat} {ranges : List (Nat × Nat)}

theorem le (h : Consecutive start stop ranges) : start ≤ stop := by
  induction h with
  | nil => exact Nat.le_refl _
  | cons hle _ ih => exact Nat.le_trans (Nat.le_succ_of_le hle) ih

/-- Every range is one of numbers in between. -/
theorem mem (h : Consecutive start stop ranges) {range : Nat × Nat} (hmem : range ∈ ranges) :
    start ≤ range.1 ∧ range.1 ≤ range.2 ∧ range.2 < stop := by
  induction h with
  | nil => cases hmem
  | cons hle hrest ih =>
      rcases List.mem_cons.mp hmem with rfl | hmem
      · exact ⟨Nat.le_refl _, hle, hrest.le⟩
      · obtain ⟨hstart, hne, hstop⟩ := ih hmem
        exact ⟨Nat.le_trans (Nat.le_succ_of_le hle) hstart, hne, hstop⟩

theorem cover (h : Consecutive start stop ranges) (i : Nat) :
    (∃ range ∈ ranges, i ∈ Set.Icc range.1 range.2) ↔ i ∈ Set.Ico start stop := by
  induction h with
  | nil => simp
  | cons hle hrest ih =>
      have hstop := hrest.le
      simp only [List.mem_cons, exists_eq_or_imp]
      rw [ih, Set.mem_Icc, Set.mem_Ico, Set.mem_Ico]
      omega

theorem pairwise_disjoint (h : Consecutive start stop ranges) :
    ranges.Pairwise fun r r' => Disjoint (Set.Icc r.1 r.2) (Set.Icc r'.1 r'.2) := by
  induction h with
  | nil => exact List.Pairwise.nil
  | cons hle hrest ih =>
      refine List.Pairwise.cons ?_ ih
      intro range hmem
      apply Set.disjoint_left.mpr
      intro i hi hi'
      have hbehind := (hrest.mem hmem).1
      rw [Set.mem_Icc] at hi hi'
      omega

theorem append {middle : Nat} {ranges' : List (Nat × Nat)} (h : Consecutive start middle ranges)
    (h' : Consecutive middle stop ranges') : Consecutive start stop (ranges ++ ranges') := by
  induction h with
  | nil => exact h'
  | cons hle _ ih => exact .cons hle (ih h')

/-- **Consecutive ranges tile** what lies between. -/
theorem tiles (h : Consecutive start stop ranges) : Tiles start stop ranges where
  nonempty _ hmem := (h.mem hmem).2.1
  disjoint := h.pairwise_disjoint
  cover := h.cover

end Consecutive

end Unp.Ranges
