import Mathlib.Algebra.BigOperators.Group.Finset.Basic
import Mathlib.Algebra.Order.BigOperators.Group.Multiset
import Mathlib.Data.Fintype.BigOperators

/-!
# Tables of lists

A hash table without keys: finitely many places, each holding a list. What the table holds as a
whole is a multiset, and the two operations on it (append to one list, empty one list) add to it
or take from it.
-/

namespace Unp.Slots

variable {ι α : Type} [Fintype ι]

/-- Everything the table holds. Irreducible: membership in it is never to be decided by computing
the sum. -/
@[irreducible] def contents (f : ι → List α) : Multiset α := ∑ i, (f i : Multiset α)

theorem mem_contents {f : ι → List α} {a : α} : a ∈ contents f ↔ ∃ i, a ∈ f i := by
  simp [contents, Multiset.mem_sum]

/-- Dropping elements from every list. -/
theorem contents_filter (f : ι → List α) (p : α → Bool) :
    contents (fun i => (f i).filter p) = (contents f).filter (p ·) := by
  classical
  unfold contents
  induction (Finset.univ : Finset ι) using Finset.induction_on with
  | empty => rfl
  | insert i s hi ih =>
      rw [Finset.sum_insert hi, Finset.sum_insert hi, Multiset.filter_add, ih, Multiset.filter_coe]
      simp

variable [DecidableEq ι]

/-- Replacing one list. -/
theorem contents_update (f : ι → List α) (i : ι) (l : List α) :
    contents (Function.update f i l) + (f i : Multiset α) = contents f + (l : Multiset α) := by
  have hsplit : ∀ g : ι → List α,
      contents g = (g i : Multiset α) + ∑ j ∈ Finset.univ.erase i, (g j : Multiset α) := by
    intro g
    rw [contents, Finset.add_sum_erase _ (fun j => (g j : Multiset α)) (Finset.mem_univ i)]
  have hrest : ∑ j ∈ Finset.univ.erase i, (Function.update f i l j : Multiset α) =
      ∑ j ∈ Finset.univ.erase i, (f j : Multiset α) := by
    apply Finset.sum_congr rfl
    intro j hj
    rw [Function.update_of_ne (Finset.ne_of_mem_erase hj)]
  rw [hsplit f, hsplit (Function.update f i l), hrest, Function.update_self, add_right_comm,
    add_comm (l : Multiset α), add_right_comm]

/-- Appending to one list. -/
theorem contents_push (f : ι → List α) (i : ι) (a : α) :
    contents (Function.update f i (f i ++ [a])) = a ::ₘ contents f := by
  have h := contents_update f i (f i ++ [a])
  rw [← Multiset.coe_add, ← add_assoc, add_right_comm] at h
  have hcancel := add_right_cancel h
  rw [hcancel, Multiset.coe_singleton, add_comm, Multiset.singleton_add]

/-- Emptying one list. -/
theorem contents_clear (f : ι → List α) (i : ι) :
    contents f = (f i : Multiset α) + contents (Function.update f i []) := by
  have h := contents_update f i []
  rw [Multiset.coe_nil, add_zero] at h
  rw [← h, add_comm]

/-- What the table holds once is in one place. -/
theorem place_unique {f : ι → List α} (h : (contents f).Nodup) {a : α} {i j : ι} (hi : a ∈ f i)
    (hj : a ∈ f j) : i = j := by
  by_contra hne
  rw [contents_clear f i] at h
  have hother : a ∈ contents (Function.update f i []) := by
    refine mem_contents.mpr ⟨j, ?_⟩
    rw [Function.update_of_ne (Ne.symm hne)]
    exact hj
  exact Multiset.disjoint_left.mp (Multiset.nodup_add.mp h).2.2 (Multiset.mem_coe.mpr hi) hother

end Unp.Slots
