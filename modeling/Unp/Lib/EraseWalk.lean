import Mathlib.Data.List.Chain
import Mathlib.Data.List.Perm.Subperm

/-!
# Walking through a vector that shrinks

A loop counts an index up through a vector and looks at one element after the other. Some elements
are hit, and of these some are erased on the spot. Erasing moves what follows to the left while the
index goes to the right, so the element behind an erased one is passed over.

`served` are the elements that are hit by the walk, `kept` those that are in the vector afterwards.
The walk misses nothing exactly when no element to be hit stands directly behind one that goes.
-/

namespace Unp.EraseWalk

variable {α : Type} (hit gone : α → Bool)

/-- What the walk hits; `skip` says that the next element is passed over. -/
def served : Bool → List α → List α
  | _, [] => []
  | true, _ :: l => served false l
  | false, a :: l => if hit a = true then a :: served (gone a) l else served false l

/-- What is left of the vector. -/
def kept : Bool → List α → List α
  | _, [] => []
  | true, a :: l => a :: kept false l
  | false, a :: l => if hit a = true ∧ gone a = true then kept true l else a :: kept false l

/-- Nothing to be hit stands directly behind something that goes. -/
def Undisturbed (l : List α) : Prop :=
  l.IsChain fun a b => hit a = true → gone a = true → hit b = false

instance decidableUndisturbed (l : List α) : Decidable (Undisturbed hit gone l) :=
  inferInstanceAs (Decidable (l.IsChain _))

theorem served_sublist (skip : Bool) (l : List α) :
    (served hit gone skip l).Sublist (l.filter hit) := by
  induction l generalizing skip with
  | nil => exact List.nil_sublist _
  | cons a l ih =>
      cases skip with
      | true => exact (ih false).trans (List.Sublist.filter _ (List.sublist_cons_self a l))
      | false =>
          rw [served]
          by_cases ha : hit a = true
          · rw [if_pos ha, List.filter_cons_of_pos ha]
            exact (ih (gone a)).cons_cons a
          · rw [if_neg ha, List.filter_cons_of_neg ha]
            exact ih false

theorem kept_sublist (skip : Bool) (l : List α) : (kept hit gone skip l).Sublist l := by
  induction l generalizing skip with
  | nil => exact List.nil_sublist _
  | cons a l ih =>
      cases skip with
      | true => exact (ih false).cons_cons a
      | false =>
          rw [kept]
          split
          · exact (ih true).cons a
          · exact (ih false).cons_cons a

variable {hit gone}

/-- Only what is hit and erased goes. -/
theorem mem_kept {skip : Bool} {l : List α} {a : α} (hmem : a ∈ l)
    (ha : ¬ (hit a = true ∧ gone a = true)) : a ∈ kept hit gone skip l := by
  induction l generalizing skip with
  | nil => exact absurd hmem List.not_mem_nil
  | cons b l ih =>
      rcases List.mem_cons.mp hmem with rfl | hmem
      · cases skip with
        | true => exact List.mem_cons_self
        | false =>
            rw [kept, if_neg ha]
            exact List.mem_cons_self
      · cases skip with
        | true => exact List.mem_cons_of_mem _ (ih hmem)
        | false =>
            rw [kept]
            split
            · exact ih hmem
            · exact List.mem_cons_of_mem _ (ih hmem)

/-- Where nothing is hit the walk does nothing. -/
theorem walk_idle (gone : α → Bool) {l : List α} (hnone : ∀ a ∈ l, hit a = false) (skip : Bool) :
    served hit gone skip l = [] ∧ kept hit gone skip l = l := by
  induction l generalizing skip with
  | nil => cases skip <;> exact ⟨rfl, rfl⟩
  | cons a l ih =>
      obtain ⟨ha, hl⟩ := List.forall_mem_cons.mp hnone
      obtain ⟨hserved, hkept⟩ := ih hl false
      cases skip with
      | true => exact ⟨hserved, congrArg (a :: ·) hkept⟩
      | false =>
          rw [served, kept, if_neg (by simp [ha]), if_neg (by simp [ha]), hserved, hkept]
          exact ⟨rfl, rfl⟩

theorem undisturbed_cons {a : α} {l : List α} : Undisturbed hit gone (a :: l) ↔
    (∀ b ∈ l.head?, hit a = true → gone a = true → hit b = false) ∧ Undisturbed hit gone l :=
  List.isChain_cons

/-- A walk that starts behind an erased element is as good as one that does not, unless the first
element was to be hit. -/
theorem served_eq_filter_iff (skip : Bool) (l : List α) :
    served hit gone skip l = l.filter hit ↔
      (∀ b ∈ l.head?, skip = true → hit b = false) ∧ Undisturbed hit gone l := by
  induction l generalizing skip with
  | nil => cases skip <;> simp [served, Undisturbed]
  | cons a l ih =>
      have hfree : hit a = false → (Undisturbed hit gone (a :: l) ↔ Undisturbed hit gone l) := by
        intro ha
        simp [undisturbed_cons, ha]
      cases skip with
      | true =>
          rw [served]
          cases ha : hit a with
          | true =>
              -- the first element is missing, and nothing makes up for it
              refine iff_of_false ?_ fun h => ?_
              · intro heq
                have hlen := congrArg List.length heq
                rw [List.filter_cons_of_pos ha, List.length_cons] at hlen
                have hle := (served_sublist hit gone false l).length_le
                omega
              · have := h.1 a rfl rfl
                rw [ha] at this
                cases this
          | false =>
              rw [List.filter_cons_of_neg (by simp [ha]), ih false, hfree ha]
              simp [ha]
      | false =>
          rw [served]
          cases ha : hit a with
          | true =>
              rw [if_pos rfl, List.filter_cons_of_pos ha, List.cons_inj_right, ih (gone a),
                undisturbed_cons]
              simp [ha]
          | false =>
              rw [if_neg (by simp), List.filter_cons_of_neg (by simp [ha]), ih false, hfree ha]
              simp

theorem kept_of_undisturbed (skip : Bool) {l : List α}
    (hskip : ∀ b ∈ l.head?, skip = true → hit b = false) (hl : Undisturbed hit gone l) :
    kept hit gone skip l = l.filter fun a => !(hit a && gone a) := by
  induction l generalizing skip with
  | nil => cases skip <;> rfl
  | cons a l ih =>
      obtain ⟨hnext, hrest⟩ := undisturbed_cons.mp hl
      cases skip with
      | true =>
          have ha : hit a = false := hskip a rfl rfl
          rw [kept, ih false (by simp) hrest, List.filter_cons_of_pos (by simp [ha])]
      | false =>
          rw [kept]
          split
          · next hgo =>
              rw [ih true (fun b hb _ => hnext b hb hgo.1 hgo.2) hrest,
                List.filter_cons_of_neg (by simp [hgo.1, hgo.2])]
          · next hstay =>
              rw [ih false (by simp) hrest, List.filter_cons_of_pos]
              cases ha : hit a <;> cases hg : gone a <;> simp_all

/-- **Nothing is missed** exactly when the walk is undisturbed. -/
theorem served_all_iff {l : List α} (hnodup : l.Nodup) :
    (∀ a ∈ l, hit a = true → a ∈ served hit gone false l) ↔ Undisturbed hit gone l := by
  have heq : (∀ a ∈ l, hit a = true → a ∈ served hit gone false l) ↔
      served hit gone false l = l.filter hit := by
    constructor
    · intro hall
      have hsub : l.filter hit ⊆ served hit gone false l := by
        intro a ha
        obtain ⟨hmem, hhit⟩ := List.mem_filter.mp ha
        exact hall a hmem hhit
      have hle := (List.subperm_of_subset (hnodup.filter _) hsub).length_le
      exact (served_sublist hit gone false l).eq_of_length_le hle
    · intro heq a hmem hhit
      rw [heq]
      exact List.mem_filter.mpr ⟨hmem, hhit⟩
  rw [heq, served_eq_filter_iff]
  simp

end Unp.EraseWalk
