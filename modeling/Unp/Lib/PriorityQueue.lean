import Mathlib.Data.List.Sort
import Mathlib.Data.Multiset.AddSub
import Unp.Lib.Machine

/-!
# Priority queues

What is documented of a priority queue is which elements it holds and that the first one has the
least key. Which of several elements with the least key comes first is left open, and so is what the
queue looks like inside. `PriorityQueue` is any implementation that keeps to this, with the multiset
of its elements; a queue that is kept sorted is one.

Nothing but the first element can be taken out. To get at another one, the elements in front of it
are popped into a list and pushed again: `popUntil` and `pushAll`.
-/

namespace Unp.Queues

open Unp.Machine

variable {α κ : Type} [LinearOrder κ]

structure PriorityQueue (key : α → κ) where
  Queue : Type
  empty : Queue
  size : Queue → Nat
  top : Queue → Option α
  push : α → Queue → Queue
  pop : Queue → Queue
  items : Queue → Multiset α
  items_empty : items empty = 0
  size_eq : ∀ q, size q = (items q).card
  top_eq_none : ∀ q, top q = none ↔ items q = 0
  top_mem : ∀ q a, top q = some a → a ∈ items q
  top_le : ∀ q a, top q = some a → ∀ b ∈ items q, key a ≤ key b
  items_push : ∀ a q, items (push a q) = a ::ₘ items q
  items_pop : ∀ q a, top q = some a → a ::ₘ items (pop q) = items q

namespace PriorityQueue

variable {key : α → κ} (Q : PriorityQueue key)

/-- Pops the elements in front of the first one at which to stop, and lists them. -/
def popUntil (stop : α → Bool) : Nat → List α → Q.Queue → Res (List α × Q.Queue)
  | 0, _, _ => .error .outOfFuel
  | fuel + 1, popped, q =>
      match Q.top q with
      | none => .ok (popped, q)
      | some a =>
          if stop a then .ok (popped, q)
          else popUntil stop fuel (popped ++ [a]) (Q.pop q)

/-- Pushes the elements of a list, the last one first. -/
def pushAll (l : List α) (q : Q.Queue) : Q.Queue := l.foldr Q.push q

theorem nil_add_items (q : Q.Queue) : (([] : List α) : Multiset α) + Q.items q = Q.items q := by
  rw [Multiset.coe_nil, Multiset.zero_add]

theorem items_pushAll (l : List α) (q : Q.Queue) : Q.items (Q.pushAll l q) = ↑l + Q.items q := by
  induction l with
  | nil => exact (Q.nil_add_items q).symm
  | cons a l ih =>
      show Q.items (Q.push a (Q.pushAll l q)) = _
      rw [Q.items_push, ih, ← Multiset.cons_coe, Multiset.cons_add]

/-- The queue has no other elements than those that were popped and those that are left, and it is
empty or stands at an element to stop at. -/
theorem popUntil_spec (stop : α → Bool) {fuel : Nat} (popped : List α) {q : Q.Queue}
    (hfuel : Q.size q < fuel) :
    ∃ more q', Q.popUntil stop fuel popped q = .ok (popped ++ more, q') ∧
      ↑more + Q.items q' = Q.items q ∧ (∀ a ∈ more, stop a = false) ∧
        ∀ a, Q.top q' = some a → stop a = true := by
  induction fuel generalizing popped q with
  | zero => omega
  | succ fuel ih =>
      rw [popUntil]
      cases htop : Q.top q with
      | none =>
          refine ⟨[], q, by rw [List.append_nil], Q.nil_add_items q, by simp, ?_⟩
          intro a ha
          rw [htop] at ha
          cases ha
      | some a =>
          by_cases hstop : stop a = true
          · refine ⟨[], q, ?_, Q.nil_add_items q, by simp, ?_⟩
            · rw [List.append_nil]
              exact if_pos hstop
            · intro b hb
              rw [htop] at hb
              cases hb
              exact hstop
          · have hitems := Q.items_pop q a htop
            have hsize : Q.size (Q.pop q) < fuel := by
              rw [Q.size_eq] at hfuel ⊢
              rw [← hitems, Multiset.card_cons] at hfuel
              omega
            obtain ⟨more, q', hok, hleft, hmore, hlast⟩ := ih (popped ++ [a]) hsize
            refine ⟨a :: more, q', ?_, ?_, ?_, hlast⟩
            · rw [List.append_assoc] at hok
              exact (if_neg hstop).trans hok
            · rw [← Multiset.cons_coe, Multiset.cons_add, hleft, hitems]
            · intro b hb
              rcases List.mem_cons.mp hb with rfl | hb
              · exact Bool.eq_false_iff.mpr hstop
              · exact hmore b hb

/-! ## A queue that is kept sorted -/

section Sorted
variable (key)

theorem total_key : Std.Total fun a b : α => key a ≤ key b := ⟨fun a b => le_total (key a) (key b)⟩

theorem trans_key : IsTrans α fun a b => key a ≤ key b := ⟨fun _ _ _ => le_trans⟩

/-- The elements in the order of their keys; of two elements with one key the later one is first. -/
def sorted : PriorityQueue key where
  Queue := { l : List α // l.Pairwise fun a b => key a ≤ key b }
  empty := ⟨[], List.Pairwise.nil⟩
  size q := q.1.length
  top q := q.1.head?
  push a q := ⟨q.1.orderedInsert (fun a b => key a ≤ key b) a,
    have := total_key key
    have := trans_key key
    List.Pairwise.orderedInsert a q.1 q.2⟩
  pop q := ⟨q.1.tail, q.2.tail⟩
  items q := q.1
  items_empty := rfl
  size_eq _ := rfl
  top_eq_none q := by rw [List.head?_eq_none_iff, Multiset.coe_eq_zero]
  top_mem q a h := List.mem_of_mem_head? h
  top_le q a h b hb := by
    obtain ⟨l, hl⟩ := q
    cases l with
    | nil => cases h
    | cons c l =>
        cases h
        rcases List.mem_cons.mp hb with rfl | hb
        · exact le_refl _
        · exact List.rel_of_pairwise_cons hl hb
  items_push a q := Multiset.coe_eq_coe.mpr (List.perm_orderedInsert _ a q.1)
  items_pop q a h := by
    obtain ⟨l, hl⟩ := q
    cases l with
    | nil => cases h
    | cons c l =>
        cases h
        rfl

end Sorted

end PriorityQueue

end Unp.Queues
