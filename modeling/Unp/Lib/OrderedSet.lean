import Mathlib.Data.List.Sort

/-!
# Ordered sets

`std::set`: a set whose elements are visited in ascending order. It is a strictly ascending list, and
the order is part of the structure, so there is one value for every set of elements.
-/

namespace Unp

structure OrderedSet (α : Type) [LinearOrder α] where
  toList : List α
  ascending : toList.SortedLT
  deriving DecidableEq

namespace OrderedSet
variable {α : Type} [LinearOrder α]

instance : Membership α (OrderedSet α) := ⟨fun s a => a ∈ s.toList⟩

instance (a : α) (s : OrderedSet α) : Decidable (a ∈ s) :=
  inferInstanceAs (Decidable (a ∈ s.toList))

theorem nodup (s : OrderedSet α) : s.toList.Nodup := s.ascending.nodup

def empty : OrderedSet α := ⟨[], by simp [List.sortedLT_iff_pairwise]⟩

@[simp] theorem notMem_empty (a : α) : a ∉ (empty : OrderedSet α) := List.not_mem_nil

theorem insertedAscending {a : α} {s : OrderedSet α} (h : a ∉ s) :
    (s.toList.orderedInsert (· ≤ ·) a).SortedLT := by
  rw [List.sortedLT_iff_nodup_and_sortedLE]
  constructor
  · rw [(List.perm_orderedInsert _ a s.toList).nodup_iff, List.nodup_cons]
    exact ⟨h, s.nodup⟩
  · exact (s.ascending.sortedLE.pairwise.orderedInsert a _).sortedLE

def insert (a : α) (s : OrderedSet α) : OrderedSet α :=
  if h : a ∈ s then s else ⟨s.toList.orderedInsert (· ≤ ·) a, insertedAscending h⟩

def erase (a : α) (s : OrderedSet α) : OrderedSet α where
  toList := s.toList.erase a
  ascending := (s.ascending.pairwise.sublist List.erase_sublist).sortedLT

@[simp] theorem mem_insert {a b : α} {s : OrderedSet α} : b ∈ s.insert a ↔ b = a ∨ b ∈ s := by
  unfold insert
  split
  · next h =>
      constructor
      · exact Or.inr
      · rintro (rfl | hb)
        · exact h
        · exact hb
  · exact List.mem_orderedInsert _

@[simp] theorem mem_erase {a b : α} {s : OrderedSet α} : b ∈ s.erase a ↔ b ≠ a ∧ b ∈ s :=
  s.nodup.mem_erase_iff

end OrderedSet
end Unp
