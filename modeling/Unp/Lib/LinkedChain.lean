import Mathlib.Data.List.Basic
import Mathlib.Data.List.Nodup
import Mathlib.Data.Finset.Basic

/-!
# Nodes with addresses, linked by a pointer field

A container of heap nodes is a list of pairs (address, contents). Two orders live in it: the
order of the list, and the order one gets by following a pointer field `nx` of the contents.
`LinkedTo nx l e` says that they agree and that the last pointer is `e`.

Nothing here depends on what a node holds.
-/

namespace Unp.LinkedChain

variable {κ α : Type}

/-- The addresses of the nodes, in list order. -/
def addrs (l : List (κ × α)) : List κ := l.map Prod.fst

@[simp] theorem addrs_nil : addrs ([] : List (κ × α)) = [] := rfl

@[simp] theorem addrs_cons (p : κ × α) (l : List (κ × α)) : addrs (p :: l) = p.1 :: addrs l := rfl

@[simp] theorem addrs_append (l₁ l₂ : List (κ × α)) :
    addrs (l₁ ++ l₂) = addrs l₁ ++ addrs l₂ := by
  simp [addrs]

/-! ## Access by address -/

section Access
variable [DecidableEq κ]

/-- The node at address `a`, if one is live. -/
def deref (l : List (κ × α)) (a : κ) : Option α := (l.find? (·.1 = a)).map Prod.snd

/-- Rewrites the node at address `a`. -/
def modifyAt (a : κ) (f : α → α) (l : List (κ × α)) : List (κ × α) :=
  l.map fun p => if p.1 = a then (p.1, f p.2) else p

@[simp] theorem deref_cons_self (a : κ) (c : α) (l : List (κ × α)) :
    deref ((a, c) :: l) a = some c := by
  simp [deref]

theorem deref_cons_of_ne {a a' : κ} {c : α} {l : List (κ × α)} (h : a' ≠ a) :
    deref ((a', c) :: l) a = deref l a := by
  simp [deref, h]

/-- Nodes in front that live elsewhere do not hide a node. -/
theorem deref_append {l₁ l₂ : List (κ × α)} {a : κ} (h : a ∉ addrs l₁) :
    deref (l₁ ++ l₂) a = deref l₂ a := by
  induction l₁ with
  | nil => rfl
  | cons p l₁ ih =>
      obtain ⟨a', c⟩ := p
      simp only [addrs_cons, List.mem_cons, not_or] at h
      rw [List.cons_append, deref_cons_of_ne (Ne.symm h.1), ih h.2]

theorem deref_snoc {l : List (κ × α)} {a : κ} {c : α} (h : a ∉ addrs l) :
    deref (l ++ [(a, c)]) a = some c := by
  rw [deref_append h, deref_cons_self]

@[simp] theorem addrs_modifyAt (a : κ) (f : α → α) (l : List (κ × α)) :
    addrs (modifyAt a f l) = addrs l := by
  simp only [addrs, modifyAt, List.map_map]
  apply List.map_congr_left
  intro p _
  simp only [Function.comp]
  split <;> rfl

theorem deref_modifyAt (a : κ) (f : α → α) (l : List (κ × α)) :
    deref (modifyAt a f l) a = (deref l a).map f := by
  induction l with
  | nil => rfl
  | cons p l ih =>
      obtain ⟨a', c⟩ := p
      by_cases ha : a' = a
      · subst ha
        simp [modifyAt, deref]
      · have hcons : modifyAt a f ((a', c) :: l) = (a', c) :: modifyAt a f l := by
          simp [modifyAt, ha]
        rw [hcons, deref_cons_of_ne ha, deref_cons_of_ne ha, ih]

theorem modifyAt_of_not_mem {a : κ} {f : α → α} {l : List (κ × α)} (h : a ∉ addrs l) :
    modifyAt a f l = l := by
  induction l with
  | nil => rfl
  | cons p l ih =>
      simp only [addrs_cons, List.mem_cons, not_or] at h
      have hl : modifyAt a f l = l := ih h.2
      simp only [modifyAt] at hl
      simp [modifyAt, Ne.symm h.1, hl]

theorem modifyAt_append (a : κ) (f : α → α) (l₁ l₂ : List (κ × α)) :
    modifyAt a f (l₁ ++ l₂) = modifyAt a f l₁ ++ modifyAt a f l₂ := by
  simp [modifyAt]

theorem modifyAt_snoc {a : κ} {f : α → α} {l : List (κ × α)} {c : α} (h : a ∉ addrs l) :
    modifyAt a f (l ++ [(a, c)]) = l ++ [(a, f c)] := by
  rw [modifyAt_append, modifyAt_of_not_mem h]
  simp [modifyAt]

theorem modifyAt_cons {a : κ} {f : α → α} {l : List (κ × α)} {c : α} (h : a ∉ addrs l) :
    modifyAt a f ((a, c) :: l) = (a, f c) :: l := by
  have hl := modifyAt_of_not_mem (f := f) h
  simp only [modifyAt] at hl
  simp [modifyAt, hl]

end Access

/-! ## The pointer order -/

/-- The address of the first node, or `e` when there is none. -/
def headAddr : List (κ × α) → Option κ → Option κ
  | [], e => e
  | p :: _, _ => some p.1

/-- The address of the last node. -/
def lastAddr (l : List (κ × α)) : Option κ := (addrs l).getLast?

@[simp] theorem headAddr_nil (e : Option κ) : headAddr ([] : List (κ × α)) e = e := rfl

@[simp] theorem headAddr_cons (p : κ × α) (l : List (κ × α)) (e : Option κ) :
    headAddr (p :: l) e = some p.1 := rfl

@[simp] theorem lastAddr_nil : lastAddr ([] : List (κ × α)) = none := rfl

@[simp] theorem lastAddr_snoc (l : List (κ × α)) (p : κ × α) :
    lastAddr (l ++ [p]) = some p.1 := by
  simp [lastAddr]

theorem lastAddr_cons_cons (p q : κ × α) (l : List (κ × α)) :
    lastAddr (p :: q :: l) = lastAddr (q :: l) := by
  simp [lastAddr]

theorem lastAddr_eq_none {l : List (κ × α)} : lastAddr l = none ↔ l = [] := by
  simp [lastAddr, addrs]

/-- The head of a list only matters to `lastAddr` when nothing follows it. -/
theorem lastAddr_cons_of_ne_nil {p : κ × α} {l : List (κ × α)} (h : l ≠ []) :
    lastAddr (p :: l) = lastAddr l := by
  cases l with
  | nil => exact absurd rfl h
  | cons q l => exact lastAddr_cons_cons p q l

/-- Nodes in front do not matter to `lastAddr` when something follows them. -/
theorem lastAddr_append_of_ne_nil {l₁ l₂ : List (κ × α)} (h : l₂ ≠ []) :
    lastAddr (l₁ ++ l₂) = lastAddr l₂ := by
  induction l₁ with
  | nil => rfl
  | cons p l₁ ih =>
      have hne : l₁ ++ l₂ ≠ [] := by simp [h]
      rw [List.cons_append, lastAddr_cons_of_ne_nil hne, ih]

/-- Following `nx` visits the nodes in list order and then arrives at `e`. -/
def LinkedTo (nx : α → Option κ) : List (κ × α) → Option κ → Prop
  | [], _ => True
  | p :: l, e => nx p.2 = headAddr l e ∧ LinkedTo nx l e

section Linked
variable {nx : α → Option κ}

@[simp] theorem linkedTo_nil (e : Option κ) : LinkedTo nx [] e := trivial

@[simp] theorem linkedTo_cons (p : κ × α) (l : List (κ × α)) (e : Option κ) :
    LinkedTo nx (p :: l) e ↔ nx p.2 = headAddr l e ∧ LinkedTo nx l e := Iff.rfl

theorem headAddr_append (l₁ l₂ : List (κ × α)) (e : Option κ) :
    headAddr (l₁ ++ l₂) e = headAddr l₁ (headAddr l₂ e) := by
  cases l₁ <;> rfl

/-- Linking is local: a list is linked exactly when its halves are, the first one up to the
head of the second. -/
theorem linkedTo_append (l₁ l₂ : List (κ × α)) (e : Option κ) :
    LinkedTo nx (l₁ ++ l₂) e ↔ LinkedTo nx l₁ (headAddr l₂ e) ∧ LinkedTo nx l₂ e := by
  induction l₁ with
  | nil => simp
  | cons p l₁ ih =>
      rw [List.cons_append, linkedTo_cons, linkedTo_cons, ih, headAddr_append, and_assoc]

theorem linkedTo_snoc (l : List (κ × α)) (p : κ × α) (e : Option κ) :
    LinkedTo nx (l ++ [p]) e ↔ LinkedTo nx l (some p.1) ∧ nx p.2 = e := by
  simp [linkedTo_append]

end Linked

/-! ## Fresh addresses -/

/-- What a memory allocator promises: an address that no live node has. Which one it is, and
whether it was used before, is left open. -/
structure Allocator (κ : Type) where
  alloc : List κ → κ
  alloc_fresh : ∀ live, alloc live ∉ live

/-- The allocator that takes one more than the largest live address. -/
def Allocator.succMax : Allocator Nat where
  alloc live := live.foldr max 0 + 1
  alloc_fresh live := by
    have hle : ∀ a ∈ live, a ≤ live.foldr max 0 := by
      induction live with
      | nil => simp
      | cons b live ih =>
          intro a ha
          rcases List.mem_cons.mp ha with rfl | ha
          · exact Nat.le_max_left _ _
          · exact Nat.le_trans (ih a ha) (Nat.le_max_right _ _)
    intro hmem
    have := hle _ hmem
    omega

end Unp.LinkedChain
