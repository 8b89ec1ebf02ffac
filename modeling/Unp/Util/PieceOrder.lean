import Mathlib.Data.List.Lex
import Mathlib.Data.Prod.Lex
import Mathlib.Order.RelClasses
import Unp.Util.StringPiece

/-!
# The order of the string pieces

`operator<` looks at the bytes up to the first zero byte that both ranges have at one place, and then
at the lengths. So a range is ordered by a key: its bytes up to the first zero byte, with that byte,
and its length. What lies behind a zero byte does not count, but for its length.
-/

namespace Unp.Util

/-- The bytes of a range up to its first zero byte, which is the last of them. -/
def upToZero : List Byte → List ℕ
  | [] => []
  | c :: s => c.toNat :: if c = 0 then [] else upToZero s

/-- What `operator<` orders a range by. -/
def orderKey (s : List Byte) : List ℕ ×ₗ ℕ := toLex (upToZero s, s.length)

theorem upToZero_cons {c : Byte} (hc : c ≠ 0) (s : List Byte) :
    upToZero (c :: s) = c.toNat :: upToZero s := by
  rw [upToZero, if_neg hc]

/-! ## What `strncmp` says about the keys -/

section Strncmp
variable {s t : List Byte}

theorem upToZero_lt (h : strncmp (min s.length t.length) s t < 0) : upToZero s < upToZero t := by
  induction s generalizing t with
  | nil => simp [strncmp] at h
  | cons c s ih =>
      cases t with
      | nil => simp [strncmp] at h
      | cons d t =>
          rw [List.length_cons, List.length_cons, Nat.add_min_add_right, strncmp] at h
          by_cases hcd : c = d
          · subst hcd
            rw [if_pos rfl] at h
            by_cases hc : c = 0
            · simp [hc] at h
            · rw [if_neg hc] at h
              rw [upToZero_cons hc, upToZero_cons hc, List.cons_lt_cons_iff]
              exact Or.inr ⟨rfl, ih h⟩
          · -- the first place where the ranges differ
            rw [if_neg hcd] at h
            rw [upToZero, upToZero, List.cons_lt_cons_iff]
            left
            omega

/-- A tie: the longer range goes on where the shorter one ends, or there was a zero byte before. -/
theorem upToZero_le (h : strncmp (min s.length t.length) s t = 0) (hlen : s.length ≤ t.length) :
    upToZero s ≤ upToZero t ∧ (s.length = t.length → upToZero s = upToZero t) := by
  induction s generalizing t with
  | nil =>
      constructor
      · cases t with
        | nil => exact le_refl _
        | cons d t => exact le_of_lt List.Lex.nil
      · intro heq
        rw [List.length_eq_zero_iff.mp heq.symm]
  | cons c s ih =>
      cases t with
      | nil => simp at hlen
      | cons d t =>
          rw [List.length_cons, List.length_cons, Nat.add_min_add_right, strncmp] at h
          by_cases hcd : c = d
          · subst hcd
            rw [if_pos rfl] at h
            by_cases hc : c = 0
            · subst hc
              exact ⟨le_refl _, fun _ => rfl⟩
            · rw [if_neg hc] at h
              obtain ⟨hle, heq⟩ := ih h (Nat.le_of_succ_le_succ hlen)
              rw [upToZero_cons hc, upToZero_cons hc]
              constructor
              · exact List.cons_le_cons _ hle
              · intro hlen
                rw [heq (Nat.succ.inj hlen)]
          · rw [if_neg hcd] at h
            exact absurd (UInt8.toNat_inj.mp (by omega)) hcd

end Strncmp

/-! ## The order is the one of the keys -/

theorem orderKey_eq {s t : List Byte} (h : rangeEqual s t = true) : orderKey s = orderKey t := by
  rw [rangeEqual, decide_eq_true_iff] at h
  obtain ⟨hlen, hret⟩ := h
  have hmin : min s.length t.length = s.length := min_eq_left hlen.le
  have heq := (upToZero_le (hmin.symm ▸ hret) hlen.le).2 hlen
  rw [orderKey, orderKey, heq, hlen]

theorem orderKey_lt {s t : List Byte} (h : rangeLess s t = true) : orderKey s < orderKey t := by
  rw [rangeLess, decide_eq_true_iff, rangeCompare] at h
  split at h
  · exact absurd h (lt_irrefl 0)
  · next hne =>
    rw [orderKey, orderKey, Prod.Lex.toLex_lt_toLex]
    dsimp only at h ⊢
    by_cases hret : strncmp (min s.length t.length) s t = 0
    · -- the shorter range is the lesser one
      rw [if_neg (not_not.mpr hret)] at h
      have hmin : min s.length t.length = s.length := by
        by_contra hmin
        rw [if_neg hmin] at h
        omega
      have hlen : s.length ≤ t.length := min_eq_left_iff.mp hmin
      have hlt : s.length ≠ t.length := by
        intro heq
        apply hne
        rw [rangeEqual, decide_eq_true_iff]
        exact ⟨heq, hmin ▸ hret⟩
      rcases lt_or_eq_of_le (upToZero_le hret hlen).1 with hkey | hkey
      · exact Or.inl hkey
      · exact Or.inr ⟨hkey, lt_of_le_of_ne hlen hlt⟩
    · rw [if_pos hret] at h
      exact Or.inl (upToZero_lt h)

theorem rangeLess_iff (s t : List Byte) : rangeLess s t = true ↔ orderKey s < orderKey t := by
  constructor
  · exact orderKey_lt
  · intro hkey
    by_contra hless
    rw [Bool.not_eq_true] at hless
    by_cases hmore : rangeLess t s = true
    · exact lt_asymm hkey (orderKey_lt hmore)
    · have hequal := (not_rangeLess_iff s t).mp ⟨hless, by simpa using hmore⟩
      exact hkey.ne (orderKey_eq hequal)

/-- **What `std::map` asks for.** Of two ranges neither of which is less, `operator==` says that they
are equal. -/
theorem rangeLess_strictWeakOrder :
    IsStrictWeakOrder (List Byte) (fun s t => rangeLess s t = true) ∧
      ∀ s t, ¬ rangeLess s t = true ∧ ¬ rangeLess t s = true ↔ rangeEqual s t = true := by
  constructor
  · have hless : (fun s t => rangeLess s t = true) = Order.Preimage orderKey (· < ·) := by
      funext s t
      exact propext (rangeLess_iff s t)
    -- the keys are totally ordered, and the order of an image is a weak one
    have hkeys : IsStrictWeakOrder (List ℕ ×ₗ ℕ) (· < ·) := isStrictWeakOrder_of_isOrderConnected
    rw [hless]
    exact Order.Preimage.instIsStrictWeakOrder
  · intro s t
    rw [Bool.not_eq_true, Bool.not_eq_true]
    exact not_rangeLess_iff s t

example : rangeLess [97, 0, 99] [97, 0, 98, 98] = true ∧ rangeLess [97, 0, 98, 98] [97, 98] = true ∧
    rangeEqual [97, 0, 98] [97, 0, 99] = true := by decide

end Unp.Util
