import Mathlib.Data.List.TakeWhile
import Unp.Lib.Machine

/-!
# Numbers as text

`std::to_string`, `std::stoull` and `atoi` for base ten. Reading skips blanks, takes a sign and as many
digits as there are, and does not look at what follows. For `stoull` a text without digits and a number
that does not fit are exceptions; `atoi` reads zero where there are no digits.
-/

namespace Unp.Decimal

open Unp.Machine

def isDigit (b : UInt8) : Bool := 48 ≤ b ∧ b ≤ 57

/-- The blanks of `isspace`. -/
def isBlank (b : UInt8) : Bool := b = 32 ∨ 9 ≤ b ∧ b ≤ 13

/-- `std::to_string`. -/
def toText (n : Nat) : List UInt8 := (Nat.toDigits 10 n).map fun c => UInt8.ofNat c.toNat

/-- The number that digits stand for. -/
def value (digits : List UInt8) : Nat := digits.foldl (fun n d => 10 * n + (d.toNat - 48)) 0

/-- The sign, and what follows it. A number with a minus is subtracted from `2 ^ 64`. -/
def sign : List UInt8 → Bool × List UInt8
  | [] => (false, [])
  | b :: s => if b = 45 then (true, s) else if b = 43 then (false, s) else (false, b :: s)

/-- `std::stoull`. -/
def stoull (s : List UInt8) : Res Nat :=
  let (negative, s) := sign (s.dropWhile isBlank)
  let digits := s.takeWhile isDigit
  if digits = [] then .error .exception
  else if 2 ^ 64 ≤ value digits then .error .exception
  else pure (if negative = true then subU64 0 (value digits) else value digits)

/-- `atoi`. What it does with a number that is no `int` is undefined. -/
def atoi (s : List UInt8) : Res Int :=
  let (negative, s) := sign (s.dropWhile isBlank)
  let n : Int := value (s.takeWhile isDigit)
  let n := if negative = true then -n else n
  if -2 ^ 31 ≤ n ∧ n < 2 ^ 31 then pure n else .error .overflow

theorem toText_eq_if (n : Nat) : toText n =
    if n < 10 then [UInt8.ofNat (48 + n)] else toText (n / 10) ++ [UInt8.ofNat (48 + n % 10)] := by
  rw [toText, Nat.toDigits_eq_if (by decide)]
  split
  · next hlt =>
      rw [List.map_singleton, Nat.toNat_digitChar_of_lt_ten hlt]
  · rw [List.map_append, List.map_singleton,
      Nat.toNat_digitChar_of_lt_ten (Nat.mod_lt n (by decide))]
    rfl

theorem toNat_digit {d : Nat} (hd : d < 10) : (UInt8.ofNat (48 + d)).toNat = 48 + d :=
  UInt8.toNat_ofNat_of_lt' (Nat.lt_of_lt_of_le (Nat.add_lt_add_left hd 48) (by decide))

theorem isDigit_digit {d : Nat} (hd : d < 10) : isDigit (UInt8.ofNat (48 + d)) = true := by
  rw [isDigit, decide_eq_true_iff, UInt8.le_iff_toNat_le, UInt8.le_iff_toNat_le, toNat_digit hd]
  exact ⟨Nat.le_add_right 48 d, by simp; omega⟩

theorem isDigit_of_mem_toText {n : Nat} {b : UInt8} (hb : b ∈ toText n) : isDigit b = true := by
  induction n using Nat.strongRecOn with
  | ind n ih =>
      rw [toText_eq_if] at hb
      split at hb
      · next hlt =>
          rw [List.mem_singleton.mp hb]
          exact isDigit_digit hlt
      · next hge =>
          rcases List.mem_append.mp hb with hb | hb
          · exact ih (n / 10) (by omega) hb
          · rw [List.mem_singleton.mp hb]
            exact isDigit_digit (Nat.mod_lt n (by decide))

theorem toText_ne_nil (n : Nat) : toText n ≠ [] := by
  rw [toText_eq_if]
  split <;> simp

/-- How many digits there can be. -/
theorem length_toText_le {k n : Nat} (hlt : n < 10 ^ (k + 1)) : (toText n).length ≤ k + 1 := by
  induction k generalizing n with
  | zero => rw [toText_eq_if, if_pos (by simpa using hlt), List.length_singleton]
  | succ k ih =>
      rw [toText_eq_if]
      split
      · exact Nat.le_add_left 1 (k + 1)
      · rw [List.length_append, List.length_singleton]
        apply Nat.succ_le_succ
        apply ih
        rw [Nat.pow_succ] at hlt
        omega

theorem value_append_singleton (digits : List UInt8) (d : UInt8) :
    value (digits ++ [d]) = 10 * value digits + (d.toNat - 48) := by
  simp [value]

theorem value_toText (n : Nat) : value (toText n) = n := by
  induction n using Nat.strongRecOn with
  | ind n ih =>
      rw [toText_eq_if]
      split
      · next hlt =>
          show 10 * 0 + ((UInt8.ofNat (48 + n)).toNat - 48) = n
          rw [toNat_digit hlt]
          omega
      · next hge =>
          rw [value_append_singleton, ih (n / 10) (by omega),
            toNat_digit (Nat.mod_lt n (by decide))]
          omega

/-- No number but zero begins with a zero. -/
theorem toText_eq_of_leadingZero {n : Nat} (hzero : (toText n).head? = some 48) : toText n = [48] := by
  induction n using Nat.strongRecOn with
  | ind n ih =>
      rw [toText_eq_if] at hzero ⊢
      split at hzero
      · next hlt =>
          rw [if_pos hlt]
          rw [List.head?_cons, Option.some_inj] at hzero
          rw [hzero]
      · next hge =>
          rw [List.head?_append_of_ne_nil _ (toText_ne_nil (n / 10))] at hzero
          have hvalue := congrArg value (ih (n / 10) (by omega) hzero)
          rw [value_toText] at hvalue
          change n / 10 = 0 at hvalue
          omega

/-- Without its last digits a number is a smaller one. -/
theorem value_take_toText_lt {n k : Nat} (hpos : 0 < n) (hk : k < (toText n).length) :
    value ((toText n).take k) < n := by
  induction n using Nat.strongRecOn with
  | ind n ih =>
      rw [toText_eq_if] at hk ⊢
      split at hk
      · obtain rfl : k = 0 := by simpa using hk
        exact hpos
      · next hge =>
          rw [if_neg hge]
          rw [List.length_append, List.length_singleton] at hk
          rw [List.take_append_of_le_length (Nat.le_of_lt_succ hk)]
          by_cases hwhole : k < (toText (n / 10)).length
          · have := ih (n / 10) (by omega) (by omega) hwhole
            omega
          · rw [List.take_of_length_le (Nat.not_lt.mp hwhole), value_toText]
            omega

/-- It is the same number when no digit is missing, and when it is zero. -/
theorem value_take_toText_eq_iff (n k : Nat) :
    value ((toText n).take k) = n ↔ (toText n).length ≤ k ∨ n = 0 := by
  constructor
  · intro hvalue
    by_contra hcut
    rw [not_or, Nat.not_le] at hcut
    have hless := value_take_toText_lt (Nat.pos_of_ne_zero hcut.2) hcut.1
    omega
  · rintro (hle | rfl)
    · rw [List.take_of_length_le hle, value_toText]
    · have hzero : toText 0 = [48] := rfl
      rw [hzero]
      cases k with
      | zero => rfl
      | succ k => rw [List.take_succ_cons, List.take_nil]; rfl

theorem value_take_toText_le (n k : Nat) : value ((toText n).take k) ≤ n := by
  by_cases hsame : value ((toText n).take k) = n
  · exact Nat.le_of_eq hsame
  · rw [value_take_toText_eq_iff, not_or, Nat.not_le] at hsame
    exact Nat.le_of_lt (value_take_toText_lt (Nat.pos_of_ne_zero hsame.2) hsame.1)

theorem toText_injective : Function.Injective toText := by
  intro n n' heq
  have hvalue := congrArg value heq
  rwa [value_toText, value_toText] at hvalue

theorem ne_of_isDigit {b c : UInt8} (hb : isDigit b = true) (hc : isDigit c = false) : b ≠ c := by
  rintro rfl
  rw [hb] at hc
  cases hc

theorem notMem_toText {c : UInt8} (hc : isDigit c = false) (n : Nat) : c ∉ toText n :=
  fun hmem => ne_of_isDigit (isDigit_of_mem_toText hmem) hc rfl

/-- A digit is no blank and no sign. -/
theorem sign_digits {s : List UInt8} (hne : s ≠ []) (hs : ∀ b ∈ s, isDigit b = true) :
    sign (s.dropWhile isBlank) = (false, s) := by
  match s, hne with
  | b :: s, _ =>
      have hb := hs b List.mem_cons_self
      have hblank : ¬ isBlank b = true := by
        simp only [isDigit, isBlank, decide_eq_true_iff, UInt8.le_iff_toNat_le,
          ← UInt8.toNat_inj] at hb ⊢
        simp at hb ⊢
        omega
      rw [List.dropWhile_cons_of_neg hblank, sign, if_neg (ne_of_isDigit hb rfl),
        if_neg (ne_of_isDigit hb rfl)]

/-- **Reading what was written**, behind any number of blanks. -/
theorem stoull_append_toText (blanks : List UInt8) (n : Nat)
    (hblanks : ∀ b ∈ blanks, isBlank b = true) :
    stoull (blanks ++ toText n) = if 2 ^ 64 ≤ n then .error .exception else .ok n := by
  have hdigits : ∀ b ∈ toText n, isDigit b = true := fun b hb => isDigit_of_mem_toText hb
  have hdrop : (blanks ++ toText n).dropWhile isBlank = (toText n).dropWhile isBlank :=
    List.dropWhile_append_of_pos hblanks
  rw [stoull, hdrop, sign_digits (toText_ne_nil n) hdigits]
  dsimp only
  rw [List.takeWhile_eq_self_iff.mpr hdigits, if_neg (toText_ne_nil n), value_toText]
  rfl

theorem stoull_toText (n : Nat) :
    stoull (toText n) = if 2 ^ 64 ≤ n then .error .exception else .ok n :=
  stoull_append_toText [] n (by simp)

/-- `atoi` reads as many digits as there are. -/
theorem atoi_digits {s : List UInt8} (hs : ∀ b ∈ s, isDigit b = true) (hlt : value s < 2 ^ 31) :
    atoi s = .ok (value s : Int) := by
  have hsign : sign (s.dropWhile isBlank) = (false, s) := by
    by_cases hne : s = []
    · rw [hne]
      rfl
    · exact sign_digits hne hs
  rw [atoi, hsign]
  dsimp only
  rw [List.takeWhile_eq_self_iff.mpr hs, if_neg Bool.false_ne_true]
  exact if_pos ⟨by omega, by omega⟩

end Unp.Decimal
