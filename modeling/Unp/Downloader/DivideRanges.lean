import Unp.Lib.Decimal
import Unp.Lib.Ranges
import Unp.Util.StringPiece

/-!
# `examples::Downloader::divideRanges`

A file is to be fetched over `n` connections, each with a `Range` header of its own. All but the last
one ask for `fileSize / n + 1` bytes, since both ends of a range are in it; the last one asks for the
rest, up to `fileSize`.
-/

namespace Unp.Downloader

open Unp.Machine Unp.Decimal Unp.Ranges
open Unp.Util (Byte ascii)

/-- The value of the header. -/
def rangeText (range : Nat × Nat) : List Byte :=
  ascii "bytes=" ++ (toText range.1 ++ 45 :: toText range.2)

/-- The loop, for `count` more ranges; `stop` is where the last one ended. -/
def divideLoop (fileSize n : Nat) : Nat → Nat → List (Nat × Nat) × Nat
  | 0, stop => ([], stop)
  | count + 1, stop =>
      let start := u64 (stop + 1)
      let stop := u64 (start + fileSize / n)
      let (ranges, last) := divideLoop fileSize n count stop
      ((start, stop) :: ranges, last)

/-- `divideRanges`. Without a connection the range behind the loop is written to an empty vector. -/
def divideRanges (fileSize n : Nat) : Res (List (List Byte)) :=
  if fileSize ≤ 0 then pure []
  else
    let (ranges, stop) := divideLoop fileSize n (n - 1) (subU64 0 1)
    if n = 0 then .error .outOfBounds
    else pure ((ranges ++ [(u64 (stop + 1), fileSize)]).map rangeText)

/-- Ranges of the same length, one behind the other. -/
def equalRanges (share : Nat) : Nat → Nat → List (Nat × Nat)
  | 0, _ => []
  | count + 1, start => (start, start + share) :: equalRanges share count (start + share + 1)

theorem rangeText_injective : Function.Injective rangeText := by
  rintro ⟨a, b⟩ ⟨a', b'⟩ heq
  have hdash := notMem_toText (c := 45) rfl
  obtain ⟨hstart, -, hstop⟩ :=
    (List.append_cons_inj_of_notMem (hdash a) (hdash b)).mp (List.append_cancel_left heq)
  rw [toText_injective hstart, toText_injective hstop]

theorem length_equalRanges (share count start : Nat) :
    (equalRanges share count start).length = count := by
  induction count generalizing start with
  | zero => rfl
  | succ count ih => rw [equalRanges, List.length_cons, ih]

theorem consecutive_equalRanges (share count start : Nat) :
    Consecutive start (start + count * (share + 1)) (equalRanges share count start) := by
  induction count generalizing start with
  | zero =>
      rw [Nat.zero_mul, Nat.add_zero]
      exact .nil
  | succ count ih =>
      have hstop : start + share + 1 + count * (share + 1) = start + (count + 1) * (share + 1) := by
        rw [Nat.succ_mul]
        omega
      apply Consecutive.cons
      · exact Nat.le_add_right _ _
      · rw [← hstop]
        exact ih (start + share + 1)

/-- The loop, as long as nothing wraps around. -/
theorem divideLoop_eq {fileSize n start : Nat} (count : Nat) {stop : Nat}
    (hstart : u64 (stop + 1) = start) (hlt : start + count * (fileSize / n + 1) < 2 ^ 64) :
    ∃ last, divideLoop fileSize n count stop = (equalRanges (fileSize / n) count start, last) ∧
      u64 (last + 1) = start + count * (fileSize / n + 1) := by
  induction count generalizing start stop with
  | zero => exact ⟨stop, rfl, by rw [hstart, Nat.zero_mul, Nat.add_zero]⟩
  | succ count ih =>
      rw [Nat.succ_mul] at hlt
      have hnext : u64 (start + fileSize / n + 1) = start + fileSize / n + 1 := u64_of_lt (by omega)
      obtain ⟨last, hloop, hlast⟩ := ih hnext (by omega)
      refine ⟨last, ?_, ?_⟩
      · rw [divideLoop, hstart, u64_of_lt (by omega)]
        dsimp only
        rw [hloop, equalRanges]
      · rw [hlast, Nat.succ_mul]
        omega

/-- The equal ranges end below `2 ^ 64`. -/
theorem equalRanges_lt {fileSize n : Nat} (hlt : fileSize < 2 ^ 64) (hn : n ≤ 255) :
    (n - 1) * (fileSize / n + 1) < 2 ^ 64 := by
  by_cases hshare : fileSize / n ≤ 255
  · calc
      (n - 1) * (fileSize / n + 1) ≤ 255 * 256 := Nat.mul_le_mul (by omega) (by omega)
      _ < 2 ^ 64 := by decide
  · -- every range has a byte to spare for each of the ranges
    have hmul : n * (fileSize / n) ≤ fileSize := Nat.mul_div_le _ _
    cases n with
    | zero => simp
    | succ n =>
        rw [Nat.succ_mul] at hmul
        rw [Nat.add_sub_cancel, Nat.mul_succ]
        omega

theorem divideRanges_eq {fileSize n : Nat} (hsize : 0 < fileSize) (hlt : fileSize < 2 ^ 64)
    (hpos : 1 ≤ n) (hn : n ≤ 255) :
    divideRanges fileSize n = .ok ((equalRanges (fileSize / n) (n - 1) 0 ++
      [((n - 1) * (fileSize / n + 1), fileSize)]).map rangeText) := by
  have hfirst : u64 (subU64 0 1 + 1) = 0 := by decide
  have hbound := equalRanges_lt hlt hn
  obtain ⟨last, hloop, hlast⟩ := divideLoop_eq (n - 1) hfirst (by rwa [Nat.zero_add])
  rw [Nat.zero_add] at hlast
  rw [divideRanges, if_neg (Nat.not_le.mpr hsize), hloop]
  dsimp only
  rw [if_neg (Nat.pos_iff_ne_zero.mp hpos), hlast]
  rfl

/-- **The ranges partition the file** as long as the equal ones leave something for the last one. -/
theorem divideRanges_partitions_iff {fileSize n : Nat} (hsize : 0 < fileSize)
    (hlt : fileSize < 2 ^ 64) (hpos : 1 ≤ n) (hn : n ≤ 255) :
    (∃ ranges, divideRanges fileSize n = .ok (ranges.map rangeText) ∧ ranges.length = n ∧
        Consecutive 0 (fileSize + 1) ranges) ↔
      (n - 1) * (fileSize / n + 1) ≤ fileSize := by
  rw [divideRanges_eq hsize hlt hpos hn]
  constructor
  · rintro ⟨ranges, heq, -, hconsecutive⟩
    cases rangeText_injective.list_map (Except.ok.inj heq)
    exact (hconsecutive.mem (List.mem_append_right _ List.mem_cons_self)).2.1
  · intro hle
    refine ⟨_, rfl, ?_, ?_⟩
    · rw [List.length_append, length_equalRanges, List.length_singleton]
      omega
    · have hequal := consecutive_equalRanges (fileSize / n) (n - 1) 0
      rw [Nat.zero_add] at hequal
      exact hequal.append (consecutive_singleton hle)

theorem divideRanges_ninetyNine : ∃ ranges,
    divideRanges 99 3 = .ok (ranges.map rangeText) ∧ ranges.length = 3 ∧
      Consecutive 0 100 ranges :=
  (divideRanges_partitions_iff (by decide) (by decide) (by decide) (by decide)).mpr (by decide)

/-- Three bytes over three connections: two ranges of two bytes each, and one from 4 to 3. -/
theorem divideRanges_three :
    divideRanges 3 3 = .ok [ascii "bytes=0-1", ascii "bytes=2-3", ascii "bytes=4-3"] ∧
      ¬ ∃ ranges, divideRanges 3 3 = .ok (ranges.map rangeText) ∧ ranges.length = 3 ∧
        Consecutive 0 4 ranges := by
  have hrun : divideRanges 3 3 = .ok ([(0, 1), (2, 3), (4, 3)].map rangeText) := by decide +kernel
  refine ⟨by decide +kernel, ?_⟩
  rw [hrun]
  rintro ⟨ranges, heq, -, hconsecutive⟩
  cases rangeText_injective.list_map (Except.ok.inj heq)
  exact absurd (@Consecutive.mem _ _ _ hconsecutive (4, 3) (by simp)).2.1 (by decide)

end Unp.Downloader
