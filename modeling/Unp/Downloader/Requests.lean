import Mathlib.Algebra.BigOperators.Fin
import Unp.Downloader.Download

/-!
# The requests of a download

When every `connect` succeeds, `downloadRemain` asks for ranges that lie one behind the other, from
the first byte that is missing to the last one of the file. The loop takes a fourth of what is left
four times, which is nothing once there are less than four bytes left; `connect` is called
nevertheless, with an end before the beginning.
-/

namespace Unp.Downloader

open Unp.Machine
open Unp.Util (Byte)

/-- The ranges of the loop with `n` more rounds to go, and of what it leaves over. -/
def shares : Nat → Nat → Nat → List (Nat × Nat)
  | 0, start, remain => if 0 < remain then [(start, start + remain - 1)] else []
  | n + 1, start, remain =>
      (start, start + remain / Download.connectNum - 1) ::
        shares n (start + remain / Download.connectNum) (remain - remain / Download.connectNum)

/-- The ranges that `downloadRemain` asks for. -/
def remainRequests (remain start : Nat) : List (Nat × Nat) :=
  if remain = 0 then []
  else if remain < Download.connectNum then [(start, start + remain - 1)]
  else shares Download.connectNum start remain

/-- All ranges of a download whose first answer was as asked for. -/
def requests (fileSize : Nat) : List (Nat × Nat) :=
  (0, 1000) :: remainRequests (fileSize - 1001) 1001

/-- New connections, one for each range. -/
def Download.openAll (ranges : List (Nat × Nat)) (d : Download) : Download :=
  { d with connections := d.connections ++ ranges.map fun range => .opened d.url range.1 range.2 }

namespace Download
variable {connects : Nat → Bool} {d : Download}

theorem openAll_nil (d : Download) : d.openAll [] = d := by simp [openAll]

theorem openAll_openAll (ranges ranges' : List (Nat × Nat)) (d : Download) :
    (d.openAll ranges).openAll ranges' = d.openAll (ranges ++ ranges') := by
  simp [openAll]

theorem connect_true (begin_ end_ : Nat) (d : Download) :
    d.connect begin_ end_ true = (some d.connections.length, d.openAll [(begin_, end_)]) := rfl

/-- The end of a range, as the source computes it. -/
theorem end_eq {start share : Nat} (hpos : 0 < start + share) (hlt : start + share < 2 ^ 64) :
    subU64 (u64 (start + share)) 1 = start + share - 1 := by
  rw [u64_of_lt hlt, subU64_of_le hpos hlt]

/-- **The loop and what follows it** open a connection for each share. At the very beginning of a file
the first share has to be one. -/
theorem connectRest_connectLoop (hconnects : ∀ i, connects i = true) (n : Nat) {start remain : Nat}
    (hpos : 0 < start ∨ connectNum ≤ remain) (hlt : start + remain < 2 ^ 64) :
    (connectLoop connects n start remain d).2.connectRest true
        (connectLoop connects n start remain d).1.1 (connectLoop connects n start remain d).1.2 =
      d.openAll (shares n start remain) := by
  induction n generalizing start remain d with
  | zero =>
      rw [connectLoop, connectRest, shares]
      split
      · next hremain => rw [end_eq (Nat.add_pos_right start hremain) hlt, connect_true]
      · rw [openAll_nil]
  | succ n ih =>
      have hshare : remain / connectNum ≤ remain := Nat.div_le_self _ _
      have hnext : 0 < start + remain / connectNum := by
        rcases hpos with hpos | hpos
        · exact Nat.add_pos_left hpos _
        · exact Nat.add_pos_right _ (Nat.div_pos hpos (by decide))
      rw [connectLoop, hconnects, end_eq hnext (by omega), connect_true, shares]
      dsimp only
      generalize remain / connectNum = share at hshare hnext ⊢
      rw [u64_of_lt (by omega), ih (.inl hnext) (by omega), openAll_openAll]
      rfl

/-- What `downloadRemain` does when it is called for something. -/
theorem downloadRemain_eq {remain start : Nat} {round : Round} {rounds : List Round}
    (hremain : 0 < remain) (hconnects : ∀ i, round.connects i = true)
    (hlt : start + remain < 2 ^ 64) :
    d.downloadRemain remain start (round :: rounds) =
      ((d.openAll (remainRequests remain start)).start round.schedule >>= fun d =>
        pure (0, d, rounds)) := by
  rw [downloadRemain, remainRequests, if_neg (Nat.pos_iff_ne_zero.mp hremain),
    if_neg (Nat.pos_iff_ne_zero.mp hremain)]
  dsimp only
  split
  · rw [hconnects, end_eq (by omega) hlt, connect_true]
  · next hge =>
      rw [hconnects, connectRest_connectLoop hconnects connectNum (.inr (Nat.not_lt.mp hge)) hlt]

end Download

/-! ## The ranges are those of the missing bytes -/

/-- How many bytes a range has. -/
def rangeSize (range : Nat × Nat) : Nat := range.2 + 1 - range.1

/-- A share may be empty, but no range leaves a gap. -/
theorem mem_shares {n start remain : Nat} {range : Nat × Nat} (hstart : 0 < start)
    (hmem : range ∈ shares n start remain) :
    range.1 ≤ range.2 + 1 ∧ range.2 < start + remain := by
  induction n generalizing start remain with
  | zero =>
      rw [shares] at hmem
      split at hmem
      · obtain rfl := List.mem_singleton.mp hmem
        dsimp only
        omega
      · cases hmem
  | succ n ih =>
      have hshare : remain / Download.connectNum ≤ remain := Nat.div_le_self _ _
      rw [shares] at hmem
      generalize remain / Download.connectNum = share at hshare hmem
      rcases List.mem_cons.mp hmem with rfl | hmem
      · dsimp only
        omega
      · have := ih (by omega) hmem
        omega

theorem sum_shares {n start remain : Nat} (hstart : 0 < start) :
    ((shares n start remain).map rangeSize).sum = remain := by
  induction n generalizing start remain with
  | zero =>
      rw [shares]
      split
      · simp only [List.map_singleton, List.sum_singleton, rangeSize]
        omega
      · simp only [List.map_nil, List.sum_nil]
        omega
  | succ n ih =>
      have hshare : remain / Download.connectNum ≤ remain := Nat.div_le_self _ _
      rw [shares]
      generalize remain / Download.connectNum = share at hshare ⊢
      rw [List.map_cons, List.sum_cons, ih (by omega), rangeSize]
      dsimp only
      omega

theorem mem_remainRequests {remain start : Nat} {range : Nat × Nat} (hstart : 0 < start)
    (hmem : range ∈ remainRequests remain start) :
    range.1 ≤ range.2 + 1 ∧ range.2 < start + remain := by
  rw [remainRequests] at hmem
  split at hmem
  · cases hmem
  · split at hmem
    · obtain rfl := List.mem_singleton.mp hmem
      dsimp only
      omega
    · exact mem_shares hstart hmem

/-- **The ranges together** have as many bytes as are missing. -/
theorem sum_remainRequests {remain start : Nat} (hstart : 0 < start) :
    ((remainRequests remain start).map rangeSize).sum = remain := by
  rw [remainRequests]
  split
  · next hzero => simp [hzero]
  · split
    · simp only [List.map_singleton, List.sum_singleton, rangeSize]
      omega
    · exact sum_shares hstart

end Unp.Downloader
