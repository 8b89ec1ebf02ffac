import Unp.Lib.Ranges
import Unp.Downloader.Requests

/-!
# Whether the requests tile what is missing

Four times a fourth of what is left is taken, and then the rest. With seven bytes or more there is a
byte left for everybody; less than four bytes are asked for at once. In between a share is nothing,
and the range for it ends before it begins.
-/

namespace Unp.Downloader

open Unp.Ranges

/-- One byte for each of the `n` connections to come, and three for the last one. -/
theorem consecutive_shares {n start remain : Nat} (hn : n ≤ Download.connectNum)
    (hremain : n + 3 ≤ remain) : Consecutive start (start + remain) (shares n start remain) := by
  induction n generalizing start remain with
  | zero =>
      have hend : start + remain = start + remain - 1 + 1 := by omega
      rw [shares, if_pos (by omega), hend]
      apply consecutive_singleton
      omega
  | succ n ih =>
      rw [shares]
      rw [Download.connectNum] at hn ⊢
      -- the share is a byte at least, and leaves enough for the others
      have hshare : 1 ≤ remain / 4 := by omega
      have hleft : n + 3 ≤ remain - remain / 4 := by omega
      have hsum : start + remain / 4 + (remain - remain / 4) = start + remain := by omega
      have hrest : Consecutive (start + remain / 4) (start + remain)
          (shares n (start + remain / 4) (remain - remain / 4)) := by
        rw [← hsum]
        exact ih (Nat.le_of_succ_le hn) hleft
      have hnext : start + remain / 4 - 1 + 1 = start + remain / 4 := by omega
      apply Consecutive.cons
      · omega
      · rw [hnext]
        exact hrest

theorem consecutive_remainRequests {remain start : Nat} (hremain : 0 < remain)
    (hsize : remain < 4 ∨ 6 < remain) :
    Consecutive start (start + remain) (remainRequests remain start) := by
  rw [remainRequests, if_neg (Nat.pos_iff_ne_zero.mp hremain)]
  split
  · have hend : start + remain = start + remain - 1 + 1 := by omega
    rw [hend]
    apply consecutive_singleton
    omega
  · next hge =>
      apply consecutive_shares (Nat.le_refl _)
      rw [Download.connectNum] at hge ⊢
      omega

/-- After one, two or three bytes three are left, and the next share is empty. -/
theorem exists_empty_remainRequest {remain : Nat} (start : Nat) (hlo : 4 ≤ remain)
    (hhi : remain ≤ 6) : ∃ range ∈ remainRequests remain start, range.2 < range.1 := by
  obtain rfl | rfl | rfl : remain = 4 ∨ remain = 5 ∨ remain = 6 := by omega
  · exact ⟨(start + 1, start), by simp [remainRequests, shares, Download.connectNum], by simp⟩
  · exact ⟨(start + 2, start + 1), by simp [remainRequests, shares, Download.connectNum], by simp⟩
  · exact ⟨(start + 3, start + 2), by simp [remainRequests, shares, Download.connectNum], by simp⟩

theorem exists_empty_remainRequest_iff (remain start : Nat) :
    (∃ range ∈ remainRequests remain start, range.2 < range.1) ↔ 4 ≤ remain ∧ remain ≤ 6 := by
  constructor
  · rintro ⟨range, hmem, hempty⟩
    by_contra hsize
    rcases Nat.eq_zero_or_pos remain with rfl | hpos
    · rw [remainRequests, if_pos rfl] at hmem
      cases hmem
    · have hconsecutive : Consecutive start (start + remain) (remainRequests remain start) :=
        consecutive_remainRequests hpos (by omega)
      exact absurd (hconsecutive.mem hmem).2.1 (Nat.not_le.mpr hempty)
  · rintro ⟨hlo, hhi⟩
    exact exists_empty_remainRequest start hlo hhi

/-- The files for which some range is empty. -/
theorem exists_empty_request_iff (fileSize : Nat) :
    (∃ range ∈ requests fileSize, range.2 < range.1) ↔ 1005 ≤ fileSize ∧ fileSize ≤ 1007 := by
  have hfirst : ¬ 1000 < 0 := by decide
  simp only [requests, List.mem_cons, exists_eq_or_imp, hfirst, false_or]
  rw [exists_empty_remainRequest_iff]
  omega

/-- **What `downloadRemain` asks for**, before the reactor starts, tiles the missing bytes unless there
are four, five or six of them. -/
theorem downloadRemain_tiles_iff (d : Download) {remain start : Nat} {round : Round}
    (rounds : List Round) (hremain : 0 < remain) (hlt : start + remain < 2 ^ 64)
    (hconnects : ∀ i, round.connects i = true) :
    d.downloadRemain remain start (round :: rounds) =
        ((d.openAll (remainRequests remain start)).start round.schedule >>= fun d =>
          pure (0, d, rounds)) ∧
      (Tiles start (start + remain) (remainRequests remain start) ↔ remain < 4 ∨ 6 < remain) := by
  refine ⟨Download.downloadRemain_eq hremain hconnects hlt, ?_, ?_⟩
  · intro htiles
    by_contra hsize
    obtain ⟨range, hmem, hempty⟩ : ∃ range ∈ remainRequests remain start, range.2 < range.1 :=
      exists_empty_remainRequest start (by omega) (by omega)
    exact absurd (htiles.nonempty range hmem) (Nat.not_le.mpr hempty)
  · intro hsize
    exact (consecutive_remainRequests hremain hsize).tiles

theorem downloadRemain_nine : Tiles 1001 (1001 + 9) (remainRequests 9 1001) := by
  have hnine := @downloadRemain_tiles_iff (.new 0 [] true) 9 1001 ⟨fun _ => true, []⟩ []
    (by decide) (by decide) fun _ => rfl
  exact hnine.2.mpr (by decide)

/-- A file of 1005 bytes: after the first of the four bytes that are missing, three requests are for
nothing. -/
theorem downloadRemain_four : ∃ d,
    (Download.new 0 [] true).downloadRemain 4 1001 [⟨fun _ => true, []⟩] = .ok (0, d, []) ∧
      d.connections.map (·.request) =
        [(1001, 1001), (1002, 1001), (1002, 1001), (1002, 1001), (1002, 1004)] ∧
      ¬ Tiles 1001 1005 (d.connections.map (·.request)) := by
  refine ⟨_, rfl, rfl, ?_⟩
  intro htiles
  exact absurd (htiles.nonempty (1002, 1001) (List.mem_cons_of_mem _ List.mem_cons_self)) (by decide)

end Unp.Downloader
