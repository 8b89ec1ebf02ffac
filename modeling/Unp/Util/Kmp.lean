import Unp.Lib.Border
import Unp.Util.StringPiece

/-!
# What `kmp_search` finds

The table that `build_search_table` fills is the one-pass table of borders behind the `-1` at 0. The
search keeps the characters before `i` matched with the first `j` of the pattern, and falls back
from border to border. So what it finds is there; what it does not find may be there too, where the
table leaves out a border.
-/

namespace Unp.Util

open Unp.Machine Unp.Border

/-! ## The table -/

def tableEntry (pattern : List Byte) (i : Nat) : Int := if i = 0 then -1 else onePass pattern i

/-- The table, one entry for each character of the pattern. -/
def searchTable (pattern : List Byte) : List Int :=
  (List.range pattern.length).map (tableEntry pattern)

theorem tableEntry_pos (pattern : List Byte) {i : Nat} (hi : i ≠ 0) :
    tableEntry pattern i = onePass pattern i := if_neg hi

theorem tableEntry_lt (pattern : List Byte) (i : Nat) : tableEntry pattern i < i := by
  rw [tableEntry]
  split
  · next hi => omega
  · next hi =>
      have := (onePass_isBorder pattern (i := i) (by omega)).lt
      omega

theorem readPattern_ok {pattern : List Byte} {j : Nat} (hj : j < pattern.length) :
    readPattern pattern j = .ok pattern[j] := by
  rw [readPattern, if_neg (by omega), Int.toNat_natCast, readAt, List.getElem?_eq_getElem hj]

theorem readTable_ok {pattern : List Byte} {j : Nat} (hj : j < pattern.length) :
    readTable (searchTable pattern) j = .ok (tableEntry pattern j) := by
  rw [readTable, if_neg (by omega), Int.toNat_natCast, readAt, searchTable, List.getElem?_map,
    List.getElem?_range hj, Option.map_some]

/-- The next entry, from the last and the comparison made for it. -/
theorem tableEntry_succ (pattern : List Byte) (i : Nat) :
    tableEntry pattern (i + 1) =
      if i = 0 ∨ pattern[i]? = pattern[onePass pattern i]? then tableEntry pattern i + 1 else 0 := by
  rw [tableEntry, if_neg (Nat.succ_ne_zero i), onePass]
  by_cases hi : i = 0
  · simp [hi, tableEntry]
  · by_cases hnext : pattern[i]? = pattern[onePass pattern i]?
    · rw [if_pos ⟨hi, hnext⟩, if_pos (Or.inr hnext), tableEntry, if_neg hi]
      rfl
    · rw [if_neg fun h => hnext h.2, if_neg (not_or.mpr ⟨hi, hnext⟩)]
      rfl

theorem buildLoop_ok (pattern : List Byte) (n i : Nat) (isLastEqual : Bool)
    (hn : i + 1 + n = pattern.length)
    (hequal : isLastEqual = true ↔ i = 0 ∨ pattern[i]? = pattern[onePass pattern i]?) :
    buildLoop pattern n (i + 1) ((List.range (i + 1)).map (tableEntry pattern)) isLastEqual =
      .ok (searchTable pattern) := by
  induction n generalizing i isLastEqual with
  | zero => rw [buildLoop, searchTable, ← hn, Nat.add_zero]
  | succ n ih =>
      have hback : readAt ((List.range (i + 1)).map (tableEntry pattern))
          (((List.range (i + 1)).map (tableEntry pattern)).length - 1) =
            .ok (tableEntry pattern i) := by
        rw [readAt, List.length_map, List.length_range, List.getElem?_map,
          List.getElem?_range (by omega)]
        rfl
      have hentry : (if isLastEqual = true then tableEntry pattern i + 1 else 0) =
          tableEntry pattern (i + 1) := by
        rw [tableEntry_succ]
        simp only [hequal]
      have hlt : onePass pattern (i + 1) < pattern.length := by
        have := (onePass_isBorder pattern (i := i + 1) (by omega)).lt
        omega
      have hp : readAt pattern (i + 1) = .ok pattern[i + 1] := by
        rw [readAt, List.getElem?_eq_getElem (by omega)]
      have hq : readPattern pattern (tableEntry pattern (i + 1)) =
          .ok pattern[onePass pattern (i + 1)] := by
        rw [tableEntry_pos pattern (Nat.succ_ne_zero i)]
        exact readPattern_ok hlt
      have htable : (List.range (i + 1)).map (tableEntry pattern) ++ [tableEntry pattern (i + 1)] =
          (List.range (i + 1 + 1)).map (tableEntry pattern) := by
        rw [List.range_succ (n := i + 1), List.map_append, List.map_singleton]
      rw [buildLoop, hback, ok_bind, hentry, hp, ok_bind, hq, ok_bind, htable]
      refine ih (i + 1) _ (by omega) ?_
      rw [decide_eq_true_iff, List.getElem?_eq_getElem (by omega),
        List.getElem?_eq_getElem (by omega), Option.some_inj]
      simp

theorem buildSearchTable_ok {pattern : List Byte} (hpattern : pattern ≠ []) :
    buildSearchTable pattern = .ok (searchTable pattern) := by
  have hpos := List.length_pos_iff.mpr hpattern
  exact buildLoop_ok pattern (pattern.length - 1) 0 true (by omega) (by simp)

/-! ## Falling back -/

/-- Where the search falls back to when `j` characters are matched and the next is `t`: to a border
that `t` lengthens, and to the longest if the table leaves out none. -/
structure FellBack (pattern : List Byte) (t : Byte) (limit j : Nat) (r : Int) : Prop where
  least : -1 ≤ r
  shorter : pattern[j]? ≠ some t → r ≤ tableEntry pattern j
  sound : ∀ k : Nat, r = k → Matched pattern pattern j k ∧ pattern[k]? = some t
  complete : KeepsBorders pattern limit → ∀ k, Matched pattern pattern j k →
    pattern[k]? = some t → j - k + pattern.length ≤ limit → k ≤ r

theorem fallBack_step {pattern : List Byte} {t : Byte} {j : Nat} (fuel : Nat)
    (hj : j < pattern.length) (ht : pattern[j]? ≠ some t) :
    fallBack pattern (searchTable pattern) t (fuel + 1) j =
      fallBack pattern (searchTable pattern) t fuel (tableEntry pattern j) := by
  rw [List.getElem?_eq_getElem hj, Ne, Option.some_inj] at ht
  rw [fallBack, if_neg (by omega), readPattern_ok hj, ok_bind, if_neg (Ne.symm ht),
    readTable_ok hj, ok_bind]

theorem fallBack_ok {pattern : List Byte} (t : Byte) (limit fuel : Nat) {j : Nat}
    (hj : j < pattern.length) (hfuel : j + 2 ≤ fuel) :
    ∃ r, fallBack pattern (searchTable pattern) t fuel j = .ok r ∧
      FellBack pattern t limit j r := by
  induction fuel generalizing j with
  | zero => omega
  | succ fuel ih =>
      by_cases ht : pattern[j]? = some t
      · refine ⟨j, ?_, by omega, fun hne => absurd ht hne, ?_, ?_⟩
        · have heq : t = pattern[j] := by
            rw [List.getElem?_eq_getElem hj, Option.some_inj] at ht
            exact ht.symm
          rw [fallBack, if_neg (by omega), readPattern_ok hj, ok_bind, if_pos heq, pure_eq_ok]
        · intro k hk
          obtain rfl : j = k := by omega
          exact ⟨matched_self pattern j, ht⟩
        · intro _ k hk _ _
          exact Int.ofNat_le.mpr hk.le
      · rw [fallBack_step fuel hj ht]
        by_cases hzero : j = 0
        · subst hzero
          refine ⟨-1, ?_, by omega, fun _ => Int.le_refl _, fun k hk => by omega, ?_⟩
          · obtain ⟨fuel', rfl⟩ : ∃ f, fuel = f + 1 := ⟨fuel - 1, by omega⟩
            rw [tableEntry, if_pos rfl, fallBack, if_pos rfl]
          · intro _ k hk hkt _
            obtain rfl : k = 0 := Nat.le_zero.mp hk.le
            exact absurd hkt ht
        · rw [tableEntry_pos pattern hzero]
          have hborder := onePass_isBorder pattern (i := j) (by omega)
          have hlt := hborder.lt
          obtain ⟨r, hr, hfell⟩ := ih (j := onePass pattern j) (by omega) (by omega)
          refine ⟨r, hr, hfell.least, ?_, ?_, ?_⟩
          · intro _
            rw [tableEntry_pos pattern hzero]
            by_contra hlonger
            obtain ⟨k, rfl⟩ : ∃ k : Nat, r = k := ⟨r.toNat, by omega⟩
            have hle := (hfell.sound k rfl).1.le
            omega
          · intro k hk
            obtain ⟨hmatched, hkt⟩ := hfell.sound k hk
            exact ⟨hborder.matched.trans hmatched, hkt⟩
          · intro hkeeps k hk hkt hlimit
            rcases hk.eq_or_isBorder with rfl | hbk
            · exact absurd hkt ht
            · have hkj := hbk.lt
              -- a longer border than the entry would be lost
              have hle : k ≤ onePass pattern j := by
                by_contra hlonger
                have := (keepsBorders_iff pattern limit).mp hkeeps k j
                  ⟨⟨hbk, hj, fun heq => ht (heq ▸ hkt)⟩, by omega⟩
                omega
              exact hfell.complete hkeeps k (hborder.matched.inside hk hle) hkt (by omega)

/-! ## The search -/

/-- What the search returns when it stands in `text` with a candidate at `start`. -/
structure Answers (pattern text : List Byte) (start : Nat) (r : Int) : Prop where
  least : -1 ≤ r
  sound : ∀ o : Nat, r = o → start ≤ o ∧ OccursAt pattern text o
  complete : KeepsBorders pattern text.length → ∀ o, OccursAt pattern text o → start ≤ o →
    0 ≤ r ∧ r ≤ o

/-- The candidate has moved on, over no occurrence. -/
theorem Answers.of_later {pattern text : List Byte} {start start' : Nat} {r : Int}
    (h : Answers pattern text start' r) (hle : start ≤ start')
    (hover : KeepsBorders pattern text.length → ∀ o, OccursAt pattern text o → start ≤ o →
      start' ≤ o) : Answers pattern text start r := by
  refine ⟨h.least, ?_, ?_⟩
  · intro o ho
    obtain ⟨hlo, hoccurs⟩ := h.sound o ho
    exact ⟨Nat.le_trans hle hlo, hoccurs⟩
  · intro hkeeps o hoccurs hlo
    exact h.complete hkeeps o hoccurs (hover hkeeps o hoccurs hlo)

/-- An occurrence that is not behind the candidate is not passed by falling back. -/
theorem FellBack.behind {pattern text : List Byte} {t : Byte} {i j o : Nat} {r : Int}
    (h : FellBack pattern t text.length j r) (hj : j < pattern.length)
    (hmatched : Matched pattern text i j) (ht : text[i]? = some t)
    (hkeeps : KeepsBorders pattern text.length) (ho : OccursAt pattern text o) (hlo : i - j ≤ o) :
    (i : Int) - r ≤ o := by
  have hle := hmatched.le
  have hleast := h.least
  have hend := ho.le_length (List.length_pos_iff.mp (by omega))
  by_cases hoi : o ≤ i
  · have hat := ho.matched hoi (by omega)
    have hletter := ho.letter hoi (by omega)
    rw [ht] at hletter
    have := h.complete hkeeps (i - o) (hmatched.inside hat (by omega)) hletter.symm (by omega)
    omega
  · omega

/-- A character that does not go on with the pattern: the search goes on behind it with as much of
the pattern as it fell back to. -/
theorem searchLoop_fallBack {pattern text : List Byte} (rest : List Byte) {t : Byte} {i j : Nat}
    (hmatched : Matched pattern text i j) (hj : j < pattern.length) (ht : text[i]? = some t)
    (hdiffer : pattern[j]? ≠ some t) :
    ∃ j' : Nat, j' ≤ j ∧ Matched pattern text (i + 1) j' ∧
      FellBack pattern t text.length j (j' - 1 : Int) ∧
      searchLoop pattern (searchTable pattern) (t :: rest) i j =
        searchLoop pattern (searchTable pattern) rest (i + 1) j' := by
  obtain ⟨back, hback, hfell⟩ :=
    fallBack_ok t text.length (pattern.length + 1) hj (by omega)
  have hleast := hfell.least
  have hne : ¬ t = pattern[j] := fun heq => hdiffer (by rw [heq, List.getElem?_eq_getElem])
  have hnext : (if back = -1 then 0 else back + 1) = ((back + 1).toNat : Int) := by
    split <;> omega
  have hshorter := hfell.shorter hdiffer
  have hentry := tableEntry_lt pattern j
  refine ⟨(back + 1).toNat, by omega, ?_, ?_, ?_⟩
  · by_cases hnone : back = -1
    · rw [hnone]
      exact matched_zero pattern text (i + 1)
    · obtain ⟨k, rfl⟩ : ∃ k : Nat, back = k := ⟨back.toNat, by omega⟩
      obtain ⟨hborder, hk⟩ := hfell.sound k rfl
      exact (hmatched.trans hborder).extend (ht.trans hk.symm)
  · rwa [Int.toNat_of_nonneg (by omega), Int.add_sub_cancel]
  · rw [searchLoop, readPattern_ok hj, ok_bind, if_neg hne, hback, ok_bind, hnext]

theorem searchLoop_ok {pattern text : List Byte} (hpattern : pattern.length < 2 ^ 31)
    (htext : text.length < 2 ^ 31) {rest : List Byte} {i j : Nat} (hrest : text.drop i = rest)
    (hmatched : Matched pattern text i j) (hj : j < pattern.length) :
    ∃ r, searchLoop pattern (searchTable pattern) rest i j = .ok r ∧
      Answers pattern text (i - j) r := by
  have hle := hmatched.le
  induction rest generalizing i j with
  | nil =>
      refine ⟨-1, rfl, by omega, fun o ho => by omega, ?_⟩
      intro _ o ho hlo
      have hend := ho.le_length (List.length_pos_iff.mp (by omega))
      have hlen := List.drop_eq_nil_iff.mp hrest
      omega
  | cons t rest ih =>
      have hint : i32 pattern.length = pattern.length := by
        unfold i32
        omega
      have hi : i < text.length := by
        by_contra hge
        rw [List.drop_eq_nil_iff.mpr (by omega)] at hrest
        cases hrest
      rw [List.drop_eq_getElem_cons hi] at hrest
      obtain ⟨rfl, htail⟩ := List.cons.inj hrest
      have ht : text[i]? = some text[i] := List.getElem?_eq_getElem hi
      by_cases hsame : pattern[j]? = some text[i]
      · have hnext : Matched pattern text (i + 1) (j + 1) := hmatched.extend (ht.trans hsame.symm)
        have hchar : text[i] = pattern[j] := by
          rw [List.getElem?_eq_getElem hj, Option.some_inj] at hsame
          exact hsame.symm
        rw [searchLoop, readPattern_ok hj, ok_bind, if_pos hchar, hint]
        by_cases hlast : (j : Int) = pattern.length - 1
        · have hwhole : j + 1 = pattern.length := by omega
          have hresult : i32 ((i : Int) - pattern.length + 1) = (i - j : Nat) := by
            unfold i32
            omega
          rw [if_pos hlast, pure_eq_ok, hresult]
          refine ⟨_, rfl, by omega, ?_, ?_⟩
          · intro o ho
            obtain rfl : i - j = o := by omega
            rw [hwhole] at hnext
            have hoccurs := hnext.occursAt
            rw [← hwhole, Nat.add_sub_add_right] at hoccurs
            exact ⟨Nat.le_refl _, hoccurs⟩
          · intro _ o _ hlo
            exact ⟨Int.natCast_nonneg _, Int.ofNat_le.mpr hlo⟩
        · rw [if_neg hlast]
          obtain ⟨r, hr, hanswers⟩ := ih htail hnext (by omega) (by omega)
          rw [Nat.add_sub_add_right] at hanswers
          exact ⟨r, hr, hanswers⟩
      · obtain ⟨j', hle', hnext, hfell, hstep⟩ := searchLoop_fallBack rest hmatched hj ht hsame
        obtain ⟨r, hr, hanswers⟩ := ih htail hnext (by omega) (by omega)
        rw [hstep]
        refine ⟨r, hr, hanswers.of_later (by omega) ?_⟩
        intro hkeeps o ho hlo
        have := hfell.behind hj hmatched ht hkeeps ho hlo
        omega

theorem kmpSearch_eq {text pattern : List Byte} (htext : text ≠ []) (hpattern : pattern ≠ []) :
    kmpSearch text pattern = searchLoop pattern (searchTable pattern) text 0 0 := by
  rw [kmpSearch, if_neg (not_or.mpr ⟨htext, hpattern⟩), buildSearchTable_ok hpattern, ok_bind]

theorem kmpSearch_ok {text pattern : List Byte} (htext : text ≠ []) (hpattern : pattern ≠ [])
    (htlen : text.length < 2 ^ 31) (hplen : pattern.length < 2 ^ 31) :
    ∃ r, kmpSearch text pattern = .ok r ∧ Answers pattern text 0 r := by
  rw [kmpSearch_eq htext hpattern]
  exact searchLoop_ok hplen htlen List.drop_zero (matched_zero pattern text 0)
    (List.length_pos_iff.mpr hpattern)

/-- The loop returns for a text of any length: `j` stays inside the pattern. -/
theorem searchLoop_returns {pattern : List Byte} (hplen : pattern.length < 2 ^ 31)
    (rest : List Byte) {i j : Nat} (hj : j < pattern.length) :
    ∃ r, searchLoop pattern (searchTable pattern) rest i j = .ok r := by
  have hint : i32 pattern.length = pattern.length := by
    unfold i32
    omega
  induction rest generalizing i j with
  | nil => exact ⟨-1, rfl⟩
  | cons t rest ih =>
      rw [searchLoop, readPattern_ok hj, ok_bind, hint]
      by_cases hsame : t = pattern[j]
      · rw [if_pos hsame]
        split
        · exact ⟨_, rfl⟩
        · exact ih (j := j + 1) (by omega)
      · rw [if_neg hsame]
        obtain ⟨back, hback, hfell⟩ := fallBack_ok t 0 (pattern.length + 1) hj (by omega)
        have hdiffer : pattern[j]? ≠ some t := by
          rw [List.getElem?_eq_getElem hj]
          intro heq
          exact hsame (Option.some_inj.mp heq).symm
        have hshorter := hfell.shorter hdiffer
        have hentry := tableEntry_lt pattern j
        have hleast := hfell.least
        have hnext : (if back = -1 then 0 else back + 1) = ((back + 1).toNat : Int) := by
          split <;> omega
        rw [hback, ok_bind, hnext]
        exact ih (by omega)

theorem kmpSearch_returns (text pattern : List Byte) (hplen : pattern.length < 2 ^ 31) :
    ∃ r, kmpSearch text pattern = .ok r := by
  by_cases hnil : text = [] ∨ pattern = []
  · exact ⟨-1, if_pos hnil⟩
  · obtain ⟨htext, hpattern⟩ := not_or.mp hnil
    rw [kmpSearch_eq htext hpattern]
    exact searchLoop_returns hplen text (List.length_pos_iff.mpr hpattern)

/-- A pattern that keeps its borders is found where it first is. -/
theorem kmpSearch_first {text pattern : List Byte} {i : Nat} (hpattern : pattern ≠ [])
    (htlen : text.length < 2 ^ 31) (hplen : pattern.length < 2 ^ 31)
    (hkeeps : KeepsBorders pattern text.length) (hfirst : FirstAt pattern text i) :
    kmpSearch text pattern = .ok i := by
  have hlen := hfirst.1.le_length hpattern
  have hpos := List.length_pos_iff.mpr hpattern
  obtain ⟨r, hr, hanswers⟩ :=
    kmpSearch_ok (List.length_pos_iff.mp (by omega)) hpattern htlen hplen
  obtain ⟨hfound, hle⟩ := hanswers.complete hkeeps i hfirst.1 (Nat.zero_le i)
  obtain ⟨o, rfl⟩ := Int.eq_ofNat_of_zero_le hfound
  have hge : i ≤ o := by
    by_contra hlt
    exact hfirst.2 o (by omega) (hanswers.sound o rfl).2
  rw [hr, show (o : Int) = i by omega]

/-- What is not there is not found, by any pattern. -/
theorem kmpSearch_absent {text pattern : List Byte} (htlen : text.length < 2 ^ 31)
    (hplen : pattern.length < 2 ^ 31) (habsent : ∀ o, ¬ OccursAt pattern text o) :
    kmpSearch text pattern = .ok (-1) := by
  by_cases hnil : text = [] ∨ pattern = []
  · rw [kmpSearch, if_pos hnil]
  · obtain ⟨htext, hpattern⟩ := not_or.mp hnil
    obtain ⟨r, hr, hanswers⟩ := kmpSearch_ok htext hpattern htlen hplen
    have hleast := hanswers.least
    have hnone : r = -1 := by
      by_contra hne
      exact habsent r.toNat (hanswers.sound r.toNat (by omega)).2
    rw [hr, hnone]

/-- **The search is sound and safe.** It returns, so every access is in range; what it returns is
`-1` or where the pattern is; and every entry of its table but the first is the length of a
border. -/
theorem kmpSearch_sound {text pattern : List Byte} (htext : text ≠ []) (hpattern : pattern ≠ [])
    (htlen : text.length < 2 ^ 31) (hplen : pattern.length < 2 ^ 31) :
    (∃ table, buildSearchTable pattern = .ok table ∧ table.length = pattern.length ∧
      ∀ i, 1 ≤ i → i < pattern.length → ∃ k : Nat, table[i]? = some (k : Int) ∧ k < i ∧
        pattern.take k = slice pattern (i - k) k) ∧
    ∃ r, kmpSearch text pattern = .ok r ∧ -1 ≤ r ∧
      ∀ i : Nat, r = i → slice text i pattern.length = pattern := by
  constructor
  · refine ⟨searchTable pattern, buildSearchTable_ok hpattern, by simp [searchTable], ?_⟩
    intro i hi hlt
    have hborder := onePass_isBorder pattern hi
    refine ⟨onePass pattern i, ?_, hborder.lt, ?_⟩
    · rw [searchTable, List.getElem?_map, List.getElem?_range hlt, Option.map_some,
        tableEntry_pos pattern (by omega)]
    · have hle := hborder.matched.le
      apply List.ext_getElem?
      intro n
      rw [slice, List.getElem?_take, List.getElem?_take, List.getElem?_drop]
      split
      · next hn => exact (hborder.matched.letters n hn).symm
      · rfl
  · obtain ⟨r, hr, hanswers⟩ := kmpSearch_ok htext hpattern htlen hplen
    refine ⟨r, hr, hanswers.least, ?_⟩
    intro i hi
    exact (List.prefix_iff_eq_take.mp (hanswers.sound i hi).2).symm

theorem kmpSearch_sound_overlap :
    (∃ table, buildSearchTable (ascii "abab") = .ok table ∧ table.length = (ascii "abab").length ∧
      ∀ i, 1 ≤ i → i < (ascii "abab").length → ∃ k : Nat, table[i]? = some (k : Int) ∧ k < i ∧
        (ascii "abab").take k = slice (ascii "abab") (i - k) k) ∧
    ∃ r, kmpSearch (ascii "abaababab") (ascii "abab") = .ok r ∧ -1 ≤ r ∧
      ∀ i : Nat, r = i → slice (ascii "abaababab") i (ascii "abab").length = ascii "abab" :=
  kmpSearch_sound (by decide +kernel) (by decide +kernel) (by decide +kernel) (by decide +kernel)

/-! ## What it misses -/

/-- The search goes through the beginning of the pattern without falling back. -/
theorem searchLoop_prefix {pattern : List Byte} (hplen : pattern.length < 2 ^ 31)
    (rest : List Byte) {n i : Nat} (hn : n ≤ i) (hi : i < pattern.length) :
    searchLoop pattern (searchTable pattern) ((pattern.take i).drop n ++ rest) n n =
      searchLoop pattern (searchTable pattern) rest i i := by
  have hint : i32 pattern.length = pattern.length := by
    unfold i32
    omega
  have htake : (pattern.take i).length = i := List.length_take_of_le (Nat.le_of_lt hi)
  induction hd : i - n generalizing n with
  | zero =>
      obtain rfl : n = i := by omega
      rw [List.drop_eq_nil_of_le (Nat.le_of_eq htake), List.nil_append]
  | succ d ih =>
      have hlt : n < (pattern.take i).length := by omega
      rw [List.drop_eq_getElem_cons hlt, List.cons_append, searchLoop, readPattern_ok (by omega),
        ok_bind, List.getElem_take, if_pos rfl, hint, if_neg (by omega)]
      exact ih (by omega) (by omega)

/-- The pattern behind a lost border: the text whose first letters are matched up to where the
border breaks off, and in which the pattern stands where the border begins. -/
def lostText (pattern : List Byte) (k i : Nat) : List Byte := pattern.take i ++ pattern.drop k

theorem occursAt_lostText {pattern : List Byte} {k i : Nat} (h : IsBorder pattern k i)
    (hi : i ≤ pattern.length) : OccursAt pattern (lostText pattern k i) (i - k) := by
  have hlt := h.lt
  have htake : (pattern.take i).length = i := List.length_take_of_le hi
  rw [occursAt_iff]
  intro n hn
  rw [lostText]
  by_cases hk : n < k
  · rw [List.getElem?_append_left (by omega), List.getElem?_take, if_pos (by omega)]
    exact h.matched.letters n hk
  · rw [List.getElem?_append_right (by omega), htake, List.getElem?_drop,
      show k + (i - k + n - i) = n by omega]

/-- There the search falls back behind the border. -/
theorem kmpSearch_lostText {pattern : List Byte} {k i : Nat} (h : Lost pattern k i)
    (hlen : (lostText pattern k i).length < 2 ^ 31) :
    ∃ r, kmpSearch (lostText pattern k i) pattern = .ok r ∧ ∀ o : Nat, r = o → i - k < o := by
  have hki := h.breaks.border.lt
  have hi := h.breaks.lt
  have hlonger := h.longer
  have htake : (pattern.take i).length = i := List.length_take_of_le (Nat.le_of_lt hi)
  have htext : (lostText pattern k i).length = i + (pattern.length - k) := by
    rw [lostText, List.length_append, htake, List.length_drop]
  have hpattern : pattern ≠ [] := List.length_pos_iff.mp (by omega)
  have hnonempty : lostText pattern k i ≠ [] := List.length_pos_iff.mp (by omega)
  have hcut : (lostText pattern k i).drop i = pattern.drop k := by
    rw [lostText, List.drop_left' htake]
  have hmatched : Matched pattern (lostText pattern k i) i i := by
    refine ⟨Nat.le_refl i, ?_⟩
    intro n hn
    rw [Nat.sub_self, Nat.zero_add, lostText, List.getElem?_append_left (by omega),
      List.getElem?_take, if_pos hn]
  have hrun : kmpSearch (lostText pattern k i) pattern =
      searchLoop pattern (searchTable pattern) (pattern.drop k) i i := by
    rw [kmpSearch_eq hnonempty hpattern, lostText]
    exact searchLoop_prefix (by omega) (pattern.drop k) (Nat.zero_le i) hi
  have hk : k < pattern.length := by omega
  have hnext : (lostText pattern k i)[i]? = some pattern[k] := by
    rw [lostText, List.getElem?_append_right (by omega), htake, Nat.sub_self, List.getElem?_drop,
      Nat.add_zero, List.getElem?_eq_getElem hk]
  have hdiffer : pattern[i]? ≠ some pattern[k] := by
    rw [← List.getElem?_eq_getElem hk]
    exact h.breaks.differ.symm
  obtain ⟨j', hle, hmatched', hfell, hstep⟩ :=
    searchLoop_fallBack (pattern.drop (k + 1)) hmatched hi hnext hdiffer
  have hshorter := hfell.shorter hdiffer
  rw [tableEntry_pos pattern (by omega)] at hshorter
  have hrest : (lostText pattern k i).drop (i + 1) = pattern.drop (k + 1) := by
    rw [← List.drop_drop, hcut, List.drop_drop]
  obtain ⟨r, hr, hanswers⟩ := searchLoop_ok (by omega) hlen hrest hmatched' (by omega)
  refine ⟨r, ?_, ?_⟩
  · rw [hrun, List.drop_eq_getElem_cons hk, hstep, hr]
  · intro o ho
    have := (hanswers.sound o ho).1
    omega

theorem FirstAt.exists {pattern text : List Byte} {o : Nat} (h : OccursAt pattern text o) :
    ∃ i ≤ o, FirstAt pattern text i :=
  ⟨Nat.find ⟨o, h⟩, Nat.find_min' ⟨o, h⟩ h, Nat.find_spec ⟨o, h⟩,
    fun _ hlt => Nat.find_min ⟨o, h⟩ hlt⟩

/-- The pattern stands at 4, where the search has given up the `aa` it had read. -/
theorem kmpSearch_misses :
    FirstAt (ascii "aabaaac") (ascii "aabaaabaaac") 4 ∧
      kmpSearch (ascii "aabaaabaaac") (ascii "aabaaac") = .ok (-1) := by
  decide +kernel

/-- **The search is complete for the patterns that keep their borders**, and for no other: it finds
the first occurrence in every text. -/
theorem kmpSearch_complete_iff {pattern : List Byte} (hpattern : pattern ≠ [])
    (hplen : pattern.length < 2 ^ 31) :
    (∀ text, text ≠ [] → text.length < 2 ^ 31 → ∀ i : Nat, FirstAt pattern text i →
      kmpSearch text pattern = .ok i) ↔ KeepsBorders pattern (2 ^ 31 - 1) := by
  constructor
  · intro hfinds
    rw [keepsBorders_iff]
    intro k i hlost
    by_contra hlimit
    have hki := hlost.breaks.border.lt
    have hi := hlost.breaks.lt
    have hlen : (lostText pattern k i).length = i + (pattern.length - k) := by
      rw [lostText, List.length_append, List.length_take_of_le (Nat.le_of_lt hi), List.length_drop]
    obtain ⟨o, hle, hfirst⟩ :=
      FirstAt.exists (occursAt_lostText hlost.breaks.border (Nat.le_of_lt hi))
    obtain ⟨r, hr, hbehind⟩ := kmpSearch_lostText hlost (by omega)
    have hfound := hfinds _ (List.length_pos_iff.mp (by omega)) (by omega) o hfirst
    rw [hr] at hfound
    have := hbehind o (Except.ok.inj hfound)
    omega
  · intro hkeeps text _ htlen i hfirst
    exact kmpSearch_first hpattern htlen hplen (hkeeps.mono (by omega)) hfirst

theorem kmpSearch_complete_iff_overlap :
    (∀ text, text ≠ [] → text.length < 2 ^ 31 → ∀ i : Nat, FirstAt (ascii "abab") text i →
      kmpSearch text (ascii "abab") = .ok i) ↔ KeepsBorders (ascii "abab") (2 ^ 31 - 1) :=
  kmpSearch_complete_iff (by decide +kernel) (by decide +kernel)

end Unp.Util
