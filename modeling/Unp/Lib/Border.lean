import Mathlib.Data.List.Basic
import Mathlib.Tactic.Common

/-!
# Borders of the prefixes of a word

What a search for a word that never goes back in the text rests on. `Matched p s i k` says that the
`k` letters of `s` before position `i` are the first `k` of `p`; a border of a prefix of `p` is such
a match of `p` with itself that is not the whole prefix.

A table of longest borders takes a loop inside a loop to build. `onePass` is the cheaper table that
only lengthens the last border or gives it up. It always holds borders. `KeepsBorders` says which
words lose none that a search could need.
-/

namespace Unp.Border

variable {α : Type}

/-- The `k` letters of `s` before `i` are the first `k` of `p`. -/
structure Matched (p s : List α) (i k : Nat) : Prop where
  le : k ≤ i
  letters : ∀ n < k, s[i - k + n]? = p[n]?

/-- `k` is the length of a border of the first `i` letters of `p`. -/
structure IsBorder (p : List α) (k i : Nat) : Prop where
  lt : k < i
  matched : Matched p p i k

/-- The border ends there: the next letter does not lengthen it. -/
structure BreaksOff (p : List α) (k i : Nat) : Prop where
  border : IsBorder p k i
  lt : i < p.length
  differ : p[k]? ≠ p[i]?

/-- `p` stands in `s` at `o`. -/
def OccursAt (p s : List α) (o : Nat) : Prop := p <+: s.drop o

/-- And at no position before. -/
def FirstAt (p s : List α) (o : Nat) : Prop := OccursAt p s o ∧ ∀ o' < o, ¬ OccursAt p s o'

/-- Of two borders that break off, the one that begins later begins before the other breaks off,
and goes further. -/
structure Overrun (p : List α) (k' i' k i : Nat) : Prop where
  earlier : BreaksOff p k' i'
  later : BreaksOff p k i
  begins : i' - k' < i - k
  within : i - k ≤ i'
  further : i' < i

/-- There are no such two borders; only those of a `p` moved no further than a text of `limit`
letters allows are looked at. -/
def KeepsBorders (p : List α) (limit : Nat) : Prop :=
  ∀ i < p.length, ∀ k < i, ∀ i' < i, ∀ k' < i', Overrun p k' i' k i → limit < i - k + p.length

section Decide
variable [DecidableEq α]

instance decidableMatched (p s : List α) (i k : Nat) : Decidable (Matched p s i k) :=
  decidable_of_iff (k ≤ i ∧ ∀ n < k, s[i - k + n]? = p[n]?)
    ⟨fun h => ⟨h.1, h.2⟩, fun h => ⟨h.le, h.letters⟩⟩

instance decidableIsBorder (p : List α) (k i : Nat) : Decidable (IsBorder p k i) :=
  decidable_of_iff (k < i ∧ Matched p p i k) ⟨fun h => ⟨h.1, h.2⟩, fun h => ⟨h.lt, h.matched⟩⟩

instance decidableBreaksOff (p : List α) (k i : Nat) : Decidable (BreaksOff p k i) :=
  decidable_of_iff (IsBorder p k i ∧ i < p.length ∧ p[k]? ≠ p[i]?)
    ⟨fun h => ⟨h.1, h.2.1, h.2.2⟩, fun h => ⟨h.border, h.lt, h.differ⟩⟩

instance decidableOccursAt (p s : List α) (o : Nat) : Decidable (OccursAt p s o) :=
  inferInstanceAs (Decidable (p <+: s.drop o))

instance decidableFirstAt (p s : List α) (o : Nat) : Decidable (FirstAt p s o) :=
  inferInstanceAs (Decidable (OccursAt p s o ∧ ∀ o' < o, ¬ OccursAt p s o'))

instance decidableOverrun (p : List α) (k' i' k i : Nat) : Decidable (Overrun p k' i' k i) :=
  decidable_of_iff
    (BreaksOff p k' i' ∧ BreaksOff p k i ∧ i' - k' < i - k ∧ i - k ≤ i' ∧ i' < i)
    ⟨fun h => ⟨h.1, h.2.1, h.2.2.1, h.2.2.2.1, h.2.2.2.2⟩,
      fun h => ⟨h.earlier, h.later, h.begins, h.within, h.further⟩⟩

instance decidableKeepsBorders (p : List α) (limit : Nat) : Decidable (KeepsBorders p limit) :=
  inferInstanceAs (Decidable (∀ i < p.length, ∀ k < i, ∀ i' < i, ∀ k' < i', Overrun p k' i' k i →
    limit < i - k + p.length))

end Decide

theorem KeepsBorders.mono {p : List α} {limit limit' : Nat} (h : KeepsBorders p limit)
    (hle : limit' ≤ limit) : KeepsBorders p limit' := by
  intro i hi k hk i' hi' k' hk' hover
  have := h i hi k hk i' hi' k' hk' hover
  omega

/-! ## Matches -/

theorem matched_zero (p s : List α) (i : Nat) : Matched p s i 0 :=
  ⟨Nat.zero_le i, fun _ hn => absurd hn (Nat.not_lt_zero _)⟩

theorem matched_self (p : List α) (i : Nat) : Matched p p i i :=
  ⟨Nat.le_refl i, fun n _ => by rw [Nat.sub_self, Nat.zero_add]⟩

/-- The letter at a position inside the match. -/
theorem Matched.letter {p s : List α} {i k a : Nat} (h : Matched p s i k) (hlo : i - k ≤ a)
    (hhi : a < i) : s[a]? = p[a - (i - k)]? := by
  have hle := h.le
  have hletter := h.letters (a - (i - k)) (by omega)
  rwa [show i - k + (a - (i - k)) = a by omega] at hletter

theorem Matched.extend {p s : List α} {i k : Nat} (h : Matched p s i k) (hnext : s[i]? = p[k]?) :
    Matched p s (i + 1) (k + 1) := by
  have hle := h.le
  refine ⟨by omega, ?_⟩
  intro n hn
  rw [show i + 1 - (k + 1) + n = i - k + n by omega]
  rcases Nat.lt_succ_iff_lt_or_eq.mp hn with hn | rfl
  · exact h.letters n hn
  · rw [show i - n + n = i by omega, hnext]

/-- A border of what is matched is matched. -/
theorem Matched.trans {p s : List α} {i j k : Nat} (h : Matched p s i j) (hb : Matched p p j k) :
    Matched p s i k := by
  have hij := h.le
  have hjk := hb.le
  refine ⟨by omega, ?_⟩
  intro n hn
  have hletter := h.letters (j - k + n) (by omega)
  rw [show i - j + (j - k + n) = i - k + n by omega] at hletter
  rw [hletter, hb.letters n hn]

/-- Of two matches at one place the shorter is a border of the longer. -/
theorem Matched.inside {p s : List α} {i j k : Nat} (h : Matched p s i j) (hk : Matched p s i k)
    (hle : k ≤ j) : Matched p p j k := by
  have hij := h.le
  refine ⟨hle, ?_⟩
  intro n hn
  have hletter := h.letters (j - k + n) (by omega)
  rw [show i - j + (j - k + n) = i - k + n by omega] at hletter
  rw [← hletter, hk.letters n hn]

theorem IsBorder.trans {p : List α} {i j k : Nat} (h : IsBorder p j i) (hk : Matched p p j k) :
    IsBorder p k i := ⟨Nat.lt_of_le_of_lt hk.le h.lt, h.matched.trans hk⟩

theorem Matched.eq_or_isBorder {p : List α} {i k : Nat} (h : Matched p p i k) :
    k = i ∨ IsBorder p k i := by
  rcases Nat.lt_or_eq_of_le h.le with hlt | heq
  · exact Or.inr ⟨hlt, h⟩
  · exact Or.inl heq

/-! ## Occurrences -/

theorem occursAt_iff (p s : List α) (o : Nat) :
    OccursAt p s o ↔ ∀ n < p.length, s[o + n]? = p[n]? := by
  rw [OccursAt, List.prefix_iff_getElem?]
  constructor
  · intro h n hn
    rw [← List.getElem?_drop, h n hn, List.getElem?_eq_getElem hn]
  · intro h n hn
    rw [List.getElem?_drop, h n hn, List.getElem?_eq_getElem hn]

/-- A word that is matched whole occurs. -/
theorem Matched.occursAt {p s : List α} {i : Nat} (h : Matched p s i p.length) :
    OccursAt p s (i - p.length) := (occursAt_iff p s _).mpr h.letters

theorem OccursAt.matched {p s : List α} {o i : Nat} (h : OccursAt p s o) (hlo : o ≤ i)
    (hhi : i ≤ o + p.length) : Matched p s i (i - o) := by
  refine ⟨Nat.sub_le i o, ?_⟩
  intro n hn
  rw [show i - (i - o) + n = o + n by omega]
  exact (occursAt_iff p s o).mp h n (by omega)

theorem OccursAt.letter {p s : List α} {o i : Nat} (h : OccursAt p s o) (hlo : o ≤ i)
    (hhi : i < o + p.length) : s[i]? = p[i - o]? := by
  have hletter := (occursAt_iff p s o).mp h (i - o) (by omega)
  rwa [show o + (i - o) = i by omega] at hletter

theorem OccursAt.le_length {p s : List α} {o : Nat} (h : OccursAt p s o) (hne : p ≠ []) :
    o + p.length ≤ s.length := by
  have hlen := List.IsPrefix.length_le h
  rw [List.length_drop] at hlen
  have hpos := List.length_pos_iff.mpr hne
  omega

/-! ## The one-pass table -/

section OnePass
variable [DecidableEq α]

/-- The entry for the first `i` letters: one more than the last if the letter goes on with it, and
else 0. -/
def onePass (p : List α) : Nat → Nat
  | 0 => 0
  | i + 1 => if i ≠ 0 ∧ p[i]? = p[onePass p i]? then onePass p i + 1 else 0

/-- The entries are borders. -/
theorem onePass_isBorder (p : List α) {i : Nat} (hi : 1 ≤ i) : IsBorder p (onePass p i) i := by
  induction i with
  | zero => omega
  | succ i ih =>
      rw [onePass]
      split
      · next hnext =>
          have hborder := ih (by omega)
          exact ⟨Nat.succ_lt_succ hborder.lt, hborder.matched.extend hnext.2⟩
      · exact ⟨Nat.succ_pos i, matched_zero p p _⟩

/-- A place before the one where the entry begins was left behind when an earlier border broke
off. -/
theorem exists_breaksOff (p : List α) {i s : Nat} (hi : i ≤ p.length) (hs : 1 ≤ s)
    (hbefore : s < i - onePass p i) :
    ∃ k' i', BreaksOff p k' i' ∧ i' < i ∧ i' - k' ≤ s ∧ s ≤ i' := by
  induction i with
  | zero => omega
  | succ i ih =>
      by_cases hearlier : s < i - onePass p i
      · obtain ⟨k', i', hbreak, hlt, h⟩ := ih (by omega) hearlier
        exact ⟨k', i', hbreak, by omega, h⟩
      · by_cases hnext : i ≠ 0 ∧ p[i]? = p[onePass p i]?
        · rw [onePass, if_pos hnext] at hbefore
          omega
        · rw [onePass, if_neg hnext] at hbefore
          have hborder := onePass_isBorder p (i := i) (by omega)
          have hdiffer : p[onePass p i]? ≠ p[i]? := fun heq => hnext ⟨by omega, heq.symm⟩
          exact ⟨onePass p i, i, ⟨hborder, by omega, hdiffer⟩, by omega, by omega, by omega⟩

/-- Once a border has broken off, the entries begin behind it. -/
theorem onePass_behind (p : List α) {i i' : Nat} (hlt : i' < i) (hi' : 1 ≤ i')
    (hdiffer : p[onePass p i']? ≠ p[i']?) : i' + 1 ≤ i - onePass p i := by
  induction i with
  | zero => omega
  | succ i ih =>
      rcases Nat.lt_succ_iff_lt_or_eq.mp hlt with hlt | rfl
      · have hbehind := ih hlt
        rw [onePass]
        split <;> omega
      · rw [onePass, if_neg fun h => hdiffer h.2.symm]
        omega

/-- As long as none breaks off, the entry goes on from where it began. -/
theorem onePass_goes_on (p : List α) {i j : Nat} (hj : 1 ≤ j) (hji : j ≤ i)
    (hon : ∀ a, j ≤ a → a < i → p[onePass p a]? = p[a]?) : i - onePass p i = j - onePass p j := by
  induction i with
  | zero => omega
  | succ i ih =>
      rcases Nat.lt_or_eq_of_le hji with hlt | rfl
      · have hsame := ih (by omega) fun a ha hai => hon a ha (by omega)
        have hnext := hon i (by omega) (Nat.lt_succ_self i)
        rw [onePass, if_pos ⟨by omega, hnext.symm⟩]
        omega
      · rfl

/-! ## The borders it leaves out -/

/-- A border that the table leaves out, and that breaks off, so that the search would need it. -/
structure Lost (p : List α) (k i : Nat) : Prop where
  breaks : BreaksOff p k i
  longer : onePass p i < k

/-- A border that does not go on for ever breaks off. -/
theorem IsBorder.breaks_off {p : List α} {k j i : Nat} (h : IsBorder p k j) (hji : j ≤ i)
    (hi : i < p.length) (hdiffer : p[i - (j - k)]? ≠ p[i]?) :
    ∃ a, j ≤ a ∧ a ≤ i ∧ BreaksOff p (a - (j - k)) a := by
  have hlt := h.lt
  induction hd : i - j generalizing j k with
  | zero =>
      obtain rfl : j = i := by omega
      have hk : j - (j - k) = k := by omega
      rw [hk] at hdiffer
      exact ⟨j, Nat.le_refl j, Nat.le_refl j, hk.symm ▸ ⟨h, hi, hdiffer⟩⟩
  | succ d ih =>
      by_cases hnext : p[j]? = p[k]?
      · have hborder : IsBorder p (k + 1) (j + 1) := ⟨by omega, h.matched.extend hnext⟩
        have hstart : j + 1 - (k + 1) = j - k := by omega
        obtain ⟨a, hja, hai, hbreak⟩ :=
          ih hborder (by omega) (by rwa [hstart]) (by omega) (by omega)
        rw [hstart] at hbreak
        exact ⟨a, by omega, hai, hbreak⟩
      · have hk : j - (j - k) = k := by omega
        exact ⟨j, Nat.le_refl j, hji, hk.symm ▸ ⟨h, by omega, fun heq => hnext heq.symm⟩⟩

/-- Where a border is lost, the one that the table held on to was overrun. -/
theorem Lost.overrun {p : List α} {k i : Nat} (h : Lost p k i) :
    ∃ k' i', Overrun p k' i' k i := by
  have hlt := h.breaks.border.lt
  have hi := h.breaks.lt
  have hlonger := h.longer
  obtain ⟨k', i', hbreak, hii, hlo, hhi⟩ :=
    exists_breaksOff p (i := i) (s := i - k) (by omega) (by omega) (by omega)
  refine ⟨k', i', hbreak, h.breaks, Nat.lt_of_le_of_ne hlo ?_, hhi, hii⟩
  intro hsame
  -- the same place: the longer border has the letter at which the shorter broke off
  have hletter := h.breaks.border.matched.letter hhi hii
  rw [← hsame, show i' - (i' - k') = k' by have := hbreak.border.lt; omega] at hletter
  exact hbreak.differ hletter.symm

/-- Where one border overruns another, the table loses one that begins no later. By induction on
where the earlier breaks off: if the table has both, it has them inside a longer border, and a
copy of them stands at the beginning of the word. -/
theorem Overrun.lost {p : List α} {k' i' k i : Nat} (h : Overrun p k' i' k i) :
    ∃ l j, Lost p l j ∧ j - l ≤ i - k := by
  induction i' using Nat.strongRecOn generalizing k' k i with
  | ind i' ih =>
    have hlt' := h.earlier.border.lt
    have hlt := h.later.border.lt
    have hwithin := h.within
    have hbegins := h.begins
    have hfurther := h.further
    have hi := h.later.lt
    by_cases hearlier : onePass p i' < k'
    · exact ⟨k', i', ⟨h.earlier, hearlier⟩, Nat.le_of_lt hbegins⟩
    · by_cases hlater : onePass p i < k
      · exact ⟨k, i, ⟨h.later, hlater⟩, Nat.le_refl _⟩
      · -- nothing breaks off between `i'` and `i`, or the entry at `i` would begin behind it
        have hon : ∀ a, i' ≤ a → a < i → p[onePass p a]? = p[a]? := by
          intro a ha hai
          by_contra hdiffer
          have := onePass_behind p hai (by omega) hdiffer
          omega
        have hsame := onePass_goes_on p (j := i') (by omega) (by omega) hon
        have hborder' := onePass_isBorder p (i := i') (by omega)
        have hborder := onePass_isBorder p (i := i) (by omega)
        have hle' := hborder'.lt
        have hle := hborder.lt
        have hcopy := hon i' (Nat.le_refl i') hfurther
        have hne : k' ≠ onePass p i' := by
          rintro rfl
          exact h.earlier.differ hcopy
        have hearlier' : BreaksOff p k' (onePass p i') :=
          ⟨⟨by omega, hborder'.matched.inside h.earlier.border.matched (by omega)⟩, by omega,
            fun heq => h.earlier.differ (heq.trans hcopy)⟩
        have hinside : IsBorder p k (onePass p i) :=
          ⟨by omega, hborder.matched.inside h.later.border.matched (by omega)⟩
        -- the copy of the later one breaks off too, at `i` if not before
        have hdiffer : p[i - (onePass p i - k)]? ≠ p[i]? := by
          have hletter := hborder.matched.letter (a := i - (onePass p i - k)) (by omega) (by omega)
          rw [hletter, show i - (onePass p i - k) - (i - onePass p i) = k by omega]
          exact h.later.differ
        obtain ⟨a, hlo, hhi, hbreak⟩ := hinside.breaks_off (by omega) hi hdiffer
        obtain ⟨l, j, hlost, hstart⟩ :=
          ih (onePass p i') hle' ⟨hearlier', hbreak, by omega, by omega, by omega⟩
        exact ⟨l, j, hlost, by omega⟩

/-- **What the table must not lose** is told by the word alone. -/
theorem keepsBorders_iff (p : List α) (limit : Nat) :
    KeepsBorders p limit ↔ ∀ k i, Lost p k i → limit < i - k + p.length := by
  constructor
  · intro hkeeps k i hlost
    obtain ⟨k', i', hover⟩ := hlost.overrun
    exact hkeeps i hlost.breaks.lt k hlost.breaks.border.lt i' hover.further k'
      hover.earlier.border.lt hover
  · intro hlost i _ k _ i' _ k' _ hover
    obtain ⟨l, j, h, hle⟩ := hover.lost
    have := hlost l j h
    omega

end OnePass

end Unp.Border
