import Mathlib.Data.Finset.Sort
import Unp.Net.HandleSet

/-!
# Going through a `handle_set`

`select` is given the `fd_set` and takes bits out of it; the size and the largest handle that are
kept beside it stay what they were. So the walk of the dispatch is bounded by a handle that may not
be set any more, and its loop ends at the first bit that is set or at that handle, whichever comes
first.
-/

namespace Unp.Net

open Unp.Machine

namespace HandleSet

def isLastHandle (handle : Int) (s : HandleSet) : Bool := handle = s.maxHandle

/-- `while(!is_set(++current_handle) && current_handle < max_handle_);`. A bit outside the `fd_set`
is not looked at twice. -/
def scanUp (s : HandleSet) : Nat → Int → Res Int
  | 0, _ => .error .outOfFuel
  | fuel + 1, currentHandle => do
      let currentHandle := currentHandle + 1
      if ← s.isSet currentHandle then pure currentHandle
      else if currentHandle < s.maxHandle then s.scanUp fuel currentHandle
      else pure currentHandle

def nextHandle (currentHandle : Int) (s : HandleSet) : Res Int :=
  if s.size = 0 then pure invalidHandle
  else do
    -- the answer is only logged
    if currentHandle ≠ invalidHandle then let _ ← s.isSet currentHandle
    if s.isLastHandle currentHandle then pure invalidHandle
    else do
      let currentHandle ← s.scanUp (fdSetSize + 1) currentHandle
      if ← s.isSet currentHandle then pure currentHandle else pure invalidHandle

/-- The handles that the loop of `dispatch_io_set` goes through, behind `current_handle`. -/
def handlesFrom (s : HandleSet) : Nat → Int → Res (List Int)
  | 0, _ => .error .outOfFuel
  | fuel + 1, currentHandle => do
      let handle ← s.nextHandle currentHandle
      if handle = invalidHandle then pure []
      else do
        let rest ← s.handlesFrom fuel handle
        pure (handle :: rest)

/-- The set as `select` leaves it: the bits of the handles that are ready, under the size and the
largest handle of all that were waited for. -/
structure Left (s : HandleSet) (waited ready : Finset (Fin fdSetSize)) : Prop where
  subset : ready ⊆ waited
  isSet_eq : ∀ h : Fin fdSetSize, s.isSet h = .ok (decide (h ∈ ready))
  size_eq : s.size = waited.card
  maxHandle_eq : s.maxHandle = largest waited

/-- Before `select` has taken anything out. -/
theorem Represents.left {s : HandleSet} {m : Finset (Fin fdSetSize)} (hs : s.Represents m) :
    s.Left m m :=
  ⟨subset_rfl, hs.isSet_eq, hs.size_eq, hs.maxHandle_eq⟩

/-- The largest handle of a set that is not empty. -/
theorem exists_largest {m : Finset (Fin fdSetSize)} (hm : m.Nonempty) :
    ∃ top ∈ m, largest m = top ∧ ∀ h ∈ m, h ≤ top := by
  refine ⟨m.max' hm, m.max'_mem hm, largest_eq (m.max'_mem hm) ?_, ?_⟩
  · intro h hmem
    exact m.le_max' h hmem
  · intro h hmem
    exact m.le_max' h hmem

section Walk
variable {s : HandleSet} {waited ready : Finset (Fin fdSetSize)}

/-- `h` is the next handle behind `n - 1`. -/
def First (ready : Finset (Fin fdSetSize)) (n : Nat) (h : Fin fdSetSize) : Prop :=
  h ∈ ready ∧ n ≤ h ∧ ∀ h' ∈ ready, n ≤ (h' : Nat) → h ≤ h'

/-- A handle from `n` on is one behind `n`, when `n` is not ready. -/
theorem behind_of_notMem {n : Nat} {hlt : n < fdSetSize} (hmem : ⟨n, hlt⟩ ∉ ready)
    {h : Fin fdSetSize} (hready : h ∈ ready) (hge : n ≤ (h : Nat)) : n + 1 ≤ (h : Nat) := by
  apply Nat.lt_of_le_of_ne hge
  rintro rfl
  exact hmem hready

theorem First.down {n : Nat} {hlt : n < fdSetSize} (hmem : ⟨n, hlt⟩ ∉ ready) {h : Fin fdSetSize}
    (hfirst : First ready (n + 1) h) : First ready n h := by
  obtain ⟨hready, hge, hleast⟩ := hfirst
  refine ⟨hready, Nat.le_of_succ_le hge, ?_⟩
  intro h' hready' hge'
  exact hleast h' hready' (behind_of_notMem hmem hready' hge')

/-- The loop, from the handle before `n` on. The fuel is what is left of the `fd_set`. -/
theorem scanUp_spec (hbits : ∀ h : Fin fdSetSize, s.isSet h = .ok (decide (h ∈ ready)))
    {top : Fin fdSetSize} (htop : s.maxHandle = top) (hle : ∀ h ∈ ready, h ≤ top) (fuel : Nat)
    {n : Nat} (hn : n ≤ top) (hfuel : fdSetSize < n + fuel) :
    (∃ h, First ready n h ∧ s.scanUp fuel (n - 1) = .ok (h : Int)) ∨
      (∀ h ∈ ready, (h : Nat) < n) ∧ top ∉ ready ∧ s.scanUp fuel (n - 1) = .ok (top : Int) := by
  have htopLt := top.isLt
  induction fuel generalizing n with
  | zero => omega
  | succ fuel ih =>
      have hlt : n < fdSetSize := lt_of_le_of_lt hn htopLt
      have hbit := hbits ⟨n, hlt⟩
      have hnext : (n : Int) - 1 + 1 = n := by omega
      rw [scanUp, hnext]
      simp only at hbit ⊢
      rw [hbit, ok_bind]
      by_cases hmem : (⟨n, hlt⟩ : Fin fdSetSize) ∈ ready
      · left
        refine ⟨⟨n, hlt⟩, ⟨hmem, le_refl n, fun h' _ hn' => hn'⟩, ?_⟩
        rw [if_pos (decide_eq_true hmem)]
        rfl
      · rw [if_neg (by simpa using hmem), htop]
        by_cases hend : n < top
        · rw [if_pos (by omega)]
          have hstep := ih (n := n + 1) hend (by omega)
          rw [Nat.cast_add_one, Int.add_sub_cancel] at hstep
          rcases hstep with ⟨h, hfirst, hok⟩ | ⟨hall, hunset, hok⟩
          · exact Or.inl ⟨h, hfirst.down hmem, hok⟩
          · right
            refine ⟨?_, hunset, hok⟩
            intro h hready
            by_contra hge
            have hbehind := behind_of_notMem hmem hready (Nat.not_lt.mp hge)
            exact absurd (hall h hready) (Nat.not_lt.mpr hbehind)
        · have heq : n = top := by omega
          rw [if_neg (by omega)]
          right
          subst heq
          refine ⟨?_, hmem, rfl⟩
          intro h hready
          by_contra hge
          have hbehind := behind_of_notMem hmem hready (Nat.not_lt.mp hge)
          exact absurd (hle h hready) (Nat.not_le.mpr hbehind)

/-- One step of the walk, from the handle before `n` on. -/
theorem nextHandle_spec (hs : s.Left waited ready) (hne : waited.Nonempty) {n : Nat}
    (hn : (n : Int) ≤ s.maxHandle + 1) :
    (∃ h, First ready n h ∧ s.nextHandle (n - 1) = .ok (h : Int)) ∨
      (∀ h ∈ ready, (h : Nat) < n) ∧ s.nextHandle (n - 1) = .ok invalidHandle := by
  obtain ⟨top, htop, hlargest, hle⟩ := exists_largest hne
  have hmax : s.maxHandle = top := hs.maxHandle_eq.trans hlargest
  have hready : ∀ h ∈ ready, h ≤ top := fun h hmem => hle h (hs.subset hmem)
  have hsize : s.size ≠ 0 := by
    have := Finset.card_pos.mpr hne
    rw [hs.size_eq]
    omega
  -- the look at the handle itself stays inside the `fd_set`
  have hlook : ∀ k : Res Int,
      (do if (n : Int) - 1 ≠ invalidHandle then let _ ← s.isSet (n - 1)
          k) = k := by
    intro k
    by_cases hzero : n = 0
    · subst hzero
      rfl
    · have htopLt := top.isLt
      have hcast : (n : Int) - 1 = ((⟨n - 1, by omega⟩ : Fin fdSetSize) : Int) := by
        show (n : Int) - 1 = ((n - 1 : Nat) : Int)
        omega
      have hvalid : (n : Int) - 1 ≠ invalidHandle := hcast ▸ natCast_ne_invalid _
      rw [if_pos hvalid, hcast, hs.isSet_eq]
      rfl
  rw [nextHandle, if_neg hsize]
  simp only [hlook, isLastHandle, decide_eq_true_eq, hmax]
  by_cases hlast : (n : Int) - 1 = top
  · right
    rw [if_pos hlast]
    refine ⟨?_, rfl⟩
    intro h hmem
    have hle' : (h : Nat) ≤ top := hready h hmem
    omega
  · rw [if_neg hlast]
    rcases scanUp_spec hs.isSet_eq hmax hready (fdSetSize + 1) (n := n) (by omega)
      (by omega) with ⟨h, hfirst, hok⟩ | ⟨hall, hunset, hok⟩
    · left
      refine ⟨h, hfirst, ?_⟩
      rw [hok, ok_bind, hs.isSet_eq, ok_bind, if_pos (decide_eq_true hfirst.1)]
      rfl
    · right
      refine ⟨hall, ?_⟩
      rw [hok, ok_bind, hs.isSet_eq, ok_bind, if_neg (by simpa using hunset)]
      rfl

/-- The ready handles from `n` on. -/
def upFrom (ready : Finset (Fin fdSetSize)) (n : Nat) : Finset (Fin fdSetSize) :=
  ready.filter fun h => n ≤ (h : Nat)

theorem mem_upFrom {n : Nat} {h : Fin fdSetSize} : h ∈ upFrom ready n ↔ h ∈ ready ∧ n ≤ (h : Nat) :=
  Finset.mem_filter

theorem upFrom_first {n : Nat} {h : Fin fdSetSize} (hfirst : First ready n h) :
    upFrom ready n = insert h (upFrom ready (h + 1)) := by
  obtain ⟨hmem, hge, hleast⟩ := hfirst
  ext h'
  rw [Finset.mem_insert, mem_upFrom, mem_upFrom]
  constructor
  · intro ⟨hmem', hge'⟩
    have hle : (h : Nat) ≤ h' := hleast h' hmem' hge'
    rcases Nat.eq_or_lt_of_le hle with heq | hlt
    · exact Or.inl (Fin.ext heq.symm)
    · exact Or.inr ⟨hmem', hlt⟩
  · rintro (rfl | ⟨hmem', hlt⟩)
    · exact ⟨hmem, hge⟩
    · exact ⟨hmem', by omega⟩

theorem handlesFrom_spec (hs : s.Left waited ready) (hne : waited.Nonempty) {fuel n : Nat}
    (hn : (n : Int) ≤ s.maxHandle + 1) (hfuel : (upFrom ready n).card < fuel) :
    s.handlesFrom fuel (n - 1) = .ok ((upFrom ready n).sort.map fun h => (h : Int)) := by
  induction fuel generalizing n with
  | zero => omega
  | succ fuel ih =>
      rw [handlesFrom]
      rcases nextHandle_spec hs hne hn with ⟨h, hfirst, hok⟩ | ⟨hall, hok⟩
      · have hsplit := upFrom_first hfirst
        have hnew : h ∉ upFrom ready (h + 1) := by
          rw [mem_upFrom]
          omega
        have hless : ∀ h' ∈ upFrom ready (h + 1), h ≤ h' := by
          intro h' hmem
          exact Nat.le_of_succ_le (mem_upFrom.mp hmem).2
        have hmax : ((h + 1 : Nat) : Int) ≤ s.maxHandle + 1 := by
          rw [hs.maxHandle_eq]
          have := le_largest (hs.subset hfirst.1)
          omega
        rw [hsplit, Finset.card_insert_of_notMem hnew] at hfuel
        have hrest := ih hmax (by omega)
        rw [Nat.cast_add_one, Int.add_sub_cancel] at hrest
        rw [hok, ok_bind, if_neg (natCast_ne_invalid h), hrest, ok_bind, hsplit,
          Finset.sort_insert _ hless hnew]
        rfl
      · have hempty : upFrom ready n = ∅ := by
          apply Finset.eq_empty_of_forall_notMem
          intro h hmem
          obtain ⟨hready, hge⟩ := mem_upFrom.mp hmem
          have := hall h hready
          omega
        rw [hok, ok_bind, if_pos rfl, hempty, Finset.sort_empty]
        rfl

/-- **Every ready handle once, in order.** The largest of the handles that were waited for ends the
walk, whether it is ready or not. -/
theorem handlesFrom_sorted (hs : s.Left waited ready) (hne : waited.Nonempty) {fuel : Nat}
    (hfuel : ready.card < fuel) :
    s.handlesFrom fuel invalidHandle = .ok (ready.sort.map fun h => (h : Int)) := by
  have hall : upFrom ready 0 = ready := Finset.filter_true_of_mem fun _ _ => Nat.zero_le _
  obtain ⟨top, -, hlargest, -⟩ := exists_largest hne
  have hmax : ((0 : Nat) : Int) ≤ s.maxHandle + 1 := by
    rw [hs.maxHandle_eq, hlargest]
    omega
  rw [← hall] at hfuel ⊢
  exact handlesFrom_spec hs hne hmax hfuel

end Walk

def nine : Fin fdSetSize := ⟨9, by decide⟩

/-- Five and nine were waited for, and only five is ready. -/
def nineNotReady : HandleSet where
  size := 2
  maxHandle := 9
  set h := h = five

theorem nineNotReady_left : nineNotReady.Left {five, nine} {five} where
  subset := by simp
  isSet_eq h := by
    rw [isSet_natCast]
    simp [nineNotReady]
  size_eq := rfl
  maxHandle_eq := by
    rw [largest_insert]
    decide

theorem handlesFrom_nineNotReady : nineNotReady.handlesFrom 2 invalidHandle =
    .ok (({five} : Finset (Fin fdSetSize)).sort.map fun h => (h : Int)) :=
  handlesFrom_sorted nineNotReady_left (by simp) (by decide)

example : nineNotReady.handlesFrom 2 invalidHandle = .ok [5] := by decide +kernel

end HandleSet

end Unp.Net
