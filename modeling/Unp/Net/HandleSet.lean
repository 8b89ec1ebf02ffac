import Mathlib.Data.Finset.Card
import Mathlib.Data.Finset.Fold
import Mathlib.Data.Fintype.Basic
import Mathlib.Logic.Function.Basic
import Unp.Lib.Run

/-!
# `handle_set`: a set of handles

An `fd_set` with two members beside it: the number of handles that are set, and the largest one. When
the largest handle is taken out, the next one is looked for downwards, and nothing stops the search
at zero; so a set that loses its only handle is looked at below its first bit.

Handles are `int`s. A bit outside the `fd_set` can not be touched.
-/

namespace Unp.Net

open Unp.Machine Unp.Run

/-- `FD_SETSIZE`. -/
def fdSetSize : Nat := 1024

/-- `INVALID_HANDLE`. -/
def invalidHandle : Int := -1

/-- The bits of an `fd_set`. -/
abbrev FdSet := Fin fdSetSize → Bool

structure HandleSet where
  size : Int
  maxHandle : Int
  set : FdSet

namespace HandleSet

/-- The bit of a handle. -/
def bit (handle : Int) : Res (Fin fdSetSize) :=
  if h : handle.toNat < fdSetSize ∧ 0 ≤ handle then .ok ⟨handle.toNat, h.1⟩
  else .error .outOfBounds

/-- A set after `reset()`. -/
def reset : HandleSet := ⟨0, invalidHandle, fun _ => false⟩

def isSet (handle : Int) (s : HandleSet) : Res Bool := do
  let b ← bit handle
  pure (s.set b)

/-- `FD_SET` and `FD_CLR`. -/
def write (handle : Int) (value : Bool) (s : HandleSet) : Res HandleSet := do
  let b ← bit handle
  pure { s with set := Function.update s.set b value }

def setBit (handle : Int) (s : HandleSet) : Res HandleSet :=
  if handle = invalidHandle then pure s
  else do
    if ← s.isSet handle then pure s
    else do
      let s ← s.write handle true
      pure { s with
        size := s.size + 1
        maxHandle := if s.maxHandle < handle then handle else s.maxHandle }

/-- `while(!is_set(--tmp_handle));`, for a `tmp_handle` that is not negative. -/
def scanDown (s : HandleSet) : Nat → Res Int
  | 0 => do
      -- `tmp_handle` is `-1` from here on
      if ← s.isSet (-1) then pure (-1) else .error .outOfFuel
  | n + 1 => do
      if ← s.isSet n then pure n else s.scanDown n

def unsetBit (handle : Int) (s : HandleSet) : Res HandleSet :=
  if handle = invalidHandle ∨ (fdSetSize : Int) ≤ handle then pure s
  else do
    if ← s.isSet handle then do
      let s ← s.write handle false
      let s := { s with size := s.size - 1 }
      if handle = s.maxHandle then do
        let maxHandle ← s.scanDown (handle + 1).toNat
        pure { s with maxHandle }
      else pure s
    else pure s

/-! ## The set of handles -/

inductive Op where
  | setBit (handle : Fin fdSetSize)
  | unsetBit (handle : Fin fdSetSize)
  deriving DecidableEq

def step : Op → HandleSet → Res (Unit × HandleSet)
  | .setBit handle, s => do
      let s ← s.setBit handle
      pure ((), s)
  | .unsetBit handle, s => do
      let s ← s.unsetBit handle
      pure ((), s)

/-- What a call does to the set that is meant. -/
def apply : Op → Finset (Fin fdSetSize) → Finset (Fin fdSetSize)
  | .setBit handle, m => insert handle m
  | .unsetBit handle, m => m.erase handle

/-- The largest handle, or `INVALID_HANDLE`. -/
def largest (m : Finset (Fin fdSetSize)) : Int :=
  m.fold max invalidHandle fun h : Fin fdSetSize => (h : Int)

structure Represents (s : HandleSet) (m : Finset (Fin fdSetSize)) : Prop where
  isSet_eq : ∀ h : Fin fdSetSize, s.isSet h = .ok (decide (h ∈ m))
  size_eq : s.size = m.card
  maxHandle_eq : s.maxHandle = largest m

/-- The call does not take out the only handle. -/
def LeavesOne (m : Finset (Fin fdSetSize)) (op : Op) : Prop := ∀ h, op = .unsetBit h → m ≠ {h}

section Bits

theorem bit_natCast (h : Fin fdSetSize) : bit (h : Int) = .ok h := by
  have hcond : (h : Int).toNat < fdSetSize ∧ (0 : Int) ≤ (h : Int) := by
    have := h.isLt
    omega
  rw [bit, dif_pos hcond]
  rfl

theorem isSet_natCast (s : HandleSet) (h : Fin fdSetSize) : s.isSet h = .ok (s.set h) := by
  rw [isSet, bit_natCast]
  rfl

theorem write_natCast (s : HandleSet) (h : Fin fdSetSize) (value : Bool) :
    s.write h value = .ok { s with set := Function.update s.set h value } := by
  rw [write, bit_natCast]
  rfl

theorem natCast_ne_invalid (h : Fin fdSetSize) : (h : Int) ≠ invalidHandle := by
  unfold invalidHandle
  omega

/-- A bit that can be looked at is the bit of some handle. -/
theorem exists_bit {s : HandleSet} {handle : Int} {value : Bool} (h : s.isSet handle = .ok value) :
    ∃ b : Fin fdSetSize, handle = b := by
  unfold isSet bit at h
  split at h
  · next hcond => exact ⟨⟨handle.toNat, hcond.1⟩, (Int.toNat_of_nonneg hcond.2).symm⟩
  · cases h

theorem setBit_handle {s s' : HandleSet} {handle : Int} (hvalid : handle ≠ invalidHandle)
    (h : s.setBit handle = .ok s') : ∃ b : Fin fdSetSize, handle = b := by
  rw [setBit, if_neg hvalid] at h
  obtain ⟨value, hbit, -⟩ := bind_eq_ok h
  exact exists_bit hbit

/-- What is not set is not changed. -/
theorem unsetBit_idle {s s' : HandleSet} {handle : Int} (hbit : s.isSet handle ≠ .ok true)
    (h : s.unsetBit handle = .ok s') : s' = s := by
  unfold unsetBit at h
  split at h
  · cases h
    rfl
  · obtain ⟨value, hvalue, h⟩ := bind_eq_ok h
    cases value with
    | true => exact absurd hvalue hbit
    | false =>
        cases h
        rfl

theorem unsetBit_clears {s s' : HandleSet} {handle : Int} (hbit : s.isSet handle = .ok true)
    (h : s.unsetBit handle = .ok s') : s'.isSet handle = .ok false := by
  obtain ⟨b, rfl⟩ := exists_bit hbit
  have hcleared : ∀ size maxHandle : Int,
      (⟨size, maxHandle, Function.update s.set b false⟩ : HandleSet).isSet b = .ok false := by
    intro size maxHandle
    rw [isSet_natCast]
    exact congrArg _ (Function.update_self b false s.set)
  unfold unsetBit at h
  split at h
  · next hout =>
      have := b.isLt
      have := natCast_ne_invalid b
      omega
  · rw [hbit, ok_bind, if_pos rfl, write_natCast, ok_bind] at h
    dsimp only at h
    split at h
    · obtain ⟨maxHandle, -, h⟩ := bind_eq_ok h
      cases h
      exact hcleared _ _
    · cases h
      exact hcleared _ _

end Bits

/-! ## The largest handle -/

theorem largest_insert (h : Fin fdSetSize) (m : Finset (Fin fdSetSize)) :
    largest (insert h m) = max (h : Int) (largest m) := Finset.fold_insert_idem

theorem le_largest {h : Fin fdSetSize} {m : Finset (Fin fdSetSize)} (hmem : h ∈ m) :
    (h : Int) ≤ largest m := (Finset.le_fold_max _).mpr (Or.inr ⟨h, hmem, le_rfl⟩)

theorem largest_eq {h : Fin fdSetSize} {m : Finset (Fin fdSetSize)} (hmem : h ∈ m)
    (hmax : ∀ h' ∈ m, h' ≤ h) : largest m = h := by
  refine le_antisymm ?_ (le_largest hmem)
  refine (Finset.fold_max_le _).mpr ⟨?_, ?_⟩
  · unfold invalidHandle
    omega
  · intro h' hmem'
    exact_mod_cast hmax h' hmem'

theorem largest_mem {m : Finset (Fin fdSetSize)} {h : Fin fdSetSize} (hlargest : (h : Int) = largest m) :
    ∀ h' ∈ m, h' ≤ h := by
  intro h' hmem
  have hle := le_largest hmem
  rw [← hlargest] at hle
  exact_mod_cast hle

/-- The search finds the largest handle below its start, or falls off the set. -/
theorem scanDown_spec {s : HandleSet} {m : Finset (Fin fdSetSize)}
    (hbits : ∀ h : Fin fdSetSize, s.isSet h = .ok (decide (h ∈ m))) {n : Nat} (hn : n ≤ fdSetSize) :
    (∃ h ∈ m, (h : Nat) < n ∧ (∀ h' ∈ m, (h' : Nat) < n → h' ≤ h) ∧ s.scanDown n = .ok (h : Int)) ∨
      (∀ h ∈ m, n ≤ (h : Nat)) ∧ s.scanDown n = .error .outOfBounds := by
  induction n with
  | zero => exact Or.inr ⟨fun _ _ => Nat.zero_le _, rfl⟩
  | succ n ih =>
      have hbit := hbits ⟨n, hn⟩
      by_cases hmem : (⟨n, hn⟩ : Fin fdSetSize) ∈ m
      · refine Or.inl ⟨⟨n, hn⟩, hmem, Nat.lt_succ_self n, ?_, ?_⟩
        · intro h' _ hlt
          exact Nat.le_of_lt_succ hlt
        · rw [scanDown, hbit, ok_bind, if_pos (by simpa using hmem)]
          rfl
      · have hscan : s.scanDown (n + 1) = s.scanDown n := by
          rw [scanDown, hbit, ok_bind, if_neg (by simpa using hmem)]
        have hne : ∀ h ∈ m, (h : Nat) ≠ n := by
          rintro h hh rfl
          exact hmem hh
        rw [hscan]
        rcases ih (Nat.le_of_succ_le hn) with ⟨h, hh, hlt, hmax, hok⟩ | ⟨hall, herr⟩
        · refine Or.inl ⟨h, hh, Nat.lt_succ_of_lt hlt, ?_, hok⟩
          intro h' hh' hlt'
          have := hne h' hh'
          exact hmax h' hh' (by omega)
        · refine Or.inr ⟨?_, herr⟩
          intro h hh
          have := hne h hh
          have := hall h hh
          omega

/-! ## One call -/

section Calls
variable {s : HandleSet} {m : Finset (Fin fdSetSize)}

theorem reset_represents : reset.Represents ∅ where
  isSet_eq h := by
    rw [isSet_natCast]
    rfl
  size_eq := rfl
  maxHandle_eq := rfl

theorem Represents.update (hs : s.Represents m) (h : Fin fdSetSize) (value : Bool)
    {m' : Finset (Fin fdSetSize)} (hself : h ∈ m' ↔ value = true)
    (hother : ∀ h' ≠ h, (h' ∈ m' ↔ h' ∈ m)) (size maxHandle : Int) (h' : Fin fdSetSize) :
    (⟨size, maxHandle, Function.update s.set h value⟩ : HandleSet).isSet h' =
      .ok (decide (h' ∈ m')) := by
  have hold := hs.isSet_eq h'
  rw [isSet_natCast] at hold ⊢
  dsimp only
  by_cases heq : h' = h
  · subst heq
    rw [Function.update_self]
    simp [hself]
  · rw [Function.update_of_ne heq, Except.ok.inj hold]
    simp [hother h' heq]

theorem Represents.setBit (hs : s.Represents m) (h : Fin fdSetSize) :
    ∃ s', s.setBit h = .ok s' ∧ s'.Represents (insert h m) := by
  rw [HandleSet.setBit, if_neg (natCast_ne_invalid h), hs.isSet_eq, ok_bind]
  by_cases hmem : h ∈ m
  · rw [if_pos (by simpa using hmem), Finset.insert_eq_of_mem hmem]
    exact ⟨s, rfl, hs⟩
  · rw [if_neg (by simpa using hmem), write_natCast, ok_bind]
    refine ⟨_, rfl, ?_, ?_, ?_⟩
    · refine hs.update h true (by simp) ?_ _ _
      intro h' hne
      simp [hne]
    · show s.size + 1 = _
      rw [Finset.card_insert_of_notMem hmem, hs.size_eq]
      rfl
    · show (if s.maxHandle < (h : Int) then (h : Int) else s.maxHandle) = _
      rw [largest_insert, hs.maxHandle_eq]
      split <;> omega

/-- The handles without the one that is taken out, as far as `is_set` goes. -/
theorem Represents.cleared (hs : s.Represents m) (h : Fin fdSetSize) (size maxHandle : Int) :
    ∀ h' : Fin fdSetSize, (⟨size, maxHandle, Function.update s.set h false⟩ : HandleSet).isSet h' =
      .ok (decide (h' ∈ m.erase h)) := by
  refine hs.update h false (by simp) ?_ size maxHandle
  intro h' hne
  simp [hne]

theorem Represents.unsetBit (hs : s.Represents m) (h : Fin fdSetSize) (hone : m ≠ {h}) :
    ∃ s', s.unsetBit h = .ok s' ∧ s'.Represents (m.erase h) := by
  have hlt : ¬ ((h : Int) = invalidHandle ∨ (fdSetSize : Int) ≤ (h : Int)) := by
    have := h.isLt
    have := natCast_ne_invalid h
    omega
  rw [HandleSet.unsetBit, if_neg hlt, hs.isSet_eq, ok_bind]
  by_cases hmem : h ∈ m
  · rw [if_pos (by simpa using hmem), write_natCast, ok_bind]
    have hsize : s.size - 1 = (m.erase h).card := by
      have hpos := Finset.card_pos.mpr ⟨h, hmem⟩
      rw [Finset.card_erase_of_mem hmem, hs.size_eq]
      omega
    dsimp only
    by_cases hmax : (h : Int) = s.maxHandle
    · -- the largest handle goes: the search starts at it and finds the next one
      rw [if_pos hmax]
      have htop : ∀ h' ∈ m, h' ≤ h := largest_mem (hmax.trans hs.maxHandle_eq)
      have hbits := hs.cleared h (s.size - 1) s.maxHandle
      have hstart : ((h : Int) + 1).toNat ≤ fdSetSize := by
        have := h.isLt
        omega
      rcases scanDown_spec hbits hstart with ⟨h₁, hmem₁, -, hmax₁, hok⟩ | ⟨hall, -⟩
      · rw [hok, ok_bind]
        refine ⟨_, rfl, hs.cleared h _ _, hsize, ?_⟩
        refine (largest_eq hmem₁ ?_).symm
        intro h' hmem'
        have hle : (h' : Nat) ≤ h := htop h' (Finset.mem_of_mem_erase hmem')
        exact hmax₁ h' hmem' (by omega)
      · -- nothing is left below it, so it was the only one
        refine absurd ?_ hone
        refine Finset.eq_singleton_iff_unique_mem.mpr ⟨hmem, ?_⟩
        intro h' hmem'
        by_contra hne
        have hle : (h' : Nat) ≤ h := htop h' hmem'
        have := hall h' (Finset.mem_erase.mpr ⟨hne, hmem'⟩)
        omega
    · rw [if_neg hmax]
      refine ⟨_, rfl, hs.cleared h _ _, hsize, ?_⟩
      show s.maxHandle = _
      rw [hs.maxHandle_eq] at hmax ⊢
      conv_lhs => rw [← Finset.insert_erase hmem, largest_insert]
      rw [← Finset.insert_erase hmem, largest_insert] at hmax
      omega
  · rw [if_neg (by simpa using hmem), Finset.erase_eq_of_notMem hmem]
    exact ⟨s, rfl, hs⟩

/-- The search for a new largest handle leaves the `fd_set` when there is none. -/
theorem Represents.unsetBit_only {h : Fin fdSetSize} (hs : s.Represents {h}) :
    s.unsetBit h = .error .outOfBounds := by
  have hlt : ¬ ((h : Int) = invalidHandle ∨ (fdSetSize : Int) ≤ (h : Int)) := by
    have := h.isLt
    have := natCast_ne_invalid h
    omega
  have hmax : (h : Int) = s.maxHandle := by
    rw [hs.maxHandle_eq]
    exact (largest_eq (Finset.mem_singleton_self h) (by simp)).symm
  rw [HandleSet.unsetBit, if_neg hlt, hs.isSet_eq, ok_bind, if_pos (by simp), write_natCast, ok_bind]
  dsimp only
  rw [if_pos hmax]
  have hstart : ((h : Int) + 1).toNat ≤ fdSetSize := by
    have := h.isLt
    omega
  rcases scanDown_spec (hs.cleared h (s.size - 1) s.maxHandle) hstart with ⟨h₁, hmem, -⟩ | ⟨-, herr⟩
  · simp at hmem
  · rw [herr, error_bind]

end Calls

/-! ## Runs -/

theorem Represents.step {s : HandleSet} {m : Finset (Fin fdSetSize)} {op : Op}
    (hs : s.Represents m) (hop : LeavesOne m op) :
    ∃ o s', step op s = .ok (o, s') ∧ s'.Represents (apply op m) := by
  cases op with
  | setBit h =>
      obtain ⟨s', hok, hs'⟩ := hs.setBit h
      exact ⟨(), s', by rw [HandleSet.step, hok]; rfl, hs'⟩
  | unsetBit h =>
      obtain ⟨s', hok, hs'⟩ := hs.unsetBit h (hop h rfl)
      exact ⟨(), s', by rw [HandleSet.step, hok]; rfl, hs'⟩

/-- **A `handle_set` is a finite set** as long as its only handle is not taken out. -/
theorem represents_iff (ops : List Op) :
    Tracks step apply Represents reset ∅ ops ↔ Admissible apply LeavesOne ∅ ops := by
  refine run_tracks_iff (fun s m op hs hop => hs.step hop) ?_ ops reset_represents
  intro s m op o s' hs hop hstep
  obtain ⟨h, rfl, rfl⟩ : ∃ h, op = .unsetBit h ∧ m = {h} := by
    simpa [LeavesOne] using hop
  rw [step, hs.unsetBit_only] at hstep
  cases hstep

def five : Fin fdSetSize := ⟨5, by decide⟩

/-- One handle, set and taken out again. -/
theorem scan_leaves_set :
    ¬ Tracks step apply Represents reset ∅ [.setBit five, .unsetBit five] := by
  rintro ⟨-, o₁, s₁, -, hs₁, o₂, s₂, hstep, -⟩
  have honly : s₁.Represents {five} := hs₁
  rw [step, honly.unsetBit_only] at hstep
  cases hstep

end HandleSet

end Unp.Net
