import Unp.Buffer.Queue

/-!
# Calls that refuse

`append` returns `-1` for a null pointer, for no bytes, and when the chain it has been given turns out
to be too small. That happens for 4 GiB and more: the chain is made for the length as an `uint32_t`,
and by then it is in the list. `pullup` returns null for a size that is larger than the buffer, and
compares as unsigned numbers.
-/

namespace Unp.Reactor
namespace Buffer

open Unp.Machine Unp.LinkedChain Unp.Run BufferChain

/-! ## `append` -/

/-- The last chain has room for the low 32 bits of the length. -/
def HasRoom (b : Buffer) (dataLen : Nat) : Prop :=
  ∃ init l lc, b.chains = init ++ [(l, lc)] ∧ u32 dataLen ≤ lc.chainFreeSpace

/-- The room that was there is the only room that leaves the buffer alone. -/
theorem Expanded.eq_iff {al : Allocator Addr} {b b' : Buffer} {n : Nat} {a : Addr}
    (hwf : b.WellFormed) (h : Expanded al b n a b') :
    b' = b ↔ ∃ init l lc, b.chains = init ++ [(l, lc)] ∧ n ≤ lc.chainFreeSpace := by
  have hlonger : (b.pushBack al (new (some b.self) n)).chains.length = b.chains.length + 1 := by
    unfold pushBack
    split
    · next hlast => simp [lastAddr_eq_none.mp hlast]
    · simp [modifyAt]
  have hpushed : b.pushBack al (new (some b.self) n) ≠ b := by
    intro heq
    rw [heq] at hlonger
    omega
  cases h with
  | first h0 =>
      refine iff_of_false hpushed ?_
      rintro ⟨init, l, lc, hsnoc, -⟩
      rw [hwf.chains_eq_nil h0] at hsnoc
      simp at hsnoc
  | inPlace hsnoc hroom => exact iff_of_true rfl ⟨_, _, _, hsnoc, hroom⟩
  | pushed hsnoc hpush =>
      refine iff_of_false hpushed ?_
      rintro ⟨init, l, lc, hsnoc', hroom⟩
      obtain ⟨-, heq⟩ := List.append_inj' (hsnoc.symm.trans hsnoc') rfl
      cases heq
      exact absurd hpush.1 (Nat.not_lt.mpr hroom)
  | @resized init init' l _ lc c _ hsnoc hsmall _ hroomy _ _ _ hlarger =>
      have hlc : lc.Ok := (hwf.good (l, lc) (by rw [hsnoc]; simp)).ok
      rw [hlc.chainFreeSpace_eq] at hsmall
      constructor
      · -- the copy is larger than what it has replaced
        rintro rfl
        obtain ⟨-, heq⟩ := List.append_inj' (hsnoc.symm.trans hroomy.chains_eq) rfl
        cases heq
        omega
      · rintro ⟨init₂, l₂, lc₂, hsnoc₂, hroom⟩
        obtain ⟨-, heq⟩ := List.append_inj' (hsnoc.symm.trans hsnoc₂) rfl
        cases heq
        rw [hlc.chainFreeSpace_eq] at hroom
        omega

/-- A chain is refused when it is made for another length than the one asked for. -/
theorem appendData_refused {al : Allocator Addr} {b b' : Buffer} {data : Option (List Byte)}
    {dataLen : Nat} (hrun : b.appendData al data dataLen = .ok (-1, b')) :
    ((data = none ∨ dataLen = 0) ∧ b' = b) ∨
      ∃ a c, b.expandIfNeeded al (u32 dataLen) = .ok (a, b') ∧ ¬ (data = none ∨ dataLen = 0) ∧
        b'.getChain a = .ok c ∧ c.chainFreeSpace < dataLen := by
  rw [appendData] at hrun
  split at hrun
  · next hnone =>
      cases hrun
      exact Or.inl ⟨hnone, rfl⟩
  · next hsome =>
      obtain ⟨⟨a, b₁⟩, hexpand, hrun⟩ := bind_eq_ok hrun
      obtain ⟨c, hget, hrun⟩ := bind_eq_ok hrun
      split at hrun
      · next hsmall =>
          cases hrun
          exact Or.inr ⟨a, c, hexpand, hsome, hget, hsmall⟩
      · obtain ⟨⟨_, c'⟩, -, hrun⟩ := bind_eq_ok hrun
        have hret := congrArg Prod.fst (Except.ok.inj hrun)
        dsimp only at hret
        omega

theorem appendData_of_small {al : Allocator Addr} {b b' : Buffer} {data : Option (List Byte)}
    {dataLen : Nat} {a : Addr} {c : BufferChain} (hdata : data ≠ none) (h0 : dataLen ≠ 0)
    (hexpand : b.expandIfNeeded al (u32 dataLen) = .ok (a, b')) (hget : b'.getChain a = .ok c)
    (hsmall : c.chainFreeSpace < dataLen) : b.appendData al data dataLen = .ok (-1, b') := by
  rw [appendData, if_neg (not_or.mpr ⟨hdata, h0⟩), hexpand, ok_bind]
  dsimp only
  rw [hget, ok_bind, if_pos hsmall, pure_eq_ok]

/-- 4 GiB for an empty buffer: there is a chain now. -/
theorem appendData_leaves_chain :
    ∃ b', (empty 0).appendData .succMax (some (calloc (2 ^ 32))) (2 ^ 32) = .ok (-1, b') ∧
      b'.chains.length = 1 ∧ b' ≠ empty 0 := by
  have hexpand : ∃ r, (empty 0).expandIfNeeded .succMax (u32 (2 ^ 32)) = .ok r ∧
      (∃ c, r.2.getChain r.1 = .ok c ∧ c.chainFreeSpace < 2 ^ 32) ∧ r.2.chains.length = 1 ∧
        r.2 ≠ empty 0 := by decide +kernel
  obtain ⟨⟨a, b'⟩, hexpand, ⟨c, hget, hsmall⟩, hone⟩ := hexpand
  exact ⟨b', appendData_of_small (by simp) (by decide) hexpand hget hsmall, hone⟩

/-- **A refused `append` has no effect** exactly when it was refused at once, or the room for the low
bits of the length was there. -/
theorem appendData_refused_iff {al : Allocator Addr} {b b' : Buffer} {data : Option (List Byte)}
    {dataLen : Nat} (h : b.WellFormed) (hrun : b.appendData al data dataLen = .ok (-1, b')) :
    b' = b ↔ data = none ∨ dataLen = 0 ∨ b.HasRoom dataLen := by
  rcases appendData_refused hrun with ⟨hnone, hsame⟩ | ⟨a, c, hexpand, hsome, -, -⟩
  · exact iff_of_true hsame (or_assoc.mp (Or.inl hnone))
  · obtain ⟨a', b₁, hexpand', hexpanded⟩ :=
      expandIfNeeded_expanded al h (n := u32 dataLen) (Nat.mod_lt _ (by decide))
    rw [hexpand] at hexpand'
    cases hexpand'
    rw [hexpanded.eq_iff h]
    obtain ⟨hdata, hzero⟩ := not_or.mp hsome
    constructor
    · exact fun hroom => Or.inr (Or.inr hroom)
    · exact fun hroom => (hroom.resolve_left hdata).resolve_left hzero

/-- 4 GiB for a buffer of two chains, the second of which has room: nothing happens. -/
theorem appendData_refused_iff_twoChains :
    ∃ history b b', run Op.step Op.twoChainCalls (empty 0) = .ok (history, b) ∧
      b.appendData .succMax (some (calloc (2 ^ 32))) (2 ^ 32) = .ok (-1, b') ∧
      (b' = b ↔ some (calloc (2 ^ 32)) = none ∨ 2 ^ 32 = 0 ∨ b.HasRoom (2 ^ 32)) := by
  obtain ⟨history, b, hrun, hwf, -⟩ := Op.twoChainCalls_run
  have hexpand : ∃ r, run Op.step Op.twoChainCalls (empty 0) = .ok r ∧
      ∃ s, r.2.expandIfNeeded .succMax (u32 (2 ^ 32)) = .ok s ∧
        ∃ c, s.2.getChain s.1 = .ok c ∧ c.chainFreeSpace < 2 ^ 32 := by decide +kernel
  obtain ⟨r, hrun', ⟨a, b'⟩, hexpand, c, hget, hsmall⟩ := hexpand
  rw [hrun] at hrun'
  cases hrun'
  have hrefused : b.appendData .succMax (some (calloc (2 ^ 32))) (2 ^ 32) = .ok (-1, b') :=
    appendData_of_small (by simp) (by decide) hexpand hget hsmall
  exact ⟨history, b, b', hrun, hrefused, appendData_refused_iff hwf hrefused⟩

/-! ## `pullup` -/

/-- What the header says of a negative size: everything is in one chain, and the pointer is to its
first byte. -/
def Linearised (b : Buffer) (r : Res (Option DataPtr × Buffer)) : Prop :=
  ∃ a c b', r = .ok (some ⟨a, c.misalign⟩, b') ∧ b'.WellFormed ∧ b'.content = b.content ∧
    b'.chains = [(a, c)]

/-- A negative size is a huge one. -/
theorem pullup_negative (al : Allocator Addr) {b : Buffer} {size : Int} (hlo : -2 ^ 63 ≤ size)
    (hneg : size < 0) (hlt : b.totalLen < 2 ^ 63) : b.pullup al size = .ok (none, b) := by
  have hguard : size = 0 ∨ b.totalLen < u64OfInt size := by
    unfold u64OfInt
    omega
  rw [pullup, if_pos hguard, pure_eq_ok]

/-- Three bytes in two chains stay where they are, and the pointer is null. -/
theorem pullup_negative_null : ∃ r, run Op.step Op.twoChainCalls (empty 0) = .ok r ∧
    r.2.totalLen = 3 ∧ r.2.pullup .succMax (-1) = .ok (none, r.2) ∧
    ¬ r.2.Linearised (r.2.pullup .succMax (-1)) := by
  have hshape : ∃ r, run Op.step Op.twoChainCalls (empty 0) = .ok r ∧ r.2.totalLen = 3 := by
    decide +kernel
  obtain ⟨r, hrun, htotal⟩ := hshape
  have hnull := @pullup_negative .succMax r.2 (-1) (by decide) (by decide) (by omega)
  refine ⟨r, hrun, htotal, hnull, ?_⟩
  rintro ⟨a, c, b', hok, -⟩
  rw [hnull] at hok
  cases hok

/-- **`pullup` of everything** is never done. A buffer that is larger than every negative size cannot
be in one chain. -/
theorem not_linearised (al : Allocator Addr) {b : Buffer} {size : Int} (h : b.WellFormed)
    (hlo : -2 ^ 63 ≤ size) (hneg : size < 0) : ¬ b.Linearised (b.pullup al size) := by
  rintro ⟨a, c, b', hrun, hwf, hcontent, hone⟩
  by_cases hlt : b.totalLen < 2 ^ 63
  · rw [pullup_negative al hlo hneg hlt] at hrun
    cases hrun
  · have hc : b'.chains = [] ++ (a, c) :: [] := hone
    have hok := hwf.ok_split hc
    have htotal := hwf.total_split hc
    have hlen := hok.length_data
    have hoff := hok.off_le
    have hcap := hok.capacity_lt
    have hsame : b.totalLen = b'.totalLen := by rw [h.total_eq, hwf.total_eq, hcontent]
    simp only [bytes_nil, List.length_nil] at htotal
    omega

theorem not_linearised_twoChains :
    ∃ history b, run Op.step Op.twoChainCalls (empty 0) = .ok (history, b) ∧
      ¬ b.Linearised (b.pullup .succMax (-1)) := by
  obtain ⟨history, b, hrun, hwf, -⟩ := Op.twoChainCalls_run
  exact ⟨history, b, hrun, not_linearised .succMax hwf (by decide) (by decide)⟩

end Buffer
end Unp.Reactor
