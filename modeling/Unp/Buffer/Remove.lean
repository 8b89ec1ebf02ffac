import Unp.Buffer.Invariant

/-!
# Consuming from the front

`remove` walks the `next_` pointers while it pops the list, so at every iteration its `current`
is the first node and its `next` the pointer of that node. With the invariant the walk ends inside
a chain or exactly at the last one, and what it has copied is a prefix of the content.
-/

namespace Unp.Reactor
namespace Buffer

open Unp.Machine Unp.LinkedChain BufferChain

/-- `b'` is `b` without its first `n` bytes. -/
structure Consumed (b b' : Buffer) (n : Nat) : Prop where
  self_eq : b'.self = b.self
  wellFormed : b'.WellFormed
  content_eq : b'.content = b.content.drop n

/-! ## The first node -/

section First
variable {b : Buffer} {a : Addr} {c : BufferChain} {rest : List (Addr × BufferChain)}

theorem WellFormed.first_good (h : b.WellFormed) (hc : b.chains = (a, c) :: rest) :
    GoodNode (a, c) := h.good _ (by rw [hc]; simp)

theorem WellFormed.first_next (h : b.WellFormed) (hc : b.chains = (a, c) :: rest) :
    c.next = headAddr rest none := by
  have hlink := h.linked
  rw [hc, linkedTo_cons] at hlink
  exact hlink.1

theorem WellFormed.first_notin (h : b.WellFormed) (hc : b.chains = (a, c) :: rest) :
    a ∉ addrs rest := by
  have hnd := h.nodup
  rw [hc, addrs_cons, List.nodup_cons] at hnd
  exact hnd.1

theorem WellFormed.length_first_le (h : b.WellFormed) (hc : b.chains = (a, c) :: rest) :
    c.data.length ≤ b.totalLen := by
  rw [h.total_eq, content, hc, bytes_cons, List.length_append]
  exact Nat.le_add_right _ _

/-- The first node is the last chain with data exactly when it is alone. -/
theorem WellFormed.first_is_last (h : b.WellFormed) (hc : b.chains = (a, c) :: rest) :
    b.lastChainWithData = some a ↔ rest = [] := by
  rw [h.last_eq, hc]
  constructor
  · intro hlast
    by_contra hne
    rw [lastAddr_cons_of_ne_nil hne] at hlast
    exact h.first_notin hc (List.mem_of_getLast? hlast)
  · rintro rfl
    rfl

/-- What is left after `pop_front`, with the right value of `last_chain_with_data_`. -/
theorem WellFormed.pop_front (h : b.WellFormed) (hc : b.chains = (a, c) :: rest)
    {last : Option Addr} (hlast : last = lastAddr rest) :
    Consumed b { b with totalLen := subU64 b.totalLen c.data.length, chains := rest,
                        lastChainWithData := last } c.data.length := by
  have hnd := h.nodup
  have hlink := h.linked
  rw [hc] at hnd hlink
  have hle := h.length_first_le hc
  have hcontent : b.content = c.data ++ bytes rest := by rw [content, hc, bytes_cons]
  have hsub := subU64_of_le hle h.total_lt
  refine ⟨rfl, ?_, ?_⟩
  · exact
      { nodup := (List.nodup_cons.mp hnd).2
        linked := hlink.2
        good := fun p hp => h.good p (by rw [hc]; exact List.mem_cons_of_mem _ hp)
        last_eq := hlast
        total_eq := by
          change subU64 b.totalLen c.data.length = (bytes rest).length
          rw [hsub, h.total_eq, hcontent, List.length_append]
          omega
        total_lt := Nat.mod_lt _ (by decide) }
  · change bytes rest = _
    rw [hcontent, List.drop_left]

/-- Consuming a part of the first chain: only its `misalign_` moves. -/
theorem WellFormed.advance (h : b.WellFormed) (hc : b.chains = (a, c) :: rest) {n : Nat}
    (hn : n < c.data.length) :
    Consumed b { b.setChain a { c with misalign := u32 (c.misalign + n) } with
      totalLen := subU64 b.totalLen n } n := by
  have hgood := h.first_good hc
  have hadvanced := hgood.advance hn
  have hdata := hgood.ok.data_advance hn
  have hle := h.length_first_le hc
  rw [subU64_of_le (by omega) h.total_lt]
  have hlink := h.linked
  rw [hc] at hlink
  have hnext : BufferChain.next { c with misalign := u32 (c.misalign + n) } = c.next := rfl
  -- what changes of the chain besides its data does not matter below
  generalize ({ c with misalign := u32 (c.misalign + n) } : BufferChain) = c' at *
  have hchains : modifyAt a (fun _ => c') b.chains = (a, c') :: rest := by
    rw [hc, modifyAt_cons (h.first_notin hc)]
  have hbytes : bytes (modifyAt a (fun _ => c') b.chains) = b.content.drop n := by
    rw [hchains, content, hc, bytes_cons, bytes_cons, hdata,
      List.drop_append_of_le_length (Nat.le_of_lt hn)]
  refine ⟨rfl, ?_, hbytes⟩
  exact
    { nodup := by simpa [setChain] using h.nodup
      linked := by
        simp only [setChain, hchains, linkedTo_cons]
        exact ⟨hnext.trans hlink.1, hlink.2⟩
      good := by
        intro p hp
        simp only [setChain, hchains, List.mem_cons] at hp
        rcases hp with rfl | hp
        · exact hadvanced
        · exact h.good p (by rw [hc]; exact List.mem_cons_of_mem _ hp)
      last_eq := by
        simp only [setChain, lastAddr, addrs_modifyAt]
        exact h.last_eq
      total_eq := by
        change b.totalLen - n = (bytes (modifyAt a (fun _ => c') b.chains)).length
        rw [hbytes, List.length_drop, h.total_eq]
      total_lt := Nat.lt_of_le_of_lt (Nat.sub_le _ _) h.total_lt }

end First

/-! ## `remove` and `drain` -/

theorem Consumed.trans {b b₁ b₂ : Buffer} {m n : Nat} (h₁ : Consumed b b₁ m)
    (h₂ : Consumed b₁ b₂ n) : Consumed b b₂ (m + n) :=
  ⟨h₂.self_eq.trans h₁.self_eq, h₂.wellFormed,
    by rw [h₂.content_eq, h₁.content_eq, List.drop_drop]⟩

/-- The loop invariant of `remove`: `out` has been copied, `current` is the first node and `next`
its pointer. The remaining iterations deliver the first `remain` bytes. -/
theorem removeLoop_spec (fuel : Nat) {b : Buffer} {a : Addr} {c : BufferChain}
    {rest : List (Addr × BufferChain)} (h : b.WellFormed) (hc : b.chains = (a, c) :: rest)
    {remain : Nat} (hle : remain ≤ b.totalLen) (out : List Byte) (hfuel : rest.length + 2 ≤ fuel) :
    ∃ b', removeLoop fuel b a c.next remain out = .ok (out ++ b.content.take remain, b') ∧
      Consumed b b' remain := by
  induction fuel generalizing b a c rest remain out with
  | zero => omega
  | succ fuel ih =>
      have hgood := h.first_good hc
      have hget := getChain_cons hc
      have hpos := hgood.length_data_pos
      have hcontent : b.content = c.data ++ bytes rest := by rw [content, hc, bytes_cons]
      have hsize : c.size = c.data.length := hgood.ok.size_eq_length
      have hread : readMem c.buffer c.misalign c.data.length = .ok c.data := hgood.ok.readMem_data
      rw [removeLoop]
      by_cases h0 : remain = 0
      · -- everything has been copied
        refine ⟨b, by simp [h0], rfl, h, by simp [h0]⟩
      · rw [if_neg h0, hget, ok_bind, hsize]
        by_cases hfull : c.data.length ≤ remain
        · -- the whole first chain goes
          have hne : ¬ c.data.length = 0 := Nat.ne_of_gt hpos
          rw [if_pos hfull, if_neg hne, hread, ok_bind]
          simp only [hc, List.tail_cons]
          have htake : b.content.take remain =
              c.data ++ (bytes rest).take (remain - c.data.length) := by
            rw [hcontent, List.take_append, List.take_of_length_le hfull]
          by_cases hlast : b.lastChainWithData = some a
          · -- it was the last one, so that nothing can be left to copy
            have hnil := (h.first_is_last hc).mp hlast
            subst hnil
            have hremain : remain = c.data.length := by
              rw [h.total_eq, hcontent, bytes_nil, List.append_nil] at hle
              omega
            subst hremain
            refine ⟨_, ?_, h.pop_front hc rfl⟩
            rw [if_pos hlast, if_pos (Nat.sub_self _), htake, bytes_nil, List.take_nil,
              List.append_nil, pure_eq_ok]
            rfl
          · -- the invariant holds again, with the second node as the first one
            have hne : rest ≠ [] := fun hnil => hlast ((h.first_is_last hc).mpr hnil)
            obtain ⟨⟨a₂, c₂⟩, rest₂, rfl⟩ := List.exists_cons_of_ne_nil hne
            have hlastRest : b.lastChainWithData = lastAddr ((a₂, c₂) :: rest₂) := by
              rw [h.last_eq, hc, lastAddr_cons_cons]
            have hpop := h.pop_front hc hlastRest
            obtain ⟨b₁, hb₁⟩ : ∃ b₁ : Buffer, b₁ = { b with
              totalLen := subU64 b.totalLen c.data.length, chains := (a₂, c₂) :: rest₂ } :=
              ⟨_, rfl⟩
            have hpop₁ : Consumed b b₁ c.data.length := by rw [hb₁]; exact hpop
            have hc₁ : b₁.chains = (a₂, c₂) :: rest₂ := by rw [hb₁]
            have hle₁ : remain - c.data.length ≤ b₁.totalLen := by
              rw [hb₁]
              simp only []
              rw [subU64_of_le (h.length_first_le hc) h.total_lt]
              omega
            obtain ⟨b', hrun, hcons⟩ := ih hpop₁.wellFormed hc₁ hle₁ (out ++ c.data)
              (by simp only [List.length_cons] at hfuel; omega)
            have hnext : c.next = some a₂ := h.first_next hc
            refine ⟨b', ?_, ?_⟩
            · rw [if_neg hlast, ← hb₁, hnext, nonNull, ok_bind, getChain_cons hc₁, ok_bind,
                hrun, htake, List.append_assoc]
              rw [content, hc₁]
            · have := hpop₁.trans hcons
              rwa [Nat.add_sub_of_le hfull] at this
        · -- the walk ends inside the first chain
          have hlt : remain < c.data.length := Nat.lt_of_not_le hfull
          have hpart : readMem c.buffer c.misalign remain = .ok (c.data.take remain) := by
            have h₁ : c.data.length = c.off - c.misalign := hgood.ok.length_data
            have h₂ : c.off ≤ c.capacity := hgood.ok.off_le
            have h₃ : c.buffer.length = c.capacity := hgood.ok.length_buffer
            rw [readMem_ok (by omega), BufferChain.data, take_slice _ _ (by omega)]
          refine ⟨_, ?_, h.advance hc hlt⟩
          rw [if_neg hfull, hpart, ok_bind, hcontent,
            List.take_append_of_le_length (Nat.le_of_lt hlt)]
          rfl

/-- **`remove`** delivers the first `n` bytes and leaves the rest. -/
theorem remove_spec {b : Buffer} {n : Nat} (h : b.WellFormed) (hn : 0 < n)
    (hle : n ≤ b.totalLen) :
    ∃ b', b.remove true n = .ok ((n : Int), b.content.take n, b') ∧ Consumed b b' n := by
  have h0 : b.totalLen ≠ 0 := by omega
  obtain ⟨a, c, rest, hc⟩ := h.exists_cons h0
  obtain ⟨_, _, _, _, hlast⟩ := h.exists_snoc h0
  obtain ⟨b', hrun, hcons⟩ := removeLoop_spec (b.chains.length + 1) h hc hle []
    (by rw [hc, List.length_cons])
  refine ⟨b', ?_, hcons⟩
  have hguard₁ : ¬ ((true : Bool) = false ∨ n = 0) := by simp; omega
  have hguard₂ : ¬ (b.lastChainWithData = none ∨ b.totalLen < n) := by
    rw [hlast]
    simp
    omega
  have hfront : b.front = .ok a := by simp [front, hc]
  simp only [remove, if_neg hguard₁, if_neg hguard₂, hfront, ok_bind, getChain_cons hc, hrun,
    List.nil_append, pure_eq_ok]

/-- Every other call of `remove` is refused and changes nothing. -/
theorem remove_refused {b : Buffer} {n : Nat} (hn : n = 0 ∨ b.totalLen < n) :
    b.remove true n = .ok (-1, [], b) := by
  unfold remove
  rcases hn with rfl | hlt
  · simp
  · by_cases h0 : n = 0
    · simp [h0]
    · simp [h0, hlt]

theorem drain_eq {b b' : Buffer} {n : Nat} {ret : Int} {out : List Byte}
    (h : b.remove true n = .ok (ret, out, b')) : b.drain n = .ok (ret, b') := by
  simp only [drain, h, ok_bind, pure_eq_ok]

end Buffer
end Unp.Reactor
