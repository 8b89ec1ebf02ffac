import Unp.Buffer.Queue

/-!
# What `expand_if_needed` hands out

The node that is returned is the last one, and there is room in it. If it is the last chain with data
the buffer is as good as before; otherwise it has just been put there and holds nothing, and everything
in front of it is in order.
-/

namespace Unp.Reactor
namespace Buffer

open Unp.Machine Unp.LinkedChain Unp.Run BufferChain

section Room
variable {b b' : Buffer} {init : List (Addr × BufferChain)} {a : Addr} {c : BufferChain} {n : Nat}

/-- With something in the last node, it is a buffer like any other. -/
theorem Roomy.wellFormed (h : Roomy b init a c n) (hlast : b.lastChainWithData = some a)
    (hne : c.data ≠ []) (hlt : b.totalLen < 2 ^ 64) : b.WellFormed where
  nodup := h.nodup
  linked := h.linked
  good := by
    intro p hp
    rw [h.chains_eq, List.mem_append, List.mem_singleton] at hp
    rcases hp with hp | rfl
    · exact h.init_good p hp
    · have hpos := List.length_pos_of_ne_nil hne
      rw [h.ok.length_data] at hpos
      exact ⟨h.ok, Nat.lt_of_sub_pos hpos, h.parent_isSome⟩
  last_eq := by rw [hlast, h.chains_eq, lastAddr_snoc]
  total_eq := h.total_eq
  total_lt := hlt

/-- What is returned: the last node, with room for `n` bytes. It is that of a well-formed buffer, or
fresh and empty behind nodes that are all in order. -/
structure MakesRoom (b b' : Buffer) (init : List (Addr × BufferChain)) (a : Addr) (c : BufferChain)
    (n : Nat) : Prop where
  same : SameBytes b b'
  chains_eq : b'.chains = init ++ [(a, c)]
  room : n ≤ c.chainFreeSpace
  nodup : (addrs b'.chains).Nodup
  linked : LinkedTo BufferChain.next b'.chains none
  init_good : ∀ p ∈ init, GoodNode p
  last : b'.WellFormed ∧ b'.lastChainWithData = some a ∨
    a ∉ addrs b.chains ∧ c.Ok ∧ c.off = 0 ∧ b'.lastChainWithData = lastAddr init

theorem Roomy.makesRoom (h : Roomy b' init a c n) (hsame : SameBytes b b')
    (hlast : b'.WellFormed ∨ a ∉ addrs b.chains ∧ c.off = 0 ∧ b'.lastChainWithData = lastAddr init) :
    MakesRoom b b' init a c n where
  same := hsame
  chains_eq := h.chains_eq
  room := by
    rw [h.ok.chainFreeSpace_eq]
    exact Nat.le_sub_of_add_le' h.room
  nodup := h.nodup
  linked := h.linked
  init_good := h.init_good
  last := by
    rcases hlast with hwf | ⟨hfresh, hoff, hlast⟩
    · exact .inl ⟨hwf, by rw [hwf.last_eq, h.chains_eq, lastAddr_snoc]⟩
    · exact .inr ⟨hfresh, h.ok, hoff, hlast⟩

/-- A chain that is put behind the others. -/
theorem pushBack_makesRoom (al : Allocator Addr) (h : b.WellFormed) (hn : 1 ≤ n) (hlt : n < 2 ^ 32) :
    ∃ init, MakesRoom b (b.pushBack al (new (some b.self) n)) init (al.alloc (addrs b.chains))
      (new (some b.self) n) n := by
  obtain ⟨init, hroomy, hsame⟩ := pushBack_roomy al h hn hlt
  refine ⟨init, hroomy.makesRoom hsame (.inr ⟨al.alloc_fresh _, rfl, ?_⟩)⟩
  obtain ⟨init', hchains, haddrs, -⟩ :=
    pushBack_spec al (new (some b.self) n) h.nodup h.linked h.good rfl
  obtain ⟨rfl, -⟩ := List.append_inj' (hroomy.chains_eq.symm.trans hchains) rfl
  rw [(pushBack_frame al b _).2.2, h.last_eq, lastAddr, lastAddr, haddrs]

/-- **`expand_if_needed` makes room.** -/
theorem expandIfNeeded_makesRoom (al : Allocator Addr) (h : b.WellFormed) (hn : 1 ≤ n)
    (hlt : b.totalLen + n < 2 ^ 31) :
    ∃ a b', b.expandIfNeeded al n = .ok (a, b') ∧ ∃ init c, MakesRoom b b' init a c n := by
  have hlt' : n < 2 ^ 32 := by omega
  obtain ⟨a, b', hok, hexpanded⟩ := expandIfNeeded_expanded al h hlt'
  obtain ⟨init, hpushed⟩ := pushBack_makesRoom al h hn hlt'
  refine ⟨a, b', hok, ?_⟩
  cases hexpanded with
  | first _ => exact ⟨init, _, hpushed⟩
  | @inPlace init _ lc hsnoc hroom =>
      exact ⟨init, lc, (h.roomy hsnoc hroom).makesRoom ⟨rfl, rfl, rfl⟩ (.inl h)⟩
  | pushed _ _ => exact ⟨init, _, hpushed⟩
  | @resized init init' l _ lc c _ hsnoc _ _ hroomy hsame hlast hdata _ =>
      -- the copy holds what the last chain has held, and that is something
      have hlc : GoodNode (l, lc) := h.good (l, lc) (by rw [hsnoc]; simp)
      have hne : c.data ≠ [] := by
        rw [hdata]
        exact List.ne_nil_of_length_pos hlc.length_data_pos
      have htotal : b'.totalLen < 2 ^ 64 := by
        rw [hsame.total_eq]
        exact h.total_lt
      exact ⟨init', c, hroomy.makesRoom hsame (.inl (hroomy.wellFormed hlast hne htotal))⟩

end Room

/-- Two chains, and more than the second one has room for. -/
theorem expandIfNeeded_makesRoom_twoChains : ∃ history b,
    run Op.step Op.twoChainCalls (empty 0) = .ok (history, b) ∧ b.totalLen = 3 ∧
      ∃ a b', b.expandIfNeeded .succMax 5000 = .ok (a, b') ∧
        ∃ init c, MakesRoom b b' init a c 5000 := by
  obtain ⟨history, b, hrun, hwf, -⟩ := Op.twoChainCalls_run
  have hshape : ∃ r, run Op.step Op.twoChainCalls (empty 0) = .ok r ∧ r.2.totalLen = 3 := by
    decide +kernel
  obtain ⟨r, hrun', htotal⟩ := hshape
  rw [hrun] at hrun'
  cases hrun'
  exact ⟨history, b, hrun, htotal,
    expandIfNeeded_makesRoom .succMax hwf (by decide) (by rw [show b.totalLen = 3 from htotal]; decide)⟩

end Buffer
end Unp.Reactor
