import Unp.Buffer.Basic

/-!
# The representation invariant

`WellFormed` is what the member functions of `buffer` rely on and re-establish: the two orders of
the chains agree, no chain is empty, `last_chain_with_data_` is the last node and `total_len_`
counts the bytes. The abstract value of a buffer is its `content`, the data of the chains in
order.

`Roomy` is the weaker state between `expand_if_needed` and the end of an `append`: the last node
has room for the new bytes, and it may still be empty.
-/

namespace Unp.Reactor

open Unp.Machine Unp.LinkedChain

/-- What holds of every node of a buffer. The parent need not be the buffer itself: the nodes of a
copy keep that of their source. -/
structure GoodNode (p : Addr × BufferChain) : Prop where
  ok : p.2.Ok
  misalign_lt : p.2.misalign < p.2.off
  parent_isSome : p.2.parent.isSome

theorem GoodNode.length_data_pos {p : Addr × BufferChain} (h : GoodNode p) :
    0 < p.2.data.length := by
  have h₁ := h.ok.length_data
  have h₂ := h.misalign_lt
  omega

/-- Moving a pointer changes nothing else about a chain. -/
theorem GoodNode.setNext {p : Addr × BufferChain} (h : GoodNode p) (next : Option Addr) :
    GoodNode (p.1, { p.2 with next := next }) :=
  ⟨⟨h.ok.misalign_le, h.ok.off_le, h.ok.length_buffer, h.ok.capacity_lt⟩, h.misalign_lt,
    h.parent_isSome⟩

/-- A node from which not everything is taken stays a good node. -/
theorem GoodNode.advance {a : Addr} {c : BufferChain} (h : GoodNode (a, c)) {n : Nat}
    (hn : n < c.data.length) : GoodNode (a, { c with misalign := u32 (c.misalign + n) }) := by
  have hlen : c.data.length = c.off - c.misalign := h.ok.length_data
  rw [h.ok.misalign_advance hn]
  have hlt : c.misalign + n < c.off := by omega
  exact ⟨⟨hlt.le, h.ok.off_le, h.ok.length_buffer, h.ok.capacity_lt⟩, hlt, h.parent_isSome⟩

namespace Buffer

/-- The data of a list of nodes. -/
def bytes (l : List (Addr × BufferChain)) : List Byte := l.flatMap fun p => p.2.data

/-- The queue of bytes a buffer stands for. -/
def content (b : Buffer) : List Byte := bytes b.chains

structure WellFormed (b : Buffer) : Prop where
  nodup : (addrs b.chains).Nodup
  linked : LinkedTo BufferChain.next b.chains none
  good : ∀ p ∈ b.chains, GoodNode p
  last_eq : b.lastChainWithData = lastAddr b.chains
  total_eq : b.totalLen = b.content.length
  total_lt : b.totalLen < 2 ^ 64

/-- The last node of `b` is `c` at address `a`, the others are `init`, and `c` has room for `n`
more bytes. It is either the last chain with data or a fresh one behind it. -/
structure Roomy (b : Buffer) (init : List (Addr × BufferChain)) (a : Addr) (c : BufferChain)
    (n : Nat) : Prop where
  chains_eq : b.chains = init ++ [(a, c)]
  nodup : (addrs b.chains).Nodup
  linked : LinkedTo BufferChain.next b.chains none
  init_good : ∀ p ∈ init, GoodNode p
  ok : c.Ok
  parent_isSome : c.parent.isSome
  room : c.off + n ≤ c.capacity
  last_eq : b.lastChainWithData = some a ∨ (c.off = 0 ∧ b.lastChainWithData = lastAddr init)
  total_eq : b.totalLen = b.content.length

/-! ## Bytes of node lists -/

@[simp] theorem bytes_nil : bytes [] = [] := rfl

@[simp] theorem bytes_cons (a : Addr) (c : BufferChain) (l : List (Addr × BufferChain)) :
    bytes ((a, c) :: l) = c.data ++ bytes l := by
  simp [bytes]

@[simp] theorem bytes_append (l₁ l₂ : List (Addr × BufferChain)) :
    bytes (l₁ ++ l₂) = bytes l₁ ++ bytes l₂ := by
  simp [bytes]

/-- Nodes without bytes are no nodes. -/
theorem eq_nil_of_bytes_eq_nil {l : List (Addr × BufferChain)} (hgood : ∀ p ∈ l, GoodNode p)
    (h : bytes l = []) : l = [] := by
  cases l with
  | nil => rfl
  | cons p l =>
      obtain ⟨a, c⟩ := p
      have hpos : 0 < c.data.length := (hgood (a, c) (by simp)).length_data_pos
      rw [bytes_cons, List.append_eq_nil_iff] at h
      rw [h.1] at hpos
      exact absurd hpos (Nat.lt_irrefl 0)

section WellFormed
variable {b : Buffer}

theorem WellFormed.chains_eq_nil (h : b.WellFormed) (h0 : b.totalLen = 0) : b.chains = [] := by
  apply eq_nil_of_bytes_eq_nil h.good
  exact List.length_eq_zero_iff.mp (h.total_eq ▸ h0)

/-- A buffer with bytes has a last node, and that is where `last_chain_with_data_` points. -/
theorem WellFormed.exists_snoc (h : b.WellFormed) (h0 : b.totalLen ≠ 0) :
    ∃ init a c, b.chains = init ++ [(a, c)] ∧ b.lastChainWithData = some a := by
  rcases List.eq_nil_or_concat b.chains with hnil | ⟨init, ⟨a, c⟩, hsnoc⟩
  · exact absurd (by rw [h.total_eq, content, hnil]; rfl) h0
  · rw [List.concat_eq_append] at hsnoc
    exact ⟨init, a, c, hsnoc, by rw [h.last_eq, hsnoc, lastAddr_snoc]⟩

theorem WellFormed.exists_cons (h : b.WellFormed) (h0 : b.totalLen ≠ 0) :
    ∃ a c rest, b.chains = (a, c) :: rest := by
  match hc : b.chains with
  | [] => exact absurd (by rw [h.total_eq, content, hc]; rfl) h0
  | (a, c) :: rest => exact ⟨a, c, rest, rfl⟩

theorem empty_wellFormed (self : Addr) : (empty self).WellFormed where
  nodup := List.nodup_nil
  linked := trivial
  good := by simp [empty]
  last_eq := rfl
  total_eq := rfl
  total_lt := by simp [empty]

end WellFormed

/-! ## Following pointers -/

theorem getChain_snoc {b : Buffer} {init : List (Addr × BufferChain)} {a : Addr}
    {c : BufferChain} (hc : b.chains = init ++ [(a, c)]) (hnd : (addrs b.chains).Nodup) :
    b.getChain a = .ok c := by
  have hnotin : a ∉ addrs init := by
    rw [hc, addrs_append, List.nodup_append'] at hnd
    intro hmem
    exact hnd.2.2 hmem (by simp)
  simp [getChain, hc, deref_snoc hnotin]

theorem getChain_cons {b : Buffer} {a : Addr} {c : BufferChain}
    {rest : List (Addr × BufferChain)} (hc : b.chains = (a, c) :: rest) :
    b.getChain a = .ok c := by
  simp [getChain, hc]

theorem getChain_second {b : Buffer} {a a' : Addr} {c c' : BufferChain}
    {rest : List (Addr × BufferChain)} (hc : b.chains = (a, c) :: (a', c') :: rest)
    (hne : a ≠ a') : b.getChain a' = .ok c' := by
  simp [getChain, hc, deref_cons_of_ne hne]

theorem not_mem_init {init : List (Addr × BufferChain)} {a : Addr} {c : BufferChain}
    (h : (addrs (init ++ [(a, c)])).Nodup) : a ∉ addrs init := by
  rw [addrs_append, List.nodup_append'] at h
  intro hmem
  exact h.2.2 hmem (by simp)

section Split
variable {b : Buffer} {pre post : List (Addr × BufferChain)} {a : Addr} {c : BufferChain}

theorem getChain_split (hc : b.chains = pre ++ (a, c) :: post) (hnd : (addrs b.chains).Nodup) :
    b.getChain a = .ok c := by
  have hnotin : a ∉ addrs pre := by
    rw [hc, addrs_append, List.nodup_append'] at hnd
    intro hmem
    exact hnd.2.2 hmem (by simp)
  simp [getChain, hc, deref_append hnotin]

theorem next_split (hc : b.chains = pre ++ (a, c) :: post)
    (hlink : LinkedTo BufferChain.next b.chains none) : c.next = headAddr post none := by
  rw [hc, linkedTo_append] at hlink
  exact hlink.2.1

theorem WellFormed.good_split (h : b.WellFormed) (hc : b.chains = pre ++ (a, c) :: post) :
    GoodNode (a, c) := h.good (a, c) (by rw [hc]; simp)

theorem WellFormed.ok_split (h : b.WellFormed) (hc : b.chains = pre ++ (a, c) :: post) : c.Ok :=
  (h.good_split hc).ok

/-- The length, cut at a node. -/
theorem WellFormed.total_split (h : b.WellFormed) (hc : b.chains = pre ++ (a, c) :: post) :
    b.totalLen = (bytes pre).length + c.data.length + (bytes post).length := by
  rw [h.total_eq, content, hc, bytes_append, bytes_cons, List.length_append, List.length_append,
    Nat.add_assoc]

theorem WellFormed.total_ne_zero (h : b.WellFormed) (hc : b.chains = pre ++ (a, c) :: post) :
    b.totalLen ≠ 0 := by
  have hpos : 0 < c.data.length := (h.good_split hc).length_data_pos
  have htotal := h.total_split hc
  omega

theorem exists_cons_of_split (hc : b.chains = pre ++ (a, c) :: post) :
    ∃ p l, b.chains = p :: l := by
  rw [hc]
  cases pre <;> exact ⟨_, _, rfl⟩

end Split

/-! ## From room to data -/

/-- **The end of every `append`**: the last node, grown by `src` and not empty, becomes the last chain
with data, and the buffer is well formed again with `src` at the end of its content. -/
theorem Roomy.grow {b : Buffer} {init : List (Addr × BufferChain)} {a : Addr}
    {c c' : BufferChain} {n : Nat} {src : List Byte} (h : Roomy b init a c n)
    (hg : BufferChain.Grown c c' src) (hne : c'.data ≠ []) (hlt : b.totalLen + src.length < 2 ^ 64) :
    WellFormed { b.setChain a c' with
        totalLen := b.totalLen + src.length, lastChainWithData := some a } ∧
      content { b.setChain a c' with
        totalLen := b.totalLen + src.length, lastChainWithData := some a } =
        b.content ++ src := by
  have hnotin : a ∉ addrs init := not_mem_init (h.chains_eq ▸ h.nodup)
  have hchains : modifyAt a (fun _ => c') b.chains = init ++ [(a, c')] := by
    rw [h.chains_eq, modifyAt_snoc hnotin]
  have hcontent : bytes (modifyAt a (fun _ => c') b.chains) = b.content ++ src := by
    rw [hchains, content, h.chains_eq]
    simp [hg.data_eq]
  have hdata : 0 < c'.data.length := List.length_pos_of_ne_nil hne
  have hlink := h.linked
  rw [h.chains_eq, linkedTo_snoc] at hlink
  refine ⟨{ nodup := ?_, linked := ?_, good := ?_, last_eq := ?_, total_eq := ?_,
            total_lt := hlt }, hcontent⟩
  · simpa [setChain] using h.nodup
  · simp only [setChain, hchains, linkedTo_snoc]
    exact ⟨hlink.1, hg.next_eq.trans hlink.2⟩
  · intro p hp
    simp only [setChain, hchains, List.mem_append, List.mem_singleton] at hp
    rcases hp with hp | rfl
    · exact h.init_good p hp
    · have hmis : c'.misalign < c'.off := by
        have := hg.ok.length_data
        omega
      exact ⟨hg.ok, hmis, by rw [hg.parent_eq]; exact h.parent_isSome⟩
  · simp [setChain, hchains]
  · change b.totalLen + src.length = (bytes (modifyAt a (fun _ => c') b.chains)).length
    rw [hcontent, List.length_append, h.total_eq]

end Buffer
end Unp.Reactor
