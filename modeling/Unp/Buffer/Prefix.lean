import Unp.Buffer.Slice

/-!
# Copying a prefix

`buffer(const buffer&, uint32_t)` copies everything when it can, and otherwise appends whole chains
and a part of one more. What it does last is to set the `next_` of the last chain with data to the
last chain of the list. Every `append` has made the two the same chain, so that the last chain of a
proper prefix points to itself.
-/

namespace Unp.Reactor
namespace Buffer

open Unp.Machine Unp.LinkedChain BufferChain

/-! ## The code -/

/-- The loop that appends whole chains. Returns the chain it stops at and what is still to be copied
from it. -/
def prefixLoop (al : Allocator Addr) (other : Buffer) : Nat → Buffer → Addr → Nat →
    Res (Buffer × Addr × Nat)
  | 0, _, _, _ => .error .outOfFuel
  | fuel + 1, b, current, remain => do
      let c ← other.getChain current
      if other.lastChainWithData ≠ some current ∧ c.size < remain then do
        let (_, b) ← b.appendCopy al c
        let last ← b.back
        let n ← nonNull c.next
        prefixLoop al other fuel { b with lastChainWithData := some last } n (remain - c.size)
      else pure (b, current, remain)

/-- `last_chain_with_data_->set_next_chain(&chains_.back())`, unless there is none. -/
def setNextChain (b : Buffer) : Res Buffer := do
  let last ← b.back
  match b.lastChainWithData with
  | none => pure b
  | some l => do
      let c ← b.getChain l
      pure (b.setChain l { c with next := some last })

/-- `buffer(const buffer& other, uint32_t data_len)`, at the address `self`. -/
def copyPrefix (al : Allocator Addr) (self : Addr) (other : Buffer) (dataLen : Nat) : Res Buffer :=
  if other.totalLen = 0 ∨ dataLen = 0 then pure (empty self)
  else if other.totalLen ≤ dataLen then other.copyOf al self
  else do
    let current ← other.front
    let (b, current, remain) ←
      prefixLoop al other (other.chains.length + 1) (empty self) current dataLen
    let c ← other.getChain current
    let start ← other.chainBegin current c
    let lastChain ← c.copySlice current remain start
    let (_, b) ← b.appendCopy al lastChain
    let b ← b.setNextChain
    let last ← b.back
    pure { b with lastChainWithData := some last, totalLen := dataLen }

/-! ## The walk -/

/-- The loop appends the chains it passes; the chain it stops at holds the rest. -/
theorem prefixLoop_spec (al : Allocator Addr) {other : Buffer} (h : other.WellFormed) (fuel : Nat)
    {b : Buffer} {pre post : List (Addr × BufferChain)} {a : Addr} {c : BufferChain} {remain : Nat}
    (hc : other.chains = pre ++ (a, c) :: post) (hpos : 0 < remain)
    (hremain : remain ≤ c.data.length + (bytes post).length) (hb : b.WellFormed)
    (hlt : b.totalLen + remain < 2 ^ 64) (hfuel : post.length + 1 ≤ fuel) :
    ∃ b' pre' a' c' post' remain' src, prefixLoop al other fuel b a remain = .ok (b', a', remain') ∧
      other.chains = pre' ++ (a', c') :: post' ∧ 0 < remain' ∧ remain' ≤ c'.data.length ∧
      Appended b b' src ∧ src ++ c'.data.take remain' = (c.data ++ bytes post).take remain := by
  induction fuel generalizing b pre a c post remain with
  | zero => omega
  | succ fuel ih =>
      have hgood : GoodNode (a, c) := h.good_split hc
      have hok : c.Ok := hgood.ok
      have hcpos : 0 < c.data.length := hgood.length_data_pos
      rw [prefixLoop, getChain_split hc h.nodup, ok_bind, hok.size_eq_length]
      by_cases hgo : other.lastChainWithData ≠ some a ∧ c.data.length < remain
      · -- the whole chain is appended
        have hne : post ≠ [] := fun hnil => hgo.1 ((h.is_last hc).mpr hnil)
        obtain ⟨⟨n, d⟩, post₂, rfl⟩ := List.exists_cons_of_ne_nil hne
        have hc₂ : other.chains = (pre ++ [(a, c)]) ++ (n, d) :: post₂ := by
          rw [hc]
          simp
        have hnext : c.next = some n := next_split hc h.linked
        obtain ⟨b₁, happend, happended⟩ := appendCopy_spec al hb hok (by omega)
        have htotal₁ : b₁.totalLen = b.totalLen + c.data.length := by
          rw [happended.wellFormed.total_eq, happended.content_eq, hb.total_eq, List.length_append]
        obtain ⟨z, hback, hsame⟩ := happended.wellFormed.back_eq (by omega)
        rw [bytes_cons, List.length_append] at hremain
        obtain ⟨b', pre', a', c', post', remain', src, hrun, hc', hpos', hle', happended', hsrc⟩ :=
          ih hc₂ (Nat.sub_pos_of_lt hgo.2) (by omega) happended.wellFormed (by omega)
            (by simp only [List.length_cons] at hfuel; omega)
        refine ⟨b', pre', a', c', post', remain', c.data ++ src, ?_, hc', hpos', hle', ?_, ?_⟩
        · rw [if_pos hgo, happend, ok_bind]
          simp only [hback, ok_bind, hnext, nonNull, hsame]
          exact hrun
        · exact ⟨happended'.self_eq.trans happended.self_eq, happended'.wellFormed,
            by rw [happended'.content_eq, happended.content_eq, List.append_assoc]⟩
        · rw [List.append_assoc, hsrc, ← bytes_cons n d post₂]
          generalize bytes ((n, d) :: post₂) = tail
          rw [List.take_append, List.take_of_length_le (Nat.le_of_lt hgo.2)]
      · have hle : remain ≤ c.data.length := by
          by_cases hnil : post = []
          · rw [hnil, bytes_nil, List.length_nil] at hremain
            omega
          · have hlast : other.lastChainWithData ≠ some a := fun hl => hnil ((h.is_last hc).mp hl)
            exact Nat.le_of_not_lt fun hlt => hgo ⟨hlast, hlt⟩
        refine ⟨b, pre, a, c, post, remain, [], by rw [if_neg hgo, pure_eq_ok], hc, hpos, hle,
          appended_nil hb, ?_⟩
        rw [List.nil_append, List.take_append_of_le_length hle]

/-! ## A proper prefix -/

/-- The last chain is made to point to itself. -/
theorem setNextChain_spec {b : Buffer} (h : b.WellFormed) (h0 : b.totalLen ≠ 0) :
    ∃ (init : List (Addr × BufferChain)) (z : Addr) (c : BufferChain),
      b.setNextChain = .ok { b with chains := init ++ [(z, { c with next := some z })] } ∧
      bytes (init ++ [(z, { c with next := some z })]) = b.content := by
  obtain ⟨init, z, c, hc, hlast⟩ := h.exists_snoc h0
  have hback : b.back = .ok z := by simp [back, hc]
  refine ⟨init, z, c, ?_, ?_⟩
  · simp only [setNextChain, hback, ok_bind, hlast, getChain_snoc hc h.nodup, pure_eq_ok, setChain,
      hc, modifyAt_snoc (not_mem_init (hc ▸ h.nodup))]
  · rw [content, hc]
    simp [BufferChain.data]

/-- **A proper prefix has the right bytes, and a last chain that points to itself.** -/
theorem copyPrefix_cycle (al : Allocator Addr) (self : Addr) {b : Buffer} (h : b.WellFormed)
    {n : Nat} (hpos : 0 < n) (hn : n < b.totalLen) :
    ∃ copy init z c, b.copyPrefix al self n = .ok copy ∧
      copy.chains = init ++ [(z, c)] ∧ c.next = some z ∧ copy.content = b.content.take n ∧
      copy.totalLen = n := by
  have htotal := h.total_lt
  obtain ⟨a, c, rest, hc⟩ := h.exists_cons (by omega)
  have hfront : b.front = .ok a := by simp [front, hc]
  have hcontent : b.content = c.data ++ bytes rest := by rw [content, hc, bytes_cons]
  have hlen := h.total_eq
  rw [hcontent, List.length_append] at hlen
  have hsplit : b.chains = [] ++ (a, c) :: rest := hc
  have hstart : (empty self).totalLen = 0 := rfl
  obtain ⟨b₁, pre', a', c', post', remain, src, hloop, hc', hpos', hle', happended, hsrc⟩ :=
    prefixLoop_spec al h (b.chains.length + 1) hsplit hpos (by omega) (empty_wellFormed self)
      (by omega) (by rw [hc, List.length_cons]; omega)
  obtain ⟨start, hbegin, hchain, hoff⟩ := chainBegin_spec h hc'
  have hgood : GoodNode (a', c') := h.good_split hc'
  have hok' : c'.Ok := hgood.ok
  have hmis' : c'.misalign < c'.off := hgood.misalign_lt
  have hlen' := hok'.length_data
  obtain ⟨piece, hpiece, hok, hdata⟩ :=
    copySlice_spec hok' hchain hoff.ge (hoff ▸ hmis') hpos' (by rw [hoff]; omega)
  rw [dataFrom, hoff, Nat.sub_self, List.drop_zero] at hdata
  have hbytes := congrArg List.length hsrc
  rw [List.length_append, List.length_take, List.length_take, List.length_append] at hbytes
  have htotal₁ : b₁.totalLen = src.length := by
    rw [happended.wellFormed.total_eq, happended.content_eq]
    rfl
  have hpiece_len : piece.data.length = remain := by
    rw [hdata, List.length_take]
    omega
  obtain ⟨b₂, happend, happended₂⟩ := appendCopy_spec al happended.wellFormed hok (by omega)
  have hcontent₂ : b₂.content = b.content.take n := by
    rw [happended₂.content_eq, happended.content_eq, hcontent, ← hsrc, hdata]
    rfl
  have htotal₂ : b₂.totalLen = n := by
    rw [happended₂.wellFormed.total_eq, hcontent₂, List.length_take, ← h.total_eq]
    omega
  obtain ⟨init, z, d, hset, hsame⟩ := setNextChain_spec happended₂.wellFormed (by omega)
  refine ⟨{ b₂ with chains := init ++ [(z, { d with next := some z })], lastChainWithData := some z,
                    totalLen := n }, init, z, { d with next := some z }, ?_, rfl, rfl, ?_, rfl⟩
  · have hguard₁ : ¬ (b.totalLen = 0 ∨ n = 0) := by omega
    have hguard₂ : ¬ b.totalLen ≤ n := by omega
    simp only [copyPrefix, if_neg hguard₁, if_neg hguard₂, hfront, ok_bind, hloop,
      getChain_split hc' h.nodup, hbegin, hpiece, happend, hset, back, lastAddr_snoc, pure_eq_ok]
  · change bytes (init ++ [(z, { d with next := some z })]) = _
    rw [hsame, hcontent₂]

/-- What `buffer{b, n}` should be. -/
structure IsPrefix (copy b : Buffer) (n : Nat) : Prop where
  content_eq : copy.content = b.content.take (min n b.totalLen)
  represented : Op.Represented copy

theorem not_isPrefix (al : Allocator Addr) (self : Addr) {b : Buffer} (h : b.WellFormed) {n : Nat}
    (hpos : 0 < n) (hn : n < b.totalLen) :
    ¬ ∃ copy, b.copyPrefix al self n = .ok copy ∧ IsPrefix copy b n := by
  rintro ⟨copy, hcopy, hprefix⟩
  obtain ⟨copy', init, z, c, hcopy', hchains, hnext, -⟩ := copyPrefix_cycle al self h hpos hn
  rw [hcopy'] at hcopy
  cases hcopy
  have hlink := hprefix.represented.next_links
  rw [hchains, linkedTo_snoc, hnext] at hlink
  exact absurd hlink.2 (by simp)

/-- **When a prefix is well formed**: when it is empty or everything. -/
theorem copyPrefix_iff (al : Allocator Addr) (self : Addr) {b : Buffer} (h : b.WellFormed)
    (n : UInt32) :
    (∃ copy, b.copyPrefix al self n.toNat = .ok copy ∧ IsPrefix copy b n.toNat) ↔
      n.toNat = 0 ∨ b.totalLen ≤ n.toNat := by
  have htotal := h.total_eq
  by_cases hnone : b.totalLen = 0 ∨ n.toNat = 0
  · -- the empty buffer
    refine iff_of_true ?_ (by omega)
    refine ⟨empty self, by simp only [copyPrefix, if_pos hnone, pure_eq_ok], ?_,
      Op.represented_of_wellFormed (empty_wellFormed self)⟩
    have hmin : min n.toNat b.totalLen = 0 := by omega
    rw [hmin, List.take_zero]
    rfl
  · by_cases hall : b.totalLen ≤ n.toNat
    · -- a copy of the whole buffer
      obtain ⟨copy, hcopy, hwf, hcontent⟩ := copyOf_spec al self h (by omega)
      refine iff_of_true ⟨copy, ?_, ?_, Op.represented_of_wellFormed hwf⟩ (Or.inr hall)
      · simp only [copyPrefix, if_neg hnone, if_pos hall, hcopy]
      · rw [hcontent, List.take_of_length_le (by omega)]
    · exact iff_of_false (not_isPrefix al self h (by omega) (by omega)) (by omega)

theorem copyPrefix_iff_twoChains :
    ∃ history b, Unp.Run.run Op.step Op.twoChainCalls (empty 0) = .ok (history, b) ∧
      ((∃ copy, b.copyPrefix .succMax 9 (2 : UInt32).toNat = .ok copy ∧
        IsPrefix copy b (2 : UInt32).toNat) ↔
        (2 : UInt32).toNat = 0 ∨ b.totalLen ≤ (2 : UInt32).toNat) := by
  obtain ⟨history, b, hrun, hwf, -⟩ := Op.twoChainCalls_run
  exact ⟨history, b, hrun, copyPrefix_iff .succMax 9 hwf 2⟩

/-- The first of three bytes: one chain, and it points to itself. -/
theorem copyPrefix_one_of_three :
    ∃ history b, Unp.Run.run Op.step Op.twoChainCalls (empty 0) = .ok (history, b) ∧
      ¬ ∃ copy, b.copyPrefix .succMax 9 (1 : UInt32).toNat = .ok copy ∧
        IsPrefix copy b (1 : UInt32).toNat := by
  obtain ⟨history, b, hrun, hwf, -, -, hcontent⟩ := Op.twoChainCalls_run
  have htotal : b.totalLen = 3 := by
    rw [hwf.total_eq, hcontent]
    rfl
  have hone : (1 : UInt32).toNat = 1 := rfl
  exact ⟨history, b, hrun, not_isPrefix .succMax 9 hwf (by decide) (by omega)⟩

end Buffer
end Unp.Reactor
