import Unp.Buffer.Slice

/-!
# Copying out

`copy_out_from` slices the bytes into a temporary buffer and removes them from there. The
temporary is told that it has as many bytes as were asked for, whether or not there are so many; and
the slice begins where the iterator stands, which has to be in front of a byte. `begin() + k` stands
behind the last byte of a chain when `k` is the first byte of the next one.
-/

namespace Unp.Reactor
namespace Buffer

open Unp.Machine Unp.LinkedChain BufferChain

/-- `begin() + k` arrives inside a chain, in front of byte `p`. Behind the first chain the steps are
counted from the start of a block, and a chain is entered only with a step left. -/
def Lands (b : Buffer) (k p : Nat) : Prop :=
  ∃ pre a c post, b.chains = pre ++ (a, c) :: post ∧
    (bytes pre).length ≤ p ∧ p < (bytes pre).length + c.data.length ∧
    p + misaligns (pre ++ [(a, c)]).tail = k ∧
    (pre = [] ∨ (bytes pre).length < p + c.misalign)

/-- Byte `k` is the first one of a chain that is not the first chain. -/
def AtChainStart (b : Buffer) (k : Nat) : Prop :=
  ∃ pre a c post, b.chains = pre ++ (a, c) :: post ∧ pre ≠ [] ∧ (bytes pre).length = k

/-- `copy_out_from(out, n, begin() + k)` returns and delivers what it should. The buffer is only
read; `self` is where the temporary lives. -/
def CopiesOut (al : Allocator Addr) (self : Addr) (b : Buffer) (k n : Nat) : Prop :=
  ∃ it, (b.beginIter >>= fun it => b.forward it (u32 k)) = .ok it ∧
    b.copyOutFrom al self true n it =
      .ok (((min n (b.totalLen - k) : Nat) : Int),
        (b.content.drop k).take (min n (b.totalLen - k)))

instance (al : Allocator Addr) (self : Addr) (b : Buffer) (k n : Nat) :
    Decidable (b.CopiesOut al self k n) :=
  decidableReturns _ _

/-! ## Where the walk arrives -/

section Walk
variable {b : Buffer} {pre post pre' post' : List (Addr × BufferChain)} {a a' : Addr}
  {c c' : BufferChain} {off off' k : Nat}

theorem tail_snoc_append (l m : List (Addr × BufferChain)) (p q : Addr × BufferChain) :
    (l ++ p :: m ++ [q]).tail = (l ++ [p]).tail ++ (m ++ [q]) := by
  cases l <;> simp

/-- The walk does not arrive in a chain when it arrives inside an earlier one. -/
theorem not_passed {m : List (Addr × BufferChain)} (hok : c.Ok)
    (hsum : (bytes pre).length + misaligns (pre ++ [(a, c)]).tail + off = k + c.misalign)
    (hsum' : (bytes (pre ++ (a, c) :: m)).length +
      misaligns (pre ++ (a, c) :: m ++ [(a', c')]).tail + off' = k + c'.misalign)
    (hpos : 0 < off') : c.off < off := by
  have hlen := hok.length_data
  have hmis := hok.misalign_le
  rw [tail_snoc_append, misaligns_append, misaligns_append, misaligns_cons, misaligns_nil,
    bytes_append, bytes_cons, List.length_append, List.length_append] at hsum'
  simp only [] at hsum'
  omega

/-- Two ways to arrive after `k` steps are the same. -/
theorem arrives_unique (h : b.WellFormed) (hc : b.chains = pre ++ (a, c) :: post)
    (hc' : b.chains = pre' ++ (a', c') :: post')
    (hsum : (bytes pre).length + misaligns (pre ++ [(a, c)]).tail + off = k + c.misalign)
    (hsum' : (bytes pre').length + misaligns (pre' ++ [(a', c')]).tail + off' = k + c'.misalign)
    (hpos : pre ≠ [] → 0 < off) (hpos' : pre' ≠ [] → 0 < off') (hstop : post = [] ∨ off ≤ c.off)
    (hin' : off' < c'.off) : pre = pre' ∧ (a, c) = (a', c') := by
  have hok : c.Ok := h.ok_split hc
  have hok' : c'.Ok := h.ok_split hc'
  have heq : pre ++ (a, c) :: post = pre' ++ (a', c') :: post' := hc.symm.trans hc'
  rw [List.append_eq_append_iff] at heq
  rcases heq with ⟨m, rfl, hm⟩ | ⟨m, rfl, hm⟩
  · cases m with
    | nil =>
        rw [List.nil_append, List.cons.injEq] at hm
        exact ⟨(List.append_nil _).symm, hm.1⟩
    | cons q m =>
        rw [List.cons_append, List.cons.injEq] at hm
        obtain ⟨rfl, hpost⟩ := hm
        have hover := not_passed hok hsum hsum' (hpos' (by simp))
        rcases hstop with rfl | hle
        · simp at hpost
        · omega
  · cases m with
    | nil =>
        rw [List.nil_append, List.cons.injEq] at hm
        exact ⟨List.append_nil _, hm.1.symm⟩
    | cons q m =>
        rw [List.cons_append, List.cons.injEq] at hm
        obtain ⟨rfl, -⟩ := hm
        have hover := not_passed hok' hsum' hsum (hpos (by simp))
        omega

/-- `begin() + k`, step by step: the chain it arrives in and the offset there. -/
theorem forward_arrives (h : b.WellFormed) (hne : b.totalLen ≠ 0) (hmax : k ≤ u32 b.totalLen) :
    ∃ it pre a c post, (b.beginIter >>= fun it => b.forward it (u32 k)) = .ok it ∧
      it.buffer = some b.self ∧ it.offsetOfBuffer = k ∧ it.chain = some a ∧
      b.chains = pre ++ (a, c) :: post ∧
      (bytes pre).length + misaligns (pre ++ [(a, c)]).tail + it.offsetOfChain = k + c.misalign ∧
      (pre ≠ [] → 0 < it.offsetOfChain) ∧ (post = [] ∨ it.offsetOfChain ≤ c.off) := by
  obtain ⟨a, c, rest, hc⟩ := h.exists_cons hne
  have hok : c.Ok := (h.first_good hc).ok
  have hlen := hok.length_data
  have hmis := hok.misalign_le
  have hlt : u32 b.totalLen < 2 ^ 32 := Nat.mod_lt _ (by decide)
  rw [beginIter_eq hc, ok_bind, u32_of_lt (by omega : k < 2 ^ 32)]
  by_cases hnear : k ≤ c.data.length
  · refine ⟨⟨some b.self, some a, k, 0, c.misalign + k⟩, [], a, c, rest,
      forward_near h hc hmax hnear, rfl, rfl, rfl, hc, ?_, by simp, Or.inr (by simp only []; omega)⟩
    simp only [bytes_nil, List.length_nil, List.nil_append, List.tail_cons, misaligns_nil]
    omega
  · obtain ⟨passed, a₁, c₁, post₁, r, it, hsplit, hrun, hbuf, hchain, hoffset, hr, hpos, hsum, hstop⟩ :=
      forward_far h hc hmax (Nat.lt_of_not_le hnear)
    refine ⟨it, (a, c) :: passed, a₁, c₁, post₁, hrun, hbuf, hoffset, hchain, ?_, ?_,
      fun _ => hr ▸ hpos, hr ▸ hstop⟩
    · rw [hc, hsplit]
      rfl
    · simp only [bytes_cons, List.length_append, List.cons_append, List.tail_cons,
        misaligns_append, misaligns_cons, misaligns_nil]
      omega

/-- The iterator stands in front of a byte exactly when the walk lands. -/
theorem inside_iff_lands (h : b.WellFormed) {it : BufferIter} (hbuf : it.buffer = some b.self)
    (hchain : it.chain = some a) (hc : b.chains = pre ++ (a, c) :: post)
    (hsum : (bytes pre).length + misaligns (pre ++ [(a, c)]).tail + it.offsetOfChain =
      k + c.misalign)
    (hpos : pre ≠ [] → 0 < it.offsetOfChain) (hstop : post = [] ∨ it.offsetOfChain ≤ c.off)
    (p : Nat) : b.Inside it p ↔ b.Lands k p := by
  have hok : c.Ok := h.ok_split hc
  have hlen := hok.length_data
  have hmis := hok.misalign_le
  constructor
  · rintro ⟨-, pre₁, a₁, c₁, post₁, hc₁, hchain₁, hlo, hhi, hp⟩
    rw [hchain, Option.some.injEq] at hchain₁
    subst hchain₁
    obtain ⟨rfl, rfl, rfl⟩ := split_unique h.nodup hc hc₁
    refine ⟨pre, a, c, post, hc, by omega, by omega, by omega, ?_⟩
    rcases List.eq_nil_or_concat pre with rfl | ⟨_, _, rfl⟩
    · exact Or.inl rfl
    · have := hpos (by simp)
      exact Or.inr (by omega)
  · rintro ⟨pre₁, a₁, c₁, post₁, hc₁, hlo, hhi, hp, hentered⟩
    have hok₁ : c₁.Ok := h.ok_split hc₁
    have hlen₁ := hok₁.length_data
    obtain ⟨off₁, hoff₁⟩ : ∃ off₁, off₁ = p - (bytes pre₁).length + c₁.misalign := ⟨_, rfl⟩
    obtain ⟨rfl, hsame⟩ := arrives_unique h hc hc₁ hsum
      (by omega : (bytes pre₁).length + misaligns (pre₁ ++ [(a₁, c₁)]).tail + off₁ = k + c₁.misalign)
      hpos (fun hne => by rcases hentered with hnil | hlt
                          · exact absurd hnil hne
                          · omega) hstop (by omega)
    cases hsame
    exact ⟨hbuf, pre, a, c, post, hc, hchain, by omega, by omega, by omega⟩

end Walk

/-- Every position in front of the end lies in a chain. -/
theorem exists_split_at (l : List (Addr × BufferChain)) {p : Nat} (hp : p < (bytes l).length) :
    ∃ pre a c post, l = pre ++ (a, c) :: post ∧ (bytes pre).length ≤ p ∧
      p < (bytes pre).length + c.data.length := by
  induction l generalizing p with
  | nil => exact absurd hp (Nat.not_lt_zero p)
  | cons x l ih =>
      obtain ⟨a, c⟩ := x
      by_cases hin : p < c.data.length
      · exact ⟨[], a, c, l, rfl, Nat.zero_le _, by simpa using hin⟩
      · rw [bytes_cons, List.length_append] at hp
        obtain ⟨pre, a', c', post, rfl, hlo, hhi⟩ :=
          ih (by omega : p - c.data.length < (bytes l).length)
        refine ⟨(a, c) :: pre, a', c', post, rfl, ?_, ?_⟩
        · rw [bytes_cons, List.length_append]
          omega
        · rw [bytes_cons, List.length_append]
          omega

/-- ... and in one only. -/
theorem split_at_unique {l pre pre' post post' : List (Addr × BufferChain)} {a a' : Addr}
    {c c' : BufferChain} {p : Nat} (hc : l = pre ++ (a, c) :: post)
    (hc' : l = pre' ++ (a', c') :: post') (hlo : (bytes pre).length ≤ p)
    (hhi : p < (bytes pre).length + c.data.length) (hlo' : (bytes pre').length ≤ p)
    (hhi' : p < (bytes pre').length + c'.data.length) : pre = pre' := by
  have heq : pre ++ (a, c) :: post = pre' ++ (a', c') :: post' := hc.symm.trans hc'
  rw [List.append_eq_append_iff] at heq
  rcases heq with ⟨m, rfl, hm⟩ | ⟨m, rfl, hm⟩
  · cases m with
    | nil => exact (List.append_nil _).symm
    | cons q m =>
        rw [List.cons_append, List.cons.injEq] at hm
        rw [← hm.1, bytes_append, bytes_cons, List.length_append, List.length_append] at hlo'
        omega
  · cases m with
    | nil => exact List.append_nil _
    | cons q m =>
        rw [List.cons_append, List.cons.injEq] at hm
        rw [← hm.1, bytes_append, bytes_cons, List.length_append, List.length_append] at hlo
        omega

/-! ## The temporary buffer -/

section Temporary
variable {b : Buffer} {it : BufferIter} {k p n : Nat}

/-- The slice has the right bytes, and says that it has `n`. -/
theorem copyRange_spec (al : Allocator Addr) (self : Addr) (h : b.WellFormed)
    (hlt : b.totalLen < 2 ^ 31) (hit : b.Inside it p) (hoff : it.offsetOfBuffer = k) (hpk : p ≤ k)
    (hk : k < b.totalLen) (hn : 0 < n) :
    ∃ w : Buffer, b.copyRange al self n it = .ok { w with totalLen := n } ∧ w.WellFormed ∧
      w.content = (b.content.drop p).take (min n (b.totalLen - k)) := by
  obtain ⟨m, hm⟩ : ∃ m, m = min n (b.totalLen - k) := ⟨_, rfl⟩
  have hself : (empty self).totalLen = 0 := rfl
  rw [← hm]
  obtain ⟨a, c, hvalid, hchain, hget, hinside, b₁, r, piece, src, hloop, hrest, hok, hne, happended,
    hsrc⟩ := range_spec al h (empty_wellFormed self) hit (by omega : 0 < m) (by omega) (by omega)
  have hlen := congrArg List.length hsrc
  rw [List.length_append, List.length_take, List.length_drop, ← h.total_eq] at hlen
  have htotal : b₁.totalLen = src.length := by
    rw [happended.wellFormed.total_eq, happended.content_eq, List.length_append]
    exact Nat.zero_add _
  obtain ⟨w, hmove, happended₂⟩ := appendMove_spec al happended.wellFormed hok (by omega)
  have hcontent : w.content = (b.content.drop p).take m := by
    rw [happended₂.content_eq, happended.content_eq, ← hsrc]
    rfl
  have hpos : 0 < piece.data.length := List.length_pos_of_ne_nil hne
  have hw : w.totalLen ≠ 0 := by
    rw [happended₂.wellFormed.total_eq, happended₂.content_eq, List.length_append]
    omega
  obtain ⟨z, hback, hsame⟩ := happended₂.wellFormed.back_eq hw
  have hlast : w.lastChainWithData = some z := (congrArg Buffer.lastChainWithData hsame).symm
  refine ⟨w, ?_, happended₂.wellFormed, hcontent⟩
  have hguard : ¬ (n = 0 ∨ b.totalLen = 0) := by omega
  have hmax : u32 (subU64 b.totalLen it.offsetOfBuffer) = b.totalLen - k := by
    rw [hoff, subU64_of_le (by omega) (by omega), u32_of_lt (by omega)]
  have hmin : (if b.totalLen - k < n then b.totalLen - k else n) = m := by
    split <;> omega
  simp only [copyRange, hvalid, ok_bind, reduceCtorEq, false_or, if_neg hguard, hchain, nonNull,
    hget, hinside, if_false, hmax, hmin, hloop, hrest, hmove, hback, pure_eq_ok]
  rw [hlast]

/-- An iterator that stands behind the bytes of its chain gives an empty slice. -/
theorem copyRange_empty (al : Allocator Addr) (self : Addr) (h : b.WellFormed)
    {pre post : List (Addr × BufferChain)} {a : Addr} {c : BufferChain}
    (hc : b.chains = pre ++ (a, c) :: post) (hbuf : it.buffer = some b.self)
    (hchain : it.chain = some a)
    (hout : ¬ (c.misalign ≤ it.offsetOfChain ∧ it.offsetOfChain < c.off)) :
    b.copyRange al self n it = .ok (empty self) := by
  have hvalid := validateIter_eq hc h.nodup h.linked hbuf hchain
  have hinvalid : c.validateIter a it = false := by
    simp only [BufferChain.validateIter, decide_eq_false_iff_not]
    exact fun hin => hout ⟨hin.2.2, hin.2.1⟩
  by_cases h0 : n = 0 ∨ b.totalLen = 0
  · simp only [copyRange, hvalid, ok_bind, reduceCtorEq, false_or, if_pos h0, pure_eq_ok]
  · simp only [copyRange, hvalid, ok_bind, reduceCtorEq, false_or, if_neg h0, hchain, nonNull,
      getChain_split hc h.nodup, hinvalid, if_true, pure_eq_ok]

/-- Removing more than there is from a buffer that is wrong about its length fails the assertion
that the last chain is not left. -/
theorem removeLoop_short (fuel : Nat) {w : Buffer} {a : Addr} {c : BufferChain}
    {rest : List (Addr × BufferChain)} (h : w.WellFormed) (hc : w.chains = (a, c) :: rest)
    (total : Nat) {remain : Nat} (hlt : w.totalLen < remain) (out : List Byte)
    (hfuel : rest.length + 1 ≤ fuel) :
    removeLoop fuel { w with totalLen := total } a c.next remain out = .error .assertion := by
  induction fuel generalizing w a c rest total remain out with
  | zero => omega
  | succ fuel ih =>
      have hgood := h.first_good hc
      have hpos : 0 < c.data.length := hgood.length_data_pos
      have hle := h.length_first_le hc
      have hread : readMem c.buffer c.misalign c.data.length = .ok c.data := hgood.ok.readMem_data
      have hsize : c.size = c.data.length := hgood.ok.size_eq_length
      have hget : getChain { w with totalLen := total } a = .ok c := getChain_cons hc
      have hsum : w.totalLen = c.data.length + (bytes rest).length := by
        rw [h.total_eq, content, hc, bytes_cons, List.length_append]
      rw [removeLoop, if_neg (by omega), hget, ok_bind, hsize, if_pos (by omega), if_neg (by omega),
        hread, ok_bind]
      simp only [hc, List.tail_cons]
      by_cases hlast : w.lastChainWithData = some a
      · rw [if_pos hlast, if_neg (by omega)]
      · -- the bytes that are missing are missing behind this chain
        have hne : rest ≠ [] := fun hnil => hlast ((h.first_is_last hc).mpr hnil)
        obtain ⟨⟨a₂, c₂⟩, rest₂, rfl⟩ := List.exists_cons_of_ne_nil hne
        have hlastRest : w.lastChainWithData = lastAddr ((a₂, c₂) :: rest₂) := by
          rw [h.last_eq, hc, lastAddr_cons_cons]
        have hpop := h.pop_front hc hlastRest
        have hnext : c.next = some a₂ := h.first_next hc
        rw [if_neg hlast, hnext, nonNull, ok_bind, getChain_cons rfl, ok_bind]
        refine ih hpop.wellFormed rfl _ ?_ _ (by simp only [List.length_cons] at hfuel; omega)
        simp only [subU64_of_le hle h.total_lt]
        omega

theorem remove_short {w : Buffer} (h : w.WellFormed) (h0 : w.totalLen ≠ 0)
    (hlt : w.totalLen < n) : remove { w with totalLen := n } true n = .error .assertion := by
  obtain ⟨a, c, rest, hc⟩ := h.exists_cons h0
  obtain ⟨_, _, _, _, hlast⟩ := h.exists_snoc h0
  have hshort := removeLoop_short (w.chains.length + 1) h hc n hlt []
    (by rw [hc, List.length_cons]; omega)
  obtain ⟨w', hw'⟩ : ∃ w' : Buffer, w' = { w with totalLen := n } := ⟨_, rfl⟩
  rw [← hw'] at hshort ⊢
  have hc' : w'.chains = (a, c) :: rest := by rw [hw']; exact hc
  have hlen : w'.chains.length = w.chains.length := by rw [hw']
  have htotal : w'.totalLen = n := by rw [hw']
  have hlast' : w'.lastChainWithData ≠ none := by
    rw [hw']
    exact hlast ▸ Option.some_ne_none _
  have hfront : w'.front = .ok a := by simp [front, hc']
  have hguard₁ : ¬ ((true : Bool) = false ∨ n = 0) := by simp; omega
  have hguard₂ : ¬ (w'.lastChainWithData = none ∨ w'.totalLen < n) := by
    rw [htotal]
    exact fun hor => hor.elim hlast' (Nat.lt_irrefl n)
  simp only [remove, if_neg hguard₁, if_neg hguard₂, hfront, ok_bind, getChain_cons hc', hlen,
    hshort, error_bind]

end Temporary

/-! ## `copy_out_from` -/

section CopyOut
variable {b : Buffer} {k : Nat}

/-- The walk lands in front of one byte at most, which byte `k` is not in front of. -/
theorem Lands.le {p : Nat} (h : b.Lands k p) : p ≤ k := by
  obtain ⟨_, _, _, _, _, _, _, hsum, _⟩ := h
  omega

/-- **When copying out works**: there are `n` bytes from byte `k` on, and the walk to byte `k`
lands in front of the same bytes. -/
theorem copiesOut_iff (al : Allocator Addr) (self : Addr) (h : b.WellFormed)
    (hlt : b.totalLen < 2 ^ 31) (hk : k < b.totalLen) {n : Nat} (hn : 0 < n) :
    b.CopiesOut al self k n ↔ n ≤ b.totalLen - k ∧
      ∃ p, b.Lands k p ∧ (b.content.drop p).take n = (b.content.drop k).take n := by
  have hmax : k ≤ u32 b.totalLen := by rw [u32_of_lt (by omega)]; exact hk.le
  obtain ⟨it, pre, a, c, post, hrun, hbuf, hoff, hchain, hc, hsum, hpos, hstop⟩ :=
    forward_arrives h (by omega) hmax
  have hlands := inside_iff_lands h hbuf hchain hc hsum hpos hstop
  have hvalid := validateIter_eq hc h.nodup h.linked hbuf hchain
  have hcopy : b.CopiesOut al self k n ↔ b.copyOutFrom al self true n it =
      .ok (((min n (b.totalLen - k) : Nat) : Int),
        (b.content.drop k).take (min n (b.totalLen - k))) := by
    rw [CopiesOut, hrun]
    simp
  have hout : b.copyOutFrom al self true n it = (b.copyRange al self n it >>= fun tmpBuf =>
      tmpBuf.remove true n >>= fun r => pure (r.1, r.2.1)) := by
    simp only [copyOutFrom, hvalid, ok_bind, Bool.true_eq_false, or_self, if_false,
      if_neg (Nat.ne_of_gt hn)]
  rw [hcopy, hout]
  by_cases hin : c.misalign ≤ it.offsetOfChain ∧ it.offsetOfChain < c.off
  · obtain ⟨p, hp⟩ : ∃ p, b.Inside it p :=
      ⟨_, hbuf, pre, a, c, post, hc, hchain, hin.1, hin.2, rfl⟩
    have hland := (hlands p).mp hp
    obtain ⟨w, hw, hwf, hcontent⟩ := copyRange_spec al self h hlt hp hoff hland.le hk hn
    have hlen : w.totalLen = min n (b.totalLen - k) := by
      have hple := hland.le
      rw [hwf.total_eq, hcontent, List.length_take, List.length_drop, ← h.total_eq]
      omega
    rw [hw, ok_bind]
    by_cases henough : n ≤ b.totalLen - k
    · -- the temporary is right about its length
      rw [Nat.min_eq_left henough] at hlen hcontent ⊢
      have hsame : ({ w with totalLen := n } : Buffer) = w := by rw [← hlen]
      obtain ⟨w', hremove, -⟩ := remove_spec hwf hn (by omega)
      rw [hsame, hremove, ok_bind, and_iff_right henough, hcontent, List.take_take, Nat.min_self]
      simp only [pure_eq_ok, Except.ok.injEq, Prod.mk.injEq, true_and]
      constructor
      · intro heq
        exact ⟨p, hland, heq⟩
      · rintro ⟨p', hland', heq⟩
        obtain ⟨-, pre₁, a₁, c₁, post₁, hc₁, hchain₁, -, -, hp₁⟩ := (hlands p').mpr hland'
        obtain ⟨-, pre₂, a₂, c₂, post₂, hc₂, hchain₂, -, -, hp₂⟩ := hp
        rw [hchain₁, Option.some.injEq] at hchain₂
        subst hchain₂
        obtain ⟨rfl, rfl, rfl⟩ := split_unique h.nodup hc₁ hc₂
        rw [← hp₂, hp₁]
        exact heq
    · -- it is not, and what is missing is found missing by an assertion
      have hshort := remove_short hwf (n := n) (by omega) (by omega)
      rw [hshort, error_bind]
      exact iff_of_false (by simp) fun hcond => henough hcond.1
  · -- the temporary is empty
    have hrefused : (empty self).remove true n = .ok (-1, [], empty self) :=
      remove_refused (Or.inr hn)
    rw [copyRange_empty al self h hc hbuf hchain hin, ok_bind, hrefused, ok_bind]
    refine iff_of_false ?_ ?_
    · simp only [pure_eq_ok, Except.ok.injEq, Prod.mk.injEq]
      rintro ⟨hret, -⟩
      omega
    · rintro ⟨-, p, hland, -⟩
      obtain ⟨-, pre₁, a₁, c₁, post₁, hc₁, hchain₁, hlo, hhi, -⟩ := (hlands p).mpr hland
      rw [hchain, Option.some.injEq] at hchain₁
      subst hchain₁
      obtain ⟨rfl, rfl, rfl⟩ := split_unique h.nodup hc hc₁
      exact hin ⟨hlo, hhi⟩

/-- Without misaligned chains the walk to byte `k` lands in front of byte `k`, unless a chain begins
there. -/
theorem lands_iff_of_aligned (h : b.WellFormed) (haligned : ∀ p ∈ b.chains, p.2.misalign = 0)
    (hk : k < b.totalLen) {p : Nat} : b.Lands k p ↔ p = k ∧ ¬ b.AtChainStart k := by
  have hzero : ∀ (pre : List (Addr × BufferChain)) x post, b.chains = pre ++ x :: post →
      misaligns (pre ++ [x]).tail = 0 := by
    intro pre x post hc
    apply misaligns_of_forall
    intro q hq
    refine haligned q ?_
    rw [hc]
    have hmem := List.mem_of_mem_tail hq
    rw [List.mem_append, List.mem_singleton] at hmem
    rcases hmem with hmem | rfl
    · exact List.mem_append_left _ hmem
    · simp
  constructor
  · rintro ⟨pre, a, c, post, hc, hlo, hhi, hsum, hentered⟩
    have hmis : c.misalign = 0 := haligned (a, c) (by rw [hc]; simp)
    have hz := hzero pre (a, c) post hc
    obtain rfl : p = k := by omega
    refine ⟨rfl, ?_⟩
    rintro ⟨pre', a', c', post', hc', hne, hbytes⟩
    have hpos' : 0 < c'.data.length :=
      (h.good_split hc').length_data_pos
    -- the chain that begins here is the one that holds the byte
    obtain rfl := split_at_unique hc hc' hlo hhi hbytes.le (by omega)
    exact hentered.elim hne fun hlt => by omega
  · rintro ⟨rfl, hstart⟩
    obtain ⟨pre, a, c, post, hc, hlo, hhi⟩ := exists_split_at b.chains (h.total_eq ▸ hk)
    have hz := hzero pre (a, c) post hc
    refine ⟨pre, a, c, post, hc, hlo, hhi, by omega, ?_⟩
    by_cases hnil : pre = []
    · exact Or.inl hnil
    · have hne : (bytes pre).length ≠ p := fun heq => hstart ⟨pre, a, c, post, hc, hnil, heq⟩
      exact Or.inr (by omega)

/-- In a buffer without misaligned chains copying out works inside the chains. -/
theorem copiesOut_iff_of_aligned (al : Allocator Addr) (self : Addr) (h : b.WellFormed)
    (haligned : ∀ p ∈ b.chains, p.2.misalign = 0) (hlt : b.totalLen < 2 ^ 31)
    (hk : k < b.totalLen) {n : Nat} (hn : 0 < n) :
    b.CopiesOut al self k n ↔ n ≤ b.totalLen - k ∧ ¬ b.AtChainStart k := by
  rw [copiesOut_iff al self h hlt hk hn]
  refine and_congr_right fun _ => ?_
  constructor
  · rintro ⟨p, hland, -⟩
    exact ((lands_iff_of_aligned h haligned hk).mp hland).2
  · intro hstart
    exact ⟨k, (lands_iff_of_aligned h haligned hk).mpr ⟨rfl, hstart⟩, rfl⟩

end CopyOut

end Buffer

/-! ## Buffers that calls have built -/

namespace Op

open Unp.Machine Unp.LinkedChain Unp.Run BufferChain

/-- Whatever has been called on the buffer, appends or other members, copying out `n` bytes from
byte `k` on works exactly when there are so many and the walk lands in front of these bytes. -/
theorem copyOut_iff (self : Addr) (calls : List (Allocator Addr × Op)) (hfits : AllFit calls) :
    ∃ history b, run Op.step calls (Buffer.empty self) = .ok (history, b) ∧
      ∀ (al : Allocator Addr) (tmp : Addr) (k : Nat) (n : UInt32), k < b.totalLen → 0 < n →
        (b.CopiesOut al tmp k n.toNat ↔ n.toNat ≤ b.totalLen - k ∧
          ∃ p, b.Lands k p ∧
            (b.content.drop p).take n.toNat = (b.content.drop k).take n.toNat) := by
  obtain ⟨history, b, hrun, -, hinv, -⟩ := run_calls self calls hfits
  refine ⟨history, b, hrun, fun al tmp k n hk hn => ?_⟩
  have hpos : 0 < n.toNat := hn
  exact Buffer.copiesOut_iff al tmp hinv.wellFormed hinv.short hk hpos

/-- Byte 2 is the first one of the second chain; from byte 1 on there are two bytes. -/
theorem copyOut_misses : ∃ r, run Op.step twoChainCalls (Buffer.empty 0) = .ok r ∧
    r.2.totalLen = 3 ∧ ¬ r.2.CopiesOut .succMax 9 2 1 ∧ ¬ r.2.CopiesOut .succMax 9 1 3 := by
  decide +kernel

theorem copyOut_iff_twoChains : AllFit twoChainCalls ∧
    ∃ history b, run Op.step twoChainCalls (Buffer.empty 0) = .ok (history, b) ∧
      ∀ (al : Allocator Addr) (tmp : Addr) (k : Nat) (n : UInt32), k < b.totalLen → 0 < n →
        (b.CopiesOut al tmp k n.toNat ↔ n.toNat ≤ b.totalLen - k ∧
          ∃ p, b.Lands k p ∧
            (b.content.drop p).take n.toNat = (b.content.drop k).take n.toNat) :=
  ⟨twoChainCalls_fit, copyOut_iff 0 twoChainCalls twoChainCalls_fit⟩

end Op
end Unp.Reactor
