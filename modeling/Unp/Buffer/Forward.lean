import Unp.Buffer.Iter
import Unp.Buffer.Queue

/-!
# Iterator arithmetic

`begin() + k` walks along the chains. In the first chain it counts the bytes behind `misalign_`; in
every further one it counts from offset 0 of the block, so a chain that begins later than that, as
`pullup` leaves one behind when it takes a part of it, throws the count off by its `misalign_`.

`forward_denotes_iff` says for which buffers and distances the result is byte `k`.
-/

namespace Unp.Reactor
namespace Buffer

open Unp.Machine Unp.LinkedChain BufferChain

/-- `it` denotes byte `k` of `b`: its two positions are that of the same byte, or of the end of
the chain. -/
def Denotes (b : Buffer) (it : BufferIter) (k : Nat) : Prop :=
  it.buffer = some b.self ∧ it.offsetOfBuffer = k ∧
    ∃ pre a c post, b.chains = pre ++ (a, c) :: post ∧ it.chain = some a ∧
      c.misalign ≤ it.offsetOfChain ∧ it.offsetOfChain ≤ c.off ∧
      (bytes pre).length + (it.offsetOfChain - c.misalign) = k

instance (b : Buffer) (it : BufferIter) (k : Nat) : Decidable (b.Denotes it k) :=
  decidable_of_iff (it.buffer = some b.self ∧ it.offsetOfBuffer = k ∧
      ∃ i : Fin b.chains.length, it.chain = some (b.chains.get i).1 ∧
        (b.chains.get i).2.misalign ≤ it.offsetOfChain ∧
        it.offsetOfChain ≤ (b.chains.get i).2.off ∧
        (bytes (b.chains.take i)).length +
          (it.offsetOfChain - (b.chains.get i).2.misalign) = k) <| by
    refine and_congr_right fun _ => and_congr_right fun _ => ⟨?_, ?_⟩
    · rintro ⟨i, hrest⟩
      refine ⟨b.chains.take i, _, _, b.chains.drop (i + 1), ?_, hrest⟩
      exact (List.take_append_drop i b.chains).symm.trans
        (congrArg (b.chains.take i ++ ·) (List.drop_eq_getElem_cons i.2))
    · rintro ⟨pre, a, c, post, hc, hrest⟩
      have hlt : pre.length < b.chains.length := by
        rw [hc, List.length_append, List.length_cons]
        omega
      have hget : b.chains.get ⟨pre.length, hlt⟩ = (a, c) := by simp [hc]
      have htake : b.chains.take pre.length = pre := by rw [hc, List.take_left]
      refine ⟨⟨pre.length, hlt⟩, ?_⟩
      rw [hget, htake]
      exact hrest

/-- Every chain behind the first one that begins in front of byte `k` is aligned. -/
def AlignedBefore (b : Buffer) (k : Nat) : Prop :=
  ∀ pre a c post, b.chains = pre ++ (a, c) :: post → pre ≠ [] → (bytes pre).length < k →
    c.misalign = 0

/-! ## Splits of the list of chains -/

/-- An address occurs once, so there is one way to cut the list at it. -/
theorem split_unique {l pre pre' post post' : List (Addr × BufferChain)} {a : Addr}
    {c c' : BufferChain} (hnd : (addrs l).Nodup) (h : l = pre ++ (a, c) :: post)
    (h' : l = pre' ++ (a, c') :: post') : pre = pre' ∧ c = c' ∧ post = post' := by
  induction pre generalizing l pre' with
  | nil =>
      cases pre' with
      | nil =>
          rw [h] at h'
          simp only [List.nil_append, List.cons.injEq, Prod.mk.injEq, true_and] at h'
          exact ⟨rfl, h'.1, h'.2⟩
      | cons p pre' =>
          rw [h] at h' hnd
          simp only [List.nil_append, List.cons_append, List.cons.injEq] at h'
          obtain ⟨-, hpost⟩ := h'
          rw [hpost] at hnd
          simp at hnd
  | cons p pre ih =>
      cases pre' with
      | nil =>
          rw [h'] at h hnd
          simp only [List.nil_append, List.cons_append, List.cons.injEq] at h
          obtain ⟨-, hpost⟩ := h
          rw [hpost] at hnd
          simp at hnd
      | cons p' pre' =>
          rw [h] at h' hnd
          simp only [List.cons_append, List.cons.injEq] at h'
          obtain ⟨rfl, htail⟩ := h'
          rw [List.cons_append, addrs_cons, List.nodup_cons] at hnd
          obtain ⟨rfl, hrest⟩ := ih hnd.2 rfl htail
          exact ⟨rfl, hrest⟩

/-- What a walk over `l` counts beyond the bytes of `l`. -/
def misaligns (l : List (Addr × BufferChain)) : Nat := (l.map fun p => p.2.misalign).sum

@[simp] theorem misaligns_nil : misaligns [] = 0 := rfl

@[simp] theorem misaligns_cons (p : Addr × BufferChain) (l : List (Addr × BufferChain)) :
    misaligns (p :: l) = p.2.misalign + misaligns l := by
  simp [misaligns]

@[simp] theorem misaligns_append (l₁ l₂ : List (Addr × BufferChain)) :
    misaligns (l₁ ++ l₂) = misaligns l₁ + misaligns l₂ := by
  simp [misaligns]

theorem misaligns_eq_zero {l : List (Addr × BufferChain)} (h : misaligns l = 0) :
    ∀ p ∈ l, p.2.misalign = 0 := by
  induction l with
  | nil => simp
  | cons p l ih =>
      rw [misaligns_cons] at h
      intro q hq
      rcases List.mem_cons.mp hq with rfl | hq
      · omega
      · exact ih (by omega) q hq

theorem misaligns_of_forall {l : List (Addr × BufferChain)} (h : ∀ p ∈ l, p.2.misalign = 0) :
    misaligns l = 0 := by
  induction l with
  | nil => rfl
  | cons p l ih =>
      obtain ⟨hp, hl⟩ := List.forall_mem_cons.mp h
      rw [misaligns_cons, hp, ih hl]

/-! ## The walk -/

section Walk
variable {b : Buffer} {pre post : List (Addr × BufferChain)} {a : Addr} {c : BufferChain}

/-- A node is the last chain with data exactly when nothing follows it. -/
theorem WellFormed.is_last (h : b.WellFormed) (hc : b.chains = pre ++ (a, c) :: post) :
    b.lastChainWithData = some a ↔ post = [] := by
  rw [h.last_eq, hc]
  constructor
  · intro hlast
    by_contra hne
    rw [lastAddr_append_of_ne_nil (by simp), lastAddr_cons_of_ne_nil hne] at hlast
    have hnd := h.nodup
    rw [hc, addrs_append, List.nodup_append', addrs_cons, List.nodup_cons] at hnd
    exact hnd.2.1.1 (List.mem_of_getLast? hlast)
  · rintro rfl
    exact lastAddr_snoc pre (a, c)

/-- The loop at the start of a chain: it counts `off_` bytes for every chain it passes, and stops
at the last chain or at one that reaches far enough. -/
theorem forwardLoop_spec (fuel : Nat) (h : b.WellFormed) (hc : b.chains = pre ++ (a, c) :: post)
    (hfuel : post.length + 1 ≤ fuel) (remain : Nat) (hpos : 0 < remain) (it : BufferIter)
    (hchain : it.chain = some a) (hoff : it.offsetOfChain = 0) :
    ∃ passed a₁ c₁ post₁ remain₁ it₁,
      forwardLoop b fuel a c.off remain it = .ok (remain₁, it₁) ∧
      (a, c) :: post = passed ++ (a₁, c₁) :: post₁ ∧
      it₁.buffer = it.buffer ∧ it₁.chain = some a₁ ∧ it₁.offsetOfChain = 0 ∧ 0 < remain₁ ∧
      (bytes passed).length + misaligns passed + remain₁ = remain ∧
      (post₁ = [] ∨ remain₁ ≤ c₁.off) := by
  induction fuel generalizing pre a c post remain it with
  | zero => omega
  | succ fuel ih =>
      rw [forwardLoop]
      by_cases hgo : b.lastChainWithData ≠ some a ∧ c.off < remain
      · -- the chain is passed
        have hne : post ≠ [] := fun hnil => hgo.1 ((h.is_last hc).mpr hnil)
        obtain ⟨⟨a₂, c₂⟩, post₂, rfl⟩ := List.exists_cons_of_ne_nil hne
        have hc₂ : b.chains = (pre ++ [(a, c)]) ++ (a₂, c₂) :: post₂ := by
          rw [hc]
          simp
        have hnext : c.next = some a₂ := next_split hc h.linked
        have hok := h.ok_split hc
        have hlen := hok.length_data
        have hmis := hok.misalign_le
        obtain ⟨passed, a₁, c₁, post₁, remain₁, it₁, hrun, hsplit, hrest, hch, hz, hpos₁, hsum, hstop⟩ :=
          ih hc₂ (by simp only [List.length_cons] at hfuel; omega) (remain - c.off) (by omega)
            { it with chain := some a₂, chainNumber := u32 (it.chainNumber + 1),
                      offsetOfChain := 0 } rfl rfl
        refine ⟨(a, c) :: passed, a₁, c₁, post₁, remain₁, it₁, ?_, by rw [hsplit]; rfl, hrest, hch,
          hz, hpos₁, ?_, hstop⟩
        · rw [if_pos hgo, getChain_split hc h.nodup, ok_bind, hnext, nonNull, ok_bind,
            getChain_split hc₂ h.nodup, ok_bind]
          exact hrun
        · rw [bytes_cons, List.length_append, misaligns_cons]
          simp only [] at hlen hmis ⊢
          omega
      · refine ⟨[], a, c, post, remain, it, by rw [if_neg hgo, pure_eq_ok], rfl, rfl, hchain, hoff,
          hpos, by simp, ?_⟩
        by_cases hnil : post = []
        · exact Or.inl hnil
        · have hlast : b.lastChainWithData ≠ some a := fun hl => hnil ((h.is_last hc).mp hl)
          exact Or.inr (Nat.le_of_not_lt fun hlt => hgo ⟨hlast, hlt⟩)

/-- The steps can be made in the chain of the iterator. -/
theorem forward_within (h : b.WellFormed) (hc : b.chains = pre ++ (a, c) :: post) {it : BufferIter}
    (hbuf : it.buffer = some b.self) (hchain : it.chain = some a) (hle : it.offsetOfChain ≤ c.off)
    {k : Nat} (hk : k ≤ c.off - it.offsetOfChain)
    (hmax : k ≤ u32 (subU64 b.totalLen it.offsetOfBuffer)) (hlt : it.offsetOfBuffer + k < 2 ^ 64) :
    b.forward it k = .ok { it with offsetOfChain := it.offsetOfChain + k,
                                   offsetOfBuffer := it.offsetOfBuffer + k } := by
  have hok : c.Ok := h.ok_split hc
  have hoff := hok.off_le
  have hcap := hok.capacity_lt
  rcases Nat.eq_zero_or_pos k with rfl | hpos
  · rfl
  · have hcan : subU32 c.off it.offsetOfChain = c.off - it.offsetOfChain :=
      subU32_of_le hle (by omega)
    have hstay : ¬ (b.lastChainWithData ≠ some a ∧ c.off - it.offsetOfChain < k) := by omega
    simp only [forward, if_neg (Nat.ne_of_gt hpos), hbuf, reduceCtorEq, if_false,
      if_neg (Nat.not_lt.mpr hmax), hchain, nonNull, ok_bind, getChain_split hc h.nodup, hcan,
      forwardLoop, if_neg hstay, pure_eq_ok]
    rw [u32_of_lt (by omega), u64_of_lt hlt]

/-- There are fewer bytes than steps: the result is the end of the buffer. -/
theorem forward_clamped (h : b.WellFormed) (h0 : b.totalLen ≠ 0) {it : BufferIter}
    (hbuf : it.buffer = some b.self) {k : Nat}
    (hmax : u32 (subU64 b.totalLen it.offsetOfBuffer) < k) :
    ∃ init l d, b.chains = init ++ [(l, d)] ∧
      b.forward it k = .ok { it with chain := some l, offsetOfChain := d.off,
                                     offsetOfBuffer := b.totalLen, chainNumber := 0 } := by
  obtain ⟨init, l, d, hsnoc, hlast⟩ := h.exists_snoc h0
  refine ⟨init, l, d, hsnoc, ?_⟩
  simp only [forward, if_neg (by omega : ¬ k = 0), hbuf, reduceCtorEq, if_false, if_pos hmax, hlast,
    nonNull, ok_bind, getChain_snoc hsnoc h.nodup, pure_eq_ok]

end Walk

/-! ## `begin() + k` -/

/-- The loop leaves the distance from the front alone. -/
theorem forwardLoop_offset (b : Buffer) (fuel : Nat) {a : Addr} {can remain r : Nat}
    {it it' : BufferIter} (h : forwardLoop b fuel a can remain it = .ok (r, it')) :
    it'.offsetOfBuffer = it.offsetOfBuffer := by
  induction fuel generalizing a can remain it with
  | zero => cases h
  | succ fuel ih =>
      rw [forwardLoop] at h
      split at h
      · obtain ⟨c, -, h⟩ := bind_eq_ok h
        obtain ⟨n, -, h⟩ := bind_eq_ok h
        obtain ⟨c', -, h⟩ := bind_eq_ok h
        have hoffset := ih h
        exact hoffset
      · cases h
        rfl

/-- The distance from the front after `operator+`. -/
theorem forward_offset {b : Buffer} {it it' : BufferIter} {n : Nat}
    (h : b.forward it n = .ok it') :
    it'.offsetOfBuffer = if n = 0 then it.offsetOfBuffer
      else if u32 (subU64 b.totalLen it.offsetOfBuffer) < n then b.totalLen
      else u64 (it.offsetOfBuffer + n) := by
  rw [forward] at h
  split at h
  · cases h
    rw [if_pos ‹_›]
  · rw [if_neg ‹_›]
    split at h
    · cases h
    · split at h
      · obtain ⟨l, -, h⟩ := bind_eq_ok h
        obtain ⟨c, -, h⟩ := bind_eq_ok h
        cases h
        rw [if_pos ‹_›]
      · obtain ⟨a, -, h⟩ := bind_eq_ok h
        obtain ⟨c, -, h⟩ := bind_eq_ok h
        obtain ⟨⟨r, stop⟩, hloop, h⟩ := bind_eq_ok h
        cases h
        rw [if_neg ‹_›]
        simp only [forwardLoop_offset b _ hloop]

section Begin
variable {b : Buffer} {a : Addr} {c : BufferChain} {rest : List (Addr × BufferChain)}

theorem beginIter_eq (hc : b.chains = (a, c) :: rest) :
    b.beginIter = .ok ⟨some b.self, some a, 0, 0, c.misalign⟩ := by
  have hfront : b.front = .ok a := by simp [front, hc]
  simp only [beginIter, hfront, ok_bind, getChain_cons hc, pure_eq_ok]

/-- The steps can be made in the first chain. -/
theorem forward_near (h : b.WellFormed) (hc : b.chains = (a, c) :: rest) {k : Nat}
    (hmax : k ≤ u32 b.totalLen) (hk : k ≤ c.data.length) :
    b.forward ⟨some b.self, some a, 0, 0, c.misalign⟩ k =
      .ok ⟨some b.self, some a, k, 0, c.misalign + k⟩ := by
  have hok : c.Ok := (h.first_good hc).ok
  have hlen := hok.length_data
  have hsub : subU64 b.totalLen 0 = b.totalLen := subU64_of_le (Nat.zero_le _) h.total_lt
  have hlt : u32 b.totalLen < 2 ^ 32 := Nat.mod_lt _ (by decide)
  have hwithin : k ≤ c.off - c.misalign := hlen ▸ hk
  rw [@forward_within b [] rest a c h hc _ rfl rfl hok.misalign_le k hwithin (by rwa [hsub])
    (by simp only []; omega)]
  simp only [Nat.zero_add]

/-- The steps lead out of the first chain: `r` of them are made in the chain `c₁`, from the start
of its block. -/
theorem forward_far (h : b.WellFormed) (hc : b.chains = (a, c) :: rest) {k : Nat}
    (hmax : k ≤ u32 b.totalLen) (hk : c.data.length < k) :
    ∃ passed a₁ c₁ post₁ r it, rest = passed ++ (a₁, c₁) :: post₁ ∧
      b.forward ⟨some b.self, some a, 0, 0, c.misalign⟩ k = .ok it ∧
      it.buffer = some b.self ∧ it.chain = some a₁ ∧ it.offsetOfBuffer = k ∧
      it.offsetOfChain = r ∧ 0 < r ∧
      c.data.length + (bytes passed).length + misaligns passed + r = k ∧
      (post₁ = [] ∨ r ≤ c₁.off) := by
  have hok : c.Ok := (h.first_good hc).ok
  have hsub : subU64 b.totalLen 0 = b.totalLen := subU64_of_le (Nat.zero_le _) h.total_lt
  have hcan : subU32 c.off c.misalign = c.data.length := hok.size_eq_length
  have hle : u32 b.totalLen ≤ b.totalLen := Nat.mod_le _ _
  have hlt : u32 b.totalLen < 2 ^ 32 := Nat.mod_lt _ (by decide)
  have hne : rest ≠ [] := by
    rintro rfl
    have htotal : b.totalLen = c.data.length := by
      rw [h.total_eq, content, hc, bytes_cons, bytes_nil, List.append_nil]
    omega
  obtain ⟨⟨a₂, c₂⟩, rest₂, rfl⟩ := List.exists_cons_of_ne_nil hne
  have hlast : b.lastChainWithData ≠ some a := fun hl => hne ((h.first_is_last hc).mp hl)
  have hnext : c.next = some a₂ := h.first_next hc
  have hc₂ : b.chains = [(a, c)] ++ (a₂, c₂) :: rest₂ := hc
  obtain ⟨passed, a₁, c₁, post₁, r, it, hrun, hsplit, hbuf, hchain, hz, hpos, hsum, hstop⟩ :=
    forwardLoop_spec b.chains.length h hc₂ (by rw [hc]; simp) (k - c.data.length) (by omega)
      ⟨some b.self, some a₂, 0, 1, 0⟩ rfl rfl
  have hoffset := forwardLoop_offset b _ hrun
  refine ⟨passed, a₁, c₁, post₁, r,
    { it with offsetOfChain := u32 (it.offsetOfChain + r),
              offsetOfBuffer := u64 (it.offsetOfBuffer + k) },
    hsplit, ?_, hbuf, hchain, ?_, ?_, hpos, by omega, hstop⟩
  · have hgo : b.lastChainWithData ≠ some a ∧ c.data.length < k := ⟨hlast, hk⟩
    simp only [forward, if_neg (Nat.ne_of_gt (Nat.lt_of_le_of_lt (Nat.zero_le _) hk)), hsub,
      if_neg (Nat.not_lt.mpr hmax), nonNull, ok_bind, getChain_cons hc, hcan, forwardLoop,
      if_pos hgo, hnext, getChain_split hc₂ h.nodup, pure_eq_ok, reduceCtorEq, if_false]
    have hone : u32 (0 + 1) = 1 := rfl
    rw [hone, hrun, ok_bind]
  · simp only [hoffset, Nat.zero_add]
    exact u64_of_lt (by omega)
  · simp only [hz, Nat.zero_add]
    exact u32_of_lt (by omega)

/-- Two positions that are too far apart for `uint32_t`: the result is at the wrong distance. -/
theorem forward_offset_ne {it : BufferIter} {k : Nat} (h : b.WellFormed)
    (hmax : u32 b.totalLen < k)
    (hrun : b.forward ⟨some b.self, some a, 0, 0, c.misalign⟩ (u32 k) = .ok it) :
    it.offsetOfBuffer ≠ k := by
  intro heq
  have hoffset := forward_offset hrun
  dsimp only at hoffset
  rw [subU64_of_le (Nat.zero_le _) h.total_lt, Nat.sub_zero, Nat.zero_add, heq] at hoffset
  split at hoffset
  · omega
  · split at hoffset
    · -- the result is the end of the buffer, which would have to be byte `k`
      next hclamped =>
      rw [hoffset] at hclamped
      exact absurd hclamped (Nat.lt_irrefl _)
    · have hsmall : u64 (u32 k) = u32 k := u64_of_lt (Nat.lt_of_lt_of_le (Nat.mod_lt _ (by decide)) (by decide))
      omega

end Begin

/-- If nothing up to the chain that holds byte `k` is misaligned, no chain that begins in front of
byte `k` is. -/
theorem alignedBefore_of_passed {b : Buffer}
    {first : Addr × BufferChain} {passed post : List (Addr × BufferChain)} {a : Addr}
    {c : BufferChain} {k : Nat} (hc : b.chains = (first :: passed) ++ (a, c) :: post)
    (hpassed : ∀ p ∈ passed, p.2.misalign = 0) (hzero : c.misalign = 0)
    (hstop : post = [] ∨ k ≤ (bytes (first :: passed)).length + c.data.length) :
    b.AlignedBefore k := by
  intro pre a' c' post' hsplit hpre hbefore
  rw [hc, List.append_eq_append_iff] at hsplit
  rcases hsplit with ⟨m, rfl, hm⟩ | ⟨m, hm, htail⟩
  · cases m with
    | nil =>
        rw [List.nil_append, List.cons.injEq, Prod.mk.injEq] at hm
        rw [← hm.1.2]
        exact hzero
    | cons q m =>
        -- then the chain begins behind byte `k`
        rw [List.cons_append, List.cons.injEq] at hm
        obtain ⟨rfl, hpost⟩ := hm
        rcases hstop with rfl | hle
        · simp at hpost
        · rw [bytes_append, List.length_append, bytes_cons a c, List.length_append] at hbefore
          omega
  · cases m with
    | nil =>
        rw [List.nil_append, List.cons.injEq, Prod.mk.injEq] at htail
        rw [htail.1.2]
        exact hzero
    | cons q m =>
        rw [List.cons_append, List.cons.injEq] at htail
        obtain ⟨rfl, -⟩ := htail
        obtain ⟨p, pre', rfl⟩ := List.exists_cons_of_ne_nil hpre
        rw [List.cons_append, List.cons.injEq] at hm
        exact hpassed (a', c') (by rw [hm.2]; simp)

/-- **When `begin() + k` is byte `k`**: the length of the buffer does not hide `k` from a
`uint32_t`, and every chain that is entered on the way begins at offset 0 of its block. -/
theorem forward_denotes_iff {b : Buffer} (h : b.WellFormed) (hne : b.totalLen ≠ 0) {k : Nat}
    (hk : k ≤ b.totalLen) :
    (∃ it, (b.beginIter >>= fun it => b.forward it (u32 k)) = .ok it ∧ b.Denotes it k) ↔
      k ≤ u32 b.totalLen ∧ b.AlignedBefore k := by
  obtain ⟨a, c, rest, hc⟩ := h.exists_cons hne
  have hok : c.Ok := (h.first_good hc).ok
  have hlen := hok.length_data
  have hmis := hok.misalign_le
  have hlt : u32 b.totalLen < 2 ^ 32 := Nat.mod_lt _ (by decide)
  rw [beginIter_eq hc, ok_bind]
  by_cases hmax : k ≤ u32 b.totalLen
  · rw [u32_of_lt (by omega : k < 2 ^ 32), and_iff_right hmax]
    by_cases hnear : k ≤ c.data.length
    · -- nothing behind the first chain is looked at
      refine iff_of_true ?_ ?_
      · exact ⟨⟨some b.self, some a, k, 0, c.misalign + k⟩, forward_near h hc hmax hnear, rfl, rfl,
          [], a, c, rest, hc, rfl, Nat.le_add_right _ _, by simp only []; omega, by simp⟩
      · intro pre a' c' post hsplit hpre hbytes
        obtain ⟨p, pre', rfl⟩ := List.exists_cons_of_ne_nil hpre
        rw [hc, List.cons_append, List.cons.injEq] at hsplit
        rw [← hsplit.1, bytes_cons, List.length_append] at hbytes
        omega
    · obtain ⟨passed, a₁, c₁, post₁, r, it, hsplit, hrun, hbuf, hchain, hoffset, hr, hpos, hsum, hstop⟩ :=
        forward_far h hc hmax (Nat.lt_of_not_le hnear)
      have hc₁ : b.chains = ((a, c) :: passed) ++ (a₁, c₁) :: post₁ := by
        rw [hc, hsplit]
        rfl
      have hok₁ : c₁.Ok := h.ok_split hc₁
      have hlen₁ := hok₁.length_data
      have hbytes₁ : (bytes ((a, c) :: passed)).length = c.data.length + (bytes passed).length := by
        rw [bytes_cons, List.length_append]
      constructor
      · -- what the walk has counted too much is zero
        rintro ⟨it', hrun', -, -, pre, a', c', post, hsplit', hchain', hlo, hhi, hbytes⟩
        rw [hrun] at hrun'
        cases hrun'
        rw [hchain, Option.some.injEq] at hchain'
        subst hchain'
        obtain ⟨rfl, rfl, rfl⟩ := split_unique h.nodup hc₁ hsplit'
        rw [hbytes₁] at hbytes
        have hpassed := misaligns_eq_zero (by omega : misaligns passed = 0)
        have hzero : c₁.misalign = 0 := by omega
        exact alignedBefore_of_passed hc₁ hpassed hzero (hstop.imp_right fun hle => by omega)
      · intro haligned
        have hpassed : misaligns passed = 0 := by
          apply misaligns_of_forall
          intro p hp
          obtain ⟨u, v, rfl⟩ := List.append_of_mem hp
          have hu : (bytes (u ++ p :: v)).length = (bytes u).length + (bytes (p :: v)).length := by
            rw [bytes_append, List.length_append]
          refine haligned ((a, c) :: u) p.1 p.2 (v ++ (a₁, c₁) :: post₁) ?_ (by simp) ?_
          · rw [hc₁]
            simp
          · rw [bytes_cons, List.length_append]
            omega
        have hzero : c₁.misalign = 0 := haligned _ _ _ _ hc₁ (by simp) (by rw [hbytes₁]; omega)
        refine ⟨it, hrun, hbuf, hoffset, _, a₁, c₁, post₁, hc₁, hchain, by omega, ?_,
          by rw [hbytes₁]; omega⟩
        rcases hstop with rfl | hle
        · -- in the last chain there are enough bytes
          have htotal : b.totalLen = c.data.length + (bytes passed).length + c₁.data.length := by
            rw [h.total_eq, content, hc₁, bytes_append, List.length_append, hbytes₁, bytes_cons,
              bytes_nil, List.append_nil]
          omega
        · omega
  · refine iff_of_false ?_ fun hcond => hmax hcond.1
    rintro ⟨it, hrun, -, hoffset, -⟩
    exact forward_offset_ne h (Nat.lt_of_not_le hmax) hrun hoffset

end Buffer

/-! ## A buffer that `pullup` has left behind -/

namespace Op

open Unp.Machine Unp.LinkedChain Unp.Run BufferChain

/-- Two chains with one and with two bytes; `pullup(2)` takes the first byte of the second one. -/
def pulledCalls : List (Allocator Addr × Op) :=
  [(.succMax, .appendMove ⟨chainOf [1], chainOf_ok (by decide) (by decide)⟩),
    (.succMax, .appendMove ⟨chainOf [2, 3], chainOf_ok (by decide) (by decide)⟩),
    (.succMax, .pullup ⟨2, by decide⟩)]

/-- `begin() + 3` is the end of the buffer. The code arrives at offset 1 of the second chain, which
is byte 2. -/
theorem forward_misses_end :
    ∃ r, run Op.step pulledCalls (Buffer.empty 0) = .ok r ∧ 3 ≤ r.2.totalLen ∧
      ¬ ∃ it, (r.2.beginIter >>= fun it => r.2.forward it (u32 3)) = .ok it ∧
        r.2.Denotes it 3 := by
  decide +kernel

theorem pulledCalls_fit : AllFit pulledCalls := by
  decide +kernel

theorem forward_denotes_iff_pulled :
    ∃ history b, run Op.step pulledCalls (Buffer.empty 0) = .ok (history, b) ∧
      ((∃ it, (b.beginIter >>= fun it => b.forward it (u32 2)) = .ok it ∧ b.Denotes it 2) ↔
        2 ≤ u32 b.totalLen ∧ b.AlignedBefore 2) := by
  obtain ⟨history, b, hrun, -, hinv, hcontent, -⟩ := run_calls 0 pulledCalls pulledCalls_fit
  have htotal : b.totalLen = 3 := by
    rw [hinv.wellFormed.total_eq, hcontent]
    decide +kernel
  exact ⟨history, b, hrun,
    Buffer.forward_denotes_iff hinv.wellFormed (by omega) (by omega : 2 ≤ b.totalLen)⟩

end Op
end Unp.Reactor
