import Unp.Buffer.CopyOut

/-!
# Searching

`search_range` looks for the first byte of the word with `memchr` and compares the word at every hit.
A hit is an offset into the block of its chain. It is made a distance from the front of the buffer
through `iter_of_chain`, which adds up capacities, and `operator+`; and it is given to `operator+`
after `misalign_` has been taken off twice. In the chain the range ends in, the search begins at the
offset of the start iterator, whatever chain that one is in.

What one search answers is in `Unp.Buffer.SearchQuery`, and on which buffers all of them are right in
`Unp.Buffer.SearchAligned`.
-/

namespace Unp.Reactor
namespace Buffer

open Unp.Machine Unp.LinkedChain BufferChain

/-! ## The code -/

/-- `memchr` over `n` bytes of a block, from the position `t` on, of which `l` is what follows. It
stops at a match, so that it may be told a length that leaves the block. -/
def memchr (byte : Byte) : List Byte → Nat → Nat → Res (Option Nat)
  | _, 0, _ => pure none
  | [], _ + 1, _ => .error .outOfBounds
  | x :: l, n + 1, t => if x = byte then pure (some t) else memchr byte l n (t + 1)

/-- The loop of `buffer_memcmp`, at the offset `off` of the chain `current`; `done` bytes of the word
have been compared. -/
def memcmpLoop (b : Buffer) (source : List Byte) : Nat → Addr → Nat → Nat → Nat → Res Bool
  | 0, _, _, _, _ => .error .outOfFuel
  | fuel + 1, current, off, remain, done => do
      let c ← b.getChain current
      if 0 < c.size ∧ 0 < remain then do
        let n := if subU32 c.off off < remain then subU32 c.off off else remain
        let x ← readMem c.buffer off n
        let y ← readMem source done n
        if x ≠ y then pure false
        else
          match c.next with
          | none => pure (decide (remain - n = 0))
          | some next => do
              let c ← b.getChain next
              memcmpLoop b source fuel next c.misalign (remain - n) (done + n)
      else pure (decide (remain = 0))

/-- `buffer_memcmp(const char* source, uint32_t len, Iter start)`. -/
def bufferMemcmp (b : Buffer) (source : List Byte) (start : BufferIter) : Res Bool := do
  let valid ← b.validateIter start
  if valid = false ∨ subU64 b.totalLen start.offsetOfBuffer < source.length then pure false
  else do
    let a ← nonNull start.chain
    memcmpLoop b source (b.chains.length + 1) a start.offsetOfChain source.length 0

/-- Comparing the word at the offset `t` of the block of a chain. -/
def compareAt (b : Buffer) (what : List Byte) (a : Addr) (c : BufferChain) (t : Nat) : Res Bool := do
  let it ← b.iterOfChain a
  let it ← b.forward it (subU32 (subU32 t c.misalign) c.misalign)
  b.bufferMemcmp what it

/-- The inner loop of `search_range`: `target_offset_of_chain` of the hit in this chain. -/
def searchChain (b : Buffer) (what : List Byte) (first : Byte) (a : Addr) (c : BufferChain) :
    Nat → Nat → Res (Option Nat)
  | 0, _ => .error .outOfFuel
  | fuel + 1, off => do
      match ← memchr first (c.buffer.drop off) (subU32 c.off off) off with
      | none => pure none
      | some t => do
          let same ← b.compareAt what a c t
          if same then pure (some (subU32 t c.misalign))
          else searchChain b what first a c fuel (u32 (t + 1))

/-- The outer loop of `search_range`: the chain of the hit, and its `target_offset_of_chain`. -/
def searchLoop (b : Buffer) (what : List Byte) (first : Byte) (lastChain : Addr) (lastOff : Nat) :
    Nat → Option Addr → Nat → Res (Option (Addr × Nat))
  | 0, _, _ => .error .outOfFuel
  | _ + 1, none, _ => pure none
  | fuel + 1, some current, off => do
      let c ← b.getChain current
      if c.size = 0 then pure none
      else do
        let off := if current = lastChain then lastOff else off
        match ← b.searchChain what first current c (c.buffer.length + 1) off with
        | some target => pure (some (current, target))
        | none =>
            match c.next with
            | none => pure none
            | some next => do
                let c ← b.getChain next
                searchLoop b what first lastChain lastOff fuel (some next) c.misalign

/-- `search_range(const char* what, uint32_t len, Iter start, Iter end)`. What `end` says beyond its
chain is not looked at: `last_off` is the offset of `start`. -/
def searchRange (b : Buffer) (what : List Byte) (start stop : BufferIter) : Res BufferIter := do
  let validStart ← b.validateIter start
  let valid ← if validStart then b.validateIter stop else pure false
  if valid = false ∨ what = [] then pure BufferIter.nullIter
  else do
    let firstChain ← nonNull start.chain
    let lastChain ← nonNull stop.chain
    let first ← Unp.Machine.readAt what 0
    match ← b.searchLoop what first lastChain start.offsetOfChain (b.chains.length + 1)
        (some firstChain) start.offsetOfChain with
    | none => pure BufferIter.nullIter
    | some (a, target) => do
        let it ← b.iterOfChain a
        b.forward it target

/-- `search(const char* what, uint32_t len, Iter start)`. -/
def search (b : Buffer) (what : List Byte) (start : BufferIter) : Res BufferIter := do
  let stop ← b.endIter
  b.searchRange what start stop

/-! ## What a search should answer -/

/-- `buffer_iter::is_valid`. -/
def valid (it : BufferIter) : Bool := it.buffer.isSome && it.chain.isSome

/-- The word occurs at the position `p`, not in front of `s` and not beyond `e`. -/
def Occurs (b : Buffer) (what : List Byte) (s e p : Nat) : Prop :=
  s ≤ p ∧ p + what.length ≤ e ∧ what <+: b.content.drop p

/-- The result is the first occurrence between `s` and `e`, or the null iterator if there is none. -/
def Finds (b : Buffer) (what : List Byte) (s e : Nat) (r : Res BufferIter) : Prop :=
  ∃ it, r = .ok it ∧
    ((∃ p, b.Occurs what s e p ∧ (∀ p' < p, ¬ b.Occurs what s e p') ∧ valid it = true ∧
        it.offsetOfBuffer = p) ∨
      ((∀ p, ¬ b.Occurs what s e p) ∧ it = BufferIter.nullIter))

/-! ## `memchr` -/

/-- Inside the block, `memchr` finds the first match. -/
theorem memchr_spec (byte : Byte) (l : List Byte) {n : Nat} (hn : n ≤ l.length) (t : Nat) :
    (∃ i < n, l[i]? = some byte ∧ (∀ j < i, l[j]? ≠ some byte) ∧
        memchr byte l n t = .ok (some (t + i))) ∨
      ((∀ i < n, l[i]? ≠ some byte) ∧ memchr byte l n t = .ok none) := by
  induction l generalizing n t with
  | nil =>
      obtain rfl : n = 0 := Nat.le_zero.mp hn
      exact Or.inr ⟨by simp, rfl⟩
  | cons x l ih =>
      cases n with
      | zero => exact Or.inr ⟨by simp, rfl⟩
      | succ n =>
          rw [memchr]
          by_cases hx : x = byte
          · exact Or.inl ⟨0, Nat.succ_pos n, by simp [hx], by simp, by rw [if_pos hx]; rfl⟩
          · rw [if_neg hx]
            rcases ih (Nat.le_of_succ_le_succ hn) (t + 1) with
              ⟨i, hi, hbyte, hbefore, hrun⟩ | ⟨hnone, hrun⟩
            · refine Or.inl ⟨i + 1, Nat.succ_lt_succ hi, by simpa using hbyte, ?_, ?_⟩
              · intro j hj
                cases j with
                | zero => simpa using hx
                | succ j => simpa using hbefore j (Nat.lt_of_succ_lt_succ hj)
              · rw [hrun]
                congr 2
                omega
            · refine Or.inr ⟨?_, hrun⟩
              intro i hi
              cases i with
              | zero => simpa using hx
              | succ i => simpa using hnone i (Nat.lt_of_succ_lt_succ hi)

theorem memchr_le {byte : Byte} {l : List Byte} {n t t' : Nat}
    (h : memchr byte l n t = .ok (some t')) : t ≤ t' := by
  induction l generalizing n t with
  | nil => cases n <;> cases h
  | cons x l ih =>
      cases n with
      | zero => cases h
      | succ n =>
          rw [memchr] at h
          split at h
          · cases h
            exact Nat.le_refl _
          · exact Nat.le_of_succ_le (ih h)

theorem memchr_lt {byte : Byte} {l : List Byte} {n t t' : Nat}
    (h : memchr byte l n t = .ok (some t')) : t' < t + l.length := by
  induction l generalizing n t with
  | nil => cases n <;> cases h
  | cons x l ih =>
      cases n with
      | zero => cases h
      | succ n =>
          rw [memchr] at h
          rw [List.length_cons]
          split at h
          · cases h
            omega
          · have := ih h
            omega

theorem memchr_lt_len {byte : Byte} {l : List Byte} {n t t' : Nat}
    (h : memchr byte l n t = .ok (some t')) : t' < t + n := by
  induction l generalizing n t with
  | nil => cases n <;> cases h
  | cons x l ih =>
      cases n with
      | zero => cases h
      | succ n =>
          rw [memchr] at h
          split at h
          · cases h
            omega
          · have := ih h
            omega

/-! ## `buffer_memcmp` -/

/-- Comparing a word with two lists, one after the other. -/
theorem prefix_append_iff {l₁ l₂ w : List Byte} {n : Nat} (hn : n = min l₁.length w.length) :
    w <+: l₁ ++ l₂ ↔ l₁.take n = w.take n ∧ w.drop n <+: l₂ := by
  by_cases hle : w.length ≤ l₁.length
  · rw [Nat.min_eq_right hle] at hn
    rw [hn, List.take_length, List.drop_length, and_iff_left (List.nil_prefix),
      List.prefix_iff_eq_take, List.take_append_of_le_length hle, eq_comm]
  · rw [Nat.min_eq_left (Nat.le_of_not_le hle)] at hn
    rw [hn, List.take_length]
    constructor
    · rintro ⟨tail, htail⟩
      rw [← List.take_append_drop l₁.length w, List.append_assoc] at htail
      have hlen : (w.take l₁.length).length = l₁.length := by
        rw [List.length_take]
        omega
      obtain ⟨hfront, hback⟩ := List.append_inj htail hlen
      exact ⟨hfront.symm, tail, hback⟩
    · rintro ⟨hfront, tail, hback⟩
      refine ⟨tail, ?_⟩
      rw [hfront, ← hback, ← List.append_assoc, List.take_append_drop]

section Compare
variable {b : Buffer} {pre post : List (Addr × BufferChain)} {a : Addr} {c : BufferChain}

/-- The comparison at a place in a block, which may be in front of the data. -/
theorem memcmpLoop_spec (h : b.WellFormed) (source : List Byte) (fuel : Nat)
    (hc : b.chains = pre ++ (a, c) :: post) {off : Nat} (hhi : off ≤ c.off) {remain done : Nat}
    (hsum : done + remain = source.length) (hfuel : post.length + 1 ≤ fuel) :
    memcmpLoop b source fuel a off remain done =
      .ok (decide (source.drop done <+: slice c.buffer off (c.off - off) ++ bytes post)) := by
  induction fuel generalizing pre a c post off remain done with
  | zero => omega
  | succ fuel ih =>
      have hgood : GoodNode (a, c) := h.good_split hc
      have hok : c.Ok := hgood.ok
      have hsize : 0 < c.size := by
        rw [hok.size_eq_length]
        exact hgood.length_data_pos
      have hcap := hok.capacity_lt
      have hoff := hok.off_le
      have hblock := hok.length_buffer
      rw [memcmpLoop, getChain_split hc h.nodup, ok_bind]
      by_cases h0 : remain = 0
      · have hdone : source.drop done = [] := List.drop_eq_nil_iff.mpr (by omega)
        have hstop : ¬ (0 < c.size ∧ 0 < remain) := fun hgo => absurd hgo.2 (by omega)
        rw [if_neg hstop, hdone, pure_eq_ok]
        simp [h0]
      · obtain ⟨n, hn⟩ : ∃ n, n = if subU32 c.off off < remain then subU32 c.off off else remain :=
          ⟨_, rfl⟩
        have hlen : (slice c.buffer off (c.off - off)).length = c.off - off :=
          length_slice (by omega)
        have hmin : n = min (slice c.buffer off (c.off - off)).length (source.drop done).length := by
          rw [hn, hlen, List.length_drop, subU32_of_le hhi (by omega)]
          split <;> omega
        have hwlen : (source.drop done).length = remain := by
          rw [List.length_drop]
          omega
        have hx : readMem c.buffer off n = .ok ((slice c.buffer off (c.off - off)).take n) := by
          rw [readMem_ok (by omega), take_slice _ _ (by omega)]
        have hy : readMem source done n = .ok ((source.drop done).take n) := by
          rw [readMem_ok (by omega), slice]
        rw [if_pos ⟨hsize, Nat.pos_of_ne_zero h0⟩, ← hn]
        dsimp only
        rw [hx, ok_bind, hy, ok_bind]
        have hiff : source.drop done <+: slice c.buffer off (c.off - off) ++ bytes post ↔ _ ∧ _ :=
          prefix_append_iff hmin
        by_cases hsame : (slice c.buffer off (c.off - off)).take n = (source.drop done).take n
        · -- the block agrees as far as it goes, and the next chains decide
          rw [if_neg (not_not.mpr hsame)]
          rw [and_iff_right hsame, List.drop_drop] at hiff
          cases post with
          | nil =>
              have hnext : c.next = none := next_split hc h.linked
              simp only [hnext, pure_eq_ok, Except.ok.injEq, decide_eq_decide]
              rw [hiff, bytes_nil, List.prefix_nil, List.drop_eq_nil_iff]
              omega
          | cons p post =>
              obtain ⟨a₂, c₂⟩ := p
              have hc₂ : b.chains = (pre ++ [(a, c)]) ++ (a₂, c₂) :: post := by
                rw [hc]
                simp
              have hnext : c.next = some a₂ := next_split hc h.linked
              have hok₂ : c₂.Ok := h.ok_split hc₂
              have hrest := ih hc₂ hok₂.misalign_le
                (by omega : (done + n) + (remain - n) = source.length)
                (by simp only [List.length_cons] at hfuel; omega)
              have hall : slice c₂.buffer c₂.misalign (c₂.off - c₂.misalign) = c₂.data := rfl
              simp only [hnext, getChain_split hc₂ h.nodup, ok_bind, hrest, hall, Except.ok.injEq,
                decide_eq_decide]
              rw [hiff, bytes_cons]
        · -- `memcmp` has found a difference
          rw [if_pos hsame, pure_eq_ok]
          have hnot : ¬ source.drop done <+: slice c.buffer off (c.off - off) ++ bytes post :=
            fun hpre => hsame (hiff.mp hpre).1
          simp only [hnot, decide_false]

/-- The comparison at an iterator. The length is checked against the distance that the iterator says it
has from the front. -/
theorem bufferMemcmp_block (h : b.WellFormed) {it : BufferIter} (hbuf : it.buffer = some b.self)
    (hchain : it.chain = some a) (hc : b.chains = pre ++ (a, c) :: post)
    (hhi : it.offsetOfChain ≤ c.off) (what : List Byte) :
    b.bufferMemcmp what it =
      .ok (decide (what.length ≤ subU64 b.totalLen it.offsetOfBuffer ∧
        what <+: slice c.buffer it.offsetOfChain (c.off - it.offsetOfChain) ++ bytes post)) := by
  have hloop := memcmpLoop_spec h what (b.chains.length + 1) hc hhi (Nat.zero_add _)
    (by rw [hc, List.length_append, List.length_cons]; omega)
  rw [List.drop_zero] at hloop
  rw [bufferMemcmp, validateIter_eq hc h.nodup h.linked hbuf hchain, ok_bind]
  by_cases hlen : what.length ≤ subU64 b.totalLen it.offsetOfBuffer
  · have hguard : ¬ (true = false ∨ subU64 b.totalLen it.offsetOfBuffer < what.length) := by
      simp only [Bool.true_eq_false, false_or]
      omega
    rw [if_neg hguard, hchain, nonNull, ok_bind, hloop]
    simp only [hlen, true_and]
  · have hguard : true = false ∨ subU64 b.totalLen it.offsetOfBuffer < what.length :=
      Or.inr (Nat.lt_of_not_le hlen)
    rw [if_pos hguard, pure_eq_ok]
    simp only [hlen, false_and, decide_false]

/-- The same where the iterator stands at byte `p`. -/
theorem bufferMemcmp_eq (h : b.WellFormed) {it : BufferIter} (hbuf : it.buffer = some b.self)
    (hchain : it.chain = some a) (hc : b.chains = pre ++ (a, c) :: post)
    (hlo : c.misalign ≤ it.offsetOfChain) (hhi : it.offsetOfChain ≤ c.off) {p : Nat}
    (hp : (bytes pre).length + (it.offsetOfChain - c.misalign) = p) (what : List Byte) :
    b.bufferMemcmp what it =
      .ok (decide (what.length ≤ subU64 b.totalLen it.offsetOfBuffer ∧
        what <+: b.content.drop p)) := by
  have hdata : dataFrom c it.offsetOfChain =
      slice c.buffer it.offsetOfChain (c.off - it.offsetOfChain) := by
    rw [dataFrom, BufferChain.data, drop_slice, Nat.add_sub_of_le hlo]
    congr 1
    omega
  rw [bufferMemcmp_block h hbuf hchain hc hhi what, drop_content hc (h.ok_split hc) hhi hp, hdata]

/-- **`buffer_memcmp` is exact**, at every place of every chain: it is true when that many bytes
follow and they are the word. -/
theorem bufferMemcmp_exact (h : b.WellFormed) {it : BufferIter} {p : Nat} (hit : b.Denotes it p)
    (what : List Byte) :
    ∃ r, b.bufferMemcmp what it = .ok r ∧
      (r = true ↔ what.length ≤ b.totalLen - p ∧ slice b.content p what.length = what) := by
  obtain ⟨hbuf, hoffset, pre, a, c, post, hc, hchain, hlo, hhi, hp⟩ := hit
  have hlen : c.data.length = c.off - c.misalign := (h.ok_split hc).length_data
  have htotal := h.total_split hc
  have hlt := h.total_lt
  refine ⟨_, bufferMemcmp_eq h hbuf hchain hc hlo hhi hp what, ?_⟩
  rw [hoffset, subU64_of_le (by omega) hlt, decide_eq_true_iff, List.prefix_iff_eq_take, slice]
  exact and_congr_right fun _ => eq_comm

/-! ## The comparison at a hit -/

/-- `iter_of_chain` gives a `uint32_t`. -/
theorem capacities_lt (l : List (Addr × BufferChain)) {start : Nat} (hlt : start < 2 ^ 32) :
    capacities l start < 2 ^ 32 := by
  induction l generalizing start with
  | nil => exact hlt
  | cons p l ih => exact ih (Nat.mod_lt _ (by decide))

/-- At the end of the buffer no word is found. -/
theorem bufferMemcmp_end (h : b.WellFormed) {it : BufferIter} {k : Nat}
    (hbuf : it.buffer = some b.self) (h0 : b.totalLen ≠ 0)
    (hmax : u32 (subU64 b.totalLen it.offsetOfBuffer) < k) {what : List Byte} (hne : what ≠ []) :
    ∃ stop, b.forward it k = .ok stop ∧ b.bufferMemcmp what stop = .ok false := by
  obtain ⟨init, l, d, hsnoc, hrun⟩ := forward_clamped h h0 hbuf hmax
  have hok : d.Ok := h.ok_split hsnoc
  have hpos := List.length_pos_of_ne_nil hne
  have hcompare := @bufferMemcmp_eq b init [] l d h ⟨it.buffer, some l, b.totalLen, 0, d.off⟩ hbuf
    rfl hsnoc hok.misalign_le (Nat.le_refl _) _ rfl what
  have hnone : ¬ what.length ≤ subU64 b.totalLen b.totalLen := by
    rw [subU64_of_le (Nat.le_refl _) h.total_lt]
    omega
  simp only [hnone, false_and, decide_false] at hcompare
  exact ⟨_, hrun, hcompare⟩

/-- In a chain that begins at offset 0 of its block, a comparison says yes only at an occurrence; it
says yes at every occurrence if the capacities in front of the chain are those of full chains. -/
theorem compareAt_aligned (h : b.WellFormed) (hc : b.chains = pre ++ (a, c) :: post)
    (hmis : c.misalign = 0) {t : Nat} (ht : t < c.off) {what : List Byte} (hne : what ≠ []) :
    ∃ same, b.compareAt what a c t = .ok same ∧
      (same = true → what <+: b.content.drop ((bytes pre).length + t)) ∧
      (capacities pre 0 = (bytes pre).length → t ≤ u32 (b.totalLen - (bytes pre).length) →
        what <+: b.content.drop ((bytes pre).length + t) → same = true) := by
  have hok : c.Ok := h.ok_split hc
  have hlen := hok.length_data
  have hoff := hok.off_le
  have hcap := hok.capacity_lt
  have h0 := h.total_ne_zero hc
  have hC := capacities_lt pre (by decide : 0 < 2 ^ 32)
  have htotal := h.total_split hc
  have harg : subU32 (subU32 t c.misalign) c.misalign = t := by
    have hself : subU32 t 0 = t := subU32_of_le (Nat.zero_le _) (by omega)
    rw [hmis, hself, hself]
  rw [compareAt, iterOfChain_eq h0 hc h.nodup h.linked, ok_bind, harg, hmis]
  by_cases hmax : t ≤ u32 (subU64 b.totalLen (capacities pre 0))
  · have hwithin := @forward_within b pre post a c h hc ⟨some b.self, some a, capacities pre 0, 0, 0⟩
      rfl rfl (Nat.zero_le _) t ht.le hmax (by simp only []; omega)
    rw [hwithin, ok_bind]
    simp only [Nat.zero_add]
    rw [bufferMemcmp_eq h rfl rfl hc (by simp only [hmis]; omega) ht.le
      (by simp only [hmis, Nat.sub_zero]; rfl) what]
    refine ⟨_, rfl, fun hsame => (of_decide_eq_true hsame).2, fun hfull _ hpre => ?_⟩
    have hle := hpre.length_le
    rw [List.length_drop, ← h.total_eq] at hle
    refine decide_eq_true ⟨?_, hpre⟩
    dsimp only
    rw [hfull, subU64_of_le (by omega) h.total_lt]
    exact hle
  · obtain ⟨stop, hrun, hfalse⟩ := @bufferMemcmp_end b h
      ⟨some b.self, some a, capacities pre 0, 0, 0⟩ t rfl h0 (Nat.lt_of_not_le hmax) what hne
    rw [hrun, ok_bind]
    refine ⟨false, hfalse, by simp, fun hfull hsmall _ => ?_⟩
    rw [hfull, subU64_of_le (by omega) h.total_lt] at hmax
    exact absurd hsmall hmax

/-- In the first chain, wherever its bytes begin, a comparison is made at some place of the content or
at its end, unless `uint32_t` makes a short distance of a negative one. -/
theorem compareAt_first (h : b.WellFormed) (hc : b.chains = (a, c) :: post)
    (hroom : u32 b.totalLen + c.misalign < 2 ^ 32) {t : Nat} (hlo : c.misalign ≤ t) (ht : t < c.off)
    {what : List Byte} (hne : what ≠ []) :
    ∃ same, b.compareAt what a c t = .ok same ∧
      (same = true → ∃ p, what <+: b.content.drop p) := by
  have hc' : b.chains = [] ++ (a, c) :: post := hc
  have hok : c.Ok := (h.first_good hc).ok
  have hlen := hok.length_data
  have hoff := hok.off_le
  have hcap := hok.capacity_lt
  have h0 := h.total_ne_zero hc'
  have hzero : subU64 b.totalLen 0 = b.totalLen := subU64_of_le (Nat.zero_le _) h.total_lt
  obtain ⟨k, hk⟩ : ∃ k, k = subU32 (t - c.misalign) c.misalign := ⟨_, rfl⟩
  have hstart : capacities [] 0 = 0 := rfl
  rw [compareAt, iterOfChain_eq h0 hc' h.nodup h.linked, ok_bind, subU32_of_le hlo (by omega), ← hk,
    hstart]
  by_cases hmax : k ≤ u32 b.totalLen
  · -- the distance is not negative
    have hle : c.misalign ≤ t - c.misalign := by
      by_contra hlt
      unfold subU32 at hk
      omega
    rw [subU32_of_le hle (by omega)] at hk
    rw [forward_near h hc hmax (by omega), ok_bind,
      bufferMemcmp_eq h rfl rfl hc' (by simp only []; omega) (by simp only []; omega) rfl what]
    exact ⟨_, rfl, fun hsame => ⟨_, (of_decide_eq_true hsame).2⟩⟩
  · obtain ⟨stop, hrun, hfalse⟩ := @bufferMemcmp_end b h ⟨some b.self, some a, 0, 0, c.misalign⟩ k
      rfl h0 (by rw [hzero]; exact Nat.lt_of_not_le hmax) what hne
    rw [hrun, ok_bind]
    exact ⟨false, hfalse, by simp⟩

/-! ## The search in one chain -/

/-- A hit of `memchr` inside the chain. -/
def IsHit (c : BufferChain) (first : Byte) (t : Nat) : Prop := t < c.off ∧ c.buffer[t]? = some first

/-- The search looks at the hits in order and stops at the first one where the comparison says yes. -/
theorem searchChain_spec (what : List Byte) (first : Byte) (hok : c.Ok) (fuel : Nat) {off : Nat}
    (hoff : off ≤ c.off) (hfuel : c.off - off + 1 ≤ fuel)
    (hruns : ∀ t, off ≤ t → IsHit c first t → ∃ same, b.compareAt what a c t = .ok same) :
    (∃ t, off ≤ t ∧ IsHit c first t ∧ b.compareAt what a c t = .ok true ∧
        (∀ t', off ≤ t' → t' < t → IsHit c first t' → b.compareAt what a c t' = .ok false) ∧
        b.searchChain what first a c fuel off = .ok (some (subU32 t c.misalign))) ∨
      ((∀ t, off ≤ t → IsHit c first t → b.compareAt what a c t = .ok false) ∧
        b.searchChain what first a c fuel off = .ok none) := by
  induction fuel generalizing off with
  | zero => omega
  | succ fuel ih =>
      have hcap := hok.capacity_lt
      have hle := hok.off_le
      have hblock := hok.length_buffer
      have hroom : c.off - off ≤ (c.buffer.drop off).length := by
        rw [List.length_drop]
        omega
      rw [searchChain, subU32_of_le hoff (by omega)]
      rcases memchr_spec first (c.buffer.drop off) hroom off with
        ⟨i, hi, hbyte, hbefore, hrun⟩ | ⟨hnone, hrun⟩
      · rw [List.getElem?_drop] at hbyte
        have hhit : IsHit c first (off + i) := ⟨by omega, hbyte⟩
        have hskip : ∀ t', off ≤ t' → t' < off + i → ¬ IsHit c first t' := by
          intro t' hlo hhi hhit'
          have hmiss := hbefore (t' - off) (by omega)
          rw [List.getElem?_drop, Nat.add_sub_of_le hlo] at hmiss
          exact hmiss hhit'.2
        obtain ⟨same, hsame⟩ := hruns (off + i) (by omega) hhit
        simp only [hrun, ok_bind, hsame]
        cases same with
        | true =>
            exact Or.inl ⟨off + i, by omega, hhit, hsame,
              fun t' hlo hhi hhit' => absurd hhit' (hskip t' hlo hhi), rfl⟩
        | false =>
            -- the search goes on behind the hit
            rw [if_neg Bool.false_ne_true, u32_of_lt (by omega)]
            rcases ih (by omega : off + i + 1 ≤ c.off) (by omega)
              (fun t hlo hhit' => hruns t (by omega) hhit') with
              ⟨t, hlo, hit, htrue, hfirst, hfound⟩ | ⟨hnever, hnot⟩
            · refine Or.inl ⟨t, by omega, hit, htrue, ?_, hfound⟩
              intro t' hlo' hhi' hhit'
              by_cases heq : t' = off + i
              · rw [heq]
                exact hsame
              · by_cases hearly : t' < off + i
                · exact absurd hhit' (hskip t' hlo' hearly)
                · exact hfirst t' (by omega) hhi' hhit'
            · refine Or.inr ⟨?_, hnot⟩
              intro t' hlo' hhit'
              by_cases heq : t' = off + i
              · rw [heq]
                exact hsame
              · by_cases hearly : t' < off + i
                · exact absurd hhit' (hskip t' hlo' hearly)
                · exact hnever t' (by omega) hhit'
      · right
        simp only [hrun, ok_bind, pure_eq_ok, and_true]
        intro t hlo hhit
        have hmiss := hnone (t - off) (by have := hhit.1; omega)
        rw [List.getElem?_drop, Nat.add_sub_of_le hlo] at hmiss
        exact absurd hhit.2 hmiss

/-- What a search in a chain can answer at all. -/
theorem searchChain_some {what : List Byte} {first : Byte} (fuel : Nat) {off target : Nat}
    (hrun : b.searchChain what first a c fuel off = .ok (some target)) (hok : c.Ok) :
    ∃ t, off ≤ t ∧ t < c.buffer.length ∧ (off ≤ c.off → t < c.off) ∧
      target = subU32 t c.misalign ∧ b.compareAt what a c t = .ok true := by
  have hcap := hok.capacity_lt
  have hblock := hok.length_buffer
  have hle := hok.off_le
  induction fuel generalizing off with
  | zero => cases hrun
  | succ fuel ih =>
      rw [searchChain] at hrun
      obtain ⟨found, hfound, hrun⟩ := bind_eq_ok hrun
      cases found with
      | none => cases hrun
      | some t =>
          have hfrom := memchr_le hfound
          have hlt := memchr_lt hfound
          have hinside : off ≤ c.off → t < c.off := by
            intro hoff
            have hlen := memchr_lt_len hfound
            rw [subU32_of_le hoff (by omega)] at hlen
            omega
          rw [List.length_drop] at hlt
          obtain ⟨same, hsame, hrun⟩ := bind_eq_ok hrun
          cases same with
          | true =>
              cases hrun
              exact ⟨t, hfrom, by omega, hinside, rfl, hsame⟩
          | false =>
              rw [if_neg Bool.false_ne_true] at hrun
              obtain ⟨t', hfrom', hlt', hinside', htarget, htrue⟩ := ih hrun
              rw [u32_of_lt (by omega)] at hfrom' hinside'
              exact ⟨t', by omega, hlt', fun hoff => hinside' (hinside hoff), htarget, htrue⟩

/-- The first byte of an occurrence is a hit. -/
theorem isHit_of_prefix (h : b.WellFormed) (hc : b.chains = pre ++ (a, c) :: post) {first : Byte}
    {word : List Byte} {t : Nat} (hlo : c.misalign ≤ t) (ht : t < c.off)
    (hpre : first :: word <+: b.content.drop ((bytes pre).length + (t - c.misalign))) :
    IsHit c first t := by
  have hok : c.Ok := h.ok_split hc
  rw [drop_content hc hok ht.le rfl] at hpre
  obtain ⟨tail, htail⟩ := hpre
  have hlen := length_dataFrom hok hlo
  have hfirst : (dataFrom c t)[0]? = some first := by
    have hget := congrArg (·[0]?) htail
    simp only [List.cons_append, List.getElem?_cons_zero] at hget
    rw [List.getElem?_append_left (by omega)] at hget
    exact hget.symm
  refine ⟨ht, ?_⟩
  rw [dataFrom, BufferChain.data, drop_slice, Nat.add_sub_of_le hlo, slice,
    List.getElem?_take_of_lt (by omega), List.getElem?_drop, Nat.add_zero] at hfirst
  exact hfirst

end Compare

end Buffer

/-! ## Two chains -/

namespace Op

open Unp.Machine Unp.LinkedChain Unp.Run BufferChain

/-- Every comparison at the front. -/
theorem bufferMemcmp_exact_twoChains :
    ∃ history b start, run Op.step twoChainCalls (Buffer.empty 0) = .ok (history, b) ∧
      b.beginIter = .ok start ∧ ∀ what, ∃ r, b.bufferMemcmp what start = .ok r ∧
        (r = true ↔ what.length ≤ b.totalLen - 0 ∧ slice b.content 0 what.length = what) := by
  have hshape : ∃ r, run Op.step twoChainCalls (Buffer.empty 0) = .ok r ∧
      ∃ start, r.2.beginIter = .ok start ∧ r.2.Denotes start 0 := by decide +kernel
  obtain ⟨history, b, hrun, hwf, -⟩ := twoChainCalls_run
  obtain ⟨r, hrun', start, hbegin, hdenotes⟩ := hshape
  rw [hrun] at hrun'
  cases hrun'
  exact ⟨history, b, start, hrun, hbegin, fun what => Buffer.bufferMemcmp_exact hwf hdenotes what⟩

end Op
end Unp.Reactor
