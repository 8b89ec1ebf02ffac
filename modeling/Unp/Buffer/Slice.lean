import Unp.Buffer.Forward
import Unp.Buffer.Copy

/-!
# Taking a slice out of another buffer

`append(const buffer&, len, start)` and the constructor `buffer(const buffer&, len, start)` copy a
range of bytes chain by chain: each piece becomes a chain of its own first, and is appended like
any foreign chain. The last piece comes from the chain at which the walk stops.

`Reading` is where the walk stands: in front of the byte `off` of a chain of the source.
-/

namespace Unp.Reactor

open Unp.Machine Unp.LinkedChain

/-! ## The code -/

/-- `buffer_chain(const buffer_chain& other, uint32_t data_len, Iter start)`; `a` is the address of
`other`. -/
def BufferChain.copySlice (a : Addr) (other : BufferChain) (dataLen : Nat) (start : BufferIter) :
    Res BufferChain :=
  if ¬ other.validateIter a start ∨ subU32 other.off start.offsetOfChain < dataLen then
    .error .exception
  else do
    let c := BufferChain.new other.parent dataLen
    let src ← readMem other.buffer start.offsetOfChain dataLen
    let buffer ← memcpy c.buffer 0 src
    pure { c with buffer, next := other.next, off := dataLen, misalign := 0 }

namespace Buffer

open BufferChain

/-- Where the walk over the source stands: the chain, the bytes it has from `start` on, and what is
still to be copied. `fromBegin` is `start_from_begin`. -/
structure Reading where
  current : Addr
  can : Nat
  start : BufferIter
  remain : Nat
  fromBegin : Bool

/-- The loop that copies what is left of one chain after the other. -/
def rangeLoop (al : Allocator Addr) (other : Buffer) : Nat → Buffer → Reading →
    Res (Buffer × Reading)
  | 0, _, _ => .error .outOfFuel
  | fuel + 1, b, r =>
      if other.lastChainWithData ≠ some r.current ∧ r.can < r.remain then do
        let c ← other.getChain r.current
        let piece ← c.copySlice r.current r.can r.start
        let (_, b) ← b.appendCopy al piece
        let last ← b.back
        let n ← nonNull c.next
        let c ← other.getChain n
        let start ← other.chainBegin n c
        rangeLoop al other fuel { b with lastChainWithData := some last }
          { current := n, can := c.size, start, remain := r.remain - r.can, fromBegin := true }
      else pure (b, r)

/-- The last piece, from the chain the loop stops at. -/
def rangeRest (other : Buffer) (r : Reading) : Res BufferChain := do
  let c ← other.getChain r.current
  let start ← if r.fromBegin then other.chainBegin r.current c else pure r.start
  c.copySlice r.current r.remain start

/-- `append(const buffer& other, uint64_t data_len, Iter start)` of another buffer. -/
def appendBuffer (al : Allocator Addr) (b other : Buffer) (dataLen : Nat) (start : BufferIter) :
    Res (Int × Buffer) := do
  let valid ← other.validateIter start
  if valid = false ∨ other.totalLen = 0 ∨ dataLen = 0 then pure (-1, b)
  else do
    let (_, b) ← b.freeTrailingEmptyChains
    let current ← nonNull start.chain
    let c ← other.getChain current
    if c.validateIter current start = false then pure (-1, b)
    else do
      let maximum := u32 (subU64 other.totalLen start.offsetOfBuffer)
      let remain := u32 (if maximum < dataLen then maximum else dataLen)
      let (b, r) ← rangeLoop al other (other.chains.length + 1) b
        { current, can := subU32 c.off start.offsetOfChain, start, remain, fromBegin := false }
      let piece ← rangeRest other r
      let (_, b) ← b.appendCopy al piece
      pure (remain, b)

/-- `buffer(const buffer& other, uint32_t data_len, Iter start)`, at the address `self`. Its last
piece is a temporary, so that it is moved. -/
def copyRange (al : Allocator Addr) (self : Addr) (other : Buffer) (dataLen : Nat)
    (start : BufferIter) : Res Buffer := do
  let valid ← other.validateIter start
  if valid = false ∨ dataLen = 0 ∨ other.totalLen = 0 then pure (empty self)
  else do
    let current ← nonNull start.chain
    let c ← other.getChain current
    if c.validateIter current start = false then pure (empty self)
    else do
      let maximum := u32 (subU64 other.totalLen start.offsetOfBuffer)
      let remain := if maximum < dataLen then maximum else dataLen
      let (b, r) ← rangeLoop al other (other.chains.length + 1) (empty self)
        { current, can := subU32 c.off start.offsetOfChain, start, remain, fromBegin := false }
      let piece ← rangeRest other r
      let (_, b) ← b.appendMove al piece
      let last ← b.back
      pure { b with lastChainWithData := some last, totalLen := dataLen }

/-- `copy_out_from(void* data, uint32_t data_len, Iter start)`: the return value and the bytes stored
through `data`. `self` is where the temporary buffer lives. -/
def copyOutFrom (al : Allocator Addr) (self : Addr) (b : Buffer) (nonNullOut : Bool) (dataLen : Nat)
    (start : BufferIter) : Res (Int × List Byte) := do
  let valid ← b.validateIter start
  if valid = false ∨ nonNullOut = false then pure (-1, [])
  else if dataLen = 0 then pure (0, [])
  else do
    let tmpBuf ← copyRange al self b dataLen start
    let (ret, out, _) ← tmpBuf.remove true dataLen
    pure (ret, out)

/-! ## A piece of a chain -/

/-- The data of a chain from the offset `off` of its block on. -/
def dataFrom (c : BufferChain) (off : Nat) : List Byte := c.data.drop (off - c.misalign)

section Piece
variable {c : BufferChain} {a : Addr} {start : BufferIter} {off : Nat}

theorem length_dataFrom (h : c.Ok) (hlo : c.misalign ≤ off) :
    (dataFrom c off).length = c.off - off := by
  rw [dataFrom, List.length_drop, h.length_data]
  omega

theorem validateIter_inside (hchain : start.chain = some a) (hlo : c.misalign ≤ start.offsetOfChain)
    (hhi : start.offsetOfChain < c.off) : c.validateIter a start = true := by
  simp only [BufferChain.validateIter, decide_eq_true_eq]
  exact ⟨hchain, hhi, hlo⟩

/-- The slice constructor: the first `n` bytes from the iterator on. -/
theorem copySlice_spec (h : c.Ok) (hchain : start.chain = some a)
    (hlo : c.misalign ≤ start.offsetOfChain) (hhi : start.offsetOfChain < c.off) {n : Nat}
    (hpos : 0 < n) (hn : n ≤ c.off - start.offsetOfChain) :
    ∃ piece, c.copySlice a n start = .ok piece ∧ piece.Ok ∧
      piece.data = (dataFrom c start.offsetOfChain).take n := by
  have hoff := h.off_le
  have hcap := h.capacity_lt
  have hbuf := h.length_buffer
  have hguard : ¬ (¬ c.validateIter a start = true ∨ subU32 c.off start.offsetOfChain < n) := by
    rw [validateIter_inside hchain hlo hhi, subU32_of_le hhi.le (by omega)]
    simp only [not_true_eq_false, false_or]
    omega
  have hread : readMem c.buffer start.offsetOfChain n =
      .ok ((dataFrom c start.offsetOfChain).take n) := by
    rw [readMem_ok (by omega), dataFrom, BufferChain.data, drop_slice, Nat.add_sub_of_le hlo,
      take_slice _ _ (by omega)]
  have hsrc : ((dataFrom c start.offsetOfChain).take n).length = n := by
    rw [List.length_take, length_dataFrom h hlo]
    omega
  obtain ⟨src, hsrc_eq⟩ : ∃ src, src = (dataFrom c start.offsetOfChain).take n := ⟨_, rfl⟩
  rw [← hsrc_eq] at hread hsrc ⊢
  have hge := le_calculateActualCapacity n
  have hlt := calculateActualCapacity_lt (by omega : n < 2 ^ 32)
  have hroom : 0 + src.length ≤ (calloc (calculateActualCapacity n)).length := by
    rw [calloc, List.length_replicate]
    omega
  have hnew : (BufferChain.new c.parent n).buffer = calloc (calculateActualCapacity n) := by
    simp [BufferChain.new, Nat.ne_of_gt hpos]
  refine ⟨{ BufferChain.new c.parent n with
    buffer := splice (calloc (calculateActualCapacity n)) 0 src, next := c.next, off := n,
    misalign := 0 }, ?_, ?_, ?_⟩
  · simp only [copySlice, if_neg hguard, hread, ok_bind, hnew, memcpy_ok hroom, pure_eq_ok]
  · refine ⟨Nat.zero_le _, ?_, ?_, ?_⟩
    · change n ≤ (BufferChain.new c.parent n).capacity
      rw [new_capacity _ hpos]
      exact hge
    · change (splice _ 0 src).length = (BufferChain.new c.parent n).capacity
      rw [length_splice hroom, new_capacity _ hpos]
      simp [calloc]
    · change (BufferChain.new c.parent n).capacity < _
      rw [new_capacity _ hpos]
      exact hlt
  · have hslice := slice_splice (Nat.le_refl 0) hroom
    simpa [BufferChain.data, hsrc] using hslice

end Piece

/-! ## The walk -/

/-- The walk stands inside the chain `c`, between `pre` and `post`, and there are enough bytes
ahead of it. -/
structure Stands (other : Buffer) (r : Reading) (pre : List (Addr × BufferChain)) (c : BufferChain)
    (post : List (Addr × BufferChain)) : Prop where
  chains_eq : other.chains = pre ++ (r.current, c) :: post
  chain_eq : r.start.chain = some r.current
  le_start : c.misalign ≤ r.start.offsetOfChain
  start_lt : r.start.offsetOfChain < c.off
  can_eq : r.can = c.off - r.start.offsetOfChain
  begin_eq : r.fromBegin = true → r.start.offsetOfChain = c.misalign
  remain_pos : 0 < r.remain
  remain_le : r.remain ≤ r.can + (bytes post).length

/-- The bytes ahead of the walk. -/
def ahead (r : Reading) (c : BufferChain) (post : List (Addr × BufferChain)) : List Byte :=
  dataFrom c r.start.offsetOfChain ++ bytes post

section Walk
variable {other : Buffer} {r : Reading} {pre post : List (Addr × BufferChain)} {c : BufferChain}

theorem Stands.ok (hs : Stands other r pre c post) (h : other.WellFormed) : c.Ok :=
  (h.ok_split hs.chains_eq)

theorem Stands.length_dataFrom (hs : Stands other r pre c post) (h : other.WellFormed) :
    (dataFrom c r.start.offsetOfChain).length = r.can := by
  rw [Buffer.length_dataFrom (hs.ok h) hs.le_start, hs.can_eq]

/-- Setting `last_chain_with_data_` to the last node again. -/
theorem WellFormed.back_eq {b : Buffer} (h : b.WellFormed) (h0 : b.totalLen ≠ 0) :
    ∃ a, b.back = .ok a ∧ ({ b with lastChainWithData := some a } : Buffer) = b := by
  obtain ⟨init, a, c, hc, hlast⟩ := h.exists_snoc h0
  refine ⟨a, by simp [back, hc], ?_⟩
  rw [← hlast]

theorem chainBegin_spec {b : Buffer} (h : b.WellFormed) {a : Addr}
    (hc : b.chains = pre ++ (a, c) :: post) :
    ∃ start, b.chainBegin a c = .ok start ∧ start.chain = some a ∧
      start.offsetOfChain = c.misalign := by
  have hgood := h.good_split hc
  exact chainBegin_eq (h.total_ne_zero hc) hc h.nodup h.linked hgood.parent_isSome

/-- One step of the walk: it has passed the rest of `c` and stands at the beginning of the next
chain. -/
theorem Stands.next (h : other.WellFormed) (hs : Stands other r pre c post)
    (hmore : other.lastChainWithData ≠ some r.current) (hlt : r.can < r.remain) :
    ∃ n d post₂ start, post = (n, d) :: post₂ ∧ c.next = some n ∧ other.getChain n = .ok d ∧
      other.chainBegin n d = .ok start ∧
      Stands other ⟨n, d.size, start, r.remain - r.can, true⟩ (pre ++ [(r.current, c)]) d post₂ ∧
      dataFrom d start.offsetOfChain = d.data := by
  have hne : post ≠ [] := fun hnil => hmore ((h.is_last hs.chains_eq).mpr hnil)
  obtain ⟨⟨n, d⟩, post₂, rfl⟩ := List.exists_cons_of_ne_nil hne
  have hc₂ : other.chains = (pre ++ [(r.current, c)]) ++ (n, d) :: post₂ := by
    rw [hs.chains_eq]
    simp
  have hgood : GoodNode (n, d) := h.good_split hc₂
  have hdlt : d.misalign < d.off := hgood.misalign_lt
  obtain ⟨start, hbegin, hchain, hoff⟩ := chainBegin_spec h hc₂
  have hremain := hs.remain_le
  rw [bytes_cons, List.length_append] at hremain
  have hsize : d.size = d.data.length := hgood.ok.size_eq_length
  refine ⟨n, d, post₂, start, rfl, next_split hs.chains_eq h.linked, getChain_split hc₂ h.nodup,
    hbegin, ?_, ?_⟩
  · exact
      { chains_eq := hc₂
        chain_eq := hchain
        le_start := hoff.ge
        start_lt := hoff ▸ hdlt
        can_eq := by
          simp only [hoff]
          exact hgood.ok.size_eq
        begin_eq := fun _ => hoff
        remain_pos := Nat.sub_pos_of_lt hlt
        remain_le := by
          simp only [hsize]
          omega }
  · rw [dataFrom, hoff, Nat.sub_self, List.drop_zero]

/-- The loop appends what is left of the chains it passes. What it stops at holds the rest. -/
theorem rangeLoop_spec (al : Allocator Addr) (h : other.WellFormed) (fuel : Nat) {b : Buffer}
    (hs : Stands other r pre c post) (hb : b.WellFormed) (hlt : b.totalLen + r.remain < 2 ^ 64)
    (hfuel : post.length + 1 ≤ fuel) :
    ∃ b' r' pre' c' post' src, rangeLoop al other fuel b r = .ok (b', r') ∧
      Stands other r' pre' c' post' ∧ r'.remain ≤ r'.can ∧ Appended b b' src ∧
      src.length + r'.remain = r.remain ∧
      src ++ (dataFrom c' r'.start.offsetOfChain).take r'.remain = (ahead r c post).take r.remain := by
  induction fuel generalizing b r pre c post with
  | zero => omega
  | succ fuel ih =>
      have hlen := hs.length_dataFrom h
      rw [rangeLoop]
      by_cases hgo : other.lastChainWithData ≠ some r.current ∧ r.can < r.remain
      · -- the rest of this chain is one piece
        have hstart := hs.start_lt
        have hcan := hs.can_eq
        obtain ⟨piece, hpiece, hok, hdata⟩ := copySlice_spec (hs.ok h) hs.chain_eq hs.le_start
          hs.start_lt (by omega : 0 < r.can) (by omega)
        rw [List.take_of_length_le (by omega)] at hdata
        obtain ⟨b₁, happend, happended⟩ := appendCopy_spec al hb hok (by rw [hdata, hlen]; omega)
        have htotal₁ : b₁.totalLen = b.totalLen + r.can := by
          rw [happended.wellFormed.total_eq, happended.content_eq, hb.total_eq, List.length_append,
            hdata, hlen]
        obtain ⟨z, hback, hsame⟩ := happended.wellFormed.back_eq (by omega)
        obtain ⟨n, d, post₂, start, rfl, hnext, hget, hbegin, hstands, hfrom⟩ :=
          hs.next h hgo.1 hgo.2
        obtain ⟨b', r', pre', c', post', src, hrun, hs', hstop, happended', hsum, hsrc⟩ :=
          ih hstands happended.wellFormed (by simp only []; omega)
            (by simp only [List.length_cons] at hfuel; omega)
        refine ⟨b', r', pre', c', post', piece.data ++ src, ?_, hs', hstop, ?_, ?_, ?_⟩
        · rw [if_pos hgo, getChain_split hs.chains_eq h.nodup, ok_bind, hpiece, ok_bind, happend,
            ok_bind]
          simp only [hback, ok_bind, hnext, nonNull, hget, hbegin, hsame]
          exact hrun
        · exact ⟨happended'.self_eq.trans happended.self_eq, happended'.wellFormed,
            by rw [happended'.content_eq, happended.content_eq, List.append_assoc]⟩
        · rw [List.length_append, hdata, hlen]
          simp only [] at hsum
          omega
        · rw [ahead, hfrom, ← bytes_cons] at hsrc
          rw [List.append_assoc, hsrc, hdata, ahead, List.take_append, hlen,
            List.take_of_length_le (by omega : (dataFrom c r.start.offsetOfChain).length ≤ r.remain)]
      · have hstop : r.remain ≤ r.can := by
          by_cases hnil : post = []
          · have := hs.remain_le
            rw [hnil, bytes_nil, List.length_nil] at this
            omega
          · have hlast : other.lastChainWithData ≠ some r.current := fun hl =>
              hnil ((h.is_last hs.chains_eq).mp hl)
            exact Nat.le_of_not_lt fun hlt => hgo ⟨hlast, hlt⟩
        refine ⟨b, r, pre, c, post, [], by rw [if_neg hgo, pure_eq_ok], hs, hstop, appended_nil hb,
          by simp, ?_⟩
        rw [List.nil_append, ahead, List.take_append_of_le_length (by omega)]

theorem rangeRest_spec (h : other.WellFormed) (hs : Stands other r pre c post)
    (hstop : r.remain ≤ r.can) :
    ∃ piece, rangeRest other r = .ok piece ∧ piece.Ok ∧
      piece.data = (dataFrom c r.start.offsetOfChain).take r.remain := by
  have hget := getChain_split hs.chains_eq h.nodup
  have hcan := hs.can_eq
  cases hfrom : r.fromBegin with
  | false =>
      obtain ⟨piece, hpiece, hok, hdata⟩ := copySlice_spec (hs.ok h) hs.chain_eq hs.le_start
        hs.start_lt hs.remain_pos (by omega)
      refine ⟨piece, ?_, hok, hdata⟩
      simp only [rangeRest, hget, ok_bind, hfrom, Bool.false_eq_true, if_false, pure_eq_ok, hpiece]
  | true =>
      obtain ⟨start, hbegin, hchain, hoff⟩ := chainBegin_spec h hs.chains_eq
      have hsame : start.offsetOfChain = r.start.offsetOfChain := by
        rw [hoff, hs.begin_eq hfrom]
      obtain ⟨piece, hpiece, hok, hdata⟩ := copySlice_spec (hs.ok h) hchain hoff.ge
        (hsame ▸ hs.start_lt) hs.remain_pos (by omega)
      refine ⟨piece, ?_, hok, by rw [hdata, hsame]⟩
      simp only [rangeRest, hget, ok_bind, hfrom, if_true, hbegin, hpiece]

end Walk

/-! ## A range -/

/-- The chain of `it` holds byte `p`. -/
def Holds (b : Buffer) (it : BufferIter) (p : Nat) : Prop :=
  it.buffer = some b.self ∧ it.offsetOfBuffer = p ∧
    ∃ pre a c post, b.chains = pre ++ (a, c) :: post ∧ it.chain = some a ∧
      c.misalign ≤ it.offsetOfChain ∧ it.offsetOfChain < c.off ∧
      (bytes pre).length + (it.offsetOfChain - c.misalign) = p

/-- The same without the distance from the front that `it` carries along. -/
def Inside (b : Buffer) (it : BufferIter) (p : Nat) : Prop :=
  it.buffer = some b.self ∧
    ∃ pre a c post, b.chains = pre ++ (a, c) :: post ∧ it.chain = some a ∧
      c.misalign ≤ it.offsetOfChain ∧ it.offsetOfChain < c.off ∧
      (bytes pre).length + (it.offsetOfChain - c.misalign) = p

theorem Holds.inside {b : Buffer} {it : BufferIter} {p : Nat} (h : b.Holds it p) : b.Inside it p :=
  ⟨h.1, h.2.2⟩

/-- The bytes from a place in a chain on. -/
theorem drop_content {b : Buffer} {pre post : List (Addr × BufferChain)} {a : Addr}
    {c : BufferChain} {off p : Nat} (hc : b.chains = pre ++ (a, c) :: post) (hok : c.Ok)
    (hoff : off ≤ c.off) (hp : (bytes pre).length + (off - c.misalign) = p) :
    b.content.drop p = dataFrom c off ++ bytes post := by
  have hlen := hok.length_data
  rw [content, hc, bytes_append, bytes_cons, ← hp, ← List.drop_drop, List.drop_left, dataFrom,
    List.drop_append_of_le_length (by omega)]

/-- **A range is copied in pieces**: all but the last one are appended by the loop. -/
theorem range_spec (al : Allocator Addr) {other b : Buffer} (h : other.WellFormed)
    (hb : b.WellFormed) {it : BufferIter} {p n : Nat} (hit : other.Inside it p) (hpos : 0 < n)
    (hn : n ≤ other.totalLen - p) (hlt : b.totalLen + n < 2 ^ 64) :
    ∃ a c, other.validateIter it = .ok true ∧ it.chain = some a ∧ other.getChain a = .ok c ∧
      c.validateIter a it = true ∧
      ∃ b' r piece src,
        rangeLoop al other (other.chains.length + 1) b
          { current := a, can := subU32 c.off it.offsetOfChain, start := it, remain := n,
            fromBegin := false } = .ok (b', r) ∧
        rangeRest other r = .ok piece ∧ piece.Ok ∧ piece.data ≠ [] ∧ Appended b b' src ∧
        src ++ piece.data = (other.content.drop p).take n := by
  obtain ⟨hbuffer, pre, a, c, post, hc, hchain, hlo, hhi, hp⟩ := hit
  have hok : c.Ok := h.ok_split hc
  have hoff := hok.off_le
  have hcap := hok.capacity_lt
  have hahead := drop_content hc hok hhi.le hp
  have hcan : subU32 c.off it.offsetOfChain = c.off - it.offsetOfChain :=
    subU32_of_le hhi.le (by omega)
  have hstands : Stands other ⟨a, subU32 c.off it.offsetOfChain, it, n, false⟩ pre c post :=
    { chains_eq := hc, chain_eq := hchain, le_start := hlo, start_lt := hhi, can_eq := hcan
      begin_eq := by simp
      remain_pos := hpos
      remain_le := by
        have hlen := congrArg List.length hahead
        rw [List.length_drop, List.length_append, length_dataFrom hok hlo, ← h.total_eq] at hlen
        simp only [hcan]
        omega }
  obtain ⟨b', r, pre', c', post', src, hrun, hs', hstop, happended, hsum, hsrc⟩ :=
    rangeLoop_spec al h (other.chains.length + 1) hstands hb hlt
      (by rw [hc, List.length_append, List.length_cons]; omega)
  obtain ⟨piece, hpiece, hpok, hdata⟩ := rangeRest_spec h hs' hstop
  have hne : piece.data ≠ [] := by
    intro hnil
    have hlen := congrArg List.length hdata
    have hfrom := hs'.length_dataFrom h
    have hremain := hs'.remain_pos
    rw [hnil, List.length_take, List.length_nil] at hlen
    omega
  refine ⟨a, c, validateIter_eq hc h.nodup h.linked hbuffer hchain, hchain,
    getChain_split hc h.nodup, validateIter_inside hchain hlo hhi, b', r, piece, src, hrun, hpiece,
    hpok, hne, happended, ?_⟩
  rw [hdata, hsrc, ahead, hahead]

theorem begin_holds {b : Buffer} (h : b.WellFormed) {a : Addr} {c : BufferChain}
    {rest : List (Addr × BufferChain)} (hc : b.chains = (a, c) :: rest) :
    b.Holds ⟨some b.self, some a, 0, 0, c.misalign⟩ 0 :=
  ⟨rfl, rfl, [], a, c, rest, hc, rfl, Nat.le_refl _, (h.first_good hc).misalign_lt, by simp⟩

/-- Nothing trails the last chain of a well-formed buffer. -/
theorem freeTrailing_same {b : Buffer} (h : b.WellFormed) :
    ∃ last, b.freeTrailingEmptyChains = .ok (last, b) := by
  by_cases h0 : b.totalLen = 0
  · refine ⟨none, ?_⟩
    have hsame : ({ b with chains := [] } : Buffer) = b := by rw [← h.chains_eq_nil h0]
    rw [freeTrailingEmptyChains, if_pos h0, hsame, pure_eq_ok]
  · exact ⟨_, freeTrailingEmptyChains_eq h h0⟩

/-- **Appending a slice of another buffer** appends its bytes and returns their number. The other
buffer is a `const&`, and every write goes to a node of this one. -/
theorem appendBuffer_spec (al : Allocator Addr) {a b : Buffer} (ha : a.WellFormed)
    (hb : b.WellFormed) (hlt : a.totalLen + b.totalLen < 2 ^ 31) {it : BufferIter} {p n : Nat}
    (hit : b.Holds it p) (hp : p < b.totalLen) (hn : 0 < n) :
    ∃ a', a.appendBuffer al b n it = .ok (((min n (b.totalLen - p) : Nat) : Int), a') ∧
      a'.content = a.content ++ (b.content.drop p).take (min n (b.totalLen - p)) ∧
      Op.Represented a' := by
  obtain ⟨m, hm⟩ : ∃ m, m = min n (b.totalLen - p) := ⟨_, rfl⟩
  rw [← hm]
  obtain ⟨x, c, hvalid, hchain, hget, hinside, a', r, piece, src, hloop, hrest, hok, hne, happended,
    hsrc⟩ := range_spec al hb ha hit.inside (by omega : 0 < m) (by omega) (by omega)
  obtain ⟨last, hfree⟩ := freeTrailing_same ha
  have hlen := congrArg List.length hsrc
  rw [List.length_append, List.length_take, List.length_drop, ← hb.total_eq] at hlen
  have htotal : a'.totalLen = a.totalLen + src.length := by
    rw [happended.wellFormed.total_eq, happended.content_eq, List.length_append, ha.total_eq]
  obtain ⟨a₂, happend, happended₂⟩ := appendCopy_spec al happended.wellFormed hok (by omega)
  refine ⟨a₂, ?_, ?_, Op.represented_of_wellFormed happended₂.wellFormed⟩
  · have hguard : ¬ (b.totalLen = 0 ∨ n = 0) := by omega
    have hmax : u32 (subU64 b.totalLen it.offsetOfBuffer) = b.totalLen - p := by
      rw [hit.2.1, subU64_of_le (by omega) (by omega), u32_of_lt (by omega)]
    have hmin : u32 (if b.totalLen - p < n then b.totalLen - p else n) = m := by
      rw [u32_of_lt (by split <;> omega)]
      split <;> omega
    simp only [appendBuffer, hvalid, ok_bind, reduceCtorEq, false_or, if_neg hguard, hfree, hchain,
      nonNull, hget, hinside, if_false, hmax, hmin, hloop, hrest, happend, pure_eq_ok]
  · rw [happended₂.content_eq, happended.content_eq, List.append_assoc, hsrc]

theorem appendBuffer_twoChains :
    ∃ history b it, Unp.Run.run Op.step Op.twoChainCalls (empty 0) = .ok (history, b) ∧
      b.beginIter = .ok it ∧ b.Holds it 0 ∧
      ∃ a', (empty 9).appendBuffer .succMax b 5 it = .ok (((min 5 (b.totalLen - 0) : Nat) : Int), a') ∧
        a'.content = (empty 9).content ++ (b.content.drop 0).take (min 5 (b.totalLen - 0)) ∧
        Op.Represented a' := by
  obtain ⟨history, b, hrun, hwf, -, -, hcontent⟩ := Op.twoChainCalls_run
  have htotal : b.totalLen = 3 := by
    rw [hwf.total_eq, hcontent]
    rfl
  obtain ⟨a, c, rest, hc⟩ := hwf.exists_cons (by omega)
  have hholds := begin_holds hwf hc
  have h9 : (empty 9).totalLen = 0 := rfl
  exact ⟨history, b, _, hrun, beginIter_eq hc, hholds,
    appendBuffer_spec .succMax (empty_wellFormed 9) hwf (by omega) hholds (by omega) (by decide)⟩

end Buffer
end Unp.Reactor
