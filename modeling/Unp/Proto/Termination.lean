import Unp.Proto.Framing

/-!
# Whether `decode` ends

The loop of `decode` looks at a length it read on entry and at the state. After a length has been
taken it makes at most two more rounds, whatever that length is: it stops for want of bytes, an
assertion or an access outside a block stops it, or nothing remains to be parsed and the state is
`COMPLETED`. Only with fewer bytes than a length, between two messages, does a round change nothing.

The buffer can have any length here, so `pullup` and `drain` may be asked for sizes at which their
`uint32_t` arithmetic wraps. That they end is a matter of the order of the nodes alone.
-/

namespace Unp.Reactor

open Unp.Machine Unp.LinkedChain

/-! ## The loops of the buffer -/

namespace BufferChain

theorem halts_write (c : BufferChain) (src : List Byte) : Halts (c.write src) :=
  Halts.bind (halts_memcpy _ _ _) fun _ _ => halts_ok _

theorem halts_realloc (c : BufferChain) (size : Nat) : Halts (c.realloc size) := by
  unfold realloc
  split
  · dsimp only
    split
    · refine Halts.bind (halts_readMem _ _ _) fun _ _ => ?_
      exact Halts.bind (halts_memcpy _ _ _) fun _ _ => halts_ok _
    · exact Halts.bind (halts_ok _) fun _ _ => halts_ok _
  · exact halts_ok _

/-- Both ways of appending from a chain end with a copy. -/
theorem halts_copyFrom (c : BufferChain) (block : List Byte) (off len : Nat) :
    Halts (do
      let src ← readMem block off len
      let c ← c.write src
      pure (len, c)) :=
  Halts.bind (halts_readMem _ _ _) fun _ _ => Halts.bind (halts_write _ _) fun _ _ => halts_ok _

theorem halts_appendChain (c chain : BufferChain) : Halts (c.appendChain chain) := by
  unfold appendChain
  dsimp only
  split
  · exact Halts.bind (halts_realloc _ _) fun _ _ => halts_copyFrom _ _ _ _
  · exact Halts.bind (halts_ok _) fun _ _ => halts_copyFrom _ _ _ _

theorem halts_appendSlice (c : BufferChain) (a : Addr) (chain : BufferChain) (len : Nat)
    (start : BufferIter) : Halts (c.appendSlice a chain len start) := by
  unfold appendSlice
  split
  · exact halts_ok _
  · dsimp only
    split
    · exact Halts.bind (halts_realloc _ _) fun _ _ => halts_copyFrom _ _ _ _
    · exact Halts.bind (halts_ok _) fun _ _ => halts_copyFrom _ _ _ _

theorem halts_copyAssign (c other : BufferChain) : Halts (c.copyAssign other) :=
  Halts.bind (halts_readMem _ _ _) fun _ _ =>
    Halts.bind (halts_memcpy _ _ _) fun _ _ => halts_ok _

theorem copyAssign_next {c other c' : BufferChain} (h : c.copyAssign other = .ok c') :
    c'.next = other.next := by
  obtain ⟨src, -, h⟩ := bind_eq_ok h
  obtain ⟨buffer, -, h⟩ := bind_eq_ok h
  cases h
  rfl

end BufferChain

namespace Buffer

theorem halts_getChain (b : Buffer) (a : Addr) : Halts (b.getChain a) := by
  unfold getChain
  split
  · exact halts_ok _
  · exact halts_error (by decide)

theorem halts_nonNull (a : Option Addr) : Halts (nonNull a) := by
  cases a with
  | some a => exact halts_ok a
  | none => exact halts_error (by decide)

theorem halts_front (b : Buffer) : Halts b.front := by
  unfold front
  split
  · exact halts_ok _
  · exact halts_error (by decide)

theorem halts_readAt (b : Buffer) (p : DataPtr) (n : Nat) : Halts (b.readAt p n) :=
  Halts.bind (halts_getChain _ _) fun _ _ => halts_readMem _ _ _

/-- Every round of `remove` takes a node off the list. -/
theorem halts_removeLoop (fuel : Nat) (b : Buffer) (current : Addr) (next : Option Addr)
    (remain : Nat) (out : List Byte) (hfuel : b.chains.length < fuel) :
    Halts (removeLoop fuel b current next remain out) := by
  induction fuel generalizing b current next remain out with
  | zero => omega
  | succ fuel ih =>
      rw [removeLoop]
      refine Halts.ite (halts_ok _) (Halts.bind (halts_getChain _ _) fun c hget => ?_)
      have hne : b.chains ≠ [] := by
        intro hnil
        rw [getChain, hnil] at hget
        cases hget
      have hlen := List.length_pos_of_ne_nil hne
      refine Halts.ite (Halts.ite (halts_error (by decide)) ?_) ?_
      · refine Halts.bind (halts_readMem _ _ _) fun bytes _ => Halts.ite ?_ ?_
        · exact Halts.ite (halts_ok _) (halts_error (by decide))
        · refine Halts.bind (halts_nonNull _) fun a _ => Halts.bind (halts_getChain _ _) fun c _ => ?_
          refine ih _ _ _ _ _ ?_
          rw [List.length_tail]
          omega
      · exact Halts.bind (halts_readMem _ _ _) fun _ _ => halts_ok _

theorem halts_drain (b : Buffer) (n : Nat) : Halts (b.drain n) := by
  refine Halts.bind ?_ fun _ _ => halts_ok _
  refine Halts.ite (halts_ok _) (Halts.ite (halts_ok _) ?_)
  refine Halts.bind (halts_front _) fun _ _ => Halts.bind (halts_getChain _ _) fun _ _ => ?_
  exact Halts.bind (halts_removeLoop _ _ _ _ _ _ (Nat.lt_succ_self _)) fun _ _ => halts_ok _

/-- What is left of the invariant while `pullup` moves bytes whose number is not bounded: the nodes
are linked in the order of the list. -/
structure Ordered (b : Buffer) (first : Addr) (fc : BufferChain) (rest : List (Addr × BufferChain)) :
    Prop where
  chains_eq : b.chains = (first, fc) :: rest
  nodup : (addrs b.chains).Nodup
  linked : LinkedTo BufferChain.next b.chains none

section Ordered
variable {b : Buffer} {first a : Addr} {fc c : BufferChain} {rest : List (Addr × BufferChain)}

theorem Ordered.first_next (h : Ordered b first fc rest) : fc.next = headAddr rest none := by
  have hlink := h.linked
  rw [h.chains_eq] at hlink
  exact hlink.1

/-- The first node takes over the pointer of the second, which is erased. -/
theorem Ordered.erase (h : Ordered b first fc ((a, c) :: rest)) {fc' : BufferChain}
    (hnext : fc'.next = c.next) :
    Ordered { b.setChain first fc' with chains := (b.setChain first fc').chains.eraseIdx 1 }
      first fc' rest := by
  have hchains : (b.setChain first fc').chains.eraseIdx 1 = (first, fc') :: rest :=
    eraseIdx_setChain h.chains_eq h.nodup
  have hnd := h.nodup
  have hlink := h.linked
  rw [h.chains_eq] at hnd hlink
  have hnotin : first ∉ addrs ((a, c) :: rest) := (List.nodup_cons.mp hnd).1
  refine ⟨hchains, ?_, ?_⟩
  · simp only [hchains]
    rw [addrs_cons, List.mem_cons, not_or] at hnotin
    exact List.nodup_cons.mpr ⟨hnotin.2, (List.nodup_cons.mp (List.nodup_cons.mp hnd).2).2⟩
  · simp only [hchains]
    exact ⟨hnext.trans hlink.2.1, hlink.2.2⟩

/-- Every round of `pullup` erases a node or is the last one. -/
theorem pullupLoop_ordered (fuel : Nat) (h : Ordered b first fc rest) (remain : Nat)
    (hfuel : rest.length + 1 ≤ fuel) :
    Halts (pullupLoop fuel b first remain fc.next) ∧
      ∀ remain' current b', pullupLoop fuel b first remain fc.next = .ok (remain', current, b') →
        ∃ fc' rest', Ordered b' first fc' rest' ∧ current = headAddr rest' none := by
  induction fuel generalizing b fc rest remain with
  | zero => omega
  | succ fuel ih =>
      rw [h.first_next]
      cases rest with
      | nil =>
          rw [headAddr_nil, pullupLoop, pure_eq_ok]
          refine ⟨halts_ok _, fun _ _ _ hrun => ?_⟩
          cases hrun
          exact ⟨fc, [], h, rfl⟩
      | cons p rest =>
          obtain ⟨a, c⟩ := p
          have hc₂ : b.chains = [(first, fc)] ++ (a, c) :: rest := h.chains_eq
          rw [headAddr_cons, pullupLoop, getChain_split hc₂ h.nodup, ok_bind]
          split
          · split
            · exact ⟨halts_error (by decide), fun _ _ _ hrun => by cases hrun⟩
            · rw [getChain_cons h.chains_eq, ok_bind]
              have hlater : ∀ fc' : BufferChain, _ := fun fc' =>
                ih (h.erase (show BufferChain.next { fc' with next := c.next } = c.next from rfl))
                  (remain - c.size)
                  (by simp only [List.length_cons] at hfuel; omega)
              refine ⟨Halts.bind (BufferChain.halts_appendChain _ _) fun r _ => (hlater r.2).1, ?_⟩
              intro remain' current b' hrun
              obtain ⟨r, -, hrun⟩ := bind_eq_ok hrun
              exact (hlater r.2).2 remain' current b' hrun
          · refine ⟨halts_ok _, fun _ _ _ hrun => ?_⟩
            cases hrun
            exact ⟨fc, (a, c) :: rest, h, rfl⟩

theorem halts_chainBegin {pre post : List (Addr × BufferChain)}
    (hc : b.chains = pre ++ (a, c) :: post) (hnd : (addrs b.chains).Nodup)
    (hlink : LinkedTo BufferChain.next b.chains none) (c' : BufferChain) :
    Halts (b.chainBegin a c') := by
  unfold chainBegin
  split
  · exact halts_error (by decide)
  · refine Halts.ite (Halts.bind ?_ fun _ _ => halts_ok _) (halts_ok _)
    by_cases h0 : b.totalLen = 0
    · rw [iterOfChain, if_pos h0]
      exact halts_ok _
    · rw [iterOfChain_eq h0 hc hnd hlink]
      exact halts_ok _

theorem halts_pullupPart (h : Ordered b first fc rest) (remain : Nat) :
    Halts (b.pullupPart first remain (headAddr rest none)) := by
  refine Halts.ite (halts_ok _) ?_
  cases rest with
  | nil => exact Halts.bind (halts_nonNull _) fun a ha => by cases ha
  | cons p rest =>
      obtain ⟨a, c⟩ := p
      have hc₂ : b.chains = [(first, fc)] ++ (a, c) :: rest := h.chains_eq
      rw [headAddr_cons, nonNull, ok_bind]
      refine Halts.bind (halts_getChain _ _) fun _ _ => ?_
      refine Halts.bind (halts_chainBegin hc₂ h.nodup h.linked _) fun _ _ => ?_
      refine Halts.bind (halts_getChain _ _) fun _ _ => ?_
      exact Halts.bind (BufferChain.halts_appendSlice _ _ _ _ _) fun _ _ => halts_ok _

theorem pullupRoom_ordered (al : Allocator Addr) (h : Ordered b first fc rest) (size remain : Nat) :
    Halts (b.pullupRoom al fc size remain) ∧
      ∀ b', b.pullupRoom al fc size remain = .ok b' →
        ∃ first' fc', Ordered b' first' fc' rest := by
  rw [pullupRoom]
  split
  · refine ⟨halts_ok _, fun b' hrun => ?_⟩
    cases hrun
    exact ⟨first, fc, h⟩
  · refine ⟨Halts.bind (BufferChain.halts_copyAssign _ _) fun _ _ => halts_ok _, fun b' hrun => ?_⟩
    obtain ⟨chain, hassign, hrun⟩ := bind_eq_ok hrun
    cases hrun
    have hnd := h.nodup
    have hlink := h.linked
    rw [h.chains_eq] at hnd hlink
    refine ⟨al.alloc (addrs rest), chain, by simp only [h.chains_eq, List.tail_cons], ?_, ?_⟩
    · simp only [h.chains_eq, List.tail_cons]
      exact List.nodup_cons.mpr ⟨al.alloc_fresh _, (List.nodup_cons.mp hnd).2⟩
    · simp only [h.chains_eq, List.tail_cons]
      exact ⟨(BufferChain.copyAssign_next hassign).trans hlink.1, hlink.2⟩

end Ordered

/-- `pullup` ends, whatever size it is asked for. -/
theorem halts_pullup (al : Allocator Addr) {b : Buffer} (h : b.WellFormed) (size : Int) :
    Halts (b.pullup al size) := by
  refine Halts.ite (halts_ok _) ?_
  by_cases h0 : b.totalLen = 0
  · have hfront : b.front = .error .emptyList := by simp [front, h.chains_eq_nil h0]
    simp only [hfront, error_bind]
    exact halts_error (by decide)
  obtain ⟨first, fc, rest, hc⟩ := h.exists_cons h0
  have hfront : b.front = .ok first := by simp [front, hc]
  simp only [hfront, ok_bind, getChain_cons hc]
  refine Halts.ite (halts_ok _) ?_
  obtain ⟨hroom, hafter⟩ := pullupRoom_ordered al ⟨hc, h.nodup, h.linked⟩
    (if size < 0 then b.totalLen else size.toNat)
    ((if size < 0 then b.totalLen else size.toNat) - fc.size)
  refine Halts.bind hroom fun b₁ hb₁ => ?_
  obtain ⟨first₁, fc₁, hordered⟩ := hafter b₁ hb₁
  have hfront₁ : b₁.front = .ok first₁ := by simp [front, hordered.chains_eq]
  simp only [hfront₁, ok_bind, getChain_cons hordered.chains_eq]
  obtain ⟨hloop, hstop⟩ := pullupLoop_ordered (b₁.chains.length + 1) hordered
    ((if size < 0 then b.totalLen else size.toNat) - fc.size) (by rw [hordered.chains_eq]; simp)
  refine Halts.bind hloop fun r hr => ?_
  obtain ⟨remain, current, b₂⟩ := r
  obtain ⟨fc₂, rest₂, hordered₂, rfl⟩ := hstop remain current b₂ hr
  refine Halts.bind (halts_pullupPart hordered₂ remain) fun b₃ _ => ?_
  exact Halts.bind (halts_getChain _ _) fun _ _ => halts_ok _

/-- The null pointer is returned for nothing, or for more than there is. -/
theorem pullup_none {al : Allocator Addr} {b b' : Buffer} {size : Int}
    (h : b.pullup al size = .ok (none, b')) : size = 0 ∨ b.totalLen < u64OfInt size := by
  by_contra hguard
  rw [pullup, if_neg hguard] at h
  dsimp only at h
  generalize (if size < 0 then b.totalLen else size.toNat) = n at h
  obtain ⟨first, -, h⟩ := bind_eq_ok h
  obtain ⟨fc, -, h⟩ := bind_eq_ok h
  split at h
  · cases h
  · obtain ⟨b₁, -, h⟩ := bind_eq_ok h
    obtain ⟨first₁, -, h⟩ := bind_eq_ok h
    obtain ⟨fc₁, -, h⟩ := bind_eq_ok h
    obtain ⟨r, -, h⟩ := bind_eq_ok h
    obtain ⟨b₂, -, h⟩ := bind_eq_ok h
    obtain ⟨fc₂, -, h⟩ := bind_eq_ok h
    cases h

end Buffer

/-! ## `decode` -/

namespace Decoder
variable {M : Type} {parse : List Byte → Option M} {al : Allocator Addr} {d : Decoder M}
  {buf : Buffer}

variable (parse al) in
/-- The call ends: it returns, or an assertion or an access outside a block stops it. -/
def Ends (d : Decoder M) (buf : Buffer) : Prop := ∃ fuel, Halts (decode parse al fuel d buf)

/-- A length is awaited and not all of its bytes are there. -/
def Stuck (d : Decoder M) (buf : Buffer) : Prop :=
  (d.state = .idle ∨ d.state = .completed) ∧ 0 < buf.totalLen ∧ buf.totalLen < sizeofLen

/-- Both members for the length hold the same `int64_t`, as after `decodeLen`. -/
structure LenAgrees (d : Decoder M) : Prop where
  messLen_eq : d.messLen = d.bytesRemainToParse
  lower : -2 ^ 63 ≤ d.messLen
  upper : d.messLen < 2 ^ 63

/-! ### A round of each state -/

theorem halts_decodeRemain (h : buf.WellFormed) : Halts (d.decodeRemain parse al buf) := by
  refine Halts.ite (halts_ok _) (Halts.ite (halts_error (by decide)) ?_)
  refine Halts.bind (Buffer.halts_pullup al h _) fun r _ => ?_
  obtain ⟨p, buf'⟩ := r
  cases p with
  | none => exact halts_ok _
  | some p =>
      refine Halts.bind ?_ fun m _ => ?_
      · refine Halts.ite (halts_error (by decide)) ?_
        exact Halts.bind (Buffer.halts_readAt _ _ _) fun _ _ => halts_ok _
      · cases m with
        | none => exact halts_ok _
        | some m => exact Halts.bind (Buffer.halts_drain _ _) fun _ _ => halts_ok _

/-- With as many bytes as remain to be parsed, nothing remains afterwards: the message has been
parsed, the decoder has been reset, or its length is 0. -/
theorem decodeRemain_done {d' : Decoder M} {buf' : Buffer} {n : Int}
    (henough : ¬ buf.totalLen < u64OfInt d.bytesRemainToParse)
    (hrun : d.decodeRemain parse al buf = .ok (n, d', buf')) : d'.bytesRemainToParse = 0 := by
  rw [decodeRemain, if_neg henough] at hrun
  by_cases hne : d.messLen ≠ d.bytesRemainToParse
  · rw [if_pos hne] at hrun
    cases hrun
  rw [if_neg hne] at hrun
  rw [not_not] at hne
  obtain ⟨⟨p, buf₁⟩, hpull, hrun⟩ := bind_eq_ok hrun
  cases p with
  | none =>
      cases hrun
      rcases Buffer.pullup_none hpull with hzero | hlt
      · exact hne ▸ hzero
      · exact absurd (hne ▸ hlt) henough
  | some p =>
      obtain ⟨m, -, hrun⟩ := bind_eq_ok hrun
      cases m with
      | none =>
          cases hrun
          rfl
      | some m =>
          obtain ⟨drained, -, hrun⟩ := bind_eq_ok hrun
          cases hrun
          simp only [hne, Int.sub_self]

/-- On a short buffer the payload of a length that was decoded is parsed or refused. -/
theorem decodeRemain_returns (h : buf.WellFormed) (hlt : buf.totalLen < 2 ^ 31) (hd : LenAgrees d) :
    ∃ r, d.decodeRemain parse al buf = .ok r := by
  rw [decodeRemain]
  by_cases hfew : buf.totalLen < u64OfInt d.bytesRemainToParse
  · exact ⟨_, by rw [if_pos hfew, pure_eq_ok]⟩
  have hagree := hd.messLen_eq
  have hlo := hd.lower
  have hhi := hd.upper
  rw [if_neg hfew, if_neg (not_not.mpr hagree)]
  -- a negative length would be a huge one
  obtain ⟨n, hn⟩ : ∃ n : Nat, d.messLen = n := by
    refine ⟨d.messLen.toNat, ?_⟩
    rw [← hagree] at hfew
    unfold u64OfInt at hfew
    omega
  have hword : u64OfInt d.bytesRemainToParse = n := by
    rw [← hagree, hn]
    exact u64OfInt_natCast (by omega)
  rw [hword] at hfew
  rw [hn]
  by_cases h0 : n = 0
  · rw [Buffer.pullup_refused al (by omega) (Or.inl h0)]
    exact ⟨_, rfl⟩
  obtain ⟨p, buf₁, hpull, hlin⟩ :=
    Buffer.pullup_spec al h (Nat.pos_of_ne_zero h0) (Nat.le_of_not_lt hfew) (by omega)
  have hlen₁ : n ≤ buf₁.totalLen := by
    rw [hlin.wellFormed.total_eq, hlin.content_eq, ← h.total_eq]
    omega
  obtain ⟨buf₂, hremove, -⟩ := Buffer.remove_spec hlin.wellFormed (Nat.pos_of_ne_zero h0) hlen₁
  have hparse : parseFromArray parse buf₁ p n = .ok (parse (buf.content.take n)) := by
    have hneg : ¬ (n : Int) < 0 := by omega
    simp only [parseFromArray, toInt_natCast (by omega : n < 2 ^ 31), if_neg hneg,
      Int.toNat_natCast, hlin.read_eq, ok_bind, pure_eq_ok]
  rw [hpull, ok_bind]
  simp only [hparse, ok_bind]
  cases parse (buf.content.take n) with
  | none => exact ⟨_, rfl⟩
  | some m =>
      simp only [u64OfInt_natCast (by omega : n < 2 ^ 64), u32_of_lt (by omega : n < 2 ^ 32),
        Buffer.drain_eq hremove, ok_bind]
      exact ⟨_, rfl⟩

theorem decodeLoop_completed (fuel bufLen : Nat) (n : Int) (hd : d.state = .completed)
    (buf : Buffer) : decodeLoop parse al (fuel + 1) bufLen n d buf = .ok (n, d, buf) := by
  have hstop : ¬ (0 < subU64 bufLen (u64OfInt n) ∧ d.state ≠ .completed) := fun hgo => hgo.2 hd
  rw [decodeLoop, if_neg hstop, pure_eq_ok]

/-- In the states behind a length the loop returns, unless the payload stops it. -/
theorem decodeLoop_remain (fuel bufLen : Nat) (k : Int)
    (hd : d.state = .lenDecoded ∨ d.state = .partialyParsed)
    (hlen : subU64 bufLen (u64OfInt k) = buf.totalLen) :
    (∃ r, decodeLoop parse al (fuel + 2) bufLen k d buf = .ok r) ∨
      ∃ e, d.decodeRemain parse al buf = .error e ∧
        decodeLoop parse al (fuel + 2) bufLen k d buf = .error e := by
  rw [decodeLoop]
  by_cases hgo : 0 < subU64 bufLen (u64OfInt k) ∧ d.state ≠ .completed
  · rw [if_pos hgo, hlen]
    by_cases hfew : buf.totalLen < u64OfInt d.bytesRemainToParse
    · left
      rcases hd with hd | hd <;> simp only [hd, if_pos hfew, pure_eq_ok] <;> exact ⟨_, rfl⟩
    · cases hrun : d.decodeRemain parse al buf with
      | error e =>
          right
          refine ⟨e, rfl, ?_⟩
          rcases hd with hd | hd <;> simp only [hd, if_neg hfew, error_bind]
      | ok r =>
          -- nothing remains to be parsed
          left
          obtain ⟨n, d', buf'⟩ := r
          have hdone := decodeRemain_done hfew hrun
          rcases hd with hd | hd <;>
            simp only [hd, if_neg hfew, ok_bind, if_pos hdone] <;>
            exact ⟨_, decodeLoop_completed fuel _ _ rfl _⟩
  · rw [if_neg hgo, pure_eq_ok]
    exact Or.inl ⟨_, rfl⟩

theorem int64OfBytes_bounds (bs : List Byte) (h : bs.length = sizeofLen) :
    -2 ^ 63 ≤ int64OfBytes bs ∧ int64OfBytes bs < 2 ^ 63 := by
  have hlt := leNat_lt bs
  rw [h] at hlt
  have hpow : 256 ^ sizeofLen = 2 ^ 64 := by decide
  unfold int64OfBytes
  split <;> omega

/-- Between two messages, with the bytes of a length, the loop takes them and goes on. -/
theorem decodeLoop_len (parse : List Byte → Option M) (al : Allocator Addr) (fuel : Nat)
    (h : buf.WellFormed) (hd : d.state = .idle) (hlen : sizeofLen ≤ buf.totalLen) :
    ∃ d' buf', decodeLoop parse al (fuel + 1) buf.totalLen 0 d buf =
        decodeLoop parse al fuel buf.totalLen sizeofLen d' buf' ∧
      d'.state = .lenDecoded ∧ LenAgrees d' ∧ buf'.WellFormed ∧
      sizeofLen + buf'.totalLen = buf.totalLen := by
  obtain ⟨buf', hrun, hwf, hcontent⟩ := decodeLen_eq al d h hlen
  have htake : (buf.content.take sizeofLen).length = sizeofLen := by
    rw [List.length_take, ← h.total_eq, Nat.min_eq_left hlen]
  obtain ⟨hlo, hhi⟩ := int64OfBytes_bounds _ htake
  have hgo : 0 < subU64 buf.totalLen (u64OfInt 0) ∧ d.state ≠ .completed := by
    have h0 : u64OfInt (0 : Int) = 0 := rfl
    rw [h0, subU64_of_le (Nat.zero_le _) h.total_lt, hd]
    exact ⟨Nat.lt_of_lt_of_le (by decide) hlen, by decide⟩
  refine ⟨{ d with
    messLen := int64OfBytes (buf.content.take sizeofLen)
    bytesParsed := d.bytesParsed + sizeofLen
    bytesRemainToParse := int64OfBytes (buf.content.take sizeofLen)
    state := .lenDecoded }, buf', ?_, rfl, ⟨rfl, hlo, hhi⟩, hwf, ?_⟩
  · rw [decodeLoop, if_pos hgo, hd]
    simp only [if_neg (Nat.not_lt.mpr hlen), hrun, ok_bind, if_true]
  · rw [hwf.total_eq, hcontent, List.length_drop, ← h.total_eq]
    omega

/-- Fewer bytes than a length: a round changes nothing. -/
theorem decode_spins (hstuck : Stuck d buf) (fuel : Nat) (hlt : buf.totalLen < 2 ^ 64) :
    decode parse al fuel d buf = .error .outOfFuel := by
  obtain ⟨hstate, hpos, hfew⟩ := hstuck
  obtain ⟨d', hd'⟩ : ∃ d', d' = if d.state = .completed then d.reset else d := ⟨_, rfl⟩
  have hidle : d'.state = .idle := by
    rcases hstate with hstate | hstate
    · rw [hd', if_neg (by rw [hstate]; decide), hstate]
    · rw [hd', if_pos hstate]
      rfl
  rw [decode, ← hd']
  induction fuel with
  | zero => rfl
  | succ fuel ih =>
      have hgo : 0 < subU64 buf.totalLen (u64OfInt 0) ∧ d'.state ≠ .completed := by
        have h0 : u64OfInt (0 : Int) = 0 := rfl
        rw [h0, subU64_of_le (Nat.zero_le _) hlt, hidle]
        exact ⟨hpos, by decide⟩
      rw [decodeLoop, if_pos hgo, hidle]
      simp only [if_pos hfew]
      exact ih

/-! ### The whole call -/

variable (parse al) in
/-- A call that is not stuck returns, unless it is stopped where the payload is taken. -/
theorem decode_outcome (h : buf.WellFormed) (hfree : ¬ Stuck d buf) (fuel : Nat) :
    (∃ r, decode parse al (fuel + 3) d buf = .ok r) ∨
      ∃ d₁ buf₁ e, buf₁.WellFormed ∧ buf₁.totalLen ≤ buf.totalLen ∧ (d₁ = d ∨ LenAgrees d₁) ∧
        d₁.decodeRemain parse al buf₁ = .error e ∧ decode parse al (fuel + 3) d buf = .error e := by
  have hzero : subU64 buf.totalLen (u64OfInt 0) = buf.totalLen :=
    subU64_of_le (Nat.zero_le _) h.total_lt
  obtain ⟨d', hd'⟩ : ∃ d', d' = if d.state = .completed then d.reset else d := ⟨_, rfl⟩
  rw [decode, ← hd']
  by_cases h0 : buf.totalLen = 0
  · -- there is nothing to look at
    left
    have hstop : ¬ (0 < subU64 buf.totalLen (u64OfInt 0) ∧ d'.state ≠ .completed) := by
      rw [hzero]
      exact fun hgo => absurd hgo.1 (by omega)
    rw [decodeLoop, if_neg hstop, pure_eq_ok]
    exact ⟨_, rfl⟩
  by_cases hidle : d.state = .idle ∨ d.state = .completed
  · have hlen : sizeofLen ≤ buf.totalLen :=
      Nat.le_of_not_lt fun hfew => hfree ⟨hidle, Nat.pos_of_ne_zero h0, hfew⟩
    have hidle' : d'.state = .idle := by
      rcases hidle with hstate | hstate
      · rw [hd', if_neg (by rw [hstate]; decide), hstate]
      · rw [hd', if_pos hstate]
        rfl
    obtain ⟨d₁, buf₁, hround, hstate₁, hagree, hwf₁, hsum⟩ :=
      decodeLoop_len parse al (fuel + 2) h hidle' hlen
    have hlt := h.total_lt
    have hlen₁ : subU64 buf.totalLen (u64OfInt sizeofLen) = buf₁.totalLen := by
      rw [u64OfInt_natCast (by decide), subU64_of_le hlen hlt]
      omega
    rw [hround]
    rcases decodeLoop_remain fuel buf.totalLen sizeofLen (Or.inl hstate₁) hlen₁ with
      hret | ⟨e, hremain, hrun⟩
    · exact Or.inl hret
    · exact Or.inr ⟨d₁, buf₁, e, hwf₁, by omega, Or.inr hagree, hremain, hrun⟩
  · rw [not_or] at hidle
    rw [if_neg hidle.2] at hd'
    subst hd'
    by_cases herror : d'.state = .error
    · left
      have hgo : 0 < subU64 buf.totalLen (u64OfInt 0) ∧ d'.state ≠ .completed := by
        rw [hzero]
        exact ⟨Nat.pos_of_ne_zero h0, hidle.2⟩
      rw [decodeLoop, if_pos hgo, herror]
      exact ⟨_, rfl⟩
    · have hbehind : d'.state = .lenDecoded ∨ d'.state = .partialyParsed := by
        cases hs : d'.state with
        | idle => exact absurd hs hidle.1
        | lenDecoded => exact Or.inl rfl
        | partialyParsed => exact Or.inr rfl
        | completed => exact absurd hs hidle.2
        | error => exact absurd hs herror
      rcases decodeLoop_remain (fuel + 1) buf.totalLen 0 hbehind hzero with
        hret | ⟨e, hremain, hrun⟩
      · exact Or.inl hret
      · exact Or.inr ⟨d', buf, e, h, Nat.le_refl _, Or.inl rfl, hremain, hrun⟩

/-- **When `decode` ends**: unless a length is awaited and 1 to 7 bytes are there. On a short buffer,
with both members for the length in agreement, ending is returning. -/
theorem decode_ends_iff (parse : List Byte → Option M) (al : Allocator Addr) (d : Decoder M)
    {buf : Buffer} (h : buf.WellFormed) :
    (Ends parse al d buf ↔ ¬ Stuck d buf) ∧
      (LenAgrees d → buf.totalLen < 2 ^ 31 → ¬ Stuck d buf →
        ∃ fuel r, decode parse al fuel d buf = .ok r) := by
  refine ⟨⟨?_, fun hfree => ?_⟩, fun hagree hlt hfree => ?_⟩
  · rintro ⟨fuel, hends⟩ hstuck
    exact hends (decode_spins hstuck fuel h.total_lt)
  · refine ⟨3, ?_⟩
    rcases decode_outcome parse al h hfree 0 with ⟨r, hrun⟩ | ⟨d₁, buf₁, e, hwf₁, -, -, hremain, hrun⟩
    · rw [hrun]
      exact halts_ok r
    · rw [hrun, ← hremain]
      exact halts_decodeRemain hwf₁
  · refine ⟨3, ?_⟩
    rcases decode_outcome parse al h hfree 0 with
      hret | ⟨d₁, buf₁, e, hwf₁, hle, hd₁, hremain, -⟩
    · exact hret
    · have hagree₁ : LenAgrees d₁ := hd₁.elim (fun heq => heq ▸ hagree) id
      obtain ⟨r, hok⟩ := decodeRemain_returns hwf₁ (by omega) hagree₁
      rw [hremain] at hok
      cases hok

/-- Three bytes in a buffer. -/
theorem threeBytes_spec : ∃ buf,
    (Buffer.empty 0).appendData .succMax (some [1, 2, 3]) 3 = .ok (3, buf) ∧ buf.WellFormed ∧
      buf.totalLen = 3 := by
  have hshort : (Buffer.empty 0).totalLen + [(1 : Byte), 2, 3].length < 2 ^ 64 := by decide
  obtain ⟨buf, hrun, happ⟩ := Buffer.appendData_spec .succMax (Buffer.empty_wellFormed 0)
    (by simp : [(1 : Byte), 2, 3] ≠ []) (by decide) hshort
  refine ⟨buf, hrun, happ.wellFormed, ?_⟩
  rw [happ.wellFormed.total_eq, happ.content_eq]
  rfl

/-- A new decoder and three bytes: the call does not end, however long it runs. -/
theorem decode_threeBytes : ∃ buf,
    (Buffer.empty 0).appendData .succMax (some [1, 2, 3]) 3 = .ok (3, buf) ∧
      ¬ Ends some .succMax (new : Decoder (List Byte)) buf := by
  obtain ⟨buf, hrun, -, htotal⟩ := threeBytes_spec
  refine ⟨buf, hrun, ?_⟩
  rintro ⟨fuel, hends⟩
  have hstuck : Stuck (new : Decoder (List Byte)) buf :=
    ⟨Or.inl rfl, by omega, by rw [htotal]; decide⟩
  exact hends (decode_spins hstuck fuel (by omega))

theorem decode_ends_iff_threeBytes : ∃ buf,
    (Buffer.empty 0).appendData .succMax (some [1, 2, 3]) 3 = .ok (3, buf) ∧
      (Ends some .succMax (new : Decoder (List Byte)) buf ↔
        ¬ Stuck (new : Decoder (List Byte)) buf) ∧
      (LenAgrees (new : Decoder (List Byte)) → buf.totalLen < 2 ^ 31 →
        ¬ Stuck (new : Decoder (List Byte)) buf →
        ∃ fuel r, decode some .succMax fuel (new : Decoder (List Byte)) buf = .ok r) := by
  obtain ⟨buf, hrun, hwf, -⟩ := threeBytes_spec
  exact ⟨buf, hrun, decode_ends_iff some .succMax new hwf⟩

end Decoder
end Unp.Reactor
