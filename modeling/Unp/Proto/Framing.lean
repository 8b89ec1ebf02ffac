import Unp.Proto.Decoder

/-!
# What one call of `decode` does to a stream of frames

The four things a call can do when the bytes in the buffer come from a stream of frames: take a
length and stop, take a whole frame, find the payload still incomplete, take the payload of a
length it remembers. The caller's loops are verified against these.
-/

namespace Unp.Reactor

open Unp.Machine Unp.LinkedChain

/-- What `sendPackage` writes for one serialised message: the length as an `int64_t`, then the
message. -/
def frame (payload : List Byte) : List Byte := leBytes sizeofLen payload.length ++ payload

/-- The byte stream of a list of messages. -/
def encode (payloads : List (List Byte)) : List Byte := payloads.flatMap frame

@[simp] theorem encode_nil : encode [] = [] := rfl

@[simp] theorem encode_cons (p : List Byte) (ps : List (List Byte)) :
    encode (p :: ps) = frame p ++ encode ps := by
  simp [encode]

@[simp] theorem length_frame (p : List Byte) : (frame p).length = 8 + p.length := by
  simp [frame, sizeofLen]

theorem int64OfBytes_leBytes {n : Nat} (h : n < 2 ^ 63) :
    int64OfBytes (leBytes sizeofLen n) = n := by
  have hval : leNat (leBytes sizeofLen n) = n := by
    rw [leNat_leBytes, sizeofLen]
    exact Nat.mod_eq_of_lt (by omega)
  rw [int64OfBytes, hval, if_pos h]

theorem toInt_natCast {n : Nat} (h : n < 2 ^ 31) : toInt n = n := by
  unfold toInt
  rw [Int.emod_eq_of_lt (by omega) (by omega), if_pos (by omega)]

namespace Decoder
variable {M : Type} {parse : List Byte → Option M}

/-- `ParseFromArray` accepts the payload. Its size is an `int`, so a payload of `2 ^ 31` bytes or
more is never accepted, and there is at least one byte. -/
structure Parses (parse : List Byte → Option M) (payload : List Byte) (m : M) : Prop where
  pos : 0 < payload.length
  lt : payload.length < 2 ^ 31
  eq : parse payload = some m

/-- Between two messages. -/
def Awaiting (d : Decoder M) : Prop := d = new ∨ d.state = .completed

/-- A length of `n` has been taken out of the buffer. -/
structure Expecting (d : Decoder M) (n : Nat) : Prop where
  state_eq : d.state = .lenDecoded
  messLen_eq : d.messLen = n
  remain_eq : d.bytesRemainToParse = n
  mesPtr_eq : d.mesPtr = none

/-- The message `m` has just been decoded. -/
structure Delivers (d : Decoder M) (m : M) : Prop where
  state_eq : d.state = .completed
  mesPtr_eq : d.mesPtr = some m

theorem Delivers.awaiting {d : Decoder M} {m : M} (h : Delivers d m) : Awaiting d :=
  Or.inr h.state_eq

/-! ## The two halves of a frame -/

/-- Whatever the first 8 bytes are, they are taken for a length. -/
theorem decodeLen_eq (al : Allocator Addr) (d : Decoder M) {buf : Buffer} (h : buf.WellFormed)
    (hlen : sizeofLen ≤ buf.totalLen) :
    ∃ buf', d.decodeLen al buf = .ok ((sizeofLen : Int), { d with
        messLen := int64OfBytes (buf.content.take sizeofLen)
        bytesParsed := d.bytesParsed + sizeofLen
        bytesRemainToParse := int64OfBytes (buf.content.take sizeofLen) }, buf') ∧
      buf'.WellFormed ∧ buf'.content = buf.content.drop sizeofLen := by
  obtain ⟨p, buf₁, hread, hlin⟩ := Buffer.readT_spec al h (by decide) hlen (by decide)
  have hlen₁ : sizeofLen ≤ buf₁.totalLen := by
    rw [hlin.wellFormed.total_eq, hlin.content_eq, ← h.total_eq]
    exact hlen
  obtain ⟨buf₂, hremove, hcons⟩ := Buffer.remove_spec hlin.wellFormed (by decide) hlen₁
  refine ⟨buf₂, ?_, hcons.wellFormed, by rw [hcons.content_eq, hlin.content_eq]⟩
  have hguard : ¬ buf.totalLen < sizeofLen := Nat.not_lt.mpr hlen
  simp only [decodeLen, if_neg hguard, hread, ok_bind, ne_eq, not_true_eq_false, if_false,
    Buffer.drain_eq hremove, pure_eq_ok]

theorem decodeLen_spec (al : Allocator Addr) (d : Decoder M) {buf : Buffer} {n : Nat}
    {rest : List Byte} (h : buf.WellFormed) (hn : n < 2 ^ 63)
    (hc : buf.content = leBytes sizeofLen n ++ rest) :
    ∃ buf', d.decodeLen al buf = .ok ((sizeofLen : Int), { d with
        messLen := n, bytesParsed := d.bytesParsed + sizeofLen, bytesRemainToParse := n }, buf') ∧
      buf'.WellFormed ∧ buf'.content = rest := by
  have hlen : sizeofLen ≤ buf.totalLen := by
    rw [h.total_eq, hc, List.length_append, length_leBytes]
    exact Nat.le_add_right _ _
  have htake : buf.content.take sizeofLen = leBytes sizeofLen n := by
    rw [hc, List.take_left' (length_leBytes _ _)]
  obtain ⟨buf₂, hrun, hwf, hcontent⟩ := decodeLen_eq al d h hlen
  rw [htake, int64OfBytes_leBytes hn] at hrun
  refine ⟨buf₂, hrun, hwf, ?_⟩
  rw [hcontent, hc, List.drop_left' (length_leBytes _ _)]

theorem decodeRemain_spec (al : Allocator Addr) {d : Decoder M} {buf : Buffer} {m : M}
    {payload rest : List Byte} (h : buf.WellFormed) (hp : Parses parse payload m)
    (hd : Expecting d payload.length) (hc : buf.content = payload ++ rest) :
    ∃ d' buf', d.decodeRemain parse al buf = .ok ((payload.length : Int), d', buf') ∧
      d'.mesPtr = some m ∧ d'.bytesRemainToParse = 0 ∧
      buf'.WellFormed ∧ buf'.content = rest := by
  have hpos := hp.pos
  have hlt := hp.lt
  have hlen : payload.length ≤ buf.totalLen := by
    rw [h.total_eq, hc, List.length_append]
    exact Nat.le_add_right _ _
  obtain ⟨p, buf₁, hpull, hlin⟩ := Buffer.pullup_spec al h hpos hlen (by omega)
  have hread : buf₁.readAt p payload.length = .ok payload := by
    rw [hlin.read_eq, hc, List.take_left]
  have hlen₁ : payload.length ≤ buf₁.totalLen := by
    rw [hlin.wellFormed.total_eq, hlin.content_eq, ← h.total_eq]
    exact hlen
  obtain ⟨buf₂, hremove, hcons⟩ := Buffer.remove_spec hlin.wellFormed hpos hlen₁
  have hword : u64OfInt (payload.length : Int) = payload.length := u64OfInt_natCast (by omega)
  have hguard : ¬ buf.totalLen < u64OfInt d.bytesRemainToParse := by
    rw [hd.remain_eq, hword]
    omega
  have hassert : ¬ d.messLen ≠ d.bytesRemainToParse := by
    rw [hd.messLen_eq, hd.remain_eq]
    exact fun hne => hne rfl
  have hparse : parseFromArray parse buf₁ p payload.length = .ok (some m) := by
    have hneg : ¬ (payload.length : Int) < 0 := by omega
    simp only [parseFromArray, toInt_natCast hlt, if_neg hneg, Int.toNat_natCast, hread, ok_bind,
      hp.eq, pure_eq_ok]
  refine ⟨{ d with
    mesPtr := some m, bytesParsed := d.bytesParsed + payload.length
    bytesRemainToParse := d.bytesRemainToParse - payload.length }, buf₂, ?_, rfl, ?_,
    hcons.wellFormed, ?_⟩
  · rw [decodeRemain, if_neg hguard, if_neg hassert]
    simp only [hd.messLen_eq, hpull, ok_bind, hparse, hword,
      u32_of_lt (Nat.lt_trans hlt (by decide)), Buffer.drain_eq hremove, pure_eq_ok]
  · simp [hd.remain_eq]
  · rw [hcons.content_eq, hlin.content_eq, hc, List.drop_left]

/-! ## The loop of `decode` -/

/-- The payload is complete: the message is delivered and the loop ends. `k` bytes of the frame
were taken before. -/
theorem decodeLoop_payload (al : Allocator Addr) (fuel : Nat) {d : Decoder M} {buf : Buffer}
    {m : M} {payload rest : List Byte} {k : Nat} (h : buf.WellFormed)
    (hp : Parses parse payload m) (hd : Expecting d payload.length)
    (hc : buf.content = payload ++ rest) (hk : k + buf.totalLen < 2 ^ 64) :
    ∃ d' buf', decodeLoop parse al (fuel + 2) (k + buf.totalLen) k d buf =
        .ok (((k + payload.length : Nat) : Int), d', buf') ∧
      Delivers d' m ∧ buf'.WellFormed ∧ buf'.content = rest := by
  obtain ⟨d₁, buf₁, hrun, hmes, hremain, hwf, hcontent⟩ := decodeRemain_spec al h hp hd hc
  have hpos := hp.pos
  have hlen : payload.length ≤ buf.totalLen := by
    rw [h.total_eq, hc, List.length_append]
    exact Nat.le_add_right _ _
  have hsub : subU64 (k + buf.totalLen) (u64OfInt (k : Int)) = buf.totalLen := by
    rw [u64OfInt_natCast (by omega), subU64_of_le (by omega) hk, Nat.add_sub_cancel_left]
  have hword : u64OfInt (payload.length : Int) = payload.length := u64OfInt_natCast (by omega)
  have hloop : 0 < subU64 (k + buf.totalLen) (u64OfInt (k : Int)) ∧ d.state ≠ .completed := by
    rw [hsub, hd.state_eq]
    exact ⟨by omega, by decide⟩
  have henough : ¬ subU64 (k + buf.totalLen) (u64OfInt (k : Int)) <
      u64OfInt d.bytesRemainToParse := by
    rw [hsub, hd.remain_eq, hword]
    omega
  refine ⟨{ d₁ with state := .completed }, buf₁, ?_, ⟨rfl, hmes⟩, hwf, hcontent⟩
  rw [decodeLoop, if_pos hloop, hd.state_eq]
  simp only [if_neg henough, hrun, ok_bind, if_pos hremain]
  simp only [decodeLoop, ne_eq, not_true_eq_false, and_false, if_false, pure_eq_ok]
  rw [Nat.cast_add]

variable (parse) in
/-- The payload is not complete yet: the loop returns what it has taken so far. -/
theorem decodeLoop_wait (al : Allocator Addr) (fuel : Nat) {d : Decoder M} {buf : Buffer}
    {n k : Nat} (hd : Expecting d n) (hn : n < 2 ^ 64) (hpos : 0 < buf.totalLen)
    (hshort : buf.totalLen < n) (hk : k + buf.totalLen < 2 ^ 64) :
    decodeLoop parse al (fuel + 1) (k + buf.totalLen) k d buf = .ok ((k : Int), d, buf) := by
  have hsub : subU64 (k + buf.totalLen) (u64OfInt (k : Int)) = buf.totalLen := by
    rw [u64OfInt_natCast (by omega), subU64_of_le (by omega) hk, Nat.add_sub_cancel_left]
  have hloop : 0 < subU64 (k + buf.totalLen) (u64OfInt (k : Int)) ∧ d.state ≠ .completed := by
    rw [hsub, hd.state_eq]
    exact ⟨hpos, by decide⟩
  have hless : subU64 (k + buf.totalLen) (u64OfInt (k : Int)) <
      u64OfInt d.bytesRemainToParse := by
    rw [hsub, hd.remain_eq, u64OfInt_natCast hn]
    exact hshort
  rw [decodeLoop, if_pos hloop, hd.state_eq]
  simp only [if_pos hless, pure_eq_ok]

variable (parse) in
/-- The first iteration between two messages takes the length. -/
theorem decode_eq_loop (al : Allocator Addr) (fuel : Nat) {d : Decoder M} {buf : Buffer} {n : Nat}
    {rest : List Byte} (h : buf.WellFormed) (hd : Awaiting d) (hn : n < 2 ^ 63)
    (hc : buf.content = leBytes sizeofLen n ++ rest) :
    ∃ d' buf', decode parse al (fuel + 1) d buf =
        decodeLoop parse al fuel (8 + buf'.totalLen) (8 : Nat) d' buf' ∧
      Expecting d' n ∧ buf'.WellFormed ∧ buf'.content = rest ∧
      8 + buf'.totalLen = buf.totalLen := by
  obtain ⟨buf₁, hrun, hwf, hcontent⟩ := decodeLen_spec al (new : Decoder M) h hn hc
  have htotal : 8 + buf₁.totalLen = buf.totalLen := by
    rw [hwf.total_eq, hcontent, h.total_eq, hc, List.length_append, length_leBytes]
    rfl
  have hreset : (if d.state = .completed then d.reset else d) = (new : Decoder M) := by
    rcases hd with rfl | hd
    · rfl
    · rw [if_pos hd]
      rfl
  have hlt := h.total_lt
  have hloop : 0 < subU64 buf.totalLen (u64OfInt 0) ∧
      (new : Decoder M).state ≠ .completed := by
    refine ⟨?_, DecodeState.noConfusion⟩
    have h0 : u64OfInt (0 : Int) = 0 := rfl
    rw [h0, subU64_of_le (by omega) hlt]
    omega
  have hguard : ¬ buf.totalLen < sizeofLen := by
    rw [sizeofLen]
    omega
  refine ⟨{ (new : Decoder M) with
    messLen := n, bytesParsed := (new : Decoder M).bytesParsed + sizeofLen
    bytesRemainToParse := n, state := .lenDecoded }, buf₁, ?_, ?_, hwf, hcontent, htotal⟩
  · rw [htotal, decode, hreset]
    simp only [decodeLoop, if_pos hloop]
    change (if buf.totalLen < sizeofLen then _ else _) = _
    rw [if_neg hguard, hrun, ok_bind]
    rfl
  · exact ⟨rfl, rfl, rfl, rfl⟩

/-! ## One call on a stream

`fut` are the bytes of the stream that have not arrived yet. -/

/-- Two ways to cut a list: the longer first part starts with the shorter one. -/
theorem append_split {l₁ l₂ r₁ r₂ : List Byte} (h : l₁ ++ r₁ = l₂ ++ r₂)
    (hle : l₂.length ≤ l₁.length) : ∃ mid, l₁ = l₂ ++ mid ∧ mid ++ r₁ = r₂ := by
  rcases List.append_eq_append_iff.mp h with ⟨mid, hl, hr⟩ | ⟨mid, hl, hr⟩
  · have hnil : mid = [] := by
      rw [hl, List.length_append] at hle
      exact List.length_eq_zero_iff.mp (by omega)
    subst hnil
    rw [List.append_nil] at hl
    exact ⟨[], by rw [hl, List.append_nil], hr⟩
  · exact ⟨mid, hl, hr.symm⟩

section Stream
variable {d : Decoder M} {buf : Buffer} {fut p tail : List Byte} {m : M}

/-- The next message is taken: `k` bytes of its frame had been taken before, it is delivered, and
the stream goes on behind it. -/
structure Taken (d' : Decoder M) (buf' : Buffer) (buf : Buffer) (fut tail : List Byte) (m : M)
    (n : Nat) : Prop where
  delivers : Delivers d' m
  wellFormed : buf'.WellFormed
  stream : buf'.content ++ fut = tail
  total_eq : n + buf'.totalLen = buf.totalLen

/-- Only the length of the next message is taken; its payload is not complete. -/
structure Begun (d' : Decoder M) (buf' : Buffer) (buf : Buffer) (fut p tail : List Byte) :
    Prop where
  expecting : Expecting d' p.length
  wellFormed : buf'.WellFormed
  stream : buf'.content ++ fut = p ++ tail
  total_eq : 8 + buf'.totalLen = buf.totalLen
  short : buf'.totalLen < p.length

/-- With the length already taken and the payload complete, the message is delivered. -/
theorem decode_inside (al : Allocator Addr) (fuel : Nat) (h : buf.WellFormed)
    (hp : Parses parse p m) (hd : Expecting d p.length) (hc : buf.content ++ fut = p ++ tail)
    (hlong : p.length ≤ buf.totalLen) :
    ∃ d' buf', decode parse al (fuel + 2) d buf = .ok ((p.length : Int), d', buf') ∧
      Taken d' buf' buf fut tail m p.length := by
  obtain ⟨rest, hrest, hstream⟩ := append_split hc (by rw [← h.total_eq]; exact hlong)
  have hstate : ¬ d.state = .completed := by
    rw [hd.state_eq]
    exact DecodeState.noConfusion
  obtain ⟨d', buf', hrun, hdel, hwf, hcontent⟩ :=
    decodeLoop_payload (k := 0) al fuel h hp hd hrest (by have := h.total_lt; omega)
  rw [Nat.zero_add, Nat.zero_add] at hrun
  refine ⟨d', buf', ?_, hdel, hwf, by rw [hcontent]; exact hstream, ?_⟩
  · simp only [decode, if_neg hstate]
    exact hrun
  · rw [hwf.total_eq, h.total_eq, hcontent, hrest, List.length_append]

/-- With the payload incomplete nothing happens. -/
theorem decode_waits (al : Allocator Addr) (fuel : Nat) (h : buf.WellFormed)
    (hp : Parses parse p m) (hd : Expecting d p.length) (hpos : 0 < buf.totalLen)
    (hshort : buf.totalLen < p.length) :
    decode parse al (fuel + 1) d buf = .ok (0, d, buf) := by
  have hlt := hp.lt
  have hstate : ¬ d.state = .completed := by
    rw [hd.state_eq]
    exact DecodeState.noConfusion
  have hrun := decodeLoop_wait parse (k := 0) al fuel hd (by omega) hpos hshort
    (by have := h.total_lt; omega)
  rw [Nat.zero_add] at hrun
  simp only [decode, if_neg hstate]
  exact hrun

/-- Between two messages, with more than a length in the buffer: the whole frame is taken, or only
its length when the rest of it has not arrived. -/
theorem decode_between (al : Allocator Addr) (fuel : Nat) (h : buf.WellFormed)
    (hp : Parses parse p m) (hd : Awaiting d) (hc : buf.content ++ fut = frame p ++ tail)
    (hlong : 8 < buf.totalLen) :
    (∃ d' buf', decode parse al (fuel + 3) d buf = .ok (8, d', buf') ∧
      Begun d' buf' buf fut p tail) ∨
    (∃ d' buf', decode parse al (fuel + 3) d buf = .ok (((8 + p.length : Nat) : Int), d', buf') ∧
      Taken d' buf' buf fut tail m (8 + p.length)) := by
  have hlt := hp.lt
  rw [frame, List.append_assoc] at hc
  obtain ⟨rest, hrest, hstream⟩ := append_split hc (by
    rw [length_leBytes, ← h.total_eq, sizeofLen]
    omega)
  obtain ⟨d₁, buf₁, heq, hexp, hwf, hcontent, htotal⟩ :=
    decode_eq_loop parse al (fuel + 2) h hd (n := p.length) (by omega) hrest
  have hlt₁ := h.total_lt
  by_cases hshort : buf₁.totalLen < p.length
  · left
    refine ⟨d₁, buf₁, ?_, hexp, hwf, by rw [hcontent]; exact hstream, htotal, hshort⟩
    rw [heq, decodeLoop_wait parse al (fuel + 1) hexp (by omega) (by omega) hshort (by omega)]
    rfl
  · right
    obtain ⟨rest₁, hrest₁, hstream₁⟩ := append_split hstream (by
      rw [← hcontent, ← hwf.total_eq]
      omega)
    obtain ⟨d', buf', hrun, hdel, hwf', hcontent'⟩ :=
      decodeLoop_payload al fuel hwf hp hexp (hcontent.trans hrest₁) (k := 8) (by omega)
    refine ⟨d', buf', by rw [heq]; exact hrun, hdel, hwf', by rw [hcontent']; exact hstream₁, ?_⟩
    rw [← htotal, hwf'.total_eq, hwf.total_eq, hcontent', hcontent, hrest₁, List.length_append]
    omega

end Stream

end Decoder
end Unp.Reactor
