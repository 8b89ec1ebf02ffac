import Unp.Proto.Termination
import Unp.Sync.Server

/-!
# A frame that protobuf rejects

`decodeRemain` sets the state to `ERROR` and calls `reset()` right away, which makes it `IDLE` and the
remaining length 0. The loop of `decode` takes the latter for a message that is complete. So nobody
ever sees `ERROR`, and the server does not close the connection; the payload stays in the buffer,
where the next call looks for a length.
-/

namespace Unp.Sync

open Unp.Machine Unp.LinkedChain Unp.Run Unp.Reactor Unp.Reactor.Decoder

section Rejected
variable {M : Type} {parse : List Byte → Option M} {al : Allocator Addr} {d d' : Decoder M}
  {buf buf' : Buffer}

variable (parse al) in
/-- The call ends, and the caller can see that the frame was bad. -/
def Reported (d : Decoder M) (buf : Buffer) : Prop :=
  ∃ fuel n d' buf', decode parse al fuel d buf = .ok (n, d', buf') ∧
    d'.isError = true ∧ d'.isCompleted = false

/-- `ParseFromArray` rejects the payload. It is told the length as an `int`. -/
def Rejects (parse : List Byte → Option M) (payload : List Byte) : Prop :=
  parse (payload.take (toInt payload.length).toNat) = none

/-! ## The state `ERROR` -/

theorem decodeLen_state {n : Int} (hrun : d.decodeLen al buf = .ok (n, d', buf')) :
    d'.state = d.state := by
  rw [decodeLen] at hrun
  split at hrun
  · cases hrun
    rfl
  · obtain ⟨⟨ret, bytes, buf₁⟩, -, hrun⟩ := bind_eq_ok hrun
    dsimp only at hrun
    split at hrun
    · cases hrun
      rfl
    · obtain ⟨drained, -, hrun⟩ := bind_eq_ok hrun
      cases hrun
      rfl

theorem decodeRemain_state {n : Int} (hrun : d.decodeRemain parse al buf = .ok (n, d', buf')) :
    d'.state = d.state ∨ d'.state = .idle := by
  rw [decodeRemain] at hrun
  split at hrun
  · cases hrun
    exact Or.inl rfl
  · split at hrun
    · cases hrun
    · obtain ⟨⟨p, buf₁⟩, -, hrun⟩ := bind_eq_ok hrun
      cases p with
      | none =>
          cases hrun
          exact Or.inl rfl
      | some p =>
          obtain ⟨m, -, hrun⟩ := bind_eq_ok hrun
          cases m with
          | none =>
              cases hrun
              exact Or.inr rfl
          | some m =>
              obtain ⟨drained, -, hrun⟩ := bind_eq_ok hrun
              cases hrun
              exact Or.inl rfl

/-- No round of the loop leads to `ERROR`. -/
theorem decodeLoop_ne_error (fuel bufLen : Nat) {k n : Int} (hd : d.state ≠ .error)
    (hrun : decodeLoop parse al fuel bufLen k d buf = .ok (n, d', buf')) : d'.state ≠ .error := by
  induction fuel generalizing k d buf with
  | zero => cases hrun
  | succ fuel ih =>
      rw [decodeLoop] at hrun
      split at hrun
      · cases hs : d.state with
        | error => exact absurd hs hd
        | idle =>
            simp only [hs] at hrun
            split at hrun
            · exact ih hd hrun
            · obtain ⟨⟨k', d₁, buf₁⟩, hlen, hrun⟩ := bind_eq_ok hrun
              refine ih ?_ hrun
              split
              · exact DecodeState.noConfusion
              · rw [decodeLen_state hlen]
                exact hd
        | lenDecoded | partialyParsed =>
            simp only [hs] at hrun
            split at hrun
            · cases hrun
              exact hd
            · obtain ⟨⟨k', d₁, buf₁⟩, hremain, hrun⟩ := bind_eq_ok hrun
              refine ih ?_ hrun
              split
              · exact DecodeState.noConfusion
              · rcases decodeRemain_state hremain with hstate | hstate
                · rw [hstate]
                  exact hd
                · rw [hstate]
                  exact DecodeState.noConfusion
        | completed =>
            simp only [hs] at hrun
            exact ih hd hrun
      · cases hrun
        exact hd

theorem decode_ne_error {fuel : Nat} {n : Int} (hd : d.state ≠ .error)
    (hrun : decode parse al fuel d buf = .ok (n, d', buf')) : d'.state ≠ .error := by
  refine decodeLoop_ne_error fuel _ ?_ hrun
  split
  · exact DecodeState.noConfusion
  · exact hd

theorem not_reported (hd : d.state ≠ .error) : ¬ Reported parse al d buf := by
  rintro ⟨fuel, n, d', buf', hrun, herror, -⟩
  simp only [isError, decide_eq_true_eq] at herror
  exact decode_ne_error hd hrun herror

/-- So the loop of the server does not give the connection up. -/
theorem serverLoop_ret (dfuel fuel : Nat) {h h' : Handler M} {ret : Int} {mes : List M}
    (hd : h.decoder.state ≠ .error)
    (hrun : serverLoop parse al dfuel fuel h = .ok ((ret, mes), h')) : ret = 0 := by
  induction fuel generalizing h mes with
  | zero => cases hrun
  | succ fuel ih =>
      rw [serverLoop] at hrun
      split at hrun
      · obtain ⟨⟨lenParsed, decoder, buf⟩, hdecode, hrun⟩ := bind_eq_ok hrun
        have hne := decode_ne_error hd hdecode
        have hfine : ¬ (lenParsed ≤ 0 ∧ decoder.isError = true) := by
          rintro ⟨-, herror⟩
          simp only [isError, decide_eq_true_eq] at herror
          exact hne herror
        dsimp only at hrun
        rw [if_neg hfine] at hrun
        split at hrun
        · cases hrun
          rfl
        · obtain ⟨⟨⟨ret', rest⟩, h₁⟩, hrest, hrun⟩ := bind_eq_ok hrun
          cases hrun
          exact ih hne hrest
      · cases hrun
        rfl

/-! ## What happens instead -/

/-- The payload is rejected: the call says that 7 bytes were taken and a message is complete, which
is not there, and leaves the payload in the buffer. -/
theorem decode_rejected (parse : List Byte → Option M) (al : Allocator Addr) (fuel : Nat)
    {payload rest : List Byte} (h : buf.WellFormed) (hd : d.state = .idle ∨ d.state = .completed)
    (hc : buf.content = frame payload ++ rest) (hpos : 0 < payload.length)
    (hlt : payload.length < 2 ^ 31) (hreject : parse payload = none) :
    ∃ buf', decode parse al (fuel + 3) d buf = .ok (7, { (new : Decoder M) with state := .completed },
        buf') ∧ buf'.WellFormed ∧ buf'.content = payload ++ rest := by
  obtain ⟨d₀, hd₀⟩ : ∃ d₀, d₀ = if d.state = .completed then d.reset else d := ⟨_, rfl⟩
  have hidle : d₀.state = .idle := by
    rcases hd with hstate | hstate
    · rw [hd₀, if_neg (by rw [hstate]; decide), hstate]
    · rw [hd₀, if_pos hstate]
      rfl
  rw [frame, List.append_assoc] at hc
  obtain ⟨buf₁, hlen, hwf₁, hcontent₁⟩ := decodeLen_spec al d₀ h (by omega) hc
  have htotal : buf.totalLen = 8 + buf₁.totalLen := by
    rw [h.total_eq, hwf₁.total_eq, hcontent₁, hc, List.length_append, length_leBytes]
    rfl
  have htotal₁ : payload.length ≤ buf₁.totalLen := by
    rw [hwf₁.total_eq, hcontent₁, List.length_append]
    exact Nat.le_add_right _ _
  have hbound := h.total_lt
  -- the first round takes the length
  have hgo : 0 < subU64 buf.totalLen (u64OfInt 0) ∧ d₀.state ≠ .completed := by
    have h0 : u64OfInt (0 : Int) = 0 := rfl
    rw [h0, subU64_of_le (Nat.zero_le _) hbound, hidle]
    exact ⟨by omega, by decide⟩
  have henough : ¬ buf.totalLen < sizeofLen := by
    rw [htotal, sizeofLen]
    omega
  obtain ⟨d₁, hd₁⟩ : ∃ d₁ : Decoder M, d₁ = { d₀ with
    messLen := payload.length, bytesParsed := d₀.bytesParsed + sizeofLen
    bytesRemainToParse := payload.length, state := .lenDecoded } := ⟨_, rfl⟩
  have hfirst : decode parse al (fuel + 3) d buf =
      decodeLoop parse al (fuel + 2) buf.totalLen sizeofLen d₁ buf₁ := by
    rw [decode, ← hd₀, decodeLoop, if_pos hgo, hidle]
    simp only [if_neg henough, hlen, ok_bind, if_true]
    rw [hd₁]
  -- the second one hands the payload to the parser
  obtain ⟨p, buf₂, hpull, hlin⟩ := Buffer.pullup_spec al hwf₁ hpos htotal₁ (by omega)
  have hword : u64OfInt (payload.length : Int) = payload.length := u64OfInt_natCast (by omega)
  have hread : buf₂.readAt p payload.length = .ok payload := by
    rw [hlin.read_eq, hcontent₁, List.take_left]
  have hparse : parseFromArray parse buf₂ p payload.length = .ok none := by
    have hneg : ¬ (payload.length : Int) < 0 := by omega
    simp only [parseFromArray, toInt_natCast hlt, if_neg hneg, Int.toNat_natCast, hread, ok_bind,
      hreject, pure_eq_ok]
  have hremain : d₁.decodeRemain parse al buf₁ = .ok (-1, d₁.reset, buf₂) := by
    have hguard : ¬ buf₁.totalLen < payload.length := Nat.not_lt.mpr htotal₁
    rw [decodeRemain, hd₁]
    simp only [hword, if_neg hguard, ne_eq, not_true_eq_false, if_false, hpull, ok_bind, hparse,
      pure_eq_ok]
  have hleft : subU64 buf.totalLen (u64OfInt sizeofLen) = buf₁.totalLen := by
    rw [u64OfInt_natCast (by decide), htotal, sizeofLen, subU64_of_le (by omega) (by omega)]
    omega
  have hgo₁ : 0 < subU64 buf.totalLen (u64OfInt sizeofLen) ∧ d₁.state ≠ .completed := by
    rw [hleft, hd₁]
    exact ⟨by omega, DecodeState.noConfusion⟩
  refine ⟨buf₂, ?_, hlin.wellFormed, hlin.content_eq.trans hcontent₁⟩
  have hstate₁ : d₁.state = .lenDecoded := by rw [hd₁]
  have hremain₁ : u64OfInt d₁.bytesRemainToParse = payload.length := by rw [hd₁, hword]
  have hzero : d₁.reset.bytesRemainToParse = 0 := rfl
  rw [hfirst, decodeLoop, if_pos hgo₁, hstate₁]
  simp only [hleft, hremain₁, if_neg (Nat.not_lt.mpr htotal₁), hremain, ok_bind, if_pos hzero]
  exact decodeLoop_completed fuel _ _ rfl _

/-- **A bad frame is never reported**: whatever the payload and the bytes behind the frame, the caller
does not see `ERROR`, `handle_input` does not return -1, and what it sees is a complete message. -/
theorem rejected_never_reported (parse : List Byte → Option M) (al : Allocator Addr)
    {payload rest : List Byte} (hwf : buf.WellFormed)
    (hd : d.state = .idle ∨ d.state = .completed) (hc : buf.content = frame payload ++ rest)
    (hpos : 0 < payload.length) (hreject : Rejects parse payload) :
    ¬ Reported parse al d buf ∧
      (∀ fuel (read : Allocator Addr × Chunk) (h h' : Handler M) mes, h.decoder = d →
        sockHandleInput read.1 h.inputBuffer read.2.1 = .ok (0, buf) →
          serverHandleInput parse fuel read h ≠ .ok ((-1, mes), h')) ∧
      (payload.length < 2 ^ 31 →
        ∃ buf', decode parse al 3 d buf =
            .ok (7, { (new : Decoder M) with state := .completed }, buf') ∧
          buf'.content = payload ++ rest) := by
  have hne : d.state ≠ .error := by
    rcases hd with hd | hd <;> rw [hd] <;> exact DecodeState.noConfusion
  refine ⟨not_reported hne, ?_, fun hlt => ?_⟩
  · rintro fuel read h h' mes rfl hsock hrun
    have hzero : ¬ (0 : Int) < 0 := by decide
    simp only [serverHandleInput, hsock, ok_bind, if_neg hzero] at hrun
    exact absurd (serverLoop_ret (h := { h with inputBuffer := buf }) fuel fuel hne hrun) (by decide)
  · have hsame : payload.take (toInt payload.length).toNat = payload := by
      rw [toInt_natCast hlt, Int.toNat_natCast, List.take_length]
    rw [Rejects, hsame] at hreject
    obtain ⟨buf', hrun, -, hcontent⟩ := decode_rejected parse al 0 hwf hd hc hpos hlt hreject
    exact ⟨buf', hrun, hcontent⟩

end Rejected

/-! ## A frame of one byte -/

/-- A parser that accepts nothing. -/
def noParse (_ : List Byte) : Option Unit := none

theorem badFrame_spec : ∃ buf,
    (Buffer.empty 0).appendData .succMax (some (frame [0])) 9 = .ok (9, buf) ∧ buf.WellFormed ∧
      buf.content = frame [0] ++ [] := by
  have hshort : (Buffer.empty 0).totalLen + (frame [0]).length < 2 ^ 64 := by decide
  obtain ⟨buf, hrun, happ⟩ := Buffer.appendData_spec .succMax (Buffer.empty_wellFormed 0)
    (by simp [frame] : frame [0] ≠ []) (by decide) hshort
  exact ⟨buf, hrun, happ.wellFormed, by rw [happ.content_eq, List.append_nil]; rfl⟩

/-- A new decoder, and the frame of a payload that is rejected. -/
theorem badFrame_completes : ∃ buf,
    (Buffer.empty 0).appendData .succMax (some (frame [0])) 9 = .ok (9, buf) ∧
      Rejects noParse [0] ∧ ¬ Reported noParse .succMax new buf ∧
      ∃ buf', decode noParse .succMax 3 new buf = .ok (7, { new with state := .completed }, buf') := by
  obtain ⟨buf, happend, hwf, hc⟩ := badFrame_spec
  obtain ⟨buf', hrun, -⟩ := decode_rejected noParse .succMax 0 (d := new) hwf (Or.inl rfl) hc
    (by decide) (by decide) rfl
  exact ⟨buf, happend, rfl, not_reported DecodeState.noConfusion, buf', hrun⟩

theorem rejected_never_reported_badFrame : ∃ buf,
    (Buffer.empty 0).appendData .succMax (some (frame [0])) 9 = .ok (9, buf) ∧
      ¬ Reported noParse .succMax new buf ∧
      (∀ fuel (read : Allocator Addr × Chunk) (h h' : Handler Unit) mes, h.decoder = new →
        sockHandleInput read.1 h.inputBuffer read.2.1 = .ok (0, buf) →
          serverHandleInput noParse fuel read h ≠ .ok ((-1, mes), h')) ∧
      ([(0 : Byte)].length < 2 ^ 31 →
        ∃ buf', decode noParse .succMax 3 new buf = .ok (7, { new with state := .completed }, buf') ∧
          buf'.content = [0] ++ []) := by
  obtain ⟨buf, happend, hwf, hc⟩ := badFrame_spec
  exact ⟨buf, happend,
    rejected_never_reported noParse .succMax (d := new) hwf (Or.inl rfl) hc (by decide) rfl⟩

end Unp.Sync
