import Unp.Buffer.Remove
import Unp.Buffer.Iter

/-!
# Linearising the front

`pullup` moves bytes from the following chains into the first one until it holds `size` of them.
Between two iterations the buffer is in a state that is not quite well formed: the node
`last_chain_with_data_` points to may just have been erased, and the code repairs that only at
the end. `Pulling` is that state.
-/

namespace Unp.Reactor
namespace Buffer

open Unp.Machine Unp.LinkedChain BufferChain

/-- The first node `fc` still has to take `remain` bytes from `rest`, and has room for them. -/
structure Pulling (b : Buffer) (first : Addr) (fc : BufferChain)
    (rest : List (Addr × BufferChain)) (remain : Nat) : Prop where
  chains_eq : b.chains = (first, fc) :: rest
  nodup : (addrs b.chains).Nodup
  linked : LinkedTo BufferChain.next b.chains none
  good : ∀ p ∈ b.chains, GoodNode p
  last_eq : rest ≠ [] → b.lastChainWithData = lastAddr rest
  total_eq : b.totalLen = b.content.length
  total_lt : b.totalLen < 2 ^ 64
  room : fc.off + remain ≤ fc.capacity
  remain_le : remain ≤ (bytes rest).length

section Pulling
variable {b : Buffer} {first : Addr} {fc : BufferChain} {rest : List (Addr × BufferChain)}
  {remain : Nat}

theorem Pulling.content_eq (h : Pulling b first fc rest remain) :
    b.content = fc.data ++ bytes rest := by
  rw [content, h.chains_eq, bytes_cons]

theorem Pulling.first_ok (h : Pulling b first fc rest remain) : fc.Ok :=
  (h.good (first, fc) (by rw [h.chains_eq]; simp)).ok

theorem Pulling.first_next (h : Pulling b first fc rest remain) :
    fc.next = headAddr rest none := by
  have hlink := h.linked
  rw [h.chains_eq] at hlink
  exact hlink.1

/-- The nodes have addresses of their own. -/
theorem Pulling.first_notin (h : Pulling b first fc rest remain) : first ∉ addrs rest := by
  have hnd := h.nodup
  rw [h.chains_eq] at hnd
  exact (List.nodup_cons.mp hnd).1

theorem Pulling.first_ne {a : Addr} {c : BufferChain}
    (h : Pulling b first fc ((a, c) :: rest) remain) : first ≠ a := by
  intro heq
  exact h.first_notin (by simp [heq])

/-- Once nothing is left to move, setting `last_chain_with_data_` restores the invariant. -/
theorem Pulling.finish (h : Pulling b first fc rest 0) {last : Option Addr}
    (hlast : last = if (headAddr rest none).isSome then b.lastChainWithData else some first) :
    WellFormed { b with lastChainWithData := last } where
  nodup := h.nodup
  linked := h.linked
  good := h.good
  last_eq := by
    simp only [hlast, h.chains_eq]
    cases rest with
    | nil => rfl
    | cons p rest =>
        rw [lastAddr_cons_cons, ← h.last_eq (by simp)]
        rfl
  total_eq := h.total_eq
  total_lt := h.total_lt

end Pulling

/-! ## One iteration -/

/-- The first node is written and the second erased. -/
theorem eraseIdx_setChain {b : Buffer} {first : Addr} {fc fc' : BufferChain}
    {p : Addr × BufferChain} {rest : List (Addr × BufferChain)}
    (hc : b.chains = (first, fc) :: p :: rest) (hnd : (addrs b.chains).Nodup) :
    (b.setChain first fc').chains.eraseIdx 1 = (first, fc') :: rest := by
  rw [hc] at hnd
  have hnotin : first ∉ addrs (p :: rest) := (List.nodup_cons.mp hnd).1
  simp only [setChain, hc]
  rw [modifyAt_cons hnotin]
  rfl

/-- A whole chain moves into the first one and its node is erased. -/
theorem Pulling.absorb {b : Buffer} {first a : Addr} {fc c : BufferChain}
    {rest : List (Addr × BufferChain)} {remain : Nat}
    (h : Pulling b first fc ((a, c) :: rest) remain) (hle : c.data.length ≤ remain) :
    Pulling { b.setChain first { fc.written c.data with next := c.next } with
        chains := (b.setChain first { fc.written c.data with next := c.next }).chains.eraseIdx 1 }
      first { fc.written c.data with next := c.next } rest (remain - c.data.length) := by
  obtain ⟨fc', hfc'⟩ : ∃ fc' : BufferChain, fc' = { fc.written c.data with next := c.next } :=
    ⟨_, rfl⟩
  rw [← hfc']
  have hroom := h.room
  have hgrown := written_grown c.data h.first_ok (by omega)
  have hdata : fc'.data = fc.data ++ c.data := by rw [hfc']; exact hgrown.data_eq
  have hchains : (b.setChain first fc').chains.eraseIdx 1 = (first, fc') :: rest :=
    eraseIdx_setChain h.chains_eq h.nodup
  have hnd := h.nodup
  have hlink := h.linked
  rw [h.chains_eq] at hnd hlink
  have hfirst := h.good (first, fc) (by rw [h.chains_eq]; simp)
  have hcontent : bytes ((b.setChain first fc').chains.eraseIdx 1) = b.content := by
    rw [hchains, h.content_eq, bytes_cons, bytes_cons, hdata, List.append_assoc]
  exact
    { chains_eq := hchains
      nodup := by
        simp only [hchains]
        rw [addrs_cons, addrs_cons] at hnd
        rw [addrs_cons]
        simp only [List.nodup_cons, List.mem_cons, not_or] at hnd ⊢
        exact ⟨hnd.1.2, hnd.2.2⟩
      linked := by
        simp only [hchains]
        exact ⟨by rw [hfc']; exact hlink.2.1, hlink.2.2⟩
      good := by
        intro p hp
        simp only [hchains, List.mem_cons] at hp
        rcases hp with rfl | hp
        · have hlt : fc.misalign < fc.off := hfirst.misalign_lt
          have hok := hgrown.ok
          rw [hfc']
          exact ⟨⟨hok.misalign_le, hok.off_le, hok.length_buffer, hok.capacity_lt⟩,
            Nat.lt_of_lt_of_le hlt (Nat.le_add_right _ _), hfirst.parent_isSome⟩
        · exact h.good p (by rw [h.chains_eq]; simp [hp])
      last_eq := by
        intro hne
        have := h.last_eq (by simp)
        rw [lastAddr_cons_of_ne_nil hne] at this
        exact this
      total_eq := by
        change b.totalLen = (bytes ((b.setChain first fc').chains.eraseIdx 1)).length
        rw [hcontent, h.total_eq]
      total_lt := h.total_lt
      room := by
        rw [hfc']
        change fc.off + c.data.length + _ ≤ fc.capacity
        omega
      remain_le := by
        have := h.remain_le
        rw [bytes_cons, List.length_append] at this
        omega }

/-- The loop absorbs whole chains. It stops at the end of the list with nothing left, or at a chain
that holds more than what is left. -/
theorem pullupLoop_spec (fuel : Nat) {b : Buffer} {first : Addr} {fc : BufferChain}
    {rest : List (Addr × BufferChain)} {remain : Nat} (h : Pulling b first fc rest remain)
    (hfuel : rest.length + 1 ≤ fuel) :
    ∃ b' fc' rest' remain',
      pullupLoop fuel b first remain fc.next = .ok (remain', headAddr rest' none, b') ∧
      Pulling b' first fc' rest' remain' ∧ b'.self = b.self ∧ b'.content = b.content ∧
      fc'.data.length + remain' = fc.data.length + remain ∧
      (∀ p ∈ rest'.head?, remain' < p.2.data.length) := by
  induction fuel generalizing b fc rest remain with
  | zero => omega
  | succ fuel ih =>
      rw [h.first_next]
      cases rest with
      | nil =>
          -- `next_` of the first chain is null
          refine ⟨b, fc, [], remain, ?_, h, rfl, rfl, rfl, by simp⟩
          simp only [headAddr_nil, pullupLoop, pure_eq_ok]
      | cons p rest =>
          obtain ⟨a, c⟩ := p
          have hgood := h.good (a, c) (by rw [h.chains_eq]; simp)
          have hok : c.Ok := hgood.ok
          have hget := getChain_second h.chains_eq h.first_ne
          simp only [headAddr_cons, pullupLoop, hget, ok_bind, hok.size_eq_length]
          by_cases hle : c.data.length ≤ remain
          · -- the second chain is absorbed, and the loop goes on with a shorter list
            have hpos : ¬ c.data.length = 0 := Nat.ne_of_gt hgood.length_data_pos
            have hroom := h.room
            have hgrown := written_grown c.data h.first_ok (by omega)
            have hstep := h.absorb hle
            obtain ⟨b', fc', rest', remain', hrun, hpull, hself, hcontent, hlen, hstop⟩ :=
              ih hstep (by simp only [List.length_cons] at hfuel; omega)
            refine ⟨b', fc', rest', remain', ?_, hpull, hself, ?_, ?_, hstop⟩
            · rw [if_pos hle, if_neg hpos, getChain_cons h.chains_eq, ok_bind,
                appendChain_eq h.first_ok hok (by omega), ok_bind]
              exact hrun
            · rw [hcontent, hstep.content_eq, h.content_eq, bytes_cons]
              change (fc.written c.data).data ++ _ = _
              rw [hgrown.data_eq, List.append_assoc]
            · rw [hlen]
              change (fc.written c.data).data.length + _ = _
              rw [hgrown.data_eq, List.length_append]
              omega
          · -- the second chain has more than what is left
            rw [if_neg hle]
            refine ⟨b, fc, (a, c) :: rest, remain, rfl, h, rfl, rfl, rfl, ?_⟩
            intro p hp
            simp only [List.head?_cons, Option.mem_def, Option.some.injEq] at hp
            rw [← hp]
            exact Nat.lt_of_not_le hle

/-! ## The partial chain -/

/-- `begin()` of the second chain finds it behind the first one. -/
theorem chainBegin_second {b : Buffer} {first a : Addr} {fc c : BufferChain}
    {rest : List (Addr × BufferChain)} {remain : Nat}
    (h : Pulling b first fc ((a, c) :: rest) remain) :
    ∃ start, b.chainBegin a c = .ok start ∧ start.chain = some a ∧
      start.offsetOfChain = c.misalign := by
  have hgood := h.good (a, c) (by rw [h.chains_eq]; simp)
  have h0 : b.totalLen ≠ 0 := by
    have hpos : 0 < c.data.length := hgood.length_data_pos
    rw [h.total_eq, h.content_eq, bytes_cons, List.length_append, List.length_append]
    omega
  have hsplit : b.chains = [(first, fc)] ++ (a, c) :: rest := h.chains_eq
  exact chainBegin_eq h0 hsplit h.nodup h.linked hgood.parent_isSome

/-- The first `remain` bytes of the second chain move into the first one. -/
theorem Pulling.absorbPart {b : Buffer} {first a : Addr} {fc c : BufferChain}
    {rest : List (Addr × BufferChain)} {remain : Nat}
    (h : Pulling b first fc ((a, c) :: rest) remain) (hlt : remain < c.data.length) :
    Pulling ((b.setChain first (fc.written (c.data.take remain))).setChain a
        { c with misalign := u32 (c.misalign + remain) })
      first (fc.written (c.data.take remain))
      ((a, { c with misalign := u32 (c.misalign + remain) }) :: rest) 0 := by
  have hgood := h.good (a, c) (by rw [h.chains_eq]; simp)
  have hfirst := h.good (first, fc) (by rw [h.chains_eq]; simp)
  have hadvanced := hgood.advance hlt
  have hdata : BufferChain.data { c with misalign := u32 (c.misalign + remain) } =
      c.data.drop remain := hgood.ok.data_advance hlt
  have hroom := h.room
  have htake : (c.data.take remain).length = remain := by rw [List.length_take]; omega
  have hgrown := written_grown (c.data.take remain) h.first_ok (by omega)
  have hmisalign : fc.misalign < fc.off + remain := Nat.lt_add_right _ hfirst.misalign_lt
  have hoff : (fc.written (c.data.take remain)).off = fc.off + remain := by
    rw [BufferChain.written, htake]
  have hnd := h.nodup
  have hlink := h.linked
  rw [h.chains_eq] at hnd hlink
  have hnotin₂ : a ∉ addrs rest := (List.nodup_cons.mp (List.nodup_cons.mp hnd).2).1
  have hnext : BufferChain.next { c with misalign := u32 (c.misalign + remain) } = c.next := rfl
  -- both chains are known by what has been said of them
  generalize ({ c with misalign := u32 (c.misalign + remain) } : BufferChain) = c' at *
  have hmis : (fc.written (c.data.take remain)).misalign = fc.misalign := rfl
  generalize fc.written (c.data.take remain) = fc' at *
  have hchains : ((b.setChain first fc').setChain a c').chains =
      (first, fc') :: (a, c') :: rest := by
    simp only [setChain, h.chains_eq]
    rw [modifyAt_cons h.first_notin]
    have := modifyAt_cons (f := fun _ => c') (c := c) hnotin₂
    simp only [modifyAt] at this ⊢
    rw [List.map_cons, if_neg h.first_ne, this]
  have hcontent : bytes ((b.setChain first fc').setChain a c').chains = b.content := by
    rw [hchains, h.content_eq, bytes_cons, bytes_cons, bytes_cons, hdata, hgrown.data_eq,
      List.append_assoc, ← List.append_assoc (c.data.take remain), List.take_append_drop]
  exact
    { chains_eq := hchains
      nodup := by simpa [setChain] using h.nodup
      linked := by
        rw [hchains]
        exact ⟨hgrown.next_eq.trans hlink.1, hnext.trans hlink.2.1, hlink.2.2⟩
      good := by
        intro p hp
        rw [hchains, List.mem_cons, List.mem_cons] at hp
        rcases hp with rfl | rfl | hp
        · exact ⟨hgrown.ok, by rw [hmis, hoff]; exact hmisalign,
            by rw [hgrown.parent_eq]; exact hfirst.parent_isSome⟩
        · exact hadvanced
        · exact h.good p (by rw [h.chains_eq]; simp [hp])
      last_eq := by
        intro _
        exact h.last_eq (by simp)
      total_eq := by
        change b.totalLen = (bytes ((b.setChain first fc').setChain a c').chains).length
        rw [hcontent, h.total_eq]
      total_lt := h.total_lt
      room := hgrown.ok.off_le
      remain_le := Nat.zero_le _ }

/-- The part behind the loop leaves nothing to move. -/
theorem pullupPart_spec {b : Buffer} {first : Addr} {fc : BufferChain}
    {rest : List (Addr × BufferChain)} {remain : Nat} (h : Pulling b first fc rest remain)
    (hstop : ∀ p ∈ rest.head?, remain < p.2.data.length) (hlt : remain < 2 ^ 32) :
    ∃ b' fc' rest', b.pullupPart first remain (headAddr rest none) = .ok b' ∧
      Pulling b' first fc' rest' 0 ∧ headAddr rest' none = headAddr rest none ∧
      b'.self = b.self ∧ b'.content = b.content ∧
      fc'.data.length = fc.data.length + remain := by
  by_cases h0 : remain = 0
  · subst h0
    exact ⟨b, fc, rest, by simp [pullupPart], h, rfl, rfl, rfl, rfl⟩
  · cases rest with
    | nil =>
        -- then there would be nothing left to move
        have := h.remain_le
        simp only [bytes_nil, List.length_nil] at this
        omega
    | cons p rest =>
        obtain ⟨a, c⟩ := p
        have hltc : remain < c.data.length := hstop (a, c) (by simp)
        have hok : c.Ok := (h.good (a, c) (by rw [h.chains_eq]; simp)).ok
        have hne := h.first_ne
        have hroom := h.room
        have htake : (c.data.take remain).length = remain := by rw [List.length_take]; omega
        have hgrown := written_grown (c.data.take remain) h.first_ok (by omega)
        obtain ⟨start, hbegin, hchain, hoff⟩ := chainBegin_second h
        have happ := appendSlice_eq h.first_ok hok hchain hoff (Nat.pos_of_ne_zero h0)
          (Nat.le_of_lt hltc) hroom
        have hpart := h.absorbPart hltc
        refine ⟨_, _, _, ?_, hpart, rfl, rfl, ?_, ?_⟩
        · simp only [pullupPart, if_neg h0, headAddr_cons, nonNull, ok_bind,
            getChain_second h.chains_eq hne, hbegin, getChain_cons h.chains_eq, u32_of_lt hlt,
            happ, pure_eq_ok]
        · have hdata : BufferChain.data { c with misalign := u32 (c.misalign + remain) } =
              c.data.drop remain := hok.data_advance hltc
          rw [hpart.content_eq, h.content_eq, bytes_cons, bytes_cons, hgrown.data_eq, hdata,
            List.append_assoc, ← List.append_assoc (c.data.take remain), List.take_append_drop]
        · rw [hgrown.data_eq, List.length_append, htake]

/-- Before the loop the first chain has room for everything that is to be moved. -/
theorem pullupRoom_spec (al : Allocator Addr) {b : Buffer} {first : Addr} {fc : BufferChain}
    {rest : List (Addr × BufferChain)} {n : Nat} (h : b.WellFormed)
    (hc : b.chains = (first, fc) :: rest) (hlt : fc.data.length < n) (hle : n ≤ b.totalLen)
    (hn : n < 2 ^ 32) :
    ∃ b' first' fc', b.pullupRoom al fc n (n - fc.data.length) = .ok b' ∧
      Pulling b' first' fc' rest (n - fc.data.length) ∧ b'.self = b.self ∧
      b'.content = b.content ∧ fc'.data = fc.data := by
  have hgood := h.first_good hc
  have hok : fc.Ok := hgood.ok
  have hcontent : b.content = fc.data ++ bytes rest := by rw [content, hc, bytes_cons]
  have hremain : n - fc.data.length ≤ (bytes rest).length := by
    rw [h.total_eq, hcontent, List.length_append] at hle
    omega
  have hlast : rest ≠ [] → b.lastChainWithData = lastAddr rest := by
    intro hne
    rw [h.last_eq, hc, lastAddr_cons_of_ne_nil hne]
  have hoff := hok.off_le
  by_cases hroom : n - fc.data.length ≤ fc.chainFreeSpace
  · -- there is room already
    refine ⟨b, first, fc, by simp only [pullupRoom, if_pos hroom, pure_eq_ok], ?_, rfl, rfl, rfl⟩
    rw [hok.chainFreeSpace_eq] at hroom
    exact
      { chains_eq := hc, nodup := h.nodup, linked := h.linked, good := h.good
        last_eq := hlast, total_eq := h.total_eq, total_lt := h.total_lt
        room := by omega
        remain_le := hremain }
  · -- a larger copy takes the place of the first chain, under a new address
    have hpos : 1 ≤ n := by omega
    have hge := le_calculateActualCapacity n
    have hcalc := calculateActualCapacity_lt hn
    have hcap := new_capacity (some b.self) hpos
    have hfcap := hok.capacity_lt
    have hlen := hok.length_data
    obtain ⟨m, hm⟩ : ∃ m, m = max (new (some b.self) n).capacity fc.capacity := ⟨_, rfl⟩
    have hm_ge : n ≤ m := by rw [hm, hcap]; omega
    have hm_lt : m < 2 ^ 32 := by rw [hm, hcap]; omega
    have hgrown := compact_grown (c := fc) (by omega) hm_lt
    obtain ⟨fc', hfc'⟩ : ∃ fc', fc' = fc.compact m := ⟨_, rfl⟩
    rw [← hfc'] at hgrown
    have hdata : fc'.data = fc.data := by rw [hgrown.data_eq, List.append_nil]
    have hnd := h.nodup
    have hlink := h.linked
    rw [hc] at hnd hlink
    have hbytes : bytes ((al.alloc (addrs rest), fc') :: rest) = b.content := by
      rw [hcontent, bytes_cons, hdata]
    refine ⟨{ b with chains := (al.alloc (addrs rest), fc') :: rest }, al.alloc (addrs rest), fc',
      ?_, ?_, rfl, hbytes, hdata⟩
    · simp only [pullupRoom, if_neg hroom, u32_of_lt hn, copyAssign_new _ hok, ← hm, ok_bind, hc,
        List.tail_cons, pure_eq_ok, hfc']
    · exact
        { chains_eq := rfl
          nodup := List.nodup_cons.mpr ⟨al.alloc_fresh _, (List.nodup_cons.mp hnd).2⟩
          linked := ⟨hgrown.next_eq.trans hlink.1, hlink.2⟩
          good := by
            intro p hp
            rcases List.mem_cons.mp hp with rfl | hp
            · have hpos := hgrown.ok.length_data
              have hfpos : 0 < fc.data.length := hgood.length_data_pos
              rw [hdata] at hpos
              exact ⟨hgrown.ok, by simp only []; omega,
                by rw [hgrown.parent_eq]; exact hgood.parent_isSome⟩
            · exact h.good p (by rw [hc]; exact List.mem_cons_of_mem _ hp)
          last_eq := hlast
          total_eq := by
            change b.totalLen = (bytes ((al.alloc (addrs rest), fc') :: rest)).length
            rw [hbytes, h.total_eq]
          total_lt := h.total_lt
          room := by
            rw [hfc']
            change fc.data.length + _ ≤ m
            omega
          remain_le := hremain }

/-! ## `pullup` and `read_T` -/

/-- `b'` holds the bytes of `b`, and `p` points to the first `n` of them in one block. -/
structure Linear (b b' : Buffer) (p : DataPtr) (n : Nat) : Prop where
  self_eq : b'.self = b.self
  wellFormed : b'.WellFormed
  content_eq : b'.content = b.content
  read_eq : b'.readAt p n = .ok (b.content.take n)

theorem readAt_first {b : Buffer} {a : Addr} {c : BufferChain}
    {rest : List (Addr × BufferChain)} {n : Nat} (hc : b.chains = (a, c) :: rest) (hok : c.Ok)
    (hn : n ≤ c.data.length) : b.readAt ⟨a, c.misalign⟩ n = .ok (b.content.take n) := by
  have h₁ := hok.length_data
  have h₂ := hok.off_le
  have h₃ := hok.length_buffer
  have h₄ := hok.misalign_le
  have hread : readMem c.buffer c.misalign n = .ok (c.data.take n) := by
    rw [readMem_ok (by omega), BufferChain.data, take_slice _ _ (by omega)]
  simp only [readAt, getChain_cons hc, ok_bind, hread]
  rw [content, hc, bytes_cons, List.take_append_of_le_length hn]

/-- **`pullup`** keeps the content and makes its first `n` bytes contiguous. -/
theorem pullup_spec (al : Allocator Addr) {b : Buffer} {n : Nat} (h : b.WellFormed)
    (hn : 0 < n) (hle : n ≤ b.totalLen) (hlt : n < 2 ^ 32) :
    ∃ p b', b.pullup al n = .ok (some p, b') ∧ Linear b b' p n := by
  have htotal := h.total_lt
  obtain ⟨first, fc, rest, hc⟩ := h.exists_cons (by omega : b.totalLen ≠ 0)
  have hok : fc.Ok := (h.first_good hc).ok
  have hguard : ¬ ((n : Int) = 0 ∨ b.totalLen < u64OfInt n) := by
    rw [u64OfInt_natCast (by omega)]
    omega
  have hsize : (if (n : Int) < 0 then b.totalLen else (n : Int).toNat) = n := by
    rw [if_neg (by omega), Int.toNat_natCast]
  have hfront : b.front = .ok first := by simp [front, hc]
  simp only [pullup, if_neg hguard, hsize, hfront, ok_bind, getChain_cons hc, hok.size_eq_length]
  by_cases henough : n ≤ fc.data.length
  · exact ⟨_, b, by rw [if_pos henough, pure_eq_ok], rfl, h, rfl, readAt_first hc hok henough⟩
  · obtain ⟨b₁, first₁, fc₁, hroom, hpull₁, hself₁, hcontent₁, hdata₁⟩ :=
      pullupRoom_spec al h hc (Nat.lt_of_not_le henough) hle hlt
    obtain ⟨b₂, fc₂, rest₂, remain₂, hloop, hpull₂, hself₂, hcontent₂, hlen₂, hstop⟩ :=
      pullupLoop_spec (b₁.chains.length + 1) hpull₁ (by rw [hpull₁.chains_eq]; simp)
    rw [hdata₁] at hlen₂
    obtain ⟨b₃, fc₃, rest₃, hpart, hpull₃, hhead, hself₃, hcontent₃, hlen₃⟩ :=
      pullupPart_spec hpull₂ hstop (by omega)
    have hfront₁ : b₁.front = .ok first₁ := by simp [front, hpull₁.chains_eq]
    obtain ⟨b₄, hb₄⟩ : ∃ b₄ : Buffer, b₄ = { b₃ with lastChainWithData :=
      if (headAddr rest₂ none).isSome then b₃.lastChainWithData else some first₁ } := ⟨_, rfl⟩
    have hwf : b₄.WellFormed := by
      rw [hb₄]
      exact hpull₃.finish (by rw [hhead])
    have hchains : b₄.chains = (first₁, fc₃) :: rest₃ := by rw [hb₄]; exact hpull₃.chains_eq
    have hcontent : b₄.content = b.content := by
      rw [hb₄, ← hcontent₁, ← hcontent₂, ← hcontent₃]
      rfl
    refine ⟨⟨first₁, fc₃.misalign⟩, b₄, ?_, ⟨?_, hwf, hcontent, ?_⟩⟩
    · simp only [if_neg henough, hroom, ok_bind, hfront₁, getChain_cons hpull₁.chains_eq, hloop,
        hpart]
      rw [← hb₄, getChain_cons hchains, ok_bind, pure_eq_ok]
    · rw [hb₄, ← hself₁, ← hself₂, ← hself₃]
    · rw [readAt_first hchains hpull₃.first_ok (by omega), hcontent]

theorem pullup_refused (al : Allocator Addr) {b : Buffer} {n : Nat} (hlt : n < 2 ^ 64)
    (hn : n = 0 ∨ b.totalLen < n) : b.pullup al n = .ok (none, b) := by
  have hguard : (n : Int) = 0 ∨ b.totalLen < u64OfInt n := by
    rw [u64OfInt_natCast hlt]
    omega
  simp only [pullup, if_pos hguard, pure_eq_ok]

/-- `read_T` is a `pullup` and a copy of the first bytes. -/
theorem readT_spec (al : Allocator Addr) {b : Buffer} {n : Nat} (h : b.WellFormed)
    (hn : 0 < n) (hle : n ≤ b.totalLen) (hlt : n < 2 ^ 32) :
    ∃ p b', b.readT al n = .ok ((n : Int), b.content.take n, b') ∧ Linear b b' p n := by
  obtain ⟨p, b', hpull, hlin⟩ := pullup_spec al h hn hle hlt
  exact ⟨p, b', by simp only [readT, hpull, ok_bind, hlin.read_eq, pure_eq_ok], hlin⟩

theorem readT_refused (al : Allocator Addr) {b : Buffer} {n : Nat} (hlt : n < 2 ^ 64)
    (hn : n = 0 ∨ b.totalLen < n) : b.readT al n = .ok (-1, [], b) := by
  simp only [readT, pullup_refused al hlt hn, ok_bind, pure_eq_ok]

end Buffer
end Unp.Reactor
