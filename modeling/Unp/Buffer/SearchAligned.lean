import Unp.Buffer.Search

/-!
# The buffers that search well

Which buffers are free of all the slips of `search_range`: single chains that begin at offset 0 of their
block. On any other buffer some search is answered wrongly.
-/

namespace Unp.Reactor
namespace Buffer

open Unp.Machine Unp.LinkedChain BufferChain

/-- One chain, which begins at offset 0 of its block. -/
def OneAligned (b : Buffer) : Prop := ∃ a c, b.chains = [(a, c)] ∧ c.misalign = 0

/-! ## A single chain -/

section One
variable {b : Buffer} {a : Addr} {c : BufferChain} {what : List Byte} {s : Nat}

theorem total_one (h : b.WellFormed) (hc : b.chains = [(a, c)]) (hmis : c.misalign = 0) :
    b.totalLen = c.off := by
  have hsplit : b.chains = [] ++ (a, c) :: [] := hc
  have hlen := (h.ok_split hsplit).length_data
  rw [h.total_split hsplit, bytes_nil, List.length_nil, hlen, hmis]
  omega

/-- An iterator names the chain, at its distance from the front. -/
theorem Denotes.one (h : b.WellFormed) (hc : b.chains = [(a, c)]) (hmis : c.misalign = 0)
    {it : BufferIter} (hit : b.Denotes it s) :
    it.chain = some a ∧ it.offsetOfChain = s ∧ s ≤ c.off ∧ b.validateIter it = .ok true := by
  obtain ⟨hbuf, -, pre, a', c', post, hc', hchain, -, hhi, hp⟩ := hit
  have hsplit : b.chains = [] ++ (a, c) :: [] := hc
  rw [hc, eq_comm, List.append_eq_singleton_iff] at hc'
  obtain ⟨rfl, hc'⟩ | ⟨-, hc'⟩ := hc'
  · rw [List.cons.injEq, Prod.mk.injEq] at hc'
    obtain ⟨⟨rfl, rfl⟩, rfl⟩ := hc'
    rw [hmis, bytes_nil, List.length_nil] at hp
    exact ⟨hchain, by omega, by omega, validateIter_eq hsplit h.nodup h.linked hbuf hchain⟩
  · cases hc'

/-- The comparisons are made at the right places. -/
theorem compareAt_one (h : b.WellFormed) (hc : b.chains = [(a, c)]) (hmis : c.misalign = 0)
    (hne : what ≠ []) {t : Nat} (ht : t < c.off) :
    b.compareAt what a c t = .ok (decide (what <+: b.content.drop t)) := by
  have hsplit : b.chains = [] ++ (a, c) :: [] := hc
  have hok : c.Ok := h.ok_split hsplit
  have hoff := hok.off_le
  have hcap := hok.capacity_lt
  have htotal := total_one h hc hmis
  obtain ⟨same, hsame, hsound, hcomplete⟩ := compareAt_aligned h hsplit hmis ht hne
  have hfits : t ≤ u32 (b.totalLen - (bytes []).length) := by
    rw [bytes_nil, List.length_nil, Nat.sub_zero, u32_of_lt (by omega)]
    omega
  rw [bytes_nil, List.length_nil, Nat.zero_add] at hsound hcomplete
  rw [hsame]
  congr 1
  by_cases hpre : what <+: b.content.drop t
  · rw [hcomplete rfl hfits hpre, decide_eq_true hpre]
  · rw [decide_eq_false hpre, ← Bool.not_eq_true]
    exact fun htrue => hpre (hsound htrue)

/-- Every occurrence begins with a hit. -/
theorem Occurs.isHit (h : b.WellFormed) (hc : b.chains = [(a, c)]) (hmis : c.misalign = 0)
    {first : Byte} {word : List Byte} {p : Nat}
    (hoccurs : b.Occurs (first :: word) s b.totalLen p) : IsHit c first p := by
  have hsplit : b.chains = [] ++ (a, c) :: [] := hc
  obtain ⟨-, hle, hpre⟩ := hoccurs
  rw [List.length_cons, total_one h hc hmis] at hle
  have hpre' : first :: word <+: b.content.drop ((bytes []).length + (p - c.misalign)) := by
    rwa [hmis, Nat.sub_zero, bytes_nil, List.length_nil, Nat.zero_add]
  exact isHit_of_prefix h hsplit (by omega) (by omega) hpre'

/-- In one chain that begins at offset 0 of its block the first occurrence is found, wherever the range
ends. -/
theorem searchRange_one (h : b.WellFormed) (hc : b.chains = [(a, c)]) (hmis : c.misalign = 0)
    (hne : what ≠ []) {start stop : BufferIter} {e : Nat} (hs : b.Denotes start s)
    (he : b.Denotes stop e) : b.Finds what s b.totalLen (b.searchRange what start stop) := by
  have hsplit : b.chains = [] ++ (a, c) :: [] := hc
  have hgood : GoodNode (a, c) := h.good_split hsplit
  have hok : c.Ok := hgood.ok
  have hoff := hok.off_le
  have hcap := hok.capacity_lt
  have hdata : 0 < c.data.length := hgood.length_data_pos
  have hsize : ¬ c.size = 0 := by
    rw [hok.size_eq_length]
    omega
  have htotal := total_one h hc hmis
  have hnext : c.next = none := next_split hsplit h.linked
  obtain ⟨hstart, hsoff, hsle, hvalidStart⟩ := hs.one h hc hmis
  obtain ⟨hstop, -, -, hvalidStop⟩ := he.one h hc hmis
  obtain ⟨first, word, rfl⟩ := List.exists_cons_of_ne_nil hne
  have hhead : Unp.Machine.readAt (first :: word) 0 = .ok first := rfl
  have hguard : ¬ (true = false ∨ (first :: word) = []) := by simp
  simp only [searchRange, hvalidStart, ok_bind, if_true, hvalidStop, if_neg hguard, hstart, hstop,
    nonNull, hhead, hsoff, searchLoop, getChain_split hsplit h.nodup, if_neg hsize]
  rcases searchChain_spec (first :: word) first hok (c.buffer.length + 1) hsle
      (by rw [hok.length_buffer]; omega)
      (fun t _ hit => ⟨_, compareAt_one h hc hmis hne hit.1⟩) with
    ⟨t, hlo, hit, htrue, hbefore, hrun⟩ | ⟨hnever, hrun⟩
  · -- the hit that compares equal is an occurrence, and those in front of it are none
    have hlt : t < c.off := hit.1
    have hpre : first :: word <+: b.content.drop t := by
      rw [compareAt_one h hc hmis hne hlt, Except.ok.injEq] at htrue
      exact of_decide_eq_true htrue
    have hself : subU32 t c.misalign = t := by
      rw [hmis, subU32_of_le (Nat.zero_le _) (by omega), Nat.sub_zero]
    have hmax : t ≤ u32 (subU64 b.totalLen 0) := by
      rw [subU64_of_le (Nat.zero_le _) h.total_lt, u32_of_lt (by omega)]
      omega
    have hforward := @forward_within b [] [] a c h hsplit ⟨some b.self, some a, 0, 0, 0⟩ rfl rfl
      (Nat.zero_le _) t hlt.le hmax (by simp only []; omega)
    simp only [Nat.zero_add] at hforward
    have hstart0 : capacities [] 0 = 0 := rfl
    refine ⟨⟨some b.self, some a, t, 0, t⟩, ?_, Or.inl ⟨t, ⟨hlo, ?_, hpre⟩, ?_, rfl, rfl⟩⟩
    · have hiter := iterOfChain_eq (h.total_ne_zero hsplit) hsplit h.nodup h.linked
      rw [hstart0, hmis] at hiter
      rw [hself] at hrun
      rw [hrun]
      simp only [ok_bind, pure_eq_ok, hiter, hforward]
    · have hle := hpre.length_le
      rw [List.length_drop, ← h.total_eq] at hle
      omega
    · intro p' hp' hoccurs
      have hhit := hoccurs.isHit h hc hmis
      have hfalse := hbefore p' hoccurs.1 hp' hhit
      rw [compareAt_one h hc hmis hne hhit.1, Except.ok.injEq] at hfalse
      exact of_decide_eq_false hfalse hoccurs.2.2
  · refine ⟨BufferIter.nullIter, ?_, Or.inr ⟨?_, rfl⟩⟩
    · simp only [hrun, ok_bind, hnext, pure_eq_ok]
    · intro p hoccurs
      have hhit := hoccurs.isHit h hc hmis
      have hfalse := hnever p hoccurs.1 hhit
      rw [compareAt_one h hc hmis hne hhit.1, Except.ok.injEq] at hfalse
      exact of_decide_eq_false hfalse hoccurs.2.2

end One

/-! ## The last chain

Three searches for what there is at the end of the buffer: its last byte, from there; the bytes of the
last chain, from the start of the chain; the same, from the end of the chain in front of it. Where all
of them are answered correctly, there is one chain and it is aligned. -/

section LastChain
variable {b : Buffer} {init : List (Addr × BufferChain)} {z : Addr} {c : BufferChain}
  {what : List Byte} {first : Byte} {it start : BufferIter}

/-- What a search in the last chain can answer. It begins at `last_off`. -/
theorem searchLoop_last (h : b.WellFormed) (hc : b.chains = init ++ [(z, c)]) (fuel : Nat)
    {lastOff off : Nat} {found : Option (Addr × Nat)}
    (hrun : b.searchLoop what first z lastOff (fuel + 1) (some z) off = .ok found) :
    found = none ∨ ∃ t, found = some (z, subU32 t c.misalign) ∧ lastOff ≤ t ∧
      t < c.buffer.length ∧ (lastOff ≤ c.off → t < c.off) ∧ b.compareAt what z c t = .ok true := by
  have hsplit : b.chains = init ++ (z, c) :: [] := hc
  have hgood : GoodNode (z, c) := h.good_split hc
  have hok : c.Ok := hgood.ok
  have hnext : c.next = none := next_split hsplit h.linked
  have hsize : ¬ c.size = 0 := by
    have hdata : 0 < c.data.length := hgood.length_data_pos
    rw [hok.size_eq_length]
    omega
  rw [searchLoop, getChain_split hsplit h.nodup, ok_bind, if_neg hsize] at hrun
  simp only [if_true] at hrun
  obtain ⟨hit, hchain, hrun⟩ := bind_eq_ok hrun
  cases hit with
  | none =>
      simp only [hnext, pure_eq_ok, Except.ok.injEq] at hrun
      exact Or.inl hrun.symm
  | some target =>
      obtain ⟨t, hle, hlt, hinside, rfl, htrue⟩ := searchChain_some _ hchain hok
      cases hrun
      exact Or.inr ⟨t, rfl, hle, hlt, hinside, htrue⟩

/-- At the end of the chain in front of the last one nothing is left to look at. -/
theorem searchLoop_behind (h : b.WellFormed) {init : List (Addr × BufferChain)} {y : Addr}
    {d : BufferChain} (hc : b.chains = init ++ (y, d) :: [(z, c)]) {fuel : Nat} (lastOff : Nat) :
    b.searchLoop what first z lastOff (fuel + 1) (some y) d.off =
      b.searchLoop what first z lastOff fuel (some z) c.misalign := by
  have hc' : b.chains = (init ++ [(y, d)]) ++ (z, c) :: [] := by
    rw [hc]
    simp
  have hgood : GoodNode (y, d) := h.good_split hc
  have hok : d.Ok := hgood.ok
  have hcap := hok.capacity_lt
  have hle := hok.off_le
  have hsize : ¬ d.size = 0 := by
    have hdata : 0 < d.data.length := hgood.length_data_pos
    rw [hok.size_eq_length]
    omega
  have hne : ¬ y = z := by
    have hnd := h.nodup
    rw [hc, addrs_append, List.nodup_append'] at hnd
    simp only [addrs_cons, addrs_nil, List.nodup_cons, List.mem_singleton] at hnd
    exact hnd.2.1.1
  have hnext : d.next = some z := next_split hc h.linked
  have hzero : subU32 d.off d.off = 0 := by
    rw [subU32_of_le (Nat.le_refl _) (by omega), Nat.sub_self]
  have hmemchr : memchr first (d.buffer.drop d.off) 0 d.off = .ok none := by
    cases d.buffer.drop d.off <;> rfl
  rw [searchLoop, getChain_split hc h.nodup, ok_bind, if_neg hsize]
  simp only [if_neg hne, searchChain, hzero, hmemchr, ok_bind, pure_eq_ok, hnext,
    getChain_split hc' h.nodup]

/-- The same for `search`, from the last chain or from the end of the chain in front of it. The answer
is a distance from what `iter_of_chain` takes for the bytes in front of the chain. -/
theorem search_last (h : b.WellFormed) (hc : b.chains = init ++ [(z, c)])
    (hbuf : start.buffer = some b.self)
    (hstart : start.chain = some z ∨
      ∃ init' y d, init = init' ++ [(y, d)] ∧ start.chain = some y ∧ start.offsetOfChain = d.off)
    (hrun : b.search what start = .ok it) (hvalid : valid it = true) :
    ∃ t, start.offsetOfChain ≤ t ∧ t < c.buffer.length ∧
      (start.offsetOfChain ≤ c.off → t < c.off) ∧ b.compareAt what z c t = .ok true ∧
      b.forward ⟨some b.self, some z, capacities init 0, 0, c.misalign⟩ (subU32 t c.misalign) =
        .ok it := by
  have hsplit : b.chains = init ++ (z, c) :: [] := hc
  have hlast : b.lastChainWithData = some z := by rw [h.last_eq, hc, lastAddr_snoc]
  have hnull : valid BufferIter.nullIter = false := rfl
  have hvalidStop : b.validateIter ⟨some b.self, some z, b.totalLen, 0, c.off⟩ = .ok true :=
    validateIter_eq hsplit h.nodup h.linked rfl rfl
  have hvalidStart : b.validateIter start = .ok true := by
    rcases hstart with hstart | ⟨init', y, d, rfl, hstart, -⟩
    · exact validateIter_eq hsplit h.nodup h.linked hbuf hstart
    · have hsplit' : b.chains = init' ++ (y, d) :: [(z, c)] := by
        rw [hc]
        simp
      exact validateIter_eq hsplit' h.nodup h.linked hbuf hstart
  have hz : nonNull (some z) = .ok z := rfl
  simp only [search, endIter, hlast, hz, getChain_split hsplit h.nodup, ok_bind, pure_eq_ok,
    searchRange, hvalidStart, hvalidStop, if_true] at hrun
  split at hrun
  · cases hrun
    rw [hnull] at hvalid
    cases hvalid
  · obtain ⟨firstChain, hfirst, hrun⟩ := bind_eq_ok hrun
    obtain ⟨byte, -, hrun⟩ := bind_eq_ok hrun
    obtain ⟨found, hloop, hrun⟩ := bind_eq_ok hrun
    have hfound : found = none ∨ ∃ t, found = some (z, subU32 t c.misalign) ∧
        start.offsetOfChain ≤ t ∧ t < c.buffer.length ∧
        (start.offsetOfChain ≤ c.off → t < c.off) ∧ b.compareAt what z c t = .ok true := by
      rcases hstart with hstart | ⟨init', y, d, rfl, hstart, hoff⟩
      · rw [hstart] at hfirst
        cases hfirst
        exact searchLoop_last h hc _ hloop
      · rw [hstart] at hfirst
        have hsame : y = firstChain := Except.ok.inj hfirst
        subst hsame
        have hsplit' : b.chains = init' ++ (y, d) :: [(z, c)] := by
          rw [hc]
          simp
        have hlen : b.chains.length = init'.length + 1 + 1 := by
          rw [hsplit', List.length_append, List.length_cons, List.length_singleton]
        rw [hoff] at hloop ⊢
        rw [searchLoop_behind h hsplit', hlen] at hloop
        exact searchLoop_last h hc _ hloop
    rcases hfound with rfl | ⟨t, rfl, hle, hlt, hinside, htrue⟩
    · cases hrun
      rw [hnull] at hvalid
      cases hvalid
    · simp only [iterOfChain_eq (h.total_ne_zero hsplit) hsplit h.nodup h.linked, ok_bind] at hrun
      exact ⟨t, hle, hlt, hinside, htrue, hrun⟩

/-- A correct answer, when the word is there at `s`. -/
theorem Finds.at_start {s : Nat} {r : Res BufferIter} (hfinds : b.Finds what s b.totalLen r)
    (hoccurs : b.Occurs what s b.totalLen s) :
    ∃ it, r = .ok it ∧ valid it = true ∧ it.offsetOfBuffer = s := by
  obtain ⟨it, hr, ⟨p, hp, hfirst, hvalid, hoffset⟩ | ⟨hnone, -⟩⟩ := hfinds
  · refine ⟨it, hr, hvalid, ?_⟩
    have hle := hp.1
    by_contra hne
    exact hfirst s (by omega) hoccurs
  · exact absurd hoccurs (hnone s)

/-- What is said about a hit in the last chain: its distance from where `iter_of_chain` sees the
chain. -/
theorem offset_last {k : Nat}
    (hforward : b.forward ⟨some b.self, some z, capacities init 0, 0, c.misalign⟩ k = .ok it) :
    it.offsetOfBuffer = b.totalLen ∨ it.offsetOfBuffer = capacities init 0 + k ∨
      2 ^ 64 ≤ capacities init 0 + k := by
  have hresult := forward_offset hforward
  dsimp only at hresult
  by_cases hlt : capacities init 0 + k < 2 ^ 64
  · rw [u64_of_lt hlt] at hresult
    split at hresult
    · next hk => exact Or.inr (Or.inl (by rw [hresult, hk, Nat.add_zero]))
    · split at hresult
      · exact Or.inl hresult
      · exact Or.inr (Or.inl hresult)
  · exact Or.inr (Or.inr (Nat.le_of_not_lt hlt))

/-- The last byte is found at its place only if the capacities in front of the last chain are the
lengths. -/
theorem capacities_of_finds (h : b.WellFormed) (hc : b.chains = init ++ [(z, c)])
    (hfinds : b.Finds (b.content.drop (b.totalLen - 1)) (b.totalLen - 1) b.totalLen
      (b.search (b.content.drop (b.totalLen - 1))
        ⟨some b.self, some z, b.totalLen - 1, 0, c.off - 1⟩)) :
    capacities init 0 = (bytes init).length := by
  have hsplit : b.chains = init ++ (z, c) :: [] := hc
  have hgood : GoodNode (z, c) := h.good_split hsplit
  have hok : c.Ok := hgood.ok
  have hlen := hok.length_data
  have hoff := hok.off_le
  have hcap := hok.capacity_lt
  have hdata : 0 < c.data.length := hgood.length_data_pos
  have htotal : b.totalLen = (bytes init).length + c.data.length := h.total_split hsplit
  have hC := capacities_lt init (by decide : 0 < 2 ^ 32)
  have hlast : (b.content.drop (b.totalLen - 1)).length = 1 := by
    rw [List.length_drop, ← h.total_eq]
    omega
  obtain ⟨it, hrun, hvalid, hoffset⟩ :=
    hfinds.at_start ⟨Nat.le_refl _, by omega, List.prefix_rfl⟩
  obtain ⟨t, hle, -, hinside, -, hforward⟩ := search_last h hc rfl (Or.inl rfl) hrun hvalid
  have ht : t = c.off - 1 := by
    have := hinside (Nat.sub_le _ _)
    simp only [] at hle
    omega
  rw [ht, subU32_of_le (by omega) (by omega)] at hforward
  have hresult := offset_last hforward
  omega

/-- The bytes of the last chain are a word that occurs at the start of the chain. -/
theorem occurs_last (h : b.WellFormed) (hc : b.chains = init ++ [(z, c)]) :
    b.Occurs c.data (bytes init).length b.totalLen (bytes init).length := by
  have hsplit : b.chains = init ++ (z, c) :: [] := hc
  refine ⟨Nat.le_refl _, (h.total_split hsplit).ge, ?_⟩
  rw [content, hc, bytes_append, List.drop_left, bytes_cons, bytes_nil, List.append_nil]

/-- They are found there, from there, only if the chain is aligned. -/
theorem aligned_of_finds (h : b.WellFormed) (hc : b.chains = init ++ [(z, c)])
    (hfull : capacities init 0 = (bytes init).length)
    (hfinds : b.Finds c.data (bytes init).length b.totalLen
      (b.search c.data ⟨some b.self, some z, (bytes init).length, 0, c.misalign⟩)) :
    c.misalign = 0 := by
  have hsplit : b.chains = init ++ (z, c) :: [] := hc
  have hgood : GoodNode (z, c) := h.good_split hsplit
  have hok : c.Ok := hgood.ok
  have hlen := hok.length_data
  have hmis := hok.misalign_le
  have hoff := hok.off_le
  have hcap := hok.capacity_lt
  have h0 := h.total_ne_zero hsplit
  have hdata : 0 < c.data.length := hgood.length_data_pos
  have htotal : b.totalLen = (bytes init).length + c.data.length := h.total_split hsplit
  have hC := capacities_lt init (by decide : 0 < 2 ^ 32)
  have htotalLt := h.total_lt
  obtain ⟨it, hrun, hvalid, hoffset⟩ := hfinds.at_start (occurs_last h hc)
  obtain ⟨t, hle, -, hinside, htrue, hforward⟩ := search_last h hc rfl (Or.inl rfl) hrun hvalid
  have hlt := hinside hmis
  simp only [] at hle
  rw [subU32_of_le hle (by omega)] at hforward
  have ht : t = c.misalign := by
    have hresult := offset_last hforward
    omega
  -- at the first byte of the chain the comparison is made at the end of the buffer
  by_contra hpos
  rw [ht, compareAt, iterOfChain_eq h0 hsplit h.nodup h.linked, ok_bind,
    subU32_of_le (Nat.le_refl _) (by omega), Nat.sub_self, hfull] at htrue
  have hmax : u32 (subU64 b.totalLen (bytes init).length) < subU32 0 c.misalign := by
    rw [subU64_of_le (by omega) htotalLt, u32_of_lt (by omega)]
    unfold subU32
    omega
  obtain ⟨stop, hstop, hfalse⟩ := @bufferMemcmp_end b h
    ⟨some b.self, some z, (bytes init).length, 0, c.misalign⟩ _ rfl h0 hmax c.data
    (List.ne_nil_of_length_pos hdata)
  rw [hstop, ok_bind, hfalse] at htrue
  cases htrue

/-- From the end of the chain in front they are not found there. -/
theorem not_finds_behind (h : b.WellFormed) {y : Addr} {d : BufferChain}
    (hc : b.chains = (init ++ [(y, d)]) ++ [(z, c)])
    (hfull : capacities (init ++ [(y, d)]) 0 = (bytes (init ++ [(y, d)])).length)
    (hzero : c.misalign = 0) :
    ¬ b.Finds c.data (bytes (init ++ [(y, d)])).length b.totalLen
      (b.search c.data ⟨some b.self, some y, (bytes (init ++ [(y, d)])).length, 0, d.off⟩) := by
  intro hfinds
  have hsplit : b.chains = (init ++ [(y, d)]) ++ (z, c) :: [] := hc
  have hsplit' : b.chains = init ++ (y, d) :: [(z, c)] := by
    rw [hc]
    simp
  have hblock := (h.ok_split hsplit).length_buffer
  have hcap := (h.ok_split hsplit).capacity_lt
  have hlt' : d.misalign < d.off := (h.good_split hsplit').misalign_lt
  have hdata : 0 < d.data.length := (h.good_split hsplit').length_data_pos
  have htotal := h.total_split hsplit
  have hlen : 0 < c.data.length := (h.good_split hsplit).length_data_pos
  have hlenC := (h.ok_split hsplit).length_data
  have hoffC := (h.ok_split hsplit).off_le
  have hC := capacities_lt (init ++ [(y, d)]) (by decide : 0 < 2 ^ 32)
  obtain ⟨it, hrun, hvalid, hoffset⟩ := hfinds.at_start (occurs_last h hc)
  obtain ⟨t, hle, hlt, -, -, hforward⟩ :=
    search_last h hc rfl (Or.inr ⟨init, y, d, rfl, rfl, rfl⟩) hrun hvalid
  simp only [] at hle
  have hself : subU32 t c.misalign = t := by
    rw [hzero, subU32_of_le (Nat.zero_le _) (by omega), Nat.sub_zero]
  rw [hself] at hforward
  have hresult := offset_last hforward
  rw [bytes_nil, List.length_nil] at htotal
  omega

/-- **The buffers on which every search is answered correctly** are single chains that begin at offset
0 of their block. -/
theorem oneAligned_of_finds (h : b.WellFormed) (h0 : b.totalLen ≠ 0)
    (hall : ∀ what start s, what ≠ [] → what.length < 2 ^ 32 → b.Denotes start s →
      b.Finds what s b.totalLen (b.search what start)) : b.OneAligned := by
  obtain ⟨init, z, c, hc, -⟩ := h.exists_snoc h0
  have hsplit : b.chains = init ++ (z, c) :: [] := hc
  have hgood : GoodNode (z, c) := h.good_split hsplit
  have hok : c.Ok := hgood.ok
  have hlen := hok.length_data
  have hmis := hok.misalign_le
  have hdata : 0 < c.data.length := hgood.length_data_pos
  have hoff := hok.off_le
  have hcap := hok.capacity_lt
  have htotal : b.totalLen = (bytes init).length + c.data.length := h.total_split hsplit
  have hlast : (b.content.drop (b.totalLen - 1)).length = 1 := by
    rw [List.length_drop, ← h.total_eq]
    omega
  have hne : c.data ≠ [] := List.ne_nil_of_length_pos hdata
  -- the last byte alone tells whether the chains in front are full
  have hfull : capacities init 0 = (bytes init).length := by
    refine capacities_of_finds h hc (hall _ _ _ ?_ ?_ ?_)
    · exact List.ne_nil_of_length_pos (by omega)
    · omega
    · exact ⟨rfl, rfl, init, z, c, [], hsplit, rfl, by simp only []; omega, by simp only []; omega,
        by simp only []; omega⟩
  -- and the bytes of the last chain, whether it begins at offset 0 of its block
  have hzero : c.misalign = 0 := by
    refine aligned_of_finds h hc hfull (hall _ _ _ hne (by omega) ?_)
    exact ⟨rfl, rfl, init, z, c, [], hsplit, rfl, Nat.le_refl _, hmis, by simp⟩
  rcases List.eq_nil_or_concat init with hnil | ⟨init', ⟨y, d⟩, hconcat⟩
  · exact ⟨z, c, by rw [hc, hnil]; rfl, hzero⟩
  · rw [List.concat_eq_append] at hconcat
    subst hconcat
    have hsplit' : b.chains = init' ++ (y, d) :: [(z, c)] := by
      rw [hc]
      simp
    have hlt : d.misalign < d.off := (h.good_split hsplit').misalign_lt
    have hlen' : d.data.length = d.off - d.misalign := (h.ok_split hsplit').length_data
    have hbytes : (bytes (init' ++ [(y, d)])).length = (bytes init').length + d.data.length := by
      rw [bytes_append, List.length_append, bytes_cons, bytes_nil, List.append_nil]
    refine absurd (hall _ _ _ hne (by omega) ?_) (not_finds_behind h hc hfull hzero)
    exact ⟨rfl, rfl, init', y, d, [(z, c)], hsplit', rfl, hlt.le, Nat.le_refl _,
      by simp only []; omega⟩

end LastChain

/-! ## Both directions -/

/-- **The buffers on which every search is right**: single chains that begin at offset 0 of their
block. -/
theorem search_always_iff {b : Buffer} (h : b.WellFormed) (h0 : b.totalLen ≠ 0) :
    (∀ what start s, what ≠ [] → what.length < 2 ^ 32 → b.Denotes start s →
      b.Finds what s b.totalLen (b.search what start)) ↔ b.OneAligned := by
  refine ⟨oneAligned_of_finds h h0, ?_⟩
  rintro ⟨a, c, hc, hmis⟩ what start s hne _ hs
  have hsplit : b.chains = [] ++ (a, c) :: [] := hc
  have hok : c.Ok := h.ok_split hsplit
  have hlast : b.lastChainWithData = some a := by
    rw [h.last_eq, hc]
    rfl
  have hlen := hok.length_data
  have hend : b.Denotes ⟨some b.self, some a, b.totalLen, 0, c.off⟩ b.totalLen := by
    refine ⟨rfl, rfl, [], a, c, [], hsplit, rfl, hok.misalign_le, Nat.le_refl _, ?_⟩
    rw [h.total_eq, content, hc, bytes_cons, bytes_nil, List.append_nil, hlen]
    simp
  simp only [search, endIter, hlast, nonNull, getChain_split hsplit h.nodup, ok_bind, pure_eq_ok]
  exact searchRange_one h hc hmis hne hs hend

/-- There `search_range` is right when the first occurrence, if there is one, ends in front of its
end. -/
theorem searchRange_aligned_iff {b : Buffer} (h : b.WellFormed) (haligned : b.OneAligned)
    {what : List Byte} (hne : what ≠ []) {start stop : BufferIter} {s e : Nat}
    (hs : b.Denotes start s) (he : b.Denotes stop e) :
    b.Finds what s e (b.searchRange what start stop) ↔
      ∀ p, b.Occurs what s b.totalLen p → (∀ p' < p, ¬ b.Occurs what s b.totalLen p') →
        p + what.length ≤ e := by
  obtain ⟨a, c, hc, hmis⟩ := haligned
  have hle : e ≤ b.totalLen := by
    obtain ⟨-, -, pre, a', c', post, hc', -, -, hhi, hp⟩ := he
    have hlen : c'.data.length = c'.off - c'.misalign := (h.ok_split hc').length_data
    have htotal := h.total_split hc'
    omega
  obtain ⟨it, hrun, hanswer⟩ := searchRange_one h hc hmis hne hs he
  have hwiden : ∀ p, b.Occurs what s e p → b.Occurs what s b.totalLen p := fun p hp =>
    ⟨hp.1, Nat.le_trans hp.2.1 hle, hp.2.2⟩
  rcases hanswer with ⟨p, hp, hfirst, hvalid, hoffset⟩ | ⟨hnone, hnull⟩
  · constructor
    · rintro ⟨it', hrun', ⟨q, hq, -, -, hoffset'⟩ | ⟨-, hnull'⟩⟩ p' hp' hfirst'
      · rw [hrun] at hrun'
        cases hrun'
        have hsame : p' = q := by
          rw [hoffset] at hoffset'
          rw [← hoffset']
          by_contra hne'
          rcases Nat.lt_or_gt_of_ne hne' with hlt | hlt
          · exact hfirst p' hlt hp'
          · exact hfirst' p hlt hp
        rw [hsame]
        exact hq.2.1
      · rw [hrun] at hrun'
        cases hrun'
        rw [hnull'] at hvalid
        cases hvalid
    · intro hends
      refine ⟨it, hrun, Or.inl ⟨p, ⟨hp.1, hends p hp hfirst, hp.2.2⟩, ?_, hvalid, hoffset⟩⟩
      exact fun p' hlt hp' => hfirst p' hlt (hwiden p' hp')
  · refine iff_of_true ?_ fun p hp => absurd hp (hnone p)
    exact ⟨it, hrun, Or.inr ⟨fun p hp => hnone p (hwiden p hp), hnull⟩⟩

end Buffer
end Unp.Reactor
