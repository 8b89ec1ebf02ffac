import Unp.Buffer.Search

/-!
# Reading lines

`read_line` searches for the terminator, removes what is in front of it and drains the terminator.
`nextLine` says what a line is. The search is the one of `search_range`, with its slips; `remove` takes
a request for 0 bytes for a mistake, so that an empty line is one; and the style that accepts both
terminators always answers with a `"\r\n"` of length 1.

`LineReady` is what a buffer has to be like for a call to get past all this.
-/

namespace Unp.Reactor

open Unp.Machine Unp.LinkedChain Unp.Run BufferChain

/-- `buffer_eol_style`. -/
inductive EolStyle where
  | lf
  | crlfStrict
  | crlf
  | nul
  deriving Repr, DecidableEq

namespace Buffer

/-! ## The code -/

/-- `search_eol(uint32_t* eol_len_out, buffer_eol_style, Iter start)`: the iterator, and what is stored
through `eol_len_out`. The three searches are made whatever the style is, and from `begin()` on. -/
def searchEol (b : Buffer) (style : EolStyle) (start : BufferIter) : Res (BufferIter × Nat) := do
  let validStart ← b.validateIter start
  if validStart = false ∨ b.totalLen = 0 then pure (BufferIter.nullIter, 0)
  else do
    let first ← b.beginIter
    let last ← b.endIter
    let itCRLF ← b.searchRange [13, 10] first last
    let itLF ← b.searchRange [10] first last
    let itNUL ← b.searchRange [0] first last
    pure <| match style with
      -- what is chosen between the two before is overwritten
      | .crlf => (itCRLF, 1)
      | .crlfStrict => (itCRLF, 2)
      | .lf => (itLF, 1)
      | .nul => (itNUL, 1)

/-- `read_line(char* read_out, uint32_t n, buffer_eol_style)`: the return value, the bytes stored through
`read_out`, and the buffer. -/
def readLine (b : Buffer) (nonNullOut : Bool) (n : Nat) (style : EolStyle) :
    Res (Int × List Byte × Buffer) :=
  if nonNullOut = false ∨ n = 0 then pure (-1, [], b)
  else do
    let start ← b.beginIter
    let (it, eolLen) ← b.searchEol style start
    if valid it = false then pure (-1, [], b)
    else if n < it.offsetOfBuffer then pure (-1, [], b)
    else do
      let (bytesRead, out, b) ← b.remove true (u32 it.offsetOfBuffer)
      let (_, b) ← b.drain eolLen
      pure (bytesRead, out, b)

end Buffer

/-! ## Lines -/

namespace EolStyle

/-- What ends a line. -/
def terminators : EolStyle → List (List Byte)
  | .lf => [[10]]
  | .crlfStrict => [[13, 10]]
  | .crlf => [[13, 10], [10]]
  | .nul => [[0]]

/-- The length of the terminator at the front, if there is one. -/
def eolAt (style : EolStyle) (q : List Byte) : Option Nat :=
  (style.terminators.find? (·.isPrefixOf q)).map List.length

/-- The first line, without its terminator, and what is behind the terminator. -/
def nextLine (style : EolStyle) : List Byte → Option (List Byte × List Byte)
  | [] => none
  | x :: q =>
      match style.eolAt (x :: q) with
      | some n => some ([], (x :: q).drop n)
      | none => (nextLine style q).map fun (line, rest) => (x :: line, rest)

/-- What reading line after line delivers. -/
def lines : List EolStyle → List Byte → List (Int × List Byte)
  | [], _ => []
  | style :: styles, q =>
      match style.nextLine q with
      | some (line, rest) => ((line.length : Int), line) :: lines styles rest
      | none => (-1, []) :: lines styles q

theorem terminators_ne_nil {style : EolStyle} {t : List Byte} (ht : t ∈ style.terminators) :
    t ≠ [] := by
  cases style <;> simp only [terminators, List.mem_cons, List.not_mem_nil, or_false] at ht
  case crlf =>
    rcases ht with rfl | rfl <;> exact List.cons_ne_nil _ _
  all_goals
    rw [ht]
    exact List.cons_ne_nil _ _

/-- Without a line there is no terminator. -/
theorem nextLine_none {style : EolStyle} {q t : List Byte} (hnone : style.nextLine q = none)
    (ht : t ∈ style.terminators) (p : Nat) : ¬ t <+: q.drop p := by
  induction q generalizing p with
  | nil =>
      rw [List.drop_nil, List.prefix_nil]
      exact terminators_ne_nil ht
  | cons x q ih =>
      rw [nextLine] at hnone
      split at hnone
      · cases hnone
      · next hat =>
        rw [eolAt, Option.map_eq_none_iff, List.find?_eq_none] at hat
        rw [Option.map_eq_none_iff] at hnone
        cases p with
        | zero =>
            intro hpre
            exact hat t ht (List.isPrefixOf_iff_prefix.mpr hpre)
        | succ p => exact ih hnone p

/-- Where the first line ends, for the styles with one terminator. -/
theorem nextLine_some {style : EolStyle} {q line rest t : List Byte}
    (hsome : style.nextLine q = some (line, rest)) (ht : style.terminators = [t]) :
    t <+: q.drop line.length ∧ (∀ p < line.length, ¬ t <+: q.drop p) ∧
      q.take line.length = line ∧ q.drop (line.length + t.length) = rest := by
  induction q generalizing line with
  | nil => cases hsome
  | cons x q ih =>
      rw [nextLine] at hsome
      split at hsome
      · next n hat =>
        cases hsome
        rw [eolAt, ht] at hat
        simp only [List.find?_singleton, List.isPrefixOf_iff_prefix] at hat
        split at hat
        · next hpre =>
          cases hat
          exact ⟨hpre, by simp, rfl, by rw [List.length_nil, Nat.zero_add]⟩
        · cases hat
      · next hat =>
        obtain ⟨⟨line', rest'⟩, hlater, heq⟩ := Option.map_eq_some_iff.mp hsome
        cases heq
        obtain ⟨hpre, hfirst, htake, hdrop⟩ := ih hlater
        refine ⟨hpre, ?_, by rw [List.length_cons, List.take_succ_cons, htake], ?_⟩
        · intro p hp
          cases p with
          | zero =>
              intro hnow
              rw [List.drop_zero] at hnow
              rw [eolAt, ht, Option.map_eq_none_iff, List.find?_eq_none] at hat
              exact hat t (List.mem_singleton_self t) (List.isPrefixOf_iff_prefix.mpr hnow)
          | succ p => exact hfirst p (by rw [List.length_cons] at hp; omega)
        · rw [List.length_cons, Nat.add_right_comm, List.drop_succ_cons, hdrop]

end EolStyle

/-! ## The condition -/

namespace Buffer

/-- Byte `p` is in a chain that begins at offset 0 of its block, behind chains that fill their blocks.
The rest of the bytes is counted in a `uint32_t`. -/
def Straight : List (Addr × BufferChain) → Nat → Prop
  | [], _ => False
  | (a, c) :: post, p => c.misalign = 0 ∧
      if p < c.off then p ≤ u32 (bytes ((a, c) :: post)).length
      else c.off = c.capacity ∧ Straight post (p - c.off)

instance decidableStraight : ∀ l p, Decidable (Straight l p)
  | [], _ => inferInstanceAs (Decidable False)
  | (a, c) :: post, p =>
      have := decidableStraight post (p - c.off)
      inferInstanceAs (Decidable (c.misalign = 0 ∧
        if p < c.off then p ≤ u32 (bytes ((a, c) :: post)).length
        else c.off = c.capacity ∧ Straight post (p - c.off)))

/-- A search for this byte can go through the whole buffer. Behind the first chain it comes across no
hit in a chain that begins later than at offset 0. In the last chain it begins at the offset of the
first one, which is not behind the end, and comes across no hit in front of the chain's first byte. -/
def Scannable (b : Buffer) (first : Byte) : Prop :=
  ∃ p rest, b.chains = p :: rest ∧ u32 b.totalLen + p.2.misalign < 2 ^ 32 ∧
    (∀ q ∈ rest, q.2.misalign = 0 ∨ first ∉ q.2.data) ∧
    ∀ q ∈ rest.getLast?, p.2.misalign ≤ q.2.off ∧
      first ∉ slice q.2.buffer p.2.misalign (q.2.misalign - p.2.misalign)

instance (b : Buffer) (first : Byte) : Decidable (b.Scannable first) :=
  match hc : b.chains with
  | [] => isFalse fun ⟨_, _, hcons, _⟩ => by simp [hc] at hcons
  | p :: rest =>
      decidable_of_iff (u32 b.totalLen + p.2.misalign < 2 ^ 32 ∧
          (∀ q ∈ rest, q.2.misalign = 0 ∨ first ∉ q.2.data) ∧
          ∀ q ∈ rest.getLast?, p.2.misalign ≤ q.2.off ∧
            first ∉ slice q.2.buffer p.2.misalign (q.2.misalign - p.2.misalign)) <| by
        constructor
        · exact fun hall => ⟨p, rest, hc, hall⟩
        · rintro ⟨p', rest', hcons, hall⟩
          rw [hc, List.cons.injEq] at hcons
          rwa [hcons.1, hcons.2]

/-- A search for this word returns: it is there in a straight place, which stops the search, or nothing
has to stop it. -/
def Searchable (b : Buffer) (word : List Byte) : Prop :=
  (∃ pos < b.content.length, pos < 2 ^ 32 ∧ Straight b.chains pos ∧ word <+: b.content.drop pos) ∨
    ∃ first ∈ word.head?, b.Scannable first

instance (b : Buffer) (word : List Byte) : Decidable (b.Searchable word) :=
  inferInstanceAs (Decidable ((∃ pos < b.content.length, _) ∨ ∃ first ∈ word.head?, _))

/-- What `read_line` needs of a buffer and of its arguments: the three searches return, and if there is
a line, it is not empty, there is room for it, and what ends it is in a straight place. The mixed style
never reads a line. -/
def LineReady (b : Buffer) (call : EolStyle × UInt32) : Prop :=
  (∀ word ∈ [[13, 10], [10], [0]], b.Searchable word) ∧
    ∀ r ∈ call.1.nextLine b.content,
      call.1 ≠ .crlf ∧ r.1 ≠ [] ∧ r.1.length ≤ call.2.toNat ∧ Straight b.chains r.1.length

instance (b : Buffer) (call : EolStyle × UInt32) : Decidable (b.LineReady call) :=
  inferInstanceAs (Decidable ((∀ word ∈ _, b.Searchable word) ∧ ∀ r ∈ call.1.nextLine b.content, _))

/-- `read_line` into a block that is there. -/
def readLineStep (call : EolStyle × UInt32) (b : Buffer) : Res ((Int × List Byte) × Buffer) := do
  let (ret, out, b) ← b.readLine true call.2.toNat call.1
  pure ((ret, out), b)

/-! ## The search across chains -/

/-- Where the search begins in a chain: `last_off` is for the chain the range ends in. -/
def searchFrom (z : Addr) (lastOff : Nat) (p : Addr × BufferChain) : Nat :=
  if p.1 = z then lastOff else p.2.misalign

/-- The search goes through the chain and is not satisfied anywhere. -/
def Misses (b : Buffer) (what : List Byte) (first : Byte) (z : Addr) (lastOff : Nat)
    (p : Addr × BufferChain) : Prop :=
  ∀ t, searchFrom z lastOff p ≤ t → IsHit p.2 first t → b.compareAt what p.1 p.2 t = .ok false

section Search
variable {b : Buffer} {pre post : List (Addr × BufferChain)} {a z : Addr} {c : BufferChain}
  {what : List Byte} {first : Byte} {lastOff : Nat}

/-- The search ends at the first hit of the first chain where a comparison says yes. If it gets to the
end of the chains `seen`, they need not be all. -/
theorem searchLoop_spec (h : b.WellFormed) (fuel : Nat) (hc : b.chains = pre ++ (a, c) :: post)
    (hfuel : post.length + 1 ≤ fuel) {seen tail : List (Addr × BufferChain)}
    (hcut : (a, c) :: post = seen ++ tail)
    (hruns : ∀ p ∈ seen, searchFrom z lastOff p ≤ p.2.off ∧
      ∀ t, searchFrom z lastOff p ≤ t → IsHit p.2 first t →
        ∃ same, b.compareAt what p.1 p.2 t = .ok same) :
    (∃ passed a' c' after t, seen = passed ++ (a', c') :: after ∧
        (∀ p ∈ passed, b.Misses what first z lastOff p) ∧
        searchFrom z lastOff (a', c') ≤ t ∧ IsHit c' first t ∧
        b.compareAt what a' c' t = .ok true ∧
        (∀ t' < t, searchFrom z lastOff (a', c') ≤ t' → IsHit c' first t' →
          b.compareAt what a' c' t' = .ok false) ∧
        b.searchLoop what first z lastOff fuel (some a) c.misalign =
          .ok (some (a', subU32 t c'.misalign))) ∨
      ((∀ p ∈ seen, b.Misses what first z lastOff p) ∧
        (tail = [] → b.searchLoop what first z lastOff fuel (some a) c.misalign = .ok none)) := by
  induction fuel generalizing pre a c post seen with
  | zero => omega
  | succ fuel ih =>
      cases seen with
      | nil =>
          rw [List.nil_append] at hcut
          exact Or.inr ⟨by simp, fun hnil => absurd (hcut.trans hnil) (List.cons_ne_nil _ _)⟩
      | cons p seen =>
          rw [List.cons_append, List.cons.injEq] at hcut
          obtain ⟨rfl, hcut⟩ := hcut
          have hgood : GoodNode (a, c) := h.good_split hc
          have hok : c.Ok := hgood.ok
          have hsize : ¬ c.size = 0 := by
            have hdata : 0 < c.data.length := hgood.length_data_pos
            rw [hok.size_eq_length]
            omega
          have hfrom : (if a = z then lastOff else c.misalign) = searchFrom z lastOff (a, c) := rfl
          obtain ⟨⟨hle, hhere⟩, hbehind⟩ := List.forall_mem_cons.mp hruns
          simp only [searchLoop, getChain_split hc h.nodup, ok_bind, if_neg hsize, hfrom]
          rcases searchChain_spec what first hok (c.buffer.length + 1) hle
              (by rw [hok.length_buffer]; have := hok.off_le; omega) hhere with
            ⟨t, hlo, hhit, htrue, hearlier, hrun⟩ | ⟨hmisses, hrun⟩
          · refine Or.inl ⟨[], a, c, seen, t, rfl, by simp, hlo, hhit, htrue, ?_, ?_⟩
            · exact fun t' hlt hlo' => hearlier t' hlo' hlt
            · rw [hrun]
              rfl
          · simp only [hrun, ok_bind]
            cases post with
            | nil =>
                have hnext : c.next = none := next_split hc h.linked
                obtain ⟨rfl, -⟩ := List.append_eq_nil_iff.mp hcut.symm
                rw [hnext]
                exact Or.inr ⟨List.forall_mem_cons.mpr ⟨hmisses, by simp⟩, fun _ => rfl⟩
            | cons q post =>
                obtain ⟨a₂, c₂⟩ := q
                have hc₂ : b.chains = (pre ++ [(a, c)]) ++ (a₂, c₂) :: post := by
                  rw [hc]
                  simp
                have hnext : c.next = some a₂ := next_split hc h.linked
                simp only [hnext, getChain_split hc₂ h.nodup, ok_bind]
                rcases ih hc₂ (by simp only [List.length_cons] at hfuel; omega) hcut hbehind with
                  ⟨passed, a', c', after, t, hsplit, hpassed, hrest⟩ | ⟨hall, hrun⟩
                · exact Or.inl ⟨(a, c) :: passed, a', c', after, t, by rw [hsplit]; rfl,
                    List.forall_mem_cons.mpr ⟨hmisses, hpassed⟩, hrest⟩
                · exact Or.inr ⟨List.forall_mem_cons.mpr ⟨hmisses, hall⟩, hrun⟩

end Search
/-! ## The three searches -/

section Scan
variable {b : Buffer} {p q : Addr × BufferChain} {rest : List (Addr × BufferChain)} {z : Addr}
  {word : List Byte} {first : Byte}

/-- In a chain behind the first one the search begins at most at the end, and comes across no hit in
front of the first byte. -/
theorem searchFrom_bounds (h : b.WellFormed) (hc : b.chains = p :: rest)
    (hlast : ∀ q ∈ rest.getLast?, p.2.misalign ≤ q.2.off ∧
      first ∉ slice q.2.buffer p.2.misalign (q.2.misalign - p.2.misalign))
    (hz : b.lastChainWithData = some z) (hq : q ∈ rest) :
    searchFrom z p.2.misalign q ≤ q.2.off ∧
      ∀ t, searchFrom z p.2.misalign q ≤ t → IsHit q.2 first t → q.2.misalign ≤ t := by
  have hok : q.2.Ok := (h.good q (by rw [hc]; exact List.mem_cons_of_mem _ hq)).ok
  rw [searchFrom]
  by_cases hqz : q.1 = z
  · rw [if_pos hqz]
    have hne : rest ≠ [] := List.ne_nil_of_mem hq
    obtain ⟨init, l, hsnoc⟩ := List.eq_nil_or_concat rest |>.resolve_left hne
    rw [List.concat_eq_append] at hsnoc
    -- the address occurs once
    obtain ⟨u, v, huv⟩ := List.append_of_mem hq
    have hq' : b.chains = (p :: u) ++ (z, q.2) :: v := by
      rw [hc, huv, ← hqz]
      rfl
    have hv : v = [] := (h.is_last hq').mp hz
    have hlq : l = q := by
      have hends := hsnoc.symm.trans (hv ▸ huv)
      exact (List.append_inj' hends rfl).2 |> List.singleton_inj.mp
    obtain ⟨hle, hdead⟩ := hlast q (by rw [hsnoc, hlq, List.getLast?_concat]; rfl)
    refine ⟨hle, fun t hfrom hhit => ?_⟩
    by_contra hbefore
    apply hdead
    have hget : (slice q.2.buffer p.2.misalign (q.2.misalign - p.2.misalign))[t - p.2.misalign]? =
        some first := by
      rw [slice, List.getElem?_take_of_lt (by omega), List.getElem?_drop, Nat.add_sub_of_le hfrom]
      exact hhit.2
    exact List.mem_of_getElem? hget
  · rw [if_neg hqz]
    exact ⟨hok.misalign_le, fun t hfrom _ => hfrom⟩

/-- A hit at or behind the first byte of a chain is one of its bytes. -/
theorem IsHit.mem {c : BufferChain} (hok : c.Ok) {t : Nat} (hhit : IsHit c first t)
    (hlo : c.misalign ≤ t) : first ∈ c.data := by
  have hlen := hok.length_data
  have hlt : t < c.off := hhit.1
  have hget : c.data[t - c.misalign]? = some first := by
    rw [BufferChain.data, slice, List.getElem?_take_of_lt (by omega), List.getElem?_drop,
      Nat.add_sub_of_le hlo]
    exact hhit.2
  exact List.mem_of_getElem? hget

/-- Every comparison returns; it says yes only if the word is there. -/
theorem compareAt_scannable (h : b.WellFormed) (hc : b.chains = p :: rest)
    (hroom : u32 b.totalLen + p.2.misalign < 2 ^ 32)
    (hquiet : ∀ q ∈ rest, q.2.misalign = 0 ∨ first ∉ q.2.data)
    (hlast : ∀ q ∈ rest.getLast?, p.2.misalign ≤ q.2.off ∧
      first ∉ slice q.2.buffer p.2.misalign (q.2.misalign - p.2.misalign))
    (hz : b.lastChainWithData = some z) (word : List Byte) (hq : q ∈ p :: rest) :
    searchFrom z p.2.misalign q ≤ q.2.off ∧
      ∀ t, searchFrom z p.2.misalign q ≤ t → IsHit q.2 first t →
        q.2.misalign ≤ t ∧ ∃ same, b.compareAt (first :: word) q.1 q.2 t = .ok same ∧
          (same = true → ∃ pos, first :: word <+: b.content.drop pos) := by
  have hne : first :: word ≠ [] := List.cons_ne_nil _ _
  rcases List.mem_cons.mp hq with rfl | hq
  · have hok : q.2.Ok := (h.first_good hc).ok
    have hfrom : searchFrom z q.2.misalign q = q.2.misalign := by
      rw [searchFrom]
      exact ite_self _
    rw [hfrom]
    exact ⟨hok.misalign_le, fun t hlo hhit => ⟨hlo, compareAt_first h hc hroom hlo hhit.1 hne⟩⟩
  · obtain ⟨hhi, hbegins⟩ := searchFrom_bounds h hc hlast hz hq
    refine ⟨hhi, fun t hfrom hhit => ⟨hbegins t hfrom hhit, ?_⟩⟩
    obtain ⟨u, v, rfl⟩ := List.append_of_mem hq
    have hsplit : b.chains = (p :: u) ++ q :: v := hc
    rcases hquiet q hq with hmis | hnone
    · obtain ⟨same, hrun, hsound, -⟩ := compareAt_aligned h hsplit hmis hhit.1 hne
      exact ⟨same, hrun, fun htrue => ⟨_, hsound htrue⟩⟩
    · have hok : q.2.Ok := (h.good q (by rw [hsplit]; simp)).ok
      exact absurd (hhit.mem hok (hbegins t hfrom hhit)) hnone

/-- Inside its chain, an iterator can be made to step. -/
theorem forward_chain (h : b.WellFormed) {pre post : List (Addr × BufferChain)} {a : Addr}
    {c : BufferChain} (hc : b.chains = pre ++ (a, c) :: post) {k : Nat}
    (hk : k ≤ c.off - c.misalign) :
    ∃ it, (b.iterOfChain a >>= fun it => b.forward it k) = .ok it := by
  have hok : c.Ok := h.ok_split hc
  have hoff := hok.off_le
  have hcap := hok.capacity_lt
  have h0 := h.total_ne_zero hc
  have hC := capacities_lt pre (by decide : 0 < 2 ^ 32)
  rw [iterOfChain_eq h0 hc h.nodup h.linked, ok_bind]
  by_cases hmax : k ≤ u32 (subU64 b.totalLen (capacities pre 0))
  · exact ⟨_, @forward_within b pre post a c h hc ⟨some b.self, some a, capacities pre 0, 0,
      c.misalign⟩ rfl rfl hok.misalign_le k hk hmax (by simp only []; omega)⟩
  · obtain ⟨init, l, d, -, hrun⟩ := @forward_clamped b h h0
      ⟨some b.self, some a, capacities pre 0, 0, c.misalign⟩ rfl k (Nat.lt_of_not_le hmax)
    exact ⟨_, hrun⟩

/-- The search from `begin()` to `end()`. -/
theorem searchRange_whole (h : b.WellFormed) (hc : b.chains = p :: rest) (first : Byte)
    (word : List Byte) {start stop : BufferIter} (hbegin : b.beginIter = .ok start) (hend : b.endIter = .ok stop) :
    ∃ z, b.lastChainWithData = some z ∧
      (b.searchLoop (first :: word) first z p.2.misalign (b.chains.length + 1) (some p.1)
          p.2.misalign = .ok none →
        b.searchRange (first :: word) start stop = .ok BufferIter.nullIter) ∧
      ∀ a target, b.searchLoop (first :: word) first z p.2.misalign (b.chains.length + 1) (some p.1)
          p.2.misalign = .ok (some (a, target)) →
        b.searchRange (first :: word) start stop =
          (b.iterOfChain a >>= fun it => b.forward it target) := by
  have hsplit : b.chains = [] ++ p :: rest := hc
  obtain ⟨init, z, d, hsnoc, hz⟩ := h.exists_snoc (h.total_ne_zero hsplit)
  have hsplit' : b.chains = init ++ (z, d) :: [] := hsnoc
  rw [beginIter_eq hc] at hbegin
  simp only [endIter, hz, nonNull, getChain_split hsplit' h.nodup, ok_bind, pure_eq_ok] at hend
  cases hbegin
  cases hend
  have hstart := @validateIter_eq b [] rest p.1 p.2 ⟨some b.self, some p.1, 0, 0, p.2.misalign⟩
    hc h.nodup h.linked rfl rfl
  have hstop := @validateIter_eq b init [] z d ⟨some b.self, some z, b.totalLen, 0, d.off⟩
    hsplit' h.nodup h.linked rfl rfl
  have hguard : ¬ (true = false ∨ (first :: word) = []) := by simp
  have hhead : Unp.Machine.readAt (first :: word) 0 = .ok first := rfl
  refine ⟨z, hz, fun hloop => ?_, fun a target hloop => ?_⟩
  all_goals
    simp only [searchRange, hstart, hstop, ok_bind, if_true, if_neg hguard, nonNull, hhead, hloop,
      pure_eq_ok]

/-- A search that nothing has to stop returns, and finds nothing where there is nothing. -/
theorem searchRange_scannable (h : b.WellFormed) (hscan : b.Scannable first)
    {start stop : BufferIter} (hbegin : b.beginIter = .ok start) (hend : b.endIter = .ok stop) :
    ∃ it, b.searchRange (first :: word) start stop = .ok it ∧
      ((∀ pos, ¬ first :: word <+: b.content.drop pos) → it = BufferIter.nullIter) := by
  obtain ⟨p, rest, hc, hroom, hquiet, hlast⟩ := hscan
  obtain ⟨z, hz, hnot, hfound⟩ := searchRange_whole h hc first word hbegin hend
  have hcompares := fun q (hq : q ∈ p :: rest) =>
    compareAt_scannable h hc hroom hquiet hlast hz word hq
  rcases searchLoop_spec h (b.chains.length + 1) (show b.chains = [] ++ p :: rest from hc)
      (by rw [hc, List.length_cons]; omega) (List.append_nil _).symm
      (fun q hq => ⟨(hcompares q hq).1, fun t hlo hhit =>
        let ⟨same, hsame, _⟩ := ((hcompares q hq).2 t hlo hhit).2
        ⟨same, hsame⟩⟩) with
    ⟨passed, a, c, after, t, hcut, -, hlo, hhit, htrue, -, hloop⟩ | ⟨-, hloop⟩
  · rw [hfound a _ hloop]
    have hsplit : b.chains = passed ++ (a, c) :: after := hc.trans hcut
    have hmem : (a, c) ∈ p :: rest := by
      rw [hcut]
      simp
    have hok : c.Ok := (h.good (a, c) (hc ▸ hmem)).ok
    have hoff := hok.off_le
    have hcap := hok.capacity_lt
    have hlt : t < c.off := hhit.1
    obtain ⟨hmis, same, hsame, hsound⟩ := (hcompares (a, c) hmem).2 t hlo hhit
    have hsub : subU32 t c.misalign = t - c.misalign := subU32_of_le hmis (by omega)
    obtain ⟨it, hforward⟩ := forward_chain h hsplit (hsub ▸ Nat.sub_le_sub_right hlt.le _)
    refine ⟨it, hforward, fun hnone => ?_⟩
    rw [htrue] at hsame
    cases hsame
    obtain ⟨pos, hpos⟩ := hsound rfl
    exact absurd hpos (hnone pos)
  · exact ⟨_, hnot (hloop rfl), fun _ => rfl⟩

end Scan

/-! ## A straight place -/

section Straight
variable {b : Buffer} {word : List Byte} {first : Byte}

theorem straight_split {l : List (Addr × BufferChain)} (hgood : ∀ q ∈ l, GoodNode q) {p : Nat}
    (h : Straight l p) :
    ∃ pre a c post t, l = pre ++ (a, c) :: post ∧ (bytes pre).length + t = p ∧ t < c.off ∧
      c.misalign = 0 ∧ (∀ q ∈ pre, q.2.misalign = 0 ∧ q.2.off = q.2.capacity) ∧
      t ≤ u32 (bytes ((a, c) :: post)).length := by
  induction l generalizing p with
  | nil => exact h.elim
  | cons q l ih =>
      obtain ⟨a, c⟩ := q
      obtain ⟨hnow, hlater⟩ := List.forall_mem_cons.mp hgood
      obtain ⟨hmis, hplace⟩ := h
      by_cases hp : p < c.off
      · rw [if_pos hp] at hplace
        exact ⟨[], a, c, l, p, rfl, Nat.zero_add p, hp, hmis, by simp, hplace⟩
      · rw [if_neg hp] at hplace
        obtain ⟨pre, a', c', post, t, rfl, hsum, hrest⟩ := ih hlater hplace.2
        obtain ⟨ht, hmis', hfull, hcount⟩ := hrest
        refine ⟨(a, c) :: pre, a', c', post, t, rfl, ?_, ht, hmis', ?_, hcount⟩
        · have hlen : c.data.length = c.off - c.misalign := hnow.ok.length_data
          rw [bytes_cons, List.length_append]
          omega
        · exact List.forall_mem_cons.mpr ⟨⟨hmis, hplace.1⟩, hfull⟩

/-- Of full chains the capacities are the lengths. -/
theorem capacities_full {l : List (Addr × BufferChain)} (hgood : ∀ q ∈ l, GoodNode q)
    (hfull : ∀ q ∈ l, q.2.misalign = 0 ∧ q.2.off = q.2.capacity) (start : Nat)
    (hlt : start + (bytes l).length < 2 ^ 32) : capacities l start = start + (bytes l).length := by
  induction l generalizing start with
  | nil => rfl
  | cons q l ih =>
      obtain ⟨a, c⟩ := q
      obtain ⟨hnow, hlater⟩ := List.forall_mem_cons.mp hgood
      obtain ⟨⟨hmis, hcap⟩, hfull⟩ := List.forall_mem_cons.mp hfull
      have hlen : c.data.length = c.off - c.misalign := hnow.ok.length_data
      have hsize : c.data.length = c.capacity := by
        simp only [] at hmis hcap
        omega
      rw [bytes_cons, List.length_append] at hlt ⊢
      have hnext : u32 (start + c.capacity) = start + c.data.length := by
        rw [← hsize]
        exact u32_of_lt (by omega)
      have htail := ih hlater hfull (start + c.data.length) (by omega)
      rw [capacities, List.foldl_cons, hnext, ← Nat.add_assoc]
      exact htail

/-- Where the search ends, in a straight place: there, if the word occurs there first. -/
theorem searchLoop_first (h : b.WellFormed) {pre post : List (Addr × BufferChain)} {a z : Addr}
    {c : BufferChain} {t lastOff : Nat} (hsplit : b.chains = pre ++ (a, c) :: post)
    (hfull : ∀ q ∈ pre, q.2.misalign = 0 ∧ q.2.off = q.2.capacity) (hmis : c.misalign = 0)
    (hfrom : searchFrom z lastOff (a, c) ≤ t) (hhit : IsHit c first t)
    (htrue : b.compareAt (first :: word) a c t = .ok true)
    (hearlier : ∀ p < (bytes pre).length + t, ¬ first :: word <+: b.content.drop p)
    {passed after : List (Addr × BufferChain)} {a' : Addr} {c' : BufferChain} {t' : Nat}
    (hcut : b.chains = passed ++ (a', c') :: after)
    (hpassed : ∀ q ∈ passed, b.Misses (first :: word) first z lastOff q)
    (hhit' : IsHit c' first t') (htrue' : b.compareAt (first :: word) a' c' t' = .ok true)
    (hearlier' : ∀ s < t', searchFrom z lastOff (a', c') ≤ s → IsHit c' first s →
      b.compareAt (first :: word) a' c' s = .ok false) :
    passed = pre ∧ (a', c') = (a, c) ∧ t' = t := by
  have hne : first :: word ≠ [] := List.cons_ne_nil _ _
  have hlt' : t' < c'.off := hhit'.1
  -- in an aligned chain the word occurs where the comparison says yes
  have hoccurs : c'.misalign = 0 → first :: word <+: b.content.drop ((bytes passed).length + t') := by
    intro hmis'
    obtain ⟨same, hrun', hsound, -⟩ := compareAt_aligned h hcut hmis' hlt' hne
    rw [htrue'] at hrun'
    cases hrun'
    exact hsound rfl
  have hboth := hcut.symm.trans hsplit
  have hsame : passed = pre ∧ (a', c') = (a, c) := by
    rw [List.append_eq_append_iff] at hboth
    rcases hboth with ⟨m, rfl, hm⟩ | ⟨m, rfl, hm⟩
    · cases m with
      | nil =>
          rw [List.nil_append, List.cons.injEq] at hm
          exact ⟨(List.append_nil _).symm, hm.1⟩
      | cons q m =>
          -- the chain is in front of the straight place
          rw [List.cons_append, List.cons.injEq] at hm
          obtain ⟨rfl, -⟩ := hm
          have hmis' : c'.misalign = 0 := (hfull (a', c') (by simp)).1
          have hlen' : c'.data.length = c'.off - c'.misalign :=
            (h.ok_split hcut).length_data
          refine absurd (hoccurs hmis') (hearlier _ ?_)
          rw [bytes_append, List.length_append, bytes_cons, List.length_append]
          omega
    · cases m with
      | nil =>
          rw [List.nil_append, List.cons.injEq] at hm
          exact ⟨List.append_nil _, hm.1.symm⟩
      | cons q m =>
          -- the straight place has been passed
          rw [List.cons_append, List.cons.injEq] at hm
          obtain ⟨rfl, -⟩ := hm
          have hfalse := hpassed (a, c) (by simp) t hfrom hhit
          rw [htrue] at hfalse
          cases hfalse
  obtain ⟨rfl, heq⟩ := hsame
  cases heq
  refine ⟨rfl, rfl, ?_⟩
  rcases Nat.lt_trichotomy t' t with hlt | heq | hgt
  · exact absurd (hoccurs hmis) (hearlier _ (by omega))
  · exact heq
  · have hfalse := hearlier' t hgt hfrom hhit
    rw [htrue] at hfalse
    cases hfalse

/-- The comparison at a straight place says yes if the word is there. -/
theorem compareAt_straight (h : b.WellFormed) {pre post : List (Addr × BufferChain)} {a : Addr}
    {c : BufferChain} {t : Nat} (hsplit : b.chains = pre ++ (a, c) :: post) (ht : t < c.off)
    (hmis : c.misalign = 0) (hcapacities : capacities pre 0 = (bytes pre).length)
    (hcount : t ≤ u32 (bytes ((a, c) :: post)).length)
    (hpre : first :: word <+: b.content.drop ((bytes pre).length + t)) :
    IsHit c first t ∧ b.compareAt (first :: word) a c t = .ok true := by
  have htotal : b.totalLen - (bytes pre).length = (bytes ((a, c) :: post)).length := by
    rw [h.total_split hsplit, bytes_cons, List.length_append, Nat.add_assoc, Nat.add_sub_cancel_left]
  constructor
  · have hpre' : first :: word <+: b.content.drop ((bytes pre).length + (t - c.misalign)) := by
      rwa [hmis, Nat.sub_zero]
    exact isHit_of_prefix h hsplit (by omega) ht hpre'
  · obtain ⟨same, hsame, -, hcomplete⟩ :=
      compareAt_aligned h hsplit hmis ht (List.cons_ne_nil first word)
    rwa [hcomplete hcapacities (htotal ▸ hcount) hpre] at hsame

/-- From offset 0 on, a search through aligned chains does not fail. -/
theorem compareAt_returns (h : b.WellFormed) {seen post : List (Addr × BufferChain)} {z : Addr}
    (hseen : b.chains = seen ++ post) (haligned : ∀ q ∈ seen, q.2.misalign = 0)
    {q : Addr × BufferChain} (hq : q ∈ seen) :
    searchFrom z 0 q ≤ q.2.off ∧ ∀ t, searchFrom z 0 q ≤ t → IsHit q.2 first t →
      ∃ same, b.compareAt (first :: word) q.1 q.2 t = .ok same := by
  rw [searchFrom, haligned q hq, ite_self]
  refine ⟨Nat.zero_le _, fun t _ hhit => ?_⟩
  obtain ⟨u, v, rfl⟩ := List.append_of_mem hq
  have hsplit : b.chains = u ++ q :: (v ++ post) := by
    rw [hseen]
    simp
  obtain ⟨same, hsame, -⟩ :=
    compareAt_aligned h hsplit (haligned q hq) hhit.1 (List.cons_ne_nil first word)
  exact ⟨same, hsame⟩

/-- A word that is there in a straight place stops the search, and there if it is the first one. -/
theorem searchRange_straight (h : b.WellFormed) {start stop : BufferIter}
    (hbegin : b.beginIter = .ok start) (hend : b.endIter = .ok stop) {pos : Nat}
    (hstraight : Straight b.chains pos) (hpos : pos < 2 ^ 32)
    (hpre : first :: word <+: b.content.drop pos) :
    ∃ it, b.searchRange (first :: word) start stop = .ok it ∧
      ((∀ p < pos, ¬ first :: word <+: b.content.drop p) →
        valid it = true ∧ it.offsetOfBuffer = pos) := by
  obtain ⟨pre, a, c, post, t, hsplit, rfl, ht, hmis, hfull, hcount⟩ :=
    straight_split h.good hstraight
  obtain ⟨p, rest, hc⟩ := exists_cons_of_split hsplit
  obtain ⟨z, -, -, hfound⟩ := searchRange_whole h hc first word hbegin hend
  have hseen : b.chains = (pre ++ [(a, c)]) ++ post := by
    rw [hsplit]
    simp
  have haligned : ∀ q ∈ pre ++ [(a, c)], q.2.misalign = 0 := by
    intro q hq
    rcases List.mem_append.mp hq with hq | hq
    · exact (hfull q hq).1
    · rw [List.mem_singleton.mp hq]
      exact hmis
  have hfirst : p.2.misalign = 0 := by
    refine haligned p ?_
    rw [hc] at hsplit
    cases pre with
    | nil => simp [(List.cons.inj hsplit).1]
    | cons q pre => simp [(List.cons.inj hsplit).1]
  rw [hfirst] at hfound
  have hcapacities : capacities pre 0 = (bytes pre).length := by
    rw [capacities_full (fun q hq => h.good q (by rw [hsplit]; simp [hq])) hfull 0 (by omega),
      Nat.zero_add]
  obtain ⟨hhit, htrue⟩ := compareAt_straight h hsplit ht hmis hcapacities hcount hpre
  have hstop : searchFrom z 0 (a, c) ≤ t := by
    rw [searchFrom, hmis, ite_self]
    exact Nat.zero_le t
  rcases searchLoop_spec h (b.chains.length + 1) (show b.chains = [] ++ p :: rest from hc)
      (by rw [hc, List.length_cons]; omega) (hc.symm.trans hseen)
      (fun q hq => compareAt_returns h hseen haligned hq) with
    ⟨passed, a', c', after, t', hcut, hpassed, -, hhit', htrue', hearlier', hloop⟩ | ⟨hall, -⟩
  · have hmem : (a', c') ∈ pre ++ [(a, c)] := by
      rw [hcut]
      simp
    have hcut' : b.chains = passed ++ (a', c') :: (after ++ post) := by
      rw [hseen, hcut]
      simp
    have hok : c'.Ok := h.ok_split hcut'
    have hoff := hok.off_le
    have hcap := hok.capacity_lt
    have hmis' : c'.misalign = 0 := haligned (a', c') hmem
    have hlt' : t' < c'.off := hhit'.1
    have hself : subU32 t' c'.misalign = t' := by
      rw [hmis', subU32_of_le (Nat.zero_le _) (by omega), Nat.sub_zero]
    have hstep : t' ≤ c'.off - c'.misalign := by omega
    obtain ⟨it, hforward⟩ := forward_chain h hcut' hstep
    rw [hself, hfirst] at hloop
    rw [hfound a' _ hloop]
    refine ⟨it, hforward, fun hearlier => ?_⟩
    obtain ⟨rfl, heq, rfl⟩ := searchLoop_first h hsplit hfull hmis hstop hhit htrue hearlier
      hcut' hpassed hhit' htrue' hearlier'
    cases heq
    -- the steps are made in this chain
    have htotal := h.total_split hsplit
    have hmax : t' ≤ u32 (subU64 b.totalLen (capacities passed 0)) := by
      rw [hcapacities, subU64_of_le (by omega) h.total_lt, htotal, Nat.add_assoc,
        Nat.add_sub_cancel_left, ← List.length_append, ← bytes_cons]
      exact hcount
    have hwithin := @forward_within b passed post a c h hsplit
      ⟨some b.self, some a, capacities passed 0, 0, c.misalign⟩ rfl rfl hok.misalign_le t' hstep
      hmax (by simp only []; omega)
    rw [iterOfChain_eq (h.total_ne_zero hsplit) hsplit h.nodup h.linked, ok_bind, hwithin]
      at hforward
    cases hforward
    exact ⟨rfl, congrArg (· + t') hcapacities⟩
  · have hfalse := hall (a, c) (by simp) t hstop hhit
    rw [htrue] at hfalse
    cases hfalse

/-- Every search that `search_eol` makes in a searchable buffer. -/
theorem searchRange_searchable (h : b.WellFormed) (hsearch : b.Searchable (first :: word))
    {start stop : BufferIter} (hbegin : b.beginIter = .ok start) (hend : b.endIter = .ok stop) :
    ∃ it, b.searchRange (first :: word) start stop = .ok it ∧
      ((∀ pos, ¬ first :: word <+: b.content.drop pos) → it = BufferIter.nullIter) := by
  rcases hsearch with ⟨pos, -, hpos, hstraight, hpre⟩ | ⟨first', hfirst', hscan⟩
  · obtain ⟨it, hrun, -⟩ := searchRange_straight h hbegin hend hstraight hpos hpre
    exact ⟨it, hrun, fun hnone => absurd hpre (hnone pos)⟩
  · cases hfirst'
    exact searchRange_scannable h hscan hbegin hend

theorem Searchable.exists_cons (hsearch : b.Searchable word) : ∃ p rest, b.chains = p :: rest := by
  rcases hsearch with ⟨pos, -, -, hstraight, -⟩ | ⟨_, -, p, rest, hc, -⟩
  · match hc : b.chains with
    | [] =>
        rw [hc] at hstraight
        exact hstraight.elim
    | p :: rest => exact ⟨p, rest, rfl⟩
  · exact ⟨p, rest, hc⟩

end Straight

/-! ## One call -/

section Call
variable {b : Buffer} {style : EolStyle}

/-- If the three searches return, `search_eol` returns one of the three answers. -/
theorem searchEol_eq (h : b.WellFormed)
    (hsearch : ∀ word ∈ [[13, 10], [10], [0]], b.Searchable word) (style : EolStyle) :
    ∃ start stop itCRLF itLF itNUL, b.beginIter = .ok start ∧ b.endIter = .ok stop ∧
      b.searchRange [13, 10] start stop = .ok itCRLF ∧
      b.searchRange [10] start stop = .ok itLF ∧
      b.searchRange [0] start stop = .ok itNUL ∧
      b.searchEol style start = .ok (match style with
        | .crlf => (itCRLF, 1)
        | .crlfStrict => (itCRLF, 2)
        | .lf => (itLF, 1)
        | .nul => (itNUL, 1)) := by
  obtain ⟨hsearchCRLF, hsearchLF, hsearchNUL⟩ :
      b.Searchable [13, 10] ∧ b.Searchable [10] ∧ b.Searchable [0] := by simpa using hsearch
  obtain ⟨p, rest, hc⟩ := hsearchCRLF.exists_cons
  have h0 : b.totalLen ≠ 0 := h.total_ne_zero (show b.chains = [] ++ p :: rest from hc)
  obtain ⟨init, z, d, hsnoc, hz⟩ := h.exists_snoc h0
  have hbegin := beginIter_eq hc
  have hend : b.endIter = .ok ⟨some b.self, some z, b.totalLen, 0, d.off⟩ := by
    simp only [endIter, hz, nonNull, ok_bind, getChain_snoc hsnoc h.nodup, pure_eq_ok]
  obtain ⟨itCRLF, hCRLF, -⟩ := searchRange_searchable h hsearchCRLF hbegin hend
  obtain ⟨itLF, hLF, -⟩ := searchRange_searchable h hsearchLF hbegin hend
  obtain ⟨itNUL, hNUL, -⟩ := searchRange_searchable h hsearchNUL hbegin hend
  refine ⟨_, _, itCRLF, itLF, itNUL, hbegin, hend, hCRLF, hLF, hNUL, ?_⟩
  have hstart := @validateIter_eq b [] rest p.1 p.2 ⟨some b.self, some p.1, 0, 0, p.2.misalign⟩
    hc h.nodup h.linked rfl rfl
  have hguard : ¬ (true = false ∨ b.totalLen = 0) := by simpa using h0
  simp only [searchEol, hstart, ok_bind, if_neg hguard, hbegin, hend, hCRLF, hLF, hNUL, pure_eq_ok]

/-- Without a line `search_eol` finds nothing. -/
theorem searchEol_none (h : b.WellFormed)
    (hsearch : ∀ word ∈ [[13, 10], [10], [0]], b.Searchable word)
    (hnone : style.nextLine b.content = none) :
    ∃ start n, b.beginIter = .ok start ∧ b.searchEol style start = .ok (BufferIter.nullIter, n) := by
  obtain ⟨start, stop, itCRLF, itLF, itNUL, hbegin, hend, hCRLF, hLF, hNUL, hrun⟩ :=
    searchEol_eq h hsearch style
  -- the search for a terminator of the style comes back empty
  have hnull : ∀ {first : Byte} {word : List Byte} {it : BufferIter},
      first :: word ∈ [[13, 10], [10], [0]] → first :: word ∈ style.terminators →
        b.searchRange (first :: word) start stop = .ok it → it = BufferIter.nullIter := by
    intro first word it hword hmem hrange
    obtain ⟨it', hrange', hnothing⟩ :=
      searchRange_searchable h (hsearch _ hword) hbegin hend
    rw [hrange] at hrange'
    cases hrange'
    exact hnothing fun pos => EolStyle.nextLine_none hnone hmem pos
  refine ⟨start, ?_⟩
  cases style with
  | lf => exact ⟨1, hbegin, hnull (by simp) (by simp [EolStyle.terminators]) hLF ▸ hrun⟩
  | crlfStrict => exact ⟨2, hbegin, hnull (by simp) (by simp [EolStyle.terminators]) hCRLF ▸ hrun⟩
  | crlf => exact ⟨1, hbegin, hnull (by simp) (by simp [EolStyle.terminators]) hCRLF ▸ hrun⟩
  | nul => exact ⟨1, hbegin, hnull (by simp) (by simp [EolStyle.terminators]) hNUL ▸ hrun⟩

/-- A terminator in a straight place is found. -/
theorem searchEol_some (h : b.WellFormed)
    (hsearch : ∀ word ∈ [[13, 10], [10], [0]], b.Searchable word) {line rest : List Byte}
    (hsome : style.nextLine b.content = some (line, rest)) (hstyle : style ≠ .crlf)
    (hstraight : Straight b.chains line.length) (hlt : line.length < 2 ^ 32) :
    ∃ start it t, style.terminators = [t] ∧ b.beginIter = .ok start ∧
      b.searchEol style start = .ok (it, t.length) ∧ valid it = true ∧
      it.offsetOfBuffer = line.length := by
  obtain ⟨start, stop, itCRLF, itLF, itNUL, hbegin, hend, hCRLF, hLF, hNUL, hrun⟩ :=
    searchEol_eq h hsearch style
  have hfound : ∀ {first : Byte} {word : List Byte} {it : BufferIter},
      style.terminators = [first :: word] → b.searchRange (first :: word) start stop = .ok it →
        valid it = true ∧ it.offsetOfBuffer = line.length := by
    intro first word it hone hrange
    obtain ⟨hpre, hearlier, -⟩ := EolStyle.nextLine_some hsome hone
    obtain ⟨it', hrange', hplace⟩ :=
      searchRange_straight h hbegin hend hstraight hlt hpre
    rw [hrange] at hrange'
    cases hrange'
    exact hplace hearlier
  refine ⟨start, ?_⟩
  cases style with
  | lf => exact ⟨itLF, [10], rfl, hbegin, hrun, hfound rfl hLF⟩
  | crlfStrict => exact ⟨itCRLF, [13, 10], rfl, hbegin, hrun, hfound rfl hCRLF⟩
  | crlf => exact absurd rfl hstyle
  | nul => exact ⟨itNUL, [0], rfl, hbegin, hrun, hfound rfl hNUL⟩

/-- Without a line `read_line` says so and leaves the buffer alone. -/
theorem readLine_none (h : b.WellFormed)
    (hsearch : ∀ word ∈ [[13, 10], [10], [0]], b.Searchable word) (n : Nat)
    (hnone : style.nextLine b.content = none) : b.readLine true n style = .ok (-1, [], b) := by
  obtain ⟨start, eolLen, hbegin, heol⟩ := searchEol_none h hsearch hnone
  have hnull : valid BufferIter.nullIter = false := rfl
  rw [readLine]
  by_cases hn : n = 0
  · rw [if_pos (Or.inr hn), pure_eq_ok]
  · have hguard : ¬ ((true : Bool) = false ∨ n = 0) := by simpa using hn
    simp only [if_neg hguard, hbegin, heol, ok_bind, hnull, if_true, pure_eq_ok]

/-- The line is removed, and its terminator after it. -/
theorem readLine_some (h : b.WellFormed)
    (hsearch : ∀ word ∈ [[13, 10], [10], [0]], b.Searchable word) {n : Nat} {line rest : List Byte}
    (hsome : style.nextLine b.content = some (line, rest)) (hstyle : style ≠ .crlf)
    (hne : line ≠ []) (hn : line.length ≤ n) (hlt : n < 2 ^ 32)
    (hstraight : Straight b.chains line.length) :
    ∃ b', b.readLine true n style = .ok ((line.length : Int), line, b') ∧ b'.WellFormed ∧
      b'.content = rest := by
  have hpos : 0 < line.length := List.length_pos_of_ne_nil hne
  obtain ⟨start, it, t, hone, hbegin, heol, hvalid, hoffset⟩ :=
    searchEol_some h hsearch hsome hstyle hstraight (Nat.lt_of_le_of_lt hn hlt)
  obtain ⟨hpre, -, htake, hdrop⟩ := EolStyle.nextLine_some hsome hone
  have hmem : t ∈ style.terminators := by
    rw [hone]
    exact List.mem_singleton_self t
  have htpos : 0 < t.length := List.length_pos_of_ne_nil (EolStyle.terminators_ne_nil hmem)
  have hlen := hpre.length_le
  rw [List.length_drop, ← h.total_eq] at hlen
  -- first the line, then what ended it
  obtain ⟨b₁, hremove, hconsumed⟩ := remove_spec h hpos (by omega : line.length ≤ b.totalLen)
  have hleft : t.length ≤ b₁.totalLen := by
    rw [hconsumed.wellFormed.total_eq, hconsumed.content_eq, List.length_drop, ← h.total_eq]
    exact hlen
  obtain ⟨b₂, hdrain, hconsumed'⟩ := remove_spec hconsumed.wellFormed htpos hleft
  have hall := hconsumed.trans hconsumed'
  refine ⟨b₂, ?_, hall.wellFormed, hall.content_eq.trans hdrop⟩
  have hguard : ¬ ((true : Bool) = false ∨ n = 0) := by
    simp only [Bool.true_eq_false, false_or]
    omega
  have hroom : ¬ n < it.offsetOfBuffer := by
    rw [hoffset]
    exact Nat.not_lt.mpr hn
  have hu32 : u32 it.offsetOfBuffer = line.length := by
    rw [hoffset]
    exact u32_of_lt (by omega)
  rw [htake] at hremove
  rw [readLine, if_neg hguard]
  simp only [hbegin, heol, ok_bind, hvalid, Bool.true_eq_false, if_false, if_neg hroom, hu32,
    hremove, drain_eq hdrain, pure_eq_ok]

end Call

/-! ## Line after line -/

/-- A call that has read the next line, or has said that there is none. -/
def ReadsLine (e : Entry Buffer (EolStyle × UInt32) (Int × List Byte)) : Prop :=
  match e.input.1.nextLine e.before.content with
  | some (line, rest) => e.output = ((line.length : Int), line) ∧ e.after.content = rest
  | none => e.output = (-1, []) ∧ e.after = e.before

theorem readLineStep_reads {b : Buffer} (h : b.WellFormed) {call : EolStyle × UInt32}
    (hready : b.LineReady call) :
    ∃ o b', readLineStep call b = .ok (o, b') ∧ b'.WellFormed ∧ ReadsLine ⟨b, call, o, b'⟩ := by
  obtain ⟨hsearch, hline⟩ := hready
  cases hnext : call.1.nextLine b.content with
  | none =>
      refine ⟨(-1, []), b, ?_, h, ?_⟩
      · simp only [readLineStep, readLine_none h hsearch call.2.toNat hnext, ok_bind, pure_eq_ok]
      · simp only [ReadsLine, hnext, true_and]
  | some r =>
      obtain ⟨line, rest⟩ := r
      obtain ⟨hstyle, hne, hn, hstraight⟩ := hline (line, rest) hnext
      obtain ⟨b', hrun, hwf, hcontent⟩ :=
        readLine_some h hsearch hnext hstyle hne hn call.2.toNat_lt hstraight
      refine ⟨((line.length : Int), line), b', ?_, hwf, ?_⟩
      · simp only [readLineStep, hrun, ok_bind, pure_eq_ok]
      · simp only [ReadsLine, hnext, true_and]
        exact hcontent

/-- **Reading line after line**: where every call finds the buffer ready, the calls deliver the lines of
the content, one after the other, and every one takes its line and what ends it. -/
theorem readLine_lines {b : Buffer} (h : b.WellFormed) (calls : List (EolStyle × UInt32))
    (hready : Along readLineStep LineReady b calls) :
    ∃ history b', run readLineStep calls b = .ok (history, b') ∧
      history.map Entry.input = calls ∧
      history.map Entry.output = EolStyle.lines (calls.map Prod.fst) b.content ∧
      ∀ e ∈ history, ReadsLine e := by
  induction calls generalizing b with
  | nil => exact ⟨[], b, rfl, rfl, rfl, by simp⟩
  | cons call calls ih =>
      obtain ⟨hnow, hlater⟩ := hready
      obtain ⟨o, b₁, hstep, hwf, hreads⟩ := readLineStep_reads h hnow
      obtain ⟨history, b', hrun, hinputs, houtputs, hall⟩ := ih hwf (hlater o b₁ hstep)
      refine ⟨⟨b, call, o, b₁⟩ :: history, b', ?_, by rw [List.map_cons, hinputs], ?_,
        List.forall_mem_cons.mpr ⟨hreads, hall⟩⟩
      · rw [run, hstep, ok_bind]
        simp only [hrun, ok_bind, pure_eq_ok]
      · rw [List.map_cons, houtputs, List.map_cons, EolStyle.lines]
        simp only [ReadsLine] at hreads
        split at hreads
        · next line rest hnext =>
          obtain ⟨houtput, hcontent⟩ := hreads
          simp only [houtput, hcontent]
        · next hnext =>
          obtain ⟨houtput, hafter⟩ := hreads
          simp only [houtput, hafter]

end Buffer

/-! ## Two buffers with two lines -/

namespace Op

/-- `"a\nb\nc"` in one chain. -/
def oneChainLines : List (Allocator Addr × Op) :=
  [(.succMax, .appendT ⟨[97, 10, 98, 10, 99], by simp⟩)]

/-- The first call takes the first line. Then the chain is misaligned, and the second call does not see
that there is another one. -/
theorem readLine_stalls : ∃ r, run Op.step oneChainLines (Buffer.empty 0) = .ok r ∧
    ∃ r', run Buffer.readLineStep [(.lf, 9), (.lf, 9)] r.2 = .ok r' ∧
      r'.1.map Entry.output = [(1, [97]), (-1, [])] ∧
      EolStyle.lines [.lf, .lf] r.2.content = [(1, [97]), (1, [98])] := by
  decide +kernel

/-- `"a\n"` and `"b\nc"`, each in a chain of its own. -/
def twoChainLines : List (Allocator Addr × Op) :=
  [(.succMax, .appendMove ⟨chainOf [97, 10], chainOf_ok (by decide) (by decide)⟩),
    (.succMax, .appendMove ⟨chainOf [98, 10, 99], chainOf_ok (by decide) (by decide)⟩)]

theorem twoChainLines_fit : AllFit twoChainLines := by
  decide +kernel

theorem readLine_lines_twoChains :
    ∃ history b, run Op.step twoChainLines (Buffer.empty 0) = .ok (history, b) ∧
      ∃ lineHistory b', run Buffer.readLineStep [(.lf, 9), (.lf, 9), (.lf, 9)] b =
          .ok (lineHistory, b') ∧
        lineHistory.map Entry.input = [(.lf, 9), (.lf, 9), (.lf, 9)] ∧
        lineHistory.map Entry.output = EolStyle.lines [.lf, .lf, .lf] b.content ∧
        ∀ e ∈ lineHistory, Buffer.ReadsLine e := by
  obtain ⟨history, b, hrun, -, hinv, -⟩ := run_calls 0 twoChainLines twoChainLines_fit
  have hready : ∃ r, run Op.step twoChainLines (Buffer.empty 0) = .ok r ∧
      Along Buffer.readLineStep Buffer.LineReady r.2 [(.lf, 9), (.lf, 9), (.lf, 9)] := by
    decide +kernel
  obtain ⟨r, hrun', hready⟩ := hready
  rw [hrun] at hrun'
  cases hrun'
  exact ⟨history, b, hrun,
    Buffer.readLine_lines hinv.wellFormed [(.lf, 9), (.lf, 9), (.lf, 9)] hready⟩

end Op
end Unp.Reactor
