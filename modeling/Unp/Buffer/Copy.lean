import Unp.Buffer.Queue
import Mathlib.Data.List.Forall2

/-!
# Copying a buffer

The copy constructor and `operator=` copy the list of chains and then repair what was copied too
literally: `last_chain_with_data_` points into the source, and so does every `next_`. The
constructor repairs both, `operator=` only the first.

The repair of `last_chain_with_data_` ends at `&*chains_.end()` when there is no chain, which is
not null.
-/

namespace Unp.Reactor
namespace Buffer

open Unp.Machine Unp.LinkedChain BufferChain

/-! ## The code -/

/-- Copies of chains in new nodes. `live` are the addresses in use. -/
def copyChains (al : Allocator Addr) : List Addr → List (Addr × BufferChain) →
    Res (List (Addr × BufferChain))
  | _, [] => pure []
  | live, (_, c) :: other => do
      let copy ← c.copyOf
      let rest ← copyChains al (al.alloc live :: live) other
      pure ((al.alloc live, copy) :: rest)

/-- `chains_ = other.chains_`: the elements that are there are assigned to, the others are copied
into new nodes or erased. -/
def assignChains (al : Allocator Addr) (live : List Addr) : List (Addr × BufferChain) →
    List (Addr × BufferChain) → Res (List (Addr × BufferChain))
  | _, [] => pure []
  | [], q :: other => copyChains al live (q :: other)
  | (a, c) :: own, (_, d) :: other => do
      let c ← c.copyAssign d
      let rest ← assignChains al live own other
      pure ((a, c) :: rest)

/-- The loop of `update_last_chain_with_data`: two walks in step, the second one up to `last`.
`none` is `end()` of the first one. -/
def lastCopied (last : Option Addr) : List (Addr × BufferChain) → List (Addr × BufferChain) →
    Option Addr
  | [], _ => none
  | p :: _, [] => some p.1
  | p :: own, q :: other => if some q.1 = last then some p.1 else lastCopied last own other

/-- `update_last_chain_with_data`. `&*chains_.end()` lies in the header of the list, which is a part
of the buffer object. -/
def updateLastChainWithData (b other : Buffer) : Buffer :=
  let start := lastCopied other.lastChainWithData b.chains other.chains
  { b with lastChainWithData := some (start.getD b.self) }

def relink : List (Addr × BufferChain) → List (Addr × BufferChain)
  | [] => []
  | (a, c) :: rest => (a, { c with next := headAddr rest none }) :: relink rest

def updateNextFieldAfterCopy (b : Buffer) : Buffer :=
  if b.chains.length ≤ 1 then b else { b with chains := relink b.chains }

/-- `buffer(const buffer& other)`, at the address `self`. -/
def copyOf (al : Allocator Addr) (self : Addr) (other : Buffer) : Res Buffer := do
  let chains ← assignChains al (addrs other.chains) [] other.chains
  let b := updateLastChainWithData { empty self with chains } other
  pure { b.updateNextFieldAfterCopy with totalLen := other.totalLen }

/-- `operator=(const buffer& other)`. -/
def assign (al : Allocator Addr) (b other : Buffer) : Res Buffer :=
  if b.self = other.self then pure b
  else if other.totalLen = 0 then pure b
  else do
    let chains ← assignChains al (addrs b.chains ++ addrs other.chains) b.chains other.chains
    pure (updateLastChainWithData { b with chains, totalLen := other.totalLen } other)

/-! ## Copies of chains -/

/-- Every chain of `l` is a copy of the one at its place in `other`, pointers included. -/
def Copies (l other : List (Addr × BufferChain)) : Prop :=
  List.Forall₂ (fun p q => Grown q.2 p.2 []) l other

/-- The data of `d` at the start of some block. -/
theorem grown_of_block {d : BufferChain} {block : List Byte} (hroom : d.data.length ≤ block.length)
    (hlt : block.length < 2 ^ 32) :
    Grown d { d with buffer := splice block 0 d.data, capacity := block.length,
                     off := d.data.length, misalign := 0 } [] := by
  have hfits : 0 + d.data.length ≤ block.length := by omega
  refine ⟨⟨Nat.zero_le _, hroom, length_splice hfits, hlt⟩, ?_, rfl, rfl⟩
  have hslice := slice_splice (Nat.zero_le 0) hfits
  simpa [BufferChain.data] using hslice

/-- `operator=` of chains: the data goes into the block that is there, or into a larger one. -/
theorem copyAssign_grown {c d : BufferChain} (hc : c.Ok) (hd : d.Ok) :
    ∃ c', c.copyAssign d = .ok c' ∧ Grown d c' [] := by
  have hlen := hd.length_data
  have hoff := hd.off_le
  by_cases hsmall : c.capacity < d.capacity
  · have hroom : d.data.length ≤ (calloc d.capacity).length := by
      rw [calloc, List.length_replicate]
      omega
    refine ⟨_, ?_, grown_of_block hroom (by simpa [calloc] using hd.capacity_lt)⟩
    simp only [copyAssign, if_pos hsmall, hd.size_eq_length, hd.readMem_data, ok_bind, pure_eq_ok,
      memcpy_ok (by omega : 0 + d.data.length ≤ (calloc d.capacity).length)]
    simp [calloc]
  · have hroom : d.data.length ≤ c.buffer.length := by
      rw [hc.length_buffer]
      omega
    refine ⟨_, ?_, grown_of_block hroom (hc.length_buffer ▸ hc.capacity_lt)⟩
    simp only [copyAssign, if_neg hsmall, hd.size_eq_length, hd.readMem_data, ok_bind, pure_eq_ok,
      memcpy_ok (by omega : 0 + d.data.length ≤ c.buffer.length), hc.length_buffer]

theorem copyOf_grown {c : BufferChain} (h : c.Ok) :
    ∃ c', BufferChain.copyOf c = .ok c' ∧ Grown c c' [] := by
  have hroom := h.length_data_le_actual
  exact ⟨_, copyOf_eq h, compact_grown hroom (calculateActualCapacity_lt h.capacity_lt)⟩

/-- New nodes have new addresses. -/
theorem copyChains_spec (al : Allocator Addr) (live : List Addr)
    {other : List (Addr × BufferChain)} (hok : ∀ q ∈ other, q.2.Ok) :
    ∃ l, copyChains al live other = .ok l ∧ Copies l other ∧ (addrs l).Nodup ∧
      ∀ x ∈ addrs l, x ∉ live := by
  induction other generalizing live with
  | nil => exact ⟨[], rfl, .nil, List.nodup_nil, by simp⟩
  | cons q other ih =>
      obtain ⟨b, c⟩ := q
      obtain ⟨hc, hother⟩ := List.forall_mem_cons.mp hok
      obtain ⟨copy, hcopy, hgrown⟩ := copyOf_grown hc
      obtain ⟨l, hl, hcopies, hnd, hfresh⟩ := ih (al.alloc live :: live) hother
      refine ⟨(al.alloc live, copy) :: l, ?_, .cons hgrown hcopies, ?_, ?_⟩
      · simp only [copyChains, hcopy, hl, ok_bind, pure_eq_ok]
      · rw [addrs_cons, List.nodup_cons]
        exact ⟨fun hmem => hfresh _ hmem (by simp), hnd⟩
      · intro x hx
        rcases List.mem_cons.mp hx with rfl | hx
        · exact al.alloc_fresh live
        · exact fun hlive => hfresh x hx (List.mem_cons_of_mem _ hlive)

/-- Assigned nodes keep their addresses. -/
theorem assignChains_spec (al : Allocator Addr) (live : List Addr)
    {own other : List (Addr × BufferChain)} (hown : ∀ p ∈ own, p.2.Ok)
    (hother : ∀ q ∈ other, q.2.Ok) (hnd : (addrs own).Nodup) (hlive : ∀ x ∈ addrs own, x ∈ live) :
    ∃ l, assignChains al live own other = .ok l ∧ Copies l other ∧ (addrs l).Nodup ∧
      ∀ x ∈ addrs l, x ∈ addrs own ∨ x ∉ live := by
  induction own generalizing other with
  | nil =>
      cases other with
      | nil => exact ⟨[], rfl, .nil, List.nodup_nil, by simp⟩
      | cons q other =>
          obtain ⟨l, hl, hcopies, hnd', hfresh⟩ := copyChains_spec al live hother
          exact ⟨l, by simp only [assignChains, hl], hcopies, hnd', fun x hx => Or.inr (hfresh x hx)⟩
  | cons p own ih =>
      obtain ⟨a, c⟩ := p
      cases other with
      | nil => exact ⟨[], rfl, .nil, List.nodup_nil, by simp⟩
      | cons q other =>
          obtain ⟨b, d⟩ := q
          obtain ⟨hc, hown'⟩ := List.forall_mem_cons.mp hown
          obtain ⟨hd, hother'⟩ := List.forall_mem_cons.mp hother
          obtain ⟨hnotin, hnd'⟩ := List.nodup_cons.mp hnd
          obtain ⟨c', hassign, hgrown⟩ := copyAssign_grown hc hd
          obtain ⟨l, hl, hcopies, hndl, hfrom⟩ :=
            ih hown' hother' hnd' fun x hx => hlive x (List.mem_cons_of_mem _ hx)
          refine ⟨(a, c') :: l, ?_, .cons hgrown hcopies, ?_, ?_⟩
          · simp only [assignChains, hassign, hl, ok_bind, pure_eq_ok]
          · rw [addrs_cons, List.nodup_cons]
            refine ⟨fun hmem => ?_, hndl⟩
            rcases hfrom a hmem with hin | hout
            · exact hnotin hin
            · exact hout (hlive a (by simp))
          · intro x hx
            rcases List.mem_cons.mp hx with rfl | hx
            · exact Or.inl (by simp)
            · exact (hfrom x hx).imp_left (List.mem_cons_of_mem _)

section Copies
variable {l other : List (Addr × BufferChain)}

theorem Copies.bytes_eq (h : Copies l other) : bytes l = bytes other := by
  induction h with
  | nil => rfl
  | cons hgrown _ ih =>
      rw [bytes_cons, bytes_cons, ih, hgrown.data_eq, List.append_nil]

theorem Copies.good (h : Copies l other) (hgood : ∀ q ∈ other, GoodNode q) :
    ∀ p ∈ l, GoodNode p := by
  induction h with
  | nil => simp
  | cons hgrown _ ih =>
      obtain ⟨hq, hother⟩ := List.forall_mem_cons.mp hgood
      refine List.forall_mem_cons.mpr ⟨⟨hgrown.ok, ?_, ?_⟩, ih hother⟩
      · have hpos := hq.length_data_pos
        have hlen := hgrown.ok.length_data
        rw [hgrown.data_eq, List.append_nil] at hlen
        omega
      · rw [hgrown.parent_eq]
        exact hq.parent_isSome

/-- The two walks of `update_last_chain_with_data` end at the last nodes. -/
theorem Copies.lastCopied_eq (h : Copies l other) (hnd : (addrs other).Nodup) :
    lastCopied (lastAddr other) l other = lastAddr l := by
  induction h with
  | nil => rfl
  | @cons p q l' other' _ hrest ih =>
      obtain ⟨hnotin, hnd'⟩ := List.nodup_cons.mp hnd
      by_cases hnil : other' = []
      · subst hnil
        cases hrest
        simp [lastCopied, lastAddr]
      · have hl : l' ≠ [] := by
          rintro rfl
          cases hrest
          exact hnil rfl
        have hne : ¬ some q.1 = lastAddr other' := fun heq => hnotin (List.mem_of_getLast? heq.symm)
        rw [lastAddr_cons_of_ne_nil hnil, lastCopied, if_neg hne, lastAddr_cons_of_ne_nil hl, ih hnd']

end Copies

/-! ## Relinking -/

@[simp] theorem addrs_relink (l : List (Addr × BufferChain)) : addrs (relink l) = addrs l := by
  induction l with
  | nil => rfl
  | cons p l ih => rw [relink, addrs_cons, ih, addrs_cons]

@[simp] theorem bytes_relink (l : List (Addr × BufferChain)) : bytes (relink l) = bytes l := by
  induction l with
  | nil => rfl
  | cons p l ih =>
      rw [relink, bytes_cons, ih, bytes_cons]
      rfl

theorem headAddr_relink (l : List (Addr × BufferChain)) (e : Option Addr) :
    headAddr (relink l) e = headAddr l e := by
  cases l <;> rfl

theorem linkedTo_relink (l : List (Addr × BufferChain)) :
    LinkedTo BufferChain.next (relink l) none := by
  induction l with
  | nil => trivial
  | cons p l ih => exact ⟨by rw [headAddr_relink], ih⟩

theorem good_relink {l : List (Addr × BufferChain)} (h : ∀ p ∈ l, GoodNode p) :
    ∀ p ∈ relink l, GoodNode p := by
  induction l with
  | nil => simp [relink]
  | cons p l ih =>
      obtain ⟨hp, hl⟩ := List.forall_mem_cons.mp h
      exact List.forall_mem_cons.mpr ⟨hp.setNext _, ih hl⟩

/-! ## The copy constructor -/

/-- A list of copies, relinked when it has more than one node, is linked to its end: the pointer of
a single node is copied from a single node. -/
theorem Copies.linked {l other : List (Addr × BufferChain)} (h : Copies l other)
    (hlink : LinkedTo BufferChain.next other none) :
    LinkedTo BufferChain.next (if l.length ≤ 1 then l else relink l) none := by
  split
  · next hlen =>
    cases h with
    | nil => trivial
    | cons hgrown hrest =>
        cases hrest with
        | nil => exact ⟨hgrown.next_eq.trans hlink.1, trivial⟩
        | cons _ _ => simp at hlen
  · exact linkedTo_relink l

/-- **A copy of a buffer with bytes is a well-formed buffer with the same bytes.** -/
theorem copyOf_spec (al : Allocator Addr) (self : Addr) {b : Buffer} (h : b.WellFormed)
    (h0 : b.totalLen ≠ 0) :
    ∃ copy, b.copyOf al self = .ok copy ∧ copy.WellFormed ∧ copy.content = b.content := by
  obtain ⟨l, hl, hcopies, hnd, -⟩ := @assignChains_spec al (addrs b.chains) [] b.chains (by simp)
    (fun q hq => (h.good q hq).ok) List.nodup_nil (by simp)
  have hlast : lastCopied b.lastChainWithData l b.chains = lastAddr l := by
    rw [h.last_eq, hcopies.lastCopied_eq h.nodup]
  have hne : l ≠ [] := by
    rintro rfl
    cases hc : b.chains with
    | nil => exact h0 (by rw [h.total_eq, content, hc]; rfl)
    | cons q other =>
        rw [hc] at hcopies
        cases hcopies
  obtain ⟨z, hz⟩ : ∃ z, lastAddr l = some z :=
    Option.ne_none_iff_exists'.mp fun hnone => hne (lastAddr_eq_none.mp hnone)
  obtain ⟨l', hl'⟩ : ∃ l', l' = if l.length ≤ 1 then l else relink l := ⟨_, rfl⟩
  have haddrs : addrs l' = addrs l := by
    rw [hl']
    split
    · rfl
    · exact addrs_relink l
  have hbytes : bytes l' = b.content := by
    rw [hl', content, ← hcopies.bytes_eq]
    split
    · rfl
    · exact bytes_relink l
  have hgood : ∀ p ∈ l', GoodNode p := by
    rw [hl']
    split
    · exact hcopies.good h.good
    · exact good_relink (hcopies.good h.good)
  refine ⟨⟨self, l', some z, b.totalLen⟩, ?_, ?_, hbytes⟩
  · simp only [copyOf, hl, ok_bind, updateLastChainWithData, updateNextFieldAfterCopy, hlast, hz,
      Option.getD_some, pure_eq_ok, hl']
    split <;> rfl
  · exact
      { nodup := by
          change (addrs l').Nodup
          rw [haddrs]
          exact hnd
        linked := by
          change LinkedTo BufferChain.next l' none
          rw [hl']
          exact hcopies.linked h.linked
        good := hgood
        last_eq := by
          change some z = lastAddr l'
          rw [lastAddr, haddrs, ← hz]
          rfl
        total_eq := by
          change b.totalLen = (bytes l').length
          rw [hbytes, h.total_eq]
        total_lt := h.total_lt }

/-- A copy of a buffer without chains: `last_chain_with_data_` is not null. -/
theorem copyOf_empty (al : Allocator Addr) (self : Addr) {b : Buffer} (h : b.WellFormed)
    (h0 : b.totalLen = 0) : b.copyOf al self = .ok ⟨self, [], some self, 0⟩ := by
  simp only [copyOf, h.chains_eq_nil h0, assignChains, pure_eq_ok, ok_bind, empty,
    updateLastChainWithData, lastCopied, Option.getD_none, updateNextFieldAfterCopy,
    List.length_nil, Nat.zero_le, if_true, h0]

/-! ## `operator=` -/

/-- Two buffers and their nodes are different objects. -/
structure Separate (a b : Buffer) : Prop where
  self_ne : a.self ≠ b.self
  disjoint : ∀ x ∈ addrs a.chains, x ∉ addrs b.chains

/-- `a` has the bytes of `b`, in chains of its own. -/
structure Assigned (a b : Buffer) : Prop where
  content_eq : a.content = b.content
  total_eq : a.totalLen = b.totalLen
  linked : LinkedTo BufferChain.next a.chains none
  last_eq : a.lastChainWithData = lastAddr a.chains

/-- What `operator=` makes of a source with bytes. -/
theorem assign_eq (al : Allocator Addr) {a b : Buffer} (ha : a.WellFormed) (hb : b.WellFormed)
    (hsep : Separate a b) (h0 : b.totalLen ≠ 0) :
    ∃ l, a.assign al b = .ok { a with chains := l, totalLen := b.totalLen,
                                      lastChainWithData := lastAddr l } ∧
      Copies l b.chains ∧ ∀ x ∈ addrs l, x ∉ addrs b.chains := by
  obtain ⟨l, hl, hcopies, hnd, hfrom⟩ :=
    assignChains_spec al (addrs a.chains ++ addrs b.chains) (fun p hp => (ha.good p hp).ok)
      (fun q hq => (hb.good q hq).ok) ha.nodup fun x hx => List.mem_append_left _ hx
  have hlast : lastCopied b.lastChainWithData l b.chains = lastAddr l := by
    rw [hb.last_eq, hcopies.lastCopied_eq hb.nodup]
  have hne : l ≠ [] := by
    rintro rfl
    obtain ⟨x, c, rest, hc⟩ := hb.exists_cons h0
    rw [hc] at hcopies
    cases hcopies
  obtain ⟨z, hz⟩ : ∃ z, lastAddr l = some z :=
    Option.ne_none_iff_exists'.mp fun hnone => hne (lastAddr_eq_none.mp hnone)
  refine ⟨l, ?_, hcopies, fun x hx => ?_⟩
  · simp only [assign, if_neg hsep.self_ne, if_neg h0, hl, ok_bind, updateLastChainWithData, hlast,
      hz, Option.getD_some, pure_eq_ok]
  · rcases hfrom x hx with hin | hout
    · exact hsep.disjoint x hin
    · exact fun hmem => hout (List.mem_append_right _ hmem)

/-- The copied pointers link the copies exactly when there is nothing to link. -/
theorem Copies.linked_iff {l other : List (Addr × BufferChain)} (h : Copies l other)
    (hlink : LinkedTo BufferChain.next other none) (hapart : ∀ x ∈ addrs l, x ∉ addrs other) :
    LinkedTo BufferChain.next l none ↔ other.length ≤ 1 := by
  cases h with
  | nil => simp
  | @cons p q l other hgrown hrest =>
      cases hrest with
      | nil => exact iff_of_true ⟨hgrown.next_eq.trans hlink.1, trivial⟩ (by simp)
      | @cons p₂ q₂ l other _ _ =>
          refine iff_of_false (fun hl => ?_) (by simp)
          -- the pointer of the first copy still leads into the source
          have hnext : some p₂.1 = some q₂.1 := hl.1.symm.trans (hgrown.next_eq.trans hlink.1)
          refine hapart p₂.1 (by simp) ?_
          rw [Option.some.inj hnext]
          simp

/-- **When assignment is a copy**: the source has at most one chain, and if it is empty, so was the
target. -/
theorem assign_iff (al : Allocator Addr) {a b : Buffer} (ha : a.WellFormed) (hb : b.WellFormed)
    (hsep : Separate a b) :
    (∃ a', a.assign al b = .ok a' ∧ Assigned a' b) ↔
      b.chains.length ≤ 1 ∧ (b.content = [] → a.content = []) := by
  have htotal := hb.total_eq
  by_cases h0 : b.totalLen = 0
  · -- nothing is done
    have hnil : b.content = [] := List.length_eq_zero_iff.mp (by omega)
    have hrun : a.assign al b = .ok a := by
      simp only [assign, if_neg hsep.self_ne, if_pos h0, pure_eq_ok]
    constructor
    · rintro ⟨a', hrun', hassigned⟩
      rw [hrun] at hrun'
      cases hrun'
      exact ⟨by simp [hb.chains_eq_nil h0], fun _ => hassigned.content_eq.trans hnil⟩
    · rintro ⟨-, hempty⟩
      have hanil := hempty hnil
      refine ⟨a, hrun, hanil.trans hnil.symm, ?_, ha.linked, ha.last_eq⟩
      rw [ha.total_eq, hanil, htotal, hnil]
  · have hne : b.content ≠ [] := by
      intro hnil
      rw [hnil] at htotal
      exact h0 htotal
    obtain ⟨l, hrun, hcopies, hapart⟩ := assign_eq al ha hb hsep h0
    have hlinked := hcopies.linked_iff hb.linked hapart
    constructor
    · rintro ⟨a', hrun', hassigned⟩
      rw [hrun] at hrun'
      cases hrun'
      exact ⟨hlinked.mp hassigned.linked, fun hnil => absurd hnil hne⟩
    · rintro ⟨hone, -⟩
      exact ⟨_, hrun, hcopies.bytes_eq, rfl, hlinked.mpr hone, rfl⟩

end Buffer

namespace Op

open Unp.Machine Unp.LinkedChain Unp.Run BufferChain

/-- `copy` does what `b` does: it has its bytes, it satisfies the representation invariant, and a
sequence of calls on it returns what it returns on `b`. -/
structure Faithful (b copy : Buffer) : Prop where
  content_eq : copy.content = b.content
  represented : Represented copy
  same_results : ∀ calls calls' : List (Allocator Addr × Op),
    calls.map Prod.snd = calls'.map Prod.snd →
    Admissible (fun call q => call.2.queueStep q) Fits b.content calls →
    ∃ history history' s s', run step calls b = .ok (history, s) ∧
      run step calls' copy = .ok (history', s') ∧
      history.map Entry.output = history'.map Entry.output

/-- **When copying is faithful**: when there is something to copy. The chains of the copy keep `b` for
their parent, so this is about calls that are made while `b` lives. -/
theorem copy_faithful_iff {b : Buffer} (hb : Reachable b) (al : Allocator Addr) (self : Addr) :
    (∃ copy, b.copyOf al self = .ok copy ∧ Faithful b copy) ↔ b.content ≠ [] := by
  have hinv := hb.inv
  have htotal := hinv.wellFormed.total_eq
  by_cases h0 : b.totalLen = 0
  · have hnil : b.content = [] := List.length_eq_zero_iff.mp (by omega)
    refine iff_of_false ?_ fun hne => hne hnil
    rintro ⟨copy, hcopy, hfaith⟩
    rw [Buffer.copyOf_empty al self hinv.wellFormed h0] at hcopy
    cases hcopy
    exact absurd (hfaith.represented.last_null_iff.mpr rfl) (by simp)
  · have hne : b.content ≠ [] := by
      intro hnil
      rw [hnil] at htotal
      exact h0 htotal
    obtain ⟨copy, hcopy, hwf, hcontent⟩ := Buffer.copyOf_spec al self hinv.wellFormed h0
    have hinv' : Inv copy := by
      refine ⟨hwf, ?_⟩
      rw [hwf.total_eq, hcontent, ← htotal]
      exact hinv.short
    refine iff_of_true ⟨copy, hcopy, hcontent, represented_of_wellFormed hwf, ?_⟩ hne
    intro calls calls' hops hfits
    obtain ⟨history, s, hrun, hout⟩ := run_outcomes calls hinv hfits
    obtain ⟨history', s', hrun', hout'⟩ :=
      run_outcomes calls' hinv' (by rw [hcontent]; exact admissible_of_ops hops hfits)
    refine ⟨history, history', s, s', hrun, hrun', ?_⟩
    rw [hout, hout', hops, hcontent]

theorem copy_faithful_iff_twoChains : AllFit twoChainCalls ∧
    ∃ history b, run step twoChainCalls (Buffer.empty 0) = .ok (history, b) ∧
      b.chains.length = 2 ∧
      ((∃ copy, b.copyOf .succMax 9 = .ok copy ∧ Faithful b copy) ↔ b.content ≠ []) := by
  obtain ⟨history, b, hrun, -, -, hlen, -⟩ := twoChainCalls_run
  exact ⟨twoChainCalls_fit, history, b, hrun, hlen,
    copy_faithful_iff ⟨0, twoChainCalls, history, twoChainCalls_fit, hrun⟩ .succMax 9⟩

/-- A copy of the empty buffer has no chain and a last chain with data all the same; appending a
chain to it follows a null pointer. -/
theorem copy_of_empty_breaks :
    Reachable (Buffer.empty 0) ∧
    (∃ copy, (Buffer.empty 0).copyOf .succMax 9 = .ok copy ∧ ¬ Faithful (Buffer.empty 0) copy ∧
      copy.appendMove .succMax (chainOf [1]) = .error .nullDeref) ∧
    ∃ r, (Buffer.empty 0).appendMove .succMax (chainOf [1]) = .ok r ∧ r.1 = 1 := by
  refine ⟨⟨0, [], [], trivial, rfl⟩, ⟨⟨9, [], some 9, 0⟩, rfl, fun hfaith => ?_, ?_⟩, ?_⟩
  · exact absurd (hfaith.represented.last_null_iff.mpr rfl) (by simp)
  · decide +kernel
  · decide +kernel

/-! ## An assignment that keeps pointing into its source -/

theorem empty_separate {self : Addr} {b : Buffer} (h : self ≠ b.self) :
    Buffer.Separate (Buffer.empty self) b :=
  ⟨h, by simp [Buffer.empty]⟩

theorem assign_iff_twoChains :
    ∃ history b, run step twoChainCalls (Buffer.empty 0) = .ok (history, b) ∧
      ((∃ a', (Buffer.empty 9).assign .succMax b = .ok a' ∧ Buffer.Assigned a' b) ↔
        b.chains.length ≤ 1 ∧ (b.content = [] → (Buffer.empty 9).content = [])) := by
  obtain ⟨history, b, hrun, hwf, hself, -⟩ := twoChainCalls_run
  exact ⟨history, b, hrun, Buffer.assign_iff .succMax (Buffer.empty_wellFormed 9) hwf
    (empty_separate (by rw [hself]; decide))⟩

/-- The pointer of the first chain of the target leads to the second chain of the source. -/
theorem assign_keeps_source_links :
    ∃ history b, run step twoChainCalls (Buffer.empty 0) = .ok (history, b) ∧
      Buffer.Separate (Buffer.empty 9) b ∧
      ¬ ∃ a', (Buffer.empty 9).assign .succMax b = .ok a' ∧ Buffer.Assigned a' b := by
  obtain ⟨history, b, hrun, hwf, hself, hlen, -⟩ := twoChainCalls_run
  have hsep : Buffer.Separate (Buffer.empty 9) b := empty_separate (by rw [hself]; decide)
  refine ⟨history, b, hrun, hsep, ?_⟩
  rintro ⟨a', hassign, hassigned⟩
  have h0 : b.totalLen ≠ 0 := by
    intro h0
    rw [hwf.chains_eq_nil h0] at hlen
    simp at hlen
  obtain ⟨l, heq, hcopies, hapart⟩ :=
    Buffer.assign_eq .succMax (Buffer.empty_wellFormed 9) hwf hsep h0
  rw [heq] at hassign
  cases hassign
  have hone := (hcopies.linked_iff hwf.linked hapart).mp hassigned.linked
  omega

end Op
end Unp.Reactor
