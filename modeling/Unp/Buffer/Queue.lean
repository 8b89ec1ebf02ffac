import Unp.Lib.Run
import Unp.Buffer.Append
import Unp.Buffer.Pullup

/-!
# A buffer is a FIFO queue of bytes

The abstract machine is a list of bytes: an `append` puts bytes at its end, `remove` and `drain`
take them from its front, `pullup` and `read_T` look at its front. `Op.step` runs the code,
`Op.queueStep` says what it is for, and every run of the first from an empty buffer is a run of
the second, whatever addresses the allocator hands out.
-/

namespace Unp.Reactor

open Unp.Machine Unp.LinkedChain Unp.Run

/-- A call on a buffer. Data pointers are not null, a chain that is appended belongs to no buffer
or to another one, and `pullup` is called with a non-negative size. -/
inductive Op where
  | appendData (data : { l : List Byte // l ≠ [] })
  | appendT (obj : { l : List Byte // l ≠ [] })
  | appendMove (chain : { c : BufferChain // c.Ok })
  | appendCopy (chain : { c : BufferChain // c.Ok })
  | remove (n : UInt32)
  | drain (n : UInt32)
  | pullup (n : Fin (2 ^ 63))
  | readT (n : UInt32)

/-- What a call returns: the number, and the bytes a caller can look at afterwards (stored through
an out pointer, or behind the returned pointer; `none` is the null pointer). -/
structure Outcome where
  ret : Int
  out : Option (List Byte)
  deriving Repr, DecidableEq

namespace Op

/-- The code. -/
def step (call : Allocator Addr × Op) (b : Buffer) : Res (Outcome × Buffer) :=
  match call with
  | (al, .appendData data) => do
      let (ret, b) ← b.appendData al (some data.1) data.1.length
      pure (⟨ret, none⟩, b)
  | (al, .appendT obj) => do
      let (ret, b) ← b.appendT al obj.1
      pure (⟨ret, none⟩, b)
  | (al, .appendMove chain) => do
      let (ret, b) ← b.appendMove al chain.1
      pure (⟨ret, none⟩, b)
  | (al, .appendCopy chain) => do
      let (ret, b) ← b.appendCopy al chain.1
      pure (⟨ret, none⟩, b)
  | (_, .remove n) => do
      let (ret, out, b) ← b.remove true n.toNat
      pure (⟨ret, some out⟩, b)
  | (_, .drain n) => do
      let (ret, b) ← b.drain n.toNat
      pure (⟨ret, none⟩, b)
  | (al, .pullup n) => do
      let (d, b) ← b.pullup al n.1
      match d with
      | none => pure (⟨0, none⟩, b)
      | some p => do
          let bytes ← b.readAt p n.1
          pure (⟨0, some bytes⟩, b)
  | (al, .readT n) => do
      let (ret, out, b) ← b.readT al n.toNat
      pure (⟨ret, some out⟩, b)

/-! ## The abstract queue -/

/-- The bytes an `append` adds. -/
def payload : Op → List Byte
  | .appendData data => data.1
  | .appendT obj => obj.1
  | .appendMove chain => chain.1.data
  | .appendCopy chain => chain.1.data
  | _ => []

/-- How many bytes a call asks for; `none` for the appending ones. -/
def wanted : Op → Option Nat
  | .remove n => some n.toNat
  | .drain n => some n.toNat
  | .pullup n => some n.1
  | .readT n => some n.toNat
  | _ => none

/-- A call that asks for nothing or for more than there is. -/
def Refused (op : Op) (q : List Byte) : Prop := ∃ n ∈ op.wanted, n = 0 ∨ q.length < n

instance (op : Op) (q : List Byte) : Decidable (op.Refused q) :=
  match h : op.wanted with
  | none => isFalse (by simp [Refused, h])
  | some n => decidable_of_iff (n = 0 ∨ q.length < n) (by simp [Refused, h])

/-- The queue after a call that is not refused. -/
def served (op : Op) (q : List Byte) : List Byte :=
  match op with
  | .remove n => q.drop n.toNat
  | .drain n => q.drop n.toNat
  | _ => q ++ op.payload

/-- The queue after a call. -/
def queueStep (op : Op) (q : List Byte) : List Byte :=
  if op.Refused q then q else op.served q

/-- What the call returns. -/
def queueOutcome (op : Op) (q : List Byte) : Outcome :=
  match op with
  | .remove n => if op.Refused q then ⟨-1, some []⟩ else ⟨n.toNat, some (q.take n.toNat)⟩
  | .drain n => if op.Refused q then ⟨-1, none⟩ else ⟨n.toNat, none⟩
  | .pullup n => if op.Refused q then ⟨0, none⟩ else ⟨0, some (q.take n.1)⟩
  | .readT n => if op.Refused q then ⟨-1, some []⟩ else ⟨n.toNat, some (q.take n.toNat)⟩
  | _ => ⟨op.payload.length, none⟩

/-- The contract of one call. -/
structure Meets (b : Buffer) (call : Allocator Addr × Op) (o : Outcome) (b' : Buffer) : Prop where
  outcome_eq : o = call.2.queueOutcome b.content
  content_eq : b'.content = call.2.queueStep b.content
  refused : call.2.Refused b.content → b' = b
  total_eq : b'.totalLen = b'.content.length

/-- The total length stays below `2 ^ 31`. -/
def Fits (q : List Byte) (call : Allocator Addr × Op) : Prop :=
  (call.2.queueStep q).length < 2 ^ 31

instance (q : List Byte) (call : Allocator Addr × Op) : Decidable (Fits q call) :=
  inferInstanceAs (Decidable (_ < _))

/-- The states the results below are about: well formed, and short. -/
structure Inv (b : Buffer) : Prop where
  wellFormed : b.WellFormed
  short : b.totalLen < 2 ^ 31

/-! ## One call -/

section Calls
variable {b b' : Buffer} {call : Allocator Addr × Op} {o : Outcome}

/-- What the two halves below show of every call. -/
def Simulates (b : Buffer) (call : Allocator Addr × Op) : Prop :=
  ∃ o b', step call b = .ok (o, b') ∧ Inv b' ∧ Meets b call o b' ∧
    b'.content = call.2.queueStep b.content

theorem not_refused_of_wanted_none {op : Op} (h : op.wanted = none) (q : List Byte) :
    ¬ op.Refused q := by
  simp [Refused, h]

/-- The bytes to be appended are fewer than `2 ^ 31`, together with those already there. -/
theorem payload_bounds (h : Inv b) (hfits : Fits b.content call)
    (hqueue : call.2.queueStep b.content = b.content ++ call.2.payload) :
    call.2.payload.length < 2 ^ 32 ∧ b.totalLen + call.2.payload.length < 2 ^ 64 := by
  have htotal := h.wellFormed.total_eq
  rw [Fits, hqueue, List.length_append] at hfits
  omega

/-- An `append` whose code meets `Appended` refines its abstract counterpart. -/
theorem simulates_append (h : Inv b) (hfits : Fits b.content call)
    (hwanted : call.2.wanted = none)
    (hserved : call.2.served b.content = b.content ++ call.2.payload)
    (hout : call.2.queueOutcome b.content = ⟨call.2.payload.length, none⟩)
    (hspec : call.2.payload.length < 2 ^ 32 → b.totalLen + call.2.payload.length < 2 ^ 64 →
      ∃ b', step call b = .ok (⟨call.2.payload.length, none⟩, b') ∧
        Buffer.Appended b b' call.2.payload) : Simulates b call := by
  have haccepted := not_refused_of_wanted_none hwanted b.content
  have hqueue : call.2.queueStep b.content = b.content ++ call.2.payload := by
    rw [queueStep, if_neg haccepted, hserved]
  obtain ⟨hlen, hsum⟩ := payload_bounds h hfits hqueue
  obtain ⟨b', hstep, happ⟩ := hspec hlen hsum
  have hcontent : b'.content = call.2.queueStep b.content := by rw [hqueue, happ.content_eq]
  refine ⟨_, b', hstep, ⟨happ.wellFormed, ?_⟩, ?_, hcontent⟩
  · rw [happ.wellFormed.total_eq, hcontent]
    exact hfits
  · exact
      { outcome_eq := hout.symm
        content_eq := hcontent
        refused := fun hrefused => absurd hrefused haccepted
        total_eq := happ.wellFormed.total_eq }

/-- A refused call leaves the buffer as it is. -/
theorem simulates_refused (h : Inv b) (href : call.2.Refused b.content)
    (hstep : step call b = .ok (call.2.queueOutcome b.content, b)) : Simulates b call := by
  have hcontent : b.content = call.2.queueStep b.content := by rw [queueStep, if_pos href]
  refine ⟨_, b, hstep, h, ?_, hcontent⟩
  exact
    { outcome_eq := rfl
      content_eq := hcontent
      refused := fun _ => rfl
      total_eq := h.wellFormed.total_eq }

/-- A call that is not refused. -/
theorem simulates_served (hwf : b'.WellFormed) (hacc : ¬ call.2.Refused b.content)
    (hfits : Fits b.content call)
    (hstep : step call b = .ok (call.2.queueOutcome b.content, b'))
    (hcontent : b'.content = call.2.queueStep b.content) : Simulates b call := by
  refine ⟨_, b', hstep, ⟨hwf, ?_⟩, ?_, hcontent⟩
  · rw [hwf.total_eq, hcontent]
    exact hfits
  · exact
      { outcome_eq := rfl
        content_eq := hcontent
        refused := fun h => absurd h hacc
        total_eq := hwf.total_eq }

/-- A call that wants `n` bytes: it is refused when there are not so many, and served otherwise. -/
theorem simulates_wanted (h : Inv b) (hfits : Fits b.content call) {n : Nat}
    (hwanted : call.2.wanted = some n)
    (hrefused : call.2.Refused b.content → n = 0 ∨ b.totalLen < n →
      step call b = .ok (call.2.queueOutcome b.content, b))
    (hserved : ¬ call.2.Refused b.content → 0 < n → n ≤ b.totalLen →
      ∃ b', step call b = .ok (call.2.queueOutcome b.content, b') ∧ b'.WellFormed ∧
        b'.content = call.2.served b.content) : Simulates b call := by
  have htotal := h.wellFormed.total_eq
  have hiff : call.2.Refused b.content ↔ n = 0 ∨ b.totalLen < n := by
    simp [Refused, hwanted, htotal]
  by_cases href : call.2.Refused b.content
  · exact simulates_refused h href (hrefused href (hiff.mp href))
  · have hn := mt hiff.mpr href
    obtain ⟨b', hstep, hwf, hcontent⟩ := hserved href (by omega) (by omega)
    apply simulates_served hwf href hfits hstep
    rw [hcontent, queueStep, if_neg href]

end Calls

/-- **Every call refines its abstract counterpart.** -/
theorem simulates (b : Buffer) (call : Allocator Addr × Op) (h : Inv b)
    (hfits : Fits b.content call) : Simulates b call := by
  have hwf := h.wellFormed
  have hshort := h.short
  obtain ⟨al, op⟩ := call
  cases op with
  | appendData data =>
      apply simulates_append h hfits rfl rfl rfl
      intro hlen hsum
      obtain ⟨b', hrun, happ⟩ := Buffer.appendData_spec al hwf data.2 hlen hsum
      exact ⟨b', by simp only [step, hrun, ok_bind, pure_eq_ok, payload], happ⟩
  | appendT obj =>
      apply simulates_append h hfits rfl rfl rfl
      intro hlen hsum
      obtain ⟨b', hrun, happ⟩ := Buffer.appendT_spec al hwf obj.2 hlen hsum
      exact ⟨b', by simp only [step, hrun, ok_bind, pure_eq_ok, payload], happ⟩
  | appendMove chain =>
      apply simulates_append h hfits rfl rfl rfl
      intro _ hsum
      obtain ⟨b', hrun, happ⟩ := Buffer.appendMove_spec al hwf chain.2 hsum
      exact ⟨b', by simp only [step, hrun, ok_bind, pure_eq_ok, payload], happ⟩
  | appendCopy chain =>
      apply simulates_append h hfits rfl rfl rfl
      intro _ hsum
      obtain ⟨b', hrun, happ⟩ := Buffer.appendCopy_spec al hwf chain.2 hsum
      exact ⟨b', by simp only [step, hrun, ok_bind, pure_eq_ok, payload], happ⟩
  | remove n =>
      refine simulates_wanted h hfits rfl (fun href hn => ?_) fun href hpos hle => ?_
      · simp only [step, Buffer.remove_refused hn, ok_bind, pure_eq_ok, queueOutcome, if_pos href]
      · obtain ⟨b', hrun, hcons⟩ := Buffer.remove_spec hwf hpos hle
        refine ⟨b', ?_, hcons.wellFormed, hcons.content_eq⟩
        simp only [step, hrun, ok_bind, pure_eq_ok, queueOutcome, if_neg href]
  | drain n =>
      refine simulates_wanted h hfits rfl (fun href hn => ?_) fun href hpos hle => ?_
      · simp only [step, Buffer.drain_eq (Buffer.remove_refused hn), ok_bind, pure_eq_ok,
          queueOutcome, if_pos href]
      · obtain ⟨b', hrun, hcons⟩ := Buffer.remove_spec hwf hpos hle
        refine ⟨b', ?_, hcons.wellFormed, hcons.content_eq⟩
        simp only [step, Buffer.drain_eq hrun, ok_bind, pure_eq_ok, queueOutcome, if_neg href]
  | pullup n =>
      have hlt := n.2
      refine simulates_wanted h hfits rfl (fun href hn => ?_) fun href hpos hle => ?_
      · simp only [step, Buffer.pullup_refused al (by omega) hn, ok_bind, pure_eq_ok, queueOutcome,
          if_pos href]
      · obtain ⟨p, b', hrun, hlin⟩ := Buffer.pullup_spec al hwf hpos hle (by omega)
        -- nothing is taken out: what is served is the queue itself
        refine ⟨b', ?_, hlin.wellFormed, hlin.content_eq.trans (List.append_nil _).symm⟩
        simp only [step, hrun, ok_bind, hlin.read_eq, pure_eq_ok, queueOutcome, if_neg href]
  | readT n =>
      have hlt := n.toNat_lt
      refine simulates_wanted h hfits rfl (fun href hn => ?_) fun href hpos hle => ?_
      · simp only [step, Buffer.readT_refused al (by omega) hn, ok_bind, pure_eq_ok, queueOutcome,
          if_pos href]
      · obtain ⟨p, b', hrun, hlin⟩ := Buffer.readT_spec al hwf hpos hle (by omega)
        refine ⟨b', ?_, hlin.wellFormed, hlin.content_eq.trans (List.append_nil _).symm⟩
        simp only [step, hrun, ok_bind, pure_eq_ok, queueOutcome, if_neg href]

/-! ## Runs -/

/-- Every call keeps the total length below `2 ^ 31`. -/
abbrev AllFit (calls : List (Allocator Addr × Op)) : Prop :=
  Admissible (fun call q => call.2.queueStep q) Fits [] calls

theorem empty_inv (self : Addr) : Inv (Buffer.empty self) :=
  ⟨Buffer.empty_wellFormed self, by simp [Buffer.empty]⟩

/-- The simulation rule at the calls of a buffer. -/
theorem run_calls (self : Addr) (calls : List (Allocator Addr × Op)) (hfits : AllFit calls) :
    ∃ history b, run step calls (Buffer.empty self) = .ok (history, b) ∧
      history.map Entry.input = calls ∧ Inv b ∧
      b.content = calls.foldl (fun q call => call.2.queueStep q) [] ∧
      (∀ e ∈ history, Inv e.after ∧ Meets e.before e.input e.output e.after) :=
  run_refines Buffer.content simulates calls (empty_inv self) hfits

/-- `b` is what some calls make of an empty buffer. -/
def Reachable (b : Buffer) : Prop :=
  ∃ self calls history, AllFit calls ∧ run step calls (Buffer.empty self) = .ok (history, b)

theorem Reachable.inv {b : Buffer} (h : Reachable b) : Inv b := by
  obtain ⟨self, calls, history, hfits, hrun⟩ := h
  obtain ⟨history', b', hrun', -, hinv, -⟩ := run_calls self calls hfits
  rw [hrun] at hrun'
  cases hrun'
  exact hinv

/-- What a sequence of calls returns on a queue. -/
def queueOutcomes : List Op → List Byte → List Outcome
  | [], _ => []
  | op :: ops, q => op.queueOutcome q :: queueOutcomes ops (op.queueStep q)

/-- What a sequence of calls returns depends on the content only, not on how it is laid out. -/
theorem run_outcomes (calls : List (Allocator Addr × Op)) {b : Buffer} (h : Inv b)
    (hfits : Admissible (fun call q => call.2.queueStep q) Fits b.content calls) :
    ∃ history b', run step calls b = .ok (history, b') ∧
      history.map Entry.output = queueOutcomes (calls.map Prod.snd) b.content := by
  induction calls generalizing b with
  | nil => exact ⟨[], b, rfl, rfl⟩
  | cons call calls ih =>
      obtain ⟨o, b₁, hstep, hinv, hmeets, hcontent⟩ := simulates b call h hfits.1
      obtain ⟨history, b', hrun, hout⟩ := ih hinv (hcontent ▸ hfits.2)
      refine ⟨⟨b, call, o, b₁⟩ :: history, b', ?_, ?_⟩
      · rw [run, hstep, ok_bind]
        simp only [hrun, ok_bind, pure_eq_ok]
      · rw [List.map_cons, hout, hcontent, hmeets.outcome_eq]
        rfl

/-- Where the nodes are allocated does not matter to the bound. -/
theorem admissible_of_ops {calls calls' : List (Allocator Addr × Op)} {q : List Byte}
    (hops : calls.map Prod.snd = calls'.map Prod.snd)
    (h : Admissible (fun call q => call.2.queueStep q) Fits q calls) :
    Admissible (fun call q => call.2.queueStep q) Fits q calls' := by
  induction calls generalizing calls' q with
  | nil =>
      rw [List.map_nil, eq_comm, List.map_eq_nil_iff] at hops
      rw [hops]
      trivial
  | cons call calls ih =>
      cases calls' with
      | nil => simp at hops
      | cons call' calls' =>
          rw [List.map_cons, List.map_cons, List.cons.injEq] at hops
          obtain ⟨hnow, hlater⟩ := h
          refine ⟨?_, ?_⟩
          · rw [Fits, ← hops.1]
            exact hnow
          · have hrest := ih hops.2 hlater
            simp only [hops.1] at hrest
            exact hrest

/-- **Refinement.** Whatever is called on an empty buffer, and wherever the nodes are allocated,
nothing goes wrong, every call returns what the queue of bytes returns and leaves what the queue
leaves. -/
theorem buffer_refines_queue (self : Addr) (calls : List (Allocator Addr × Op))
    (hfits : AllFit calls) :
    ∃ history b, run step calls (Buffer.empty self) = .ok (history, b) ∧
      history.map Entry.input = calls ∧
      (∀ e ∈ history, Meets e.before e.input e.output e.after) ∧
      b.content = calls.foldl (fun q call => call.2.queueStep q) [] ∧
      b.totalLen = b.content.length := by
  obtain ⟨history, b, hrun, hinputs, hinv, hcontent, hall⟩ := run_calls self calls hfits
  exact ⟨history, b, hrun, hinputs, fun e he => (hall e he).2, hcontent, hinv.wellFormed.total_eq⟩

/-- A chain as its constructor makes it, with some bytes in it. -/
def chainOf (data : List Byte) : BufferChain := (BufferChain.new none data.length).written data

theorem chainOf_ok {data : List Byte} (hne : data ≠ []) (hlt : data.length < 2 ^ 32) :
    (chainOf data).Ok := by
  have hpos : 1 ≤ data.length := List.length_pos_of_ne_nil hne
  refine (BufferChain.written_grown data (BufferChain.new_ok none hpos hlt) ?_).ok
  rw [BufferChain.new_capacity none hpos]
  exact (Nat.zero_add _).symm ▸ BufferChain.le_calculateActualCapacity _

/-- Some calls that walk through an append, a partial `remove`, a `pullup` and a refused `drain`. -/
def someCalls : List (Allocator Addr × Op) :=
  [(.succMax, .appendData ⟨[1, 2, 3], by simp⟩), (.succMax, .remove 2),
    (.succMax, .appendT ⟨[4, 5], by simp⟩), (.succMax, .pullup 2), (.succMax, .drain 9)]

theorem someCalls_fit : AllFit someCalls := by
  simp [AllFit, someCalls, Admissible, Fits, queueStep, served, Refused, wanted, payload]

theorem buffer_refines_queue_someCalls : AllFit someCalls ∧
    ∃ history b, run step someCalls (Buffer.empty 0) = .ok (history, b) ∧
      history.map Entry.input = someCalls ∧
      (∀ e ∈ history, Meets e.before e.input e.output e.after) ∧
      b.content = someCalls.foldl (fun q call => call.2.queueStep q) [] ∧
      b.totalLen = b.content.length :=
  ⟨someCalls_fit, buffer_refines_queue 0 someCalls someCalls_fit⟩

/-- Two chains. -/
def twoChainCalls : List (Allocator Addr × Op) :=
  [(.succMax, .appendMove ⟨chainOf [1, 2], chainOf_ok (by decide) (by decide)⟩),
    (.succMax, .appendMove ⟨chainOf [3], chainOf_ok (by decide) (by decide)⟩)]

theorem twoChainCalls_fit : AllFit twoChainCalls := by
  decide +kernel

theorem twoChainCalls_run :
    ∃ history b, run step twoChainCalls (Buffer.empty 0) = .ok (history, b) ∧
      b.WellFormed ∧ b.self = 0 ∧ b.chains.length = 2 ∧ b.content = [1, 2, 3] := by
  obtain ⟨history, b, hrun, -, hinv, hcontent, -⟩ := run_calls 0 twoChainCalls twoChainCalls_fit
  have hshape : ∃ r, run step twoChainCalls (Buffer.empty 0) = .ok r ∧
      r.2.self = 0 ∧ r.2.chains.length = 2 := by decide +kernel
  obtain ⟨r, hrun', hself, hlen⟩ := hshape
  rw [hrun] at hrun'
  cases hrun'
  refine ⟨history, b, hrun, hinv.wellFormed, hself, hlen, ?_⟩
  rw [hcontent]
  decide +kernel

/-! ## The representation -/

/-- `WellFormed`, field by field as the members of `buffer` see it. -/
structure Represented (b : Buffer) : Prop where
  nodes_distinct : (addrs b.chains).Nodup
  next_links : LinkedTo BufferChain.next b.chains none
  chain_bounds : ∀ p ∈ b.chains, p.2.misalign < p.2.off ∧ p.2.off ≤ p.2.capacity ∧
    p.2.buffer.length = p.2.capacity
  total_eq_sum : b.totalLen = (b.chains.map fun p => p.2.off - p.2.misalign).sum
  last_eq : b.lastChainWithData = lastAddr b.chains
  last_null_iff : b.lastChainWithData = none ↔ b.chains = []
  empty_iff : b.chains = [] ↔ b.totalLen = 0

theorem length_bytes {l : List (Addr × BufferChain)} (h : ∀ p ∈ l, GoodNode p) :
    (Buffer.bytes l).length = (l.map fun p => p.2.off - p.2.misalign).sum := by
  induction l with
  | nil => rfl
  | cons p l ih =>
      obtain ⟨a, c⟩ := p
      have hc : c.data.length = c.off - c.misalign := (h (a, c) (by simp)).ok.length_data
      rw [Buffer.bytes_cons, List.length_append, hc, List.map_cons, List.sum_cons,
        ih fun p hp => h p (List.mem_cons_of_mem _ hp)]

theorem represented_of_wellFormed {b : Buffer} (h : b.WellFormed) : Represented b where
  nodes_distinct := h.nodup
  next_links := h.linked
  chain_bounds := fun p hp =>
    ⟨(h.good p hp).misalign_lt, (h.good p hp).ok.off_le, (h.good p hp).ok.length_buffer⟩
  total_eq_sum := h.total_eq.trans (length_bytes h.good)
  last_eq := h.last_eq
  last_null_iff := by rw [h.last_eq, lastAddr_eq_none]
  empty_iff := by
    constructor
    · intro hnil
      rw [h.total_eq, Buffer.content, hnil]
      rfl
    · exact h.chains_eq_nil

/-- **The representation invariant** holds before the first call and after every one, and no call
leaves a block, follows a bad pointer or fails an `assert`: the run is not a fault. -/
theorem buffer_represented (self : Addr) (calls : List (Allocator Addr × Op))
    (hfits : AllFit calls) :
    Represented (Buffer.empty self) ∧
    ∃ history b, run step calls (Buffer.empty self) = .ok (history, b) ∧
      history.map Entry.input = calls ∧
      (∀ e ∈ history, Represented e.after) ∧ Represented b := by
  obtain ⟨history, b, hrun, hinputs, hinv, _, hall⟩ := run_calls self calls hfits
  exact ⟨represented_of_wellFormed (Buffer.empty_wellFormed self), history, b, hrun, hinputs,
    fun e he => represented_of_wellFormed (hall e he).1.wellFormed,
    represented_of_wellFormed hinv.wellFormed⟩

theorem buffer_represented_someCalls : AllFit someCalls ∧
    Represented (Buffer.empty 0) ∧
    ∃ history b, run step someCalls (Buffer.empty 0) = .ok (history, b) ∧
      history.map Entry.input = someCalls ∧
      (∀ e ∈ history, Represented e.after) ∧ Represented b :=
  ⟨someCalls_fit, buffer_represented 0 someCalls someCalls_fit⟩

end Op
end Unp.Reactor
