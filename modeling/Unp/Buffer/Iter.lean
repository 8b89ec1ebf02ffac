import Unp.Buffer.Invariant

/-!
# Iterators

A `buffer_iter` names a byte twice: by its distance from the front of the buffer, and by a chain
and an offset into the block of that chain. `Denotes` says that the two agree. `begin()` denotes
byte 0; `operator+` keeps the two in step only as long as the chains it enters begin at offset 0 of
their block.
-/

namespace Unp.Reactor
namespace Buffer

open Unp.Machine Unp.LinkedChain BufferChain

/-! ## The code -/

/-- `buffer::begin()`. -/
def beginIter (b : Buffer) : Res BufferIter := do
  let a ← b.front
  let c ← b.getChain a
  pure ⟨some b.self, some a, 0, 0, c.misalign⟩

/-- `buffer::end()`, which is behind the last byte. -/
def endIter (b : Buffer) : Res BufferIter := do
  let l ← nonNull b.lastChainWithData
  let c ← b.getChain l
  pure ⟨some b.self, some l, b.totalLen, 0, c.off⟩

/-- The loop of `operator+`, at the chain `a` in which `can` steps can be made. Returns the steps
that are left for the chain it stops at. -/
def forwardLoop (b : Buffer) : Nat → Addr → Nat → Nat → BufferIter → Res (Nat × BufferIter)
  | 0, _, _, _, _ => .error .outOfFuel
  | fuel + 1, a, can, remain, it =>
      if b.lastChainWithData ≠ some a ∧ can < remain then do
        let c ← b.getChain a
        let n ← nonNull c.next
        let c ← b.getChain n
        forwardLoop b fuel n c.off (remain - can)
          { it with chain := some n, chainNumber := u32 (it.chainNumber + 1), offsetOfChain := 0 }
      else pure (remain, it)

/-- `buffer_iter::operator+(uint32_t forward_steps)` of an iterator into `b`. The difference of two
`uint32_t` is never negative, so that its `assert` can not fail. -/
def forward (b : Buffer) (it : BufferIter) (forwardSteps : Nat) : Res BufferIter :=
  if forwardSteps = 0 then pure it
  else if it.buffer = none then .error .nullDeref
  else if u32 (subU64 b.totalLen it.offsetOfBuffer) < forwardSteps then do
    let l ← nonNull b.lastChainWithData
    let c ← b.getChain l
    pure { it with chain := some l, offsetOfChain := c.off, offsetOfBuffer := b.totalLen,
                   chainNumber := 0 }
  else do
    let a ← nonNull it.chain
    let c ← b.getChain a
    let (remain, stop) ← forwardLoop b (b.chains.length + 1) a (subU32 c.off it.offsetOfChain)
      forwardSteps it
    pure { stop with offsetOfChain := u32 (stop.offsetOfChain + remain),
                     offsetOfBuffer := u64 (stop.offsetOfBuffer + forwardSteps) }

/-- The loop of `buffer::validate_iter`. The chain that is found is the one the iterator names, so
that the comparisons of its fields with themselves hold. -/
def validateIterLoop (b : Buffer) (it : BufferIter) : Nat → Option Addr → Res Bool
  | 0, _ => .error .outOfFuel
  | _ + 1, none => if it.chain = none then .error .nullDeref else pure false
  | fuel + 1, some current =>
      if it.chain = some current then pure true
      else do
        let c ← b.getChain current
        validateIterLoop b it fuel c.next

/-- `buffer::validate_iter`. -/
def validateIter (b : Buffer) (it : BufferIter) : Res Bool :=
  if it.buffer ≠ some b.self then pure false
  else do
    let a ← b.front
    validateIterLoop b it (b.chains.length + 1) (some a)

/-! ## Finding a chain -/

/-- What `iter_of_chain` takes for the bytes in front of a chain: the capacities of the chains
there, in `uint32_t`. -/
def capacities (l : List (Addr × BufferChain)) (start : Nat) : Nat :=
  l.foldl (fun n p => u32 (n + p.2.capacity)) start

section Find
variable {b : Buffer} {pre post : List (Addr × BufferChain)} {a : Addr} {c : BufferChain}

/-- The walk along `next_`, from behind the nodes `seen` on. -/
theorem iterOfChainLoop_eq (fuel : Nat) {seen : List (Addr × BufferChain)}
    (hc : b.chains = seen ++ (pre ++ (a, c) :: post)) (hnd : (addrs b.chains).Nodup)
    (hlink : LinkedTo BufferChain.next b.chains none) (hfuel : pre.length + 1 ≤ fuel)
    (start : Nat) :
    iterOfChainLoop b a fuel (headAddr (pre ++ (a, c) :: post) none) start =
      .ok ⟨some b.self, some a, capacities pre start, 0, c.misalign⟩ := by
  induction fuel generalizing seen pre start with
  | zero => omega
  | succ fuel ih =>
      cases pre with
      | nil =>
          rw [List.nil_append, headAddr_cons, iterOfChainLoop, getChain_split hc hnd, ok_bind,
            if_pos rfl]
          rfl
      | cons p pre =>
          obtain ⟨a₀, c₀⟩ := p
          have hne : a₀ ≠ a := by
            rintro rfl
            rw [hc, addrs_append, List.nodup_append'] at hnd
            simp at hnd
          rw [List.cons_append, headAddr_cons, iterOfChainLoop, getChain_split hc hnd, ok_bind,
            if_neg hne, next_split hc hlink]
          have hc' : b.chains = (seen ++ [(a₀, c₀)]) ++ (pre ++ (a, c) :: post) := by
            rw [hc]
            simp
          exact ih hc' (by simp only [List.length_cons] at hfuel; omega) _

/-- Where a walk over the list begins, and how far it is to the chain. -/
theorem front_split (hc : b.chains = pre ++ (a, c) :: post) :
    ∃ first, b.front = .ok first ∧ some first = headAddr (pre ++ (a, c) :: post) none ∧
      pre.length + 1 ≤ b.chains.length + 1 := by
  obtain ⟨p, l, hcons⟩ := exists_cons_of_split hc
  refine ⟨p.1, by simp [front, hcons], by rw [← hc, hcons, headAddr_cons], ?_⟩
  rw [hc, List.length_append]
  omega

theorem iterOfChain_eq (h0 : b.totalLen ≠ 0) (hc : b.chains = pre ++ (a, c) :: post)
    (hnd : (addrs b.chains).Nodup) (hlink : LinkedTo BufferChain.next b.chains none) :
    b.iterOfChain a = .ok ⟨some b.self, some a, capacities pre 0, 0, c.misalign⟩ := by
  obtain ⟨first, hfront, hhead, hlen⟩ := front_split hc
  rw [iterOfChain, if_neg h0, hfront, ok_bind, hhead]
  exact iterOfChainLoop_eq _ (show b.chains = [] ++ _ from hc) hnd hlink hlen 0

/-- `buffer_chain::begin()` names the first byte of the chain, whichever buffer it asks for the
position of the chain. -/
theorem chainBegin_eq (h0 : b.totalLen ≠ 0) (hc : b.chains = pre ++ (a, c) :: post)
    (hnd : (addrs b.chains).Nodup) (hlink : LinkedTo BufferChain.next b.chains none)
    (hparent : c.parent.isSome) :
    ∃ start, b.chainBegin a c = .ok start ∧ start.chain = some a ∧
      start.offsetOfChain = c.misalign := by
  obtain ⟨owner, howner⟩ := Option.isSome_iff_exists.mp hparent
  by_cases hself : owner = b.self
  · refine ⟨⟨some owner, some a, capacities pre 0, 0, c.misalign⟩, ?_, rfl, rfl⟩
    simp only [chainBegin, howner, if_pos hself, iterOfChain_eq h0 hc hnd hlink, ok_bind,
      pure_eq_ok]
  · refine ⟨⟨some owner, some a, 0, 0, c.misalign⟩, ?_, rfl, rfl⟩
    simp only [chainBegin, howner, if_neg hself, pure_eq_ok]

/-- The walk of `validate_iter` finds every chain of the list. -/
theorem validateIterLoop_eq (fuel : Nat) {seen : List (Addr × BufferChain)} {it : BufferIter}
    (hc : b.chains = seen ++ (pre ++ (a, c) :: post)) (hnd : (addrs b.chains).Nodup)
    (hlink : LinkedTo BufferChain.next b.chains none) (hfuel : pre.length + 1 ≤ fuel)
    (hchain : it.chain = some a) :
    validateIterLoop b it fuel (headAddr (pre ++ (a, c) :: post) none) = .ok true := by
  induction fuel generalizing seen pre with
  | zero => omega
  | succ fuel ih =>
      cases pre with
      | nil => rw [List.nil_append, headAddr_cons, validateIterLoop, if_pos hchain, pure_eq_ok]
      | cons p pre =>
          obtain ⟨a₀, c₀⟩ := p
          have hne : ¬ it.chain = some a₀ := by
            rw [hchain, Option.some.injEq]
            rintro rfl
            rw [hc, addrs_append, List.nodup_append'] at hnd
            simp at hnd
          rw [List.cons_append, headAddr_cons, validateIterLoop, if_neg hne,
            getChain_split hc hnd, ok_bind, next_split hc hlink]
          have hc' : b.chains = (seen ++ [(a₀, c₀)]) ++ (pre ++ (a, c) :: post) := by
            rw [hc]
            simp
          exact ih hc' (by simp only [List.length_cons] at hfuel; omega)

theorem validateIter_eq {it : BufferIter} (hc : b.chains = pre ++ (a, c) :: post)
    (hnd : (addrs b.chains).Nodup) (hlink : LinkedTo BufferChain.next b.chains none)
    (hbuffer : it.buffer = some b.self) (hchain : it.chain = some a) :
    b.validateIter it = .ok true := by
  obtain ⟨first, hfront, hhead, hlen⟩ := front_split hc
  rw [validateIter, if_neg (not_not.mpr hbuffer), hfront, ok_bind, hhead]
  exact validateIterLoop_eq _ (show b.chains = [] ++ _ from hc) hnd hlink hlen hchain

end Find

end Buffer
end Unp.Reactor
