import Unp.Lib.Machine
import Unp.Lib.LinkedChain

/-!
# `buffer_chain`: one block of a buffer

A chain owns a calloc'd block of `capacity` bytes. The bytes between `misalign` and `off` are
its data; what lies before was consumed, what lies behind is free.

Each member function is translated as it stands, with `uint32_t` arithmetic wrapped where the
source can wrap, in the monad `Res`: a `memcpy` that leaves the block is a fault. The second
half of the file is the specification of each of them on chains that satisfy `Ok`.
-/

namespace Unp.Reactor

open Unp.Machine

abbrev Byte := UInt8

/-- Addresses of list nodes and of buffers. -/
abbrev Addr := Nat

structure BufferChain where
  buffer : List Byte
  capacity : Nat
  off : Nat
  next : Option Addr
  parent : Option Addr
  misalign : Nat
  deriving Repr, DecidableEq

/-- `buffer_iter`. -/
structure BufferIter where
  buffer : Option Addr
  chain : Option Addr
  offsetOfBuffer : Nat
  chainNumber : Nat
  offsetOfChain : Nat
  deriving Repr, DecidableEq

/-- `buffer_iter::NULL_ITER`. -/
def BufferIter.nullIter : BufferIter := ⟨none, none, 0, 0, 0⟩

def defaultChainSize : Nat := 1024

def maximumChainSize : Nat := 2 ^ 32 - 1

def maximumSizeWhenExpand : Nat := 4096

def calloc (n : Nat) : List Byte := List.replicate n 0

namespace BufferChain

/-! ## The code -/

/-- `while (to_alloc < given) to_alloc <<= 1;` -/
def doubleUntil : Nat → Nat → Nat → Nat
  | 0, toAlloc, _ => toAlloc
  | fuel + 1, toAlloc, given =>
      if toAlloc < given then doubleUntil fuel (u32 (2 * toAlloc)) given else toAlloc

/-- From 1024 the loop reaches `2 ^ 31` after 21 doublings, so its test is evaluated at most 22
times (`doubleUntil_eq_pow`). -/
def calculateActualCapacity (given : Nat) : Nat :=
  if given < maximumChainSize / 2 then doubleUntil 22 defaultChainSize given else given

def size (c : BufferChain) : Nat := subU32 c.off c.misalign

def chainFreeSpace (c : BufferChain) : Nat := subU32 c.capacity c.off

/-- `buffer_chain(buffer* parent, uint32_t capacity)`. -/
def new (parent : Option Addr) (capacity : Nat) : BufferChain :=
  let capacity := if capacity = 0 then defaultChainSize else calculateActualCapacity capacity
  { buffer := calloc capacity, capacity, off := 0, next := none, parent, misalign := 0 }

/-- The copy constructor. -/
def copyOf (other : BufferChain) : Res BufferChain := do
  let capacity := calculateActualCapacity other.capacity
  let src ← readMem other.buffer other.misalign other.size
  let buffer ← memcpy (calloc capacity) 0 src
  pure { buffer, capacity, off := other.size, next := other.next, parent := other.parent,
         misalign := 0 }

/-- `operator=(const buffer_chain&)` onto a different chain. -/
def copyAssign (c other : BufferChain) : Res BufferChain := do
  let c := if c.capacity < other.capacity then
      { c with capacity := other.capacity, buffer := calloc other.capacity } else c
  let src ← readMem other.buffer other.misalign other.size
  let buffer ← memcpy c.buffer 0 src
  pure { c with buffer, next := other.next, off := other.size, parent := other.parent,
                misalign := 0 }

def realloc (c : BufferChain) (size : Nat) : Res BufferChain :=
  if c.capacity < size then do
    let len := subU32 c.off c.misalign
    let buffer ← if 0 < len then do
        let src ← readMem c.buffer c.misalign len
        memcpy (calloc size) 0 src
      else pure (calloc size)
    pure { c with buffer, misalign := 0, off := len, capacity := size }
  else pure c

/-- Bounds-checked `memcpy(buffer_ + off_, ...)` followed by `off_ += len`, the common end of
all `append` overloads. -/
def write (c : BufferChain) (src : List Byte) : Res BufferChain := do
  let buffer ← memcpy c.buffer c.off src
  pure { c with buffer, off := u32 (c.off + src.length) }

/-- `append(const buffer_chain&)`. -/
def appendChain (c chain : BufferChain) : Res (Nat × BufferChain) := do
  let size := chain.size
  let c ← if c.chainFreeSpace < size then
      c.realloc (calculateActualCapacity (u32 (size + c.size))) else pure c
  let src ← readMem chain.buffer chain.misalign size
  let c ← c.write src
  pure (size, c)

/-- `validate_iter`; `a` is the address of the chain itself. -/
def validateIter (c : BufferChain) (a : Addr) (it : BufferIter) : Bool :=
  it.chain = some a ∧ it.offsetOfChain < c.off ∧ c.misalign ≤ it.offsetOfChain

/-- `append(const buffer_chain&, uint32_t len, Iter start)` from the chain at address `a`. -/
def appendSlice (c : BufferChain) (a : Addr) (chain : BufferChain) (len : Nat)
    (start : BufferIter) : Res (Nat × BufferChain) :=
  if chain.size < len ∨ ¬ chain.validateIter a start ∨
      subU32 chain.off start.offsetOfChain < len then
    pure (0, c)
  else do
    let c ← if c.chainFreeSpace < len then
        c.realloc (calculateActualCapacity (u32 (len + c.size))) else pure c
    let src ← readMem chain.buffer start.offsetOfChain len
    let c ← c.write src
    pure (len, c)

/-- `append(const void* data, uint32_t data_len)`; `none` is the null pointer, `some block` the
memory the pointer points to. -/
def appendData (c : BufferChain) (data : Option (List Byte)) (dataLen : Nat) :
    Res (Int × BufferChain) :=
  match data with
  | none => pure (-1, c)
  | some block =>
      if dataLen = 0 then pure (-1, c)
      else do
        let c ← c.realloc (calculateActualCapacity (u32 (c.size + dataLen)))
        let src ← readMem block 0 dataLen
        let c ← c.write src
        pure (dataLen, c)

/-- `append<T>(const T&)`: the object representation `obj` of `sizeof(T)` bytes. -/
def appendT (c : BufferChain) (obj : List Byte) : Res (Int × BufferChain) :=
  if c.chainFreeSpace < obj.length then pure (-1, c)
  else do
    let c ← c.write obj
    pure (obj.length, c)

/-! ## Capacities -/

/-- The loop ends at the smallest of the powers that is large enough. -/
theorem doubleUntil_eq_pow {k fuel given : Nat} (hk : k + fuel = 32) (hk31 : k ≤ 31)
    (hg : given ≤ 2 ^ 31) :
    ∃ j, k ≤ j ∧ j ≤ 31 ∧ doubleUntil fuel (2 ^ k) given = 2 ^ j ∧ given ≤ 2 ^ j ∧
      (k < j → 2 ^ (j - 1) < given) := by
  induction fuel generalizing k with
  | zero => omega
  | succ fuel ih =>
      rw [doubleUntil]
      by_cases hlt : 2 ^ k < given
      · have hk30 : k < 31 := by
          by_contra hge
          obtain rfl : k = 31 := by omega
          omega
        -- doubling below `2 ^ 31` stays a power of two and does not wrap
        have hpow : 2 ^ (k + 1) ≤ 2 ^ 31 := Nat.pow_le_pow_right (by decide) hk30
        have hdouble : u32 (2 * 2 ^ k) = 2 ^ (k + 1) := by
          rw [← pow_succ', u32_of_lt (by omega)]
        obtain ⟨j, hkj, hj, huntil, hle, hleast⟩ := ih (k := k + 1) (by omega) hk30
        refine ⟨j, Nat.le_of_succ_le hkj, hj, ?_, hle, ?_⟩
        · rw [if_pos hlt, hdouble, huntil]
        · intro _
          rcases Nat.eq_or_lt_of_le hkj with rfl | hless
          · rwa [Nat.add_sub_cancel]
          · exact hleast hless
      · exact ⟨k, Nat.le_refl _, hk31, if_neg hlt, Nat.not_lt.mp hlt,
          fun hless => absurd hless (Nat.lt_irrefl k)⟩

theorem le_of_lt_limit {given : Nat} (hg : given < maximumChainSize / 2) : given ≤ 2 ^ 31 := by
  unfold maximumChainSize at hg
  omega

/-- Below the limit: a power of two from 1024 to `2 ^ 31`, and none smaller would do. -/
theorem calculateActualCapacity_eq_pow {given : Nat} (hg : given < maximumChainSize / 2) :
    ∃ j, 10 ≤ j ∧ j ≤ 31 ∧ calculateActualCapacity given = 2 ^ j ∧ given ≤ 2 ^ j ∧
      (10 < j → 2 ^ (j - 1) < given) := by
  rw [calculateActualCapacity, if_pos hg]
  exact @doubleUntil_eq_pow 10 22 given rfl (by decide) (le_of_lt_limit hg)

theorem calculateActualCapacity_of_le {given : Nat} (hg : maximumChainSize / 2 ≤ given) :
    calculateActualCapacity given = given := if_neg (Nat.not_lt.mpr hg)

theorem le_calculateActualCapacity (given : Nat) : given ≤ calculateActualCapacity given := by
  rcases Nat.lt_or_ge given (maximumChainSize / 2) with hg | hg
  · obtain ⟨j, -, -, hcalc, hle, -⟩ := calculateActualCapacity_eq_pow hg
    rwa [hcalc]
  · rw [calculateActualCapacity_of_le hg]

theorem calculateActualCapacity_lt {given : Nat} (hlt : given < 2 ^ 32) :
    calculateActualCapacity given < 2 ^ 32 := by
  rcases Nat.lt_or_ge given (maximumChainSize / 2) with hg | hg
  · obtain ⟨j, -, hj, hcalc, -⟩ := calculateActualCapacity_eq_pow hg
    rw [hcalc]
    exact Nat.pow_lt_pow_right (by decide) (Nat.lt_succ_of_le hj)
  · rwa [calculateActualCapacity_of_le hg]

/-! ## Chains in good order -/

/-- The block has `capacity` bytes and the data lies inside it. -/
structure Ok (c : BufferChain) : Prop where
  misalign_le : c.misalign ≤ c.off
  off_le : c.off ≤ c.capacity
  length_buffer : c.buffer.length = c.capacity
  capacity_lt : c.capacity < 2 ^ 32

/-- The bytes `[misalign, off)`. -/
def data (c : BufferChain) : List Byte := slice c.buffer c.misalign (c.off - c.misalign)

section Ok
variable {c : BufferChain}

theorem Ok.size_eq (h : c.Ok) : c.size = c.off - c.misalign :=
  subU32_of_le h.misalign_le (Nat.lt_of_le_of_lt h.off_le h.capacity_lt)

theorem Ok.chainFreeSpace_eq (h : c.Ok) : c.chainFreeSpace = c.capacity - c.off :=
  subU32_of_le h.off_le h.capacity_lt

theorem Ok.length_data (h : c.Ok) : c.data.length = c.off - c.misalign := by
  have h₁ := h.misalign_le
  have h₂ := h.off_le
  have h₃ := h.length_buffer
  exact length_slice (by omega)

theorem Ok.length_data_le (h : c.Ok) : c.data.length ≤ c.capacity := by
  rw [h.length_data]
  exact Nat.le_trans (Nat.sub_le _ _) h.off_le

/-- The data fits into the block of a copy. -/
theorem Ok.length_data_le_actual (h : c.Ok) :
    c.data.length ≤ calculateActualCapacity c.capacity :=
  Nat.le_trans h.length_data_le (le_calculateActualCapacity c.capacity)

/-- The normal form of `size` below is the length of the data. -/
theorem Ok.size_eq_length (h : c.Ok) : c.size = c.data.length := by
  rw [h.length_data, h.size_eq]

/-- Consuming bytes at the front only moves `misalign_`. -/
theorem Ok.misalign_advance (h : c.Ok) {n : Nat} (hn : n < c.data.length) :
    u32 (c.misalign + n) = c.misalign + n := by
  have hlen := h.length_data
  have hoff := h.off_le
  have hcap := h.capacity_lt
  exact u32_of_lt (by omega)

theorem Ok.data_advance (h : c.Ok) {n : Nat} (hn : n < c.data.length) :
    data { c with misalign := u32 (c.misalign + n) } = c.data.drop n := by
  rw [h.misalign_advance hn, data, data, drop_slice, Nat.sub_add_eq]

/-- The data of a chain can be read. -/
theorem Ok.readMem_data (h : c.Ok) :
    readMem c.buffer c.misalign c.data.length = .ok c.data := by
  have h₁ := h.misalign_le
  have h₂ := h.off_le
  have h₃ := h.length_buffer
  rw [h.length_data, readMem_ok (by omega)]
  rfl

end Ok

/-! ## A fresh chain -/

theorem new_capacity {n : Nat} (parent : Option Addr) (hn : 1 ≤ n) :
    (new parent n).capacity = calculateActualCapacity n := by
  simp [new, Nat.ne_of_gt hn]

theorem new_ok {n : Nat} (parent : Option Addr) (hn : 1 ≤ n) (hlt : n < 2 ^ 32) :
    (new parent n).Ok where
  misalign_le := Nat.le_refl _
  off_le := Nat.zero_le _
  length_buffer := by simp [new, calloc]
  capacity_lt := by
    rw [new_capacity parent hn]
    exact calculateActualCapacity_lt hlt

@[simp] theorem data_new (parent : Option Addr) (n : Nat) : (new parent n).data = [] := by
  simp [new, data]

/-! ## Growing a chain -/

/-- `c'` holds the data of `c` followed by `src`, in the same place of the list. -/
structure Grown (c c' : BufferChain) (src : List Byte) : Prop where
  ok : c'.Ok
  data_eq : c'.data = c.data ++ src
  next_eq : c'.next = c.next
  parent_eq : c'.parent = c.parent

/-- The state after `write`. -/
def written (c : BufferChain) (src : List Byte) : BufferChain :=
  { c with buffer := splice c.buffer c.off src, off := c.off + src.length }

theorem write_eq {c : BufferChain} {src : List Byte} (h : c.Ok)
    (hroom : c.off + src.length ≤ c.capacity) : c.write src = .ok (c.written src) := by
  have hcap := h.capacity_lt
  have hlen : c.off + src.length ≤ c.buffer.length := by rw [h.length_buffer]; exact hroom
  simp only [write, memcpy_ok hlen, ok_bind, pure_eq_ok, written]
  rw [u32_of_lt (by omega)]

theorem written_grown {c : BufferChain} (src : List Byte) (h : c.Ok)
    (hroom : c.off + src.length ≤ c.capacity) : Grown c (c.written src) src where
  ok :=
    { misalign_le := Nat.le_trans h.misalign_le (Nat.le_add_right _ _)
      off_le := hroom
      length_buffer := by
        rw [written, length_splice (by rw [h.length_buffer]; exact hroom)]
        exact h.length_buffer
      capacity_lt := h.capacity_lt }
  data_eq := slice_splice h.misalign_le (by rw [h.length_buffer]; exact hroom)
  next_eq := rfl
  parent_eq := rfl

/-! ## Moving the data to the front of a larger block -/

/-- The data of `c` at the start of a fresh block of `cap` bytes. -/
def compact (c : BufferChain) (cap : Nat) : BufferChain :=
  { c with buffer := splice (calloc cap) 0 c.data, capacity := cap, off := c.data.length,
           misalign := 0 }

theorem compact_ok {c : BufferChain} {cap : Nat} (hroom : c.data.length ≤ cap)
    (hcap : cap < 2 ^ 32) : (c.compact cap).Ok where
  misalign_le := Nat.zero_le _
  off_le := hroom
  length_buffer := by
    simp only [compact]
    rw [length_splice (by simpa [calloc] using hroom)]
    simp [calloc]
  capacity_lt := hcap

theorem data_compact {c : BufferChain} {cap : Nat} (hroom : c.data.length ≤ cap) :
    (c.compact cap).data = c.data := by
  have := @slice_splice _ (calloc cap) c.data 0 0 (Nat.le_refl 0) (by simpa [calloc] using hroom)
  simpa [compact, data] using this

theorem compact_grown {c : BufferChain} {cap : Nat} (hroom : c.data.length ≤ cap)
    (hcap : cap < 2 ^ 32) : Grown c (c.compact cap) [] where
  ok := compact_ok hroom hcap
  data_eq := by rw [data_compact hroom, List.append_nil]
  next_eq := rfl
  parent_eq := rfl

theorem memcpy_data {c : BufferChain} {cap : Nat} (hroom : c.data.length ≤ cap) :
    memcpy (calloc cap) 0 c.data = .ok (c.compact cap).buffer :=
  memcpy_ok (by simpa [calloc] using hroom)

theorem copyOf_eq {c : BufferChain} (h : c.Ok) :
    copyOf c = .ok (c.compact (calculateActualCapacity c.capacity)) := by
  have hroom := h.length_data_le_actual
  simp only [copyOf, h.size_eq_length, h.readMem_data, memcpy_data hroom, ok_bind, pure_eq_ok]
  rfl

/-- A copy has the same bytes. -/
theorem Ok.copyOf_reads {c : BufferChain} (h : c.Ok) :
    ∃ copy, copyOf c = .ok copy ∧ copy.size = c.data.length ∧
      readMem copy.buffer copy.misalign c.data.length = .ok c.data := by
  have hroom := h.length_data_le_actual
  have hok := compact_ok hroom (calculateActualCapacity_lt h.capacity_lt)
  have hread := hok.readMem_data
  rw [data_compact hroom] at hread
  exact ⟨_, copyOf_eq h, by rw [hok.size_eq_length, data_compact hroom], hread⟩

/-- Assigning to a fresh chain moves the data into the larger of the two blocks. -/
theorem copyAssign_new {c : BufferChain} {n : Nat} (parent : Option Addr) (h : c.Ok) :
    copyAssign (new parent n) c = .ok (c.compact (max (new parent n).capacity c.capacity)) := by
  have hroom : c.data.length ≤ max (new parent n).capacity c.capacity :=
    Nat.le_trans h.length_data_le (Nat.le_max_right _ _)
  have hblock : (if (new parent n).capacity < c.capacity then
      { new parent n with capacity := c.capacity, buffer := calloc c.capacity }
      else new parent n) =
      { new parent n with capacity := max (new parent n).capacity c.capacity,
                          buffer := calloc (max (new parent n).capacity c.capacity) } := by
    split
    · next hlt => rw [Nat.max_eq_right (Nat.le_of_lt hlt)]
    · next hge =>
      rw [Nat.max_eq_left (Nat.le_of_not_lt hge)]
      rfl
  simp only [copyAssign, hblock, h.size_eq_length, h.readMem_data, memcpy_data hroom, ok_bind,
    pure_eq_ok]
  rfl

theorem realloc_eq {c : BufferChain} {n : Nat} (h : c.Ok) (hlt : c.capacity < n) :
    c.realloc n = .ok (c.compact n) := by
  have hsize : subU32 c.off c.misalign = c.data.length := h.size_eq_length
  have hroom : c.data.length ≤ n := Nat.le_trans h.length_data_le (Nat.le_of_lt hlt)
  simp only [realloc, if_pos hlt, hsize]
  split
  · simp only [h.readMem_data, memcpy_data hroom, ok_bind, pure_eq_ok]
    rfl
  · next hnil =>
    have hdata : c.data = [] := List.length_eq_zero_iff.mp (by omega)
    simp [compact, hdata, splice]

/-! ## The `append` overloads -/

/-- With room behind the data, `append(const buffer_chain&)` copies in place. -/
theorem appendChain_eq {c chain : BufferChain} (h : c.Ok) (hchain : chain.Ok)
    (hroom : c.off + chain.data.length ≤ c.capacity) :
    c.appendChain chain = .ok (chain.data.length, c.written chain.data) := by
  have hfree : ¬ c.chainFreeSpace < chain.data.length := by
    rw [h.chainFreeSpace_eq]
    omega
  simp only [appendChain, hchain.size_eq_length, if_neg hfree, hchain.readMem_data, ok_bind,
    pure_eq_ok, write_eq h hroom]

/-- `append(const buffer_chain&, len, begin())` copies the first `len` bytes in place. -/
theorem appendSlice_eq {c chain : BufferChain} {a : Addr} {len : Nat} {start : BufferIter}
    (h : c.Ok) (hchain : chain.Ok) (hstart : start.chain = some a)
    (hoff : start.offsetOfChain = chain.misalign) (hpos : 0 < len)
    (hlen : len ≤ chain.data.length) (hroom : c.off + len ≤ c.capacity) :
    c.appendSlice a chain len start = .ok (len, c.written (chain.data.take len)) := by
  have hdata := hchain.length_data
  have hvalid : chain.validateIter a start = true := by
    simp only [validateIter, hstart, hoff, decide_eq_true_eq]
    exact ⟨trivial, by omega, Nat.le_refl _⟩
  have hguard : ¬ (chain.size < len ∨ ¬ chain.validateIter a start = true ∨
      subU32 chain.off start.offsetOfChain < len) := by
    have hsub : subU32 chain.off start.offsetOfChain = chain.size := by rw [hoff]; rfl
    rw [hsub, hchain.size_eq_length]
    simp only [hvalid, not_true_eq_false, false_or, or_self]
    omega
  have hfree : ¬ c.chainFreeSpace < len := by
    rw [h.chainFreeSpace_eq]
    omega
  have hread : readMem chain.buffer start.offsetOfChain len = .ok (chain.data.take len) := by
    have h₁ := hchain.length_buffer
    have h₂ := hchain.off_le
    rw [hoff, readMem_ok (by omega), data, take_slice _ _ (by omega)]
  have htake : (chain.data.take len).length = len := by
    rw [List.length_take]
    omega
  simp only [appendSlice, if_neg hguard, if_neg hfree, hread, ok_bind, pure_eq_ok]
  rw [write_eq h (by rw [htake]; exact hroom)]
  rfl

/-- `append(const void*, len)` with room behind the data. The capacity it asks `realloc` for is
computed from `size`, not from `off`, so the block may be replaced although there is room. -/
theorem appendData_grown {c : BufferChain} {block : List Byte} (h : c.Ok) (hne : block ≠ [])
    (hroom : c.off + block.length ≤ c.capacity) :
    ∃ c', c.appendData (some block) block.length = .ok ((block.length : Int), c') ∧
      Grown c c' block := by
  have hcap := h.capacity_lt
  have hlen := h.length_data
  have hpos : block.length ≠ 0 := fun h0 => hne (List.length_eq_zero_iff.mp h0)
  have hread : readMem block 0 block.length = .ok block := by
    rw [readMem_ok (by omega)]
    simp [slice]
  have hneed : u32 (c.size + block.length) = c.data.length + block.length := by
    rw [h.size_eq_length, u32_of_lt (by omega)]
  simp only [appendData, if_neg hpos, hneed, hread, ok_bind, pure_eq_ok]
  generalize hwant : calculateActualCapacity (c.data.length + block.length) = want
  have hwant_ge : c.data.length + block.length ≤ want := hwant ▸ le_calculateActualCapacity _
  have hwant_lt : want < 2 ^ 32 := hwant ▸ calculateActualCapacity_lt (by omega)
  by_cases hgrow : c.capacity < want
  · have hok : (c.compact want).Ok := compact_ok (by omega) hwant_lt
    have hroom' : (c.compact want).off + block.length ≤ (c.compact want).capacity := hwant_ge
    refine ⟨(c.compact want).written block, ?_, ?_⟩
    · rw [realloc_eq h hgrow, ok_bind, write_eq hok hroom']
      rfl
    · have hw := written_grown _ hok hroom'
      exact ⟨hw.ok, by rw [hw.data_eq, data_compact (by omega)], hw.next_eq, hw.parent_eq⟩
  · refine ⟨c.written block, ?_, written_grown _ h hroom⟩
    simp only [realloc, if_neg hgrow, pure_eq_ok, ok_bind, write_eq h hroom]

theorem appendT_eq {c : BufferChain} {obj : List Byte} (h : c.Ok)
    (hroom : c.off + obj.length ≤ c.capacity) :
    c.appendT obj = .ok ((obj.length : Int), c.written obj) := by
  have hfree : ¬ c.chainFreeSpace < obj.length := by
    rw [h.chainFreeSpace_eq]
    omega
  simp only [appendT, if_neg hfree, write_eq h hroom, ok_bind, pure_eq_ok]

end BufferChain
end Unp.Reactor
