import Unp.Buffer.Chain

/-!
# `buffer`: a list of chains

`chains_` is a `std::list`, so its nodes have addresses that never change; next to the list
order there is a second one, the `next_` pointers inside the chains, and `last_chain_with_data_`
is a pointer into the list. All three are kept here as the source keeps them: a node is a pair of
its address and its chain, a pointer is an address, and following a pointer looks the address up
(a null or a dangling one is a fault).

Every member function that creates a list node takes the `Allocator` that names the new node.
The list operations of the standard library are the list operations of Lean.
-/

namespace Unp.Reactor

open Unp.Machine Unp.LinkedChain

/-- `self` is the address of the buffer object itself, what `this` is in the source. -/
structure Buffer where
  self : Addr
  chains : List (Addr × BufferChain)
  lastChainWithData : Option Addr
  totalLen : Nat
  deriving Repr, DecidableEq

/-- A `char*` into the block of a chain. -/
structure DataPtr where
  chain : Addr
  off : Nat
  deriving Repr, DecidableEq

namespace Buffer

/-- `buffer::buffer()`. -/
def empty (self : Addr) : Buffer := ⟨self, [], none, 0⟩

/-! ## Pointers -/

def getChain (b : Buffer) (a : Addr) : Res BufferChain :=
  match deref b.chains a with
  | some c => .ok c
  | none => .error .nullDeref

/-- A pointer that is about to be followed. -/
def nonNull : Option Addr → Res Addr
  | some a => .ok a
  | none => .error .nullDeref

def setChain (b : Buffer) (a : Addr) (c : BufferChain) : Buffer :=
  { b with chains := modifyAt a (fun _ => c) b.chains }

/-- `&chains_.back()`. -/
def back (b : Buffer) : Res Addr :=
  match lastAddr b.chains with
  | some a => .ok a
  | none => .error .emptyList

/-- `&chains_.front()`. -/
def front (b : Buffer) : Res Addr :=
  match headAddr b.chains none with
  | some a => .ok a
  | none => .error .emptyList

/-- The `n` bytes a data pointer points to. -/
def readAt (b : Buffer) (p : DataPtr) (n : Nat) : Res (List Byte) := do
  let c ← b.getChain p.chain
  readMem c.buffer p.off n

/-! ## Adding nodes -/

/-- `push_front`. -/
def pushFront (al : Allocator Addr) (b : Buffer) (chain : BufferChain) : Buffer :=
  let a := al.alloc (addrs b.chains)
  { b with chains := (a, { chain with next := headAddr b.chains none }) :: b.chains }

/-- `push_back(buffer_chain&&)`: on an empty list the `next_` of the new node is left alone. -/
def pushBack (al : Allocator Addr) (b : Buffer) (chain : BufferChain) : Buffer :=
  let a := al.alloc (addrs b.chains)
  match lastAddr b.chains with
  | none => { b with chains := [(a, chain)] }
  | some l =>
      { b with chains := modifyAt l (fun c => { c with next := some a }) b.chains ++
                           [(a, { chain with next := none })] }

/-- `free_trailing_empty_chains`. A round of the loop drops the last node with `pop_back` and then
steps back from it: `back_iter` is not valid any more. -/
def freeTrailingEmptyChains (b : Buffer) : Res (Option Addr × Buffer) :=
  if b.totalLen = 0 then pure (none, { b with chains := [] })
  else
    match b.lastChainWithData with
    | none => .error .outOfBounds
    | some a =>
        -- a pointer to no node lets the search run off the end of the list
        if a ∈ addrs b.chains then
          if (addrs b.chains).idxOf a + 1 < b.chains.length then .error .dangling
          else pure (some a, b)
        else .error .outOfBounds

/-- The case of `expand_if_needed` that leaves the last chain alone and adds a new one. -/
def pushNewChain (al : Allocator Addr) (b : Buffer) (dataLen : Nat) : Res (Addr × Buffer) := do
  let (_, b) ← b.freeTrailingEmptyChains
  let b := b.pushBack al (BufferChain.new (some b.self) dataLen)
  let a ← b.back
  pure (a, b)

/-- The case of `expand_if_needed` that replaces the last chain `lc` by a larger copy. -/
def resizeLastChain (al : Allocator Addr) (b : Buffer) (lc : BufferChain) (dataLen : Nat) :
    Res (Addr × Buffer) := do
  let lengthNeeded := u32 (lc.off + dataLen)
  let chainNewed ← (BufferChain.new (some b.self) lengthNeeded).copyAssign lc
  let b := { b with chains := b.chains.dropLast }
  let copy ← chainNewed.copyOf
  let b := b.pushBack al copy
  let a ← b.back
  pure (a, { b with lastChainWithData := some a })

def expandIfNeeded (al : Allocator Addr) (b : Buffer) (dataLen : Nat) : Res (Addr × Buffer) :=
  if b.totalLen = 0 then do
    let b := b.pushFront al (BufferChain.new (some b.self) dataLen)
    let a ← b.back
    pure (a, b)
  else do
    let lcPtr ← nonNull b.lastChainWithData
    let lc ← b.getChain lcPtr
    if dataLen ≤ lc.chainFreeSpace then pure (lcPtr, b)
    else if lc.chainFreeSpace < lc.capacity / 8 ∨ maximumSizeWhenExpand < lc.off ∨
        subU32 maximumChainSize lc.off ≤ dataLen then
      match lc.next with
      | none => b.pushNewChain al dataLen
      | some n => do
          let nextChain ← b.getChain n
          if dataLen < nextChain.chainFreeSpace then
            if nextChain.off = 0 then pure (n, b) else .error .assertion
          else b.pushNewChain al dataLen
    else b.resizeLastChain al lc dataLen

/-! ## Appending -/

/-- `append(const void* data, uint64_t data_len)`. -/
def appendData (al : Allocator Addr) (b : Buffer) (data : Option (List Byte)) (dataLen : Nat) :
    Res (Int × Buffer) :=
  if data = none ∨ dataLen = 0 then pure (-1, b)
  else do
    let (a, b) ← b.expandIfNeeded al (u32 dataLen)
    let c ← b.getChain a
    if c.chainFreeSpace < dataLen then pure (-1, b)
    else do
      let (_, c) ← c.appendData data (u32 dataLen)
      pure (dataLen, { b.setChain a c with
        totalLen := u64 (b.totalLen + dataLen), lastChainWithData := some a })

/-- `append<T>(const T& data)`; the result of `chain->append(data)` is not looked at. -/
def appendT (al : Allocator Addr) (b : Buffer) (obj : List Byte) : Res (Int × Buffer) := do
  let sizeNeeded := u32 obj.length
  let (a, b) ← b.expandIfNeeded al sizeNeeded
  let c ← b.getChain a
  let (_, c) ← c.appendT obj
  pure (sizeNeeded, { b.setChain a c with
    totalLen := u64 (b.totalLen + sizeNeeded), lastChainWithData := some a })

/-- `append(const buffer_chain&)` of a chain that is no node of this buffer. -/
def appendCopy (al : Allocator Addr) (b : Buffer) (chain : BufferChain) : Res (Int × Buffer) :=
  if chain.size = 0 then pure (0, b)
  else do
    let (a, b) ← b.expandIfNeeded al chain.size
    let c ← b.getChain a
    if c.chainFreeSpace < chain.size then .error .assertion
    else do
      let src ← readMem chain.buffer chain.misalign chain.size
      let c ← if b.lastChainWithData = some a then do
          let buffer ← memcpy c.buffer c.off src
          pure { c with buffer }
        else do
          match b.lastChainWithData with
          | none => pure ()
          | some l => do
              let lc ← b.getChain l
              if lc.next = some a then pure () else .error .assertion
          let buffer ← memcpy c.buffer 0 src
          pure { c with buffer }
      let c := { c with off := u32 (c.off + chain.size) }
      pure (chain.size, { b.setChain a c with
        lastChainWithData := some a, totalLen := u64 (b.totalLen + chain.size) })

/-- `append(buffer_chain&&)`. -/
def appendMove (al : Allocator Addr) (b : Buffer) (chain : BufferChain) : Res (Int × Buffer) :=
  if chain.size = 0 then pure (0, b)
  else do
    let (lastChain, b) ← match b.lastChainWithData with
      | some _ => b.freeTrailingEmptyChains
      | none => pure (none, b)
    let a := al.alloc (addrs b.chains)
    let moved := { chain with next := none, parent := some b.self }
    let chains ← match b.lastChainWithData with
      | some _ => do
          let l ← nonNull lastChain
          pure (modifyAt l (fun c => { c with next := some a }) b.chains ++ [(a, moved)])
      | none => pure (b.chains ++ [(a, moved)])
    pure (chain.size, { b with
      chains, lastChainWithData := some a, totalLen := u64 (b.totalLen + chain.size) })

/-! ## Consuming -/

/-- The loop of `remove`. `out` are the bytes copied so far; the loop head evaluates
`current_chain = next_chain, next_chain = current_chain->next()` after every full chain. -/
def removeLoop : Nat → Buffer → Addr → Option Addr → Nat → List Byte → Res (List Byte × Buffer)
  | 0, _, _, _, _, _ => .error .outOfFuel
  | fuel + 1, b, current, next, remain, out => do
      if remain = 0 then pure (out, b)
      else do
        let c ← b.getChain current
        if c.size ≤ remain then do
          if c.size = 0 then .error .assertion
          else do
            let bytes ← readMem c.buffer c.misalign c.size
            let remain := remain - c.size
            let b := { b with totalLen := subU64 b.totalLen c.size, chains := b.chains.tail }
            if b.lastChainWithData = some current then
              if remain = 0 then pure (out ++ bytes, { b with lastChainWithData := none })
              else .error .assertion
            else do
              let current ← nonNull next
              let c ← b.getChain current
              removeLoop fuel b current c.next remain (out ++ bytes)
        else do
          let bytes ← readMem c.buffer c.misalign remain
          pure (out ++ bytes,
            { b.setChain current { c with misalign := u32 (c.misalign + remain) } with
              totalLen := subU64 b.totalLen remain })

/-- `remove(void* data, uint32_t data_len)`; `nonNullOut` says that `data` is not null. The
result is the return value, the bytes stored through `data`, and the buffer. -/
def remove (b : Buffer) (nonNullOut : Bool) (dataLen : Nat) : Res (Int × List Byte × Buffer) :=
  if nonNullOut = false ∨ dataLen = 0 then pure (-1, [], b)
  else if b.lastChainWithData = none ∨ b.totalLen < dataLen then pure (-1, [], b)
  else do
    let current ← b.front
    let c ← b.getChain current
    let (out, b) ← removeLoop (b.chains.length + 1) b current c.next dataLen []
    pure (dataLen, out, b)

/-- `drain(uint32_t len)`: `remove` into a scratch block. -/
def drain (b : Buffer) (len : Nat) : Res (Int × Buffer) := do
  let (ret, _, b) ← b.remove true len
  pure (ret, b)

/-! ## Linearising -/

/-- The loop of `iter_of_chain`: it follows `next_` and adds up capacities. -/
def iterOfChainLoop (b : Buffer) (chain : Addr) : Nat → Option Addr → Nat → Res BufferIter
  | 0, _, _ => .error .outOfFuel
  | _ + 1, none, _ => pure BufferIter.nullIter
  | fuel + 1, some current, offsetOfBuffer => do
      let c ← b.getChain current
      if current = chain then pure ⟨some b.self, some current, offsetOfBuffer, 0, c.misalign⟩
      else iterOfChainLoop b chain fuel c.next (u32 (offsetOfBuffer + c.capacity))

def iterOfChain (b : Buffer) (chain : Addr) : Res BufferIter :=
  if b.totalLen = 0 then pure BufferIter.nullIter
  else do
    let a ← b.front
    iterOfChainLoop b chain (b.chains.length + 1) (some a) 0

/-- `buffer_chain::begin()`, which asks the parent buffer for the position of the chain. A parent
other than this buffer does not own the chain, so its search ends in `NULL_ITER`. -/
def chainBegin (b : Buffer) (a : Addr) (c : BufferChain) : Res BufferIter :=
  match c.parent with
  | none => .error .nullDeref
  | some p =>
      if p = b.self then do
        let it ← b.iterOfChain a
        pure ⟨some p, some a, it.offsetOfBuffer, 0, c.misalign⟩
      else pure ⟨some p, some a, 0, 0, c.misalign⟩

/-- The loop of `pullup`: whole chains are appended to the first one and erased. Returns what is
still to be moved and the chain it stopped at. -/
def pullupLoop : Nat → Buffer → Addr → Nat → Option Addr → Res (Nat × Option Addr × Buffer)
  | 0, _, _, _, _ => .error .outOfFuel
  | _ + 1, b, _, remain, none => pure (remain, none, b)
  | fuel + 1, b, first, remain, some current => do
      let c ← b.getChain current
      if c.size ≤ remain then
        if c.size = 0 then .error .assertion
        else do
          let fc ← b.getChain first
          let (_, fc) ← fc.appendChain c
          let b := b.setChain first { fc with next := c.next }
          -- `chains_.erase(++chains_.begin())`
          let b := { b with chains := b.chains.eraseIdx 1 }
          pullupLoop fuel b first (remain - c.size) c.next
      else pure (remain, some current, b)

/-- The part of `pullup` before the loop: unless the first chain `fc` has room behind its data, it
is replaced by a copy in a block for `size` bytes. -/
def pullupRoom (al : Allocator Addr) (b : Buffer) (fc : BufferChain) (size remain : Nat) :
    Res Buffer :=
  if remain ≤ fc.chainFreeSpace then pure b
  else do
    let chain ← (BufferChain.new (some b.self) (u32 size)).copyAssign fc
    let rest := b.chains.tail
    pure { b with chains := (al.alloc (addrs rest), chain) :: rest }

/-- The part of `pullup` behind the loop: the front of the chain the loop stopped at. -/
def pullupPart (b : Buffer) (first : Addr) (remain : Nat) (current : Option Addr) : Res Buffer :=
  if remain = 0 then pure b
  else do
    let cur ← nonNull current
    let c ← b.getChain cur
    let start ← b.chainBegin cur c
    let fc ← b.getChain first
    let (_, fc) ← fc.appendSlice cur c (u32 remain) start
    let b := b.setChain first fc
    pure (b.setChain cur { c with misalign := u32 (c.misalign + remain) })

/-- `pullup(int64_t size)`. The first comparison is between `int64_t` and `uint64_t`, so a
negative size counts as a huge one. -/
def pullup (al : Allocator Addr) (b : Buffer) (size : Int) : Res (Option DataPtr × Buffer) :=
  if size = 0 ∨ b.totalLen < u64OfInt size then pure (none, b)
  else do
    let size : Nat := if size < 0 then b.totalLen else size.toNat
    let first ← b.front
    let fc ← b.getChain first
    if size ≤ fc.size then pure (some ⟨first, fc.misalign⟩, b)
    else do
      let remain := size - fc.size
      let b ← b.pullupRoom al fc size remain
      let first ← b.front
      let fc ← b.getChain first
      let (remain, current, b) ← pullupLoop (b.chains.length + 1) b first remain fc.next
      let b ← b.pullupPart first remain current
      let b := { b with lastChainWithData :=
        if current.isSome then b.lastChainWithData else some first }
      let fc ← b.getChain first
      pure (some ⟨first, fc.misalign⟩, b)

/-- `read_T(T& t_out, uint32_t size)`: the return value and the bytes stored in `t_out`. -/
def readT (al : Allocator Addr) (b : Buffer) (size : Nat) : Res (Int × List Byte × Buffer) := do
  let (d, b) ← b.pullup al size
  match d with
  | none => pure (-1, [], b)
  | some p => do
      let bytes ← b.readAt p size
      pure (size, bytes, b)

end Buffer
end Unp.Reactor
