import Unp.Buffer.Append
import Unp.Buffer.Pullup

/-!
# `Decoder<T, int64_t>`: frames out of a buffer

A frame is an 8-byte length followed by that many bytes of a serialised message. The decoder keeps
its place between calls: a length it has already taken out of the buffer is remembered until the
payload has arrived.

Protobuf is a parameter, a function `parse` from bytes to messages. Comparisons between `uint64_t`
and `Len_T` are made on unsigned values, as in the source.
-/

namespace Unp.Reactor

open Unp.Machine Unp.LinkedChain

inductive DecodeState where
  | idle
  | lenDecoded
  | partialyParsed
  | completed
  | error
  deriving Repr, DecidableEq

structure Decoder (M : Type) where
  bytesParsed : Int
  bytesRemainToParse : Int
  state : DecodeState
  messLen : Int
  mesPtr : Option M
  deriving Repr, DecidableEq

/-- `sizeof(Len_T)`. -/
def sizeofLen : Nat := 8

/-- The `int64_t` whose object representation is `bs`. -/
def int64OfBytes (bs : List Byte) : Int :=
  if leNat bs < 2 ^ 63 then leNat bs else leNat bs - 2 ^ 64

/-- The conversion of an `int64_t` argument to the parameter type `int`. -/
def toInt (x : Int) : Int :=
  if x % 2 ^ 32 < 2 ^ 31 then x % 2 ^ 32 else x % 2 ^ 32 - 2 ^ 32

namespace Decoder
variable {M : Type}

/-- `Decoder()`. -/
def new : Decoder M := ⟨0, 0, .idle, 0, none⟩

def isCompleted (d : Decoder M) : Bool := d.state = .completed

def isError (d : Decoder M) : Bool := d.state = .error

def getMess (d : Decoder M) : Option M := d.mesPtr

/-- `reset()` leaves the decoder as it was constructed. -/
def reset (_ : Decoder M) : Decoder M := ⟨0, 0, .idle, 0, none⟩

def decodeLen (al : Allocator Addr) (d : Decoder M) (buf : Buffer) :
    Res (Int × Decoder M × Buffer) :=
  if buf.totalLen < sizeofLen then pure (0, d, buf)
  else do
    let (ret, bytes, buf) ← buf.readT al sizeofLen
    if ret ≠ sizeofLen then pure (0, { d with messLen := 0 }, buf)
    else do
      let messLen := int64OfBytes bytes
      let (_, buf) ← buf.drain sizeofLen
      pure (sizeofLen, { d with
        messLen, bytesParsed := d.bytesParsed + sizeofLen, bytesRemainToParse := messLen }, buf)

/-- `ParseFromArray(const void*, int)`; the caller passes an `int64_t`. -/
def parseFromArray (parse : List Byte → Option M) (buf : Buffer) (p : DataPtr) (size : Int) :
    Res (Option M) :=
  if toInt size < 0 then .error .outOfBounds
  else do
    let bytes ← buf.readAt p (toInt size).toNat
    pure (parse bytes)

def decodeRemain (parse : List Byte → Option M) (al : Allocator Addr) (d : Decoder M)
    (buf : Buffer) : Res (Int × Decoder M × Buffer) :=
  if buf.totalLen < u64OfInt d.bytesRemainToParse then pure (0, d, buf)
  else if d.messLen ≠ d.bytesRemainToParse then .error .assertion
  else do
    let (p, buf) ← buf.pullup al d.messLen
    match p with
    | none => pure (0, d, buf)
    | some p => do
        match ← parseFromArray parse buf p d.messLen with
        | none =>
            -- `state_ = ERROR` is overwritten by `reset()` at once
            pure (-1, d.reset, buf)
        | some m => do
            let (_, buf) ← buf.drain (u32 (u64OfInt d.messLen))
            pure (d.messLen, { d with
              mesPtr := some m, bytesParsed := d.bytesParsed + d.messLen
              bytesRemainToParse := d.bytesRemainToParse - d.messLen }, buf)

/-- The loop of `decode(buffer&)`; `bufLen` is the length the buffer had on entry. A `break` of the
`switch` that changes nothing makes the loop spin, which shows here as `outOfFuel`. -/
def decodeLoop (parse : List Byte → Option M) (al : Allocator Addr) :
    Nat → Nat → Int → Decoder M → Buffer → Res (Int × Decoder M × Buffer)
  | 0, _, _, _, _ => .error .outOfFuel
  | fuel + 1, bufLen, bytesParsed, d, buf =>
      if 0 < subU64 bufLen (u64OfInt bytesParsed) ∧ d.state ≠ .completed then
        match d.state with
        | .idle =>
            if bufLen < sizeofLen then decodeLoop parse al fuel bufLen bytesParsed d buf
            else do
              let (bytesParsed, d, buf) ← d.decodeLen al buf
              let d := if bytesParsed = sizeofLen then { d with state := .lenDecoded } else d
              decodeLoop parse al fuel bufLen bytesParsed d buf
        | .lenDecoded | .partialyParsed =>
            if subU64 bufLen (u64OfInt bytesParsed) < u64OfInt d.bytesRemainToParse then
              pure (bytesParsed, d, buf)
            else do
              let (n, d, buf) ← d.decodeRemain parse al buf
              let d := if d.bytesRemainToParse = 0 then { d with state := .completed } else d
              decodeLoop parse al fuel bufLen (bytesParsed + n) d buf
        | .completed => decodeLoop parse al fuel bufLen bytesParsed d buf
        | .error => pure (0, d, buf)
      else pure (bytesParsed, d, buf)

/-- `decode(buffer&)`. -/
def decode (parse : List Byte → Option M) (al : Allocator Addr) (fuel : Nat) (d : Decoder M)
    (buf : Buffer) : Res (Int × Decoder M × Buffer) :=
  let d := if d.state = .completed then d.reset else d
  decodeLoop parse al fuel buf.totalLen 0 d buf

end Decoder
end Unp.Reactor
