import Unp.Lib.Decimal
import Unp.Util.StringPiece

/-!
# `net::inet_addr` as text

An address is written as `127.0.0.1:9900` and read back. Writing goes through a block of 16 bytes,
where `snprintf` cuts what is too long; reading goes through one of 32 bytes, looks for the last colon
and refuses ports beyond `INT16_MAX`.

`inet_ntop` and `inet_pton` are those of the C library for `AF_INET`, the only family that the class
uses.
-/

namespace Unp.Net

open Unp.Machine Unp.Decimal
open Unp.Util (Byte ascii cString cString_of_notMem)

/-! ## The C library -/

/-- `in_addr`: the four bytes as they lie in memory. -/
structure InAddr where
  a : UInt8
  b : UInt8
  c : UInt8
  d : UInt8
  deriving Repr, DecidableEq

def afInet : Nat := 2

/-- `INET_ADDRSTRLEN`. -/
def inetAddrstrlen : Nat := 16

def int16Max : Int := 32767

/-- `htons` swaps the two bytes, and so does `ntohs`. -/
def htons (port : UInt16) : UInt16 := UInt16.ofNat (port.toNat % 256 * 256 + port.toNat / 256)

def ntohs (port : UInt16) : UInt16 := htons port

/-- The four numbers with dots in between. -/
def dottedQuad (addr : InAddr) : List Byte :=
  [46].intercalate ([addr.a, addr.b, addr.c, addr.d].map fun o => toText o.toNat)

/-- `inet_ntop` into a block of `size` bytes; `none` is the null pointer. -/
def inetNtop (addr : InAddr) (size : Nat) : Option (List Byte) :=
  if (dottedQuad addr).length < size then some (dottedQuad addr) else none

/-- One of the numbers: up to 255, without leading zeros. -/
def octet (text : List Byte) : Option UInt8 :=
  if text ≠ [] ∧ text.all isDigit = true ∧ (text.head? = some 48 → text = [48]) ∧
      value text ≤ 255 then
    some (UInt8.ofNat (value text))
  else none

/-- `inet_pton`; `none` when the text is no dotted quad, for which it returns 0. -/
def inetPton (text : List Byte) : Option InAddr :=
  match (text.splitOn 46).map octet with
  | [some a, some b, some c, some d] => some ⟨a, b, c, d⟩
  | _ => none

/-- `snprintf(buffer, len, "%s", text)`. -/
def snprintf (buffer : List Byte) (len : Nat) (text : List Byte) : Res (List Byte) :=
  if len = 0 then pure buffer else memcpy buffer 0 (text.take (len - 1) ++ [0])

/-- The last place of `c` in a string. -/
def lastPlace (c : Byte) : List Byte → Option Nat
  | [] => none
  | b :: s =>
      match lastPlace c s with
      | some i => some (i + 1)
      | none => if b = c then some 0 else none

/-- `strrchr` in a block of memory, which has to hold the end of the string. -/
def strrchr (c : Byte) (mem : List Byte) : Res (Option Nat) :=
  if 0 ∈ mem then pure (lastPlace c (cString mem)) else .error .outOfBounds

/-! ## The code -/

/-- `sockaddr_in`; the port is in network byte order. -/
structure SockaddrIn where
  sinFamily : Nat
  sinPort : UInt16
  sinAddr : InAddr
  deriving Repr, DecidableEq

/-- `addr_to_string`. -/
def addrToString (buffer : List Byte) (len : Nat) (ip4Addr : SockaddrIn) :
    Res (Int × List Byte) :=
  match inetNtop ip4Addr.sinAddr inetAddrstrlen with
  | none => pure (-1, buffer)
  | some addrStr => do
      let buffer ← snprintf buffer len (addrStr ++ 58 :: toText (ntohs ip4Addr.sinPort).toNat)
      pure (0, buffer)

/-- `string_to_addr`, for a C string. -/
def stringToAddr (addrPort : List Byte) (ip4Addr : SockaddrIn) : Res (Int × SockaddrIn) := do
  let ip4Addr := { ip4Addr with sinFamily := afInet }
  let addrStr ← memcpy (List.replicate 32 0) 0 addrPort
  let position ← strrchr 58 addrStr
  match position with
  | none => .error .nullDeref
  | some position =>
      let addrStr := addrStr.set position 0
      match inetPton (cString addrStr) with
      | none => pure (0, ip4Addr)
      | some sinAddr => do
          let portIntHostByteOrder ← atoi (cString (addrStr.drop (position + 1)))
          if int16Max < portIntHostByteOrder then
            pure (-1, { ip4Addr with sinAddr, sinPort := htons 0 })
          else
            pure (0, { ip4Addr with sinAddr, sinPort := htons (UInt16.ofInt portIntHostByteOrder) })

structure InetAddr where
  in4 : SockaddrIn
  deriving Repr, DecidableEq

namespace InetAddr

/-- `reset_addr`; nothing of the old value is left. -/
def resetAddr (_ : InetAddr) : InetAddr := ⟨⟨afInet, 0, ⟨0, 0, 0, 0⟩⟩⟩

/-- An `inet_addr` with a port in host byte order. -/
def holding (port : UInt16) (sinAddr : InAddr) : InetAddr := ⟨⟨afInet, htons port, sinAddr⟩⟩

def getPortNumber (self : InetAddr) : UInt16 := ntohs self.in4.sinPort

/-- `to_string`. A `string` cannot be made of a null pointer. -/
def toString (self : InetAddr) : Res (List Byte) := do
  let (ret, addrStr) ← addrToString (List.replicate 16 0) 16 self.in4
  if ret ≠ 0 then .error .exception else pure (cString addrStr)

/-- `set_addr`. -/
def setAddr (addrPort : List Byte) (self : InetAddr) : Res (Int × InetAddr) := do
  let (ret, in4) ← stringToAddr addrPort self.resetAddr.in4
  pure (ret, ⟨in4⟩)

end InetAddr

/-! ## The texts -/

theorem ntohs_htons (port : UInt16) : ntohs (htons port) = port := by
  have hlt := port.toNat_lt
  have hswap : (htons port).toNat = port.toNat % 256 * 256 + port.toNat / 256 :=
    UInt16.toNat_ofNat_of_lt' (by simp only [UInt16.size]; omega)
  apply UInt16.toNat_inj.mp
  rw [ntohs, htons, UInt16.toNat_ofNat_of_lt' (by rw [hswap]; simp only [UInt16.size]; omega), hswap]
  omega

theorem ofInt_natCast (n : Nat) : UInt16.ofInt (n : Int) = UInt16.ofNat n := by
  have hmod : ((n : Int) % 2 ^ 16).toNat = n % 2 ^ 16 := by omega
  rw [UInt16.ofInt, hmod]
  apply UInt16.toNat_inj.mp
  simp

theorem length_dottedQuad (addr : InAddr) :
    (dottedQuad addr).length < inetAddrstrlen := by
  have hoctet : ∀ o : UInt8, (toText o.toNat).length ≤ 2 + 1 := fun o =>
    length_toText_le (Nat.lt_trans o.toNat_lt (by decide))
  have ha := hoctet addr.a
  have hb := hoctet addr.b
  have hc := hoctet addr.c
  have hd := hoctet addr.d
  simp only [dottedQuad, List.intercalate, List.map_cons, List.map_nil, List.intersperse_cons_cons,
    List.intersperse_singleton, List.flatten_cons, List.flatten_nil, List.length_append,
    List.length_cons, List.length_nil, inetAddrstrlen]
  omega

/-- There are only digits and dots. -/
theorem notMem_dottedQuad {x : Byte} (hdigit : isDigit x = false) (hdot : x ≠ 46) (addr : InAddr) :
    x ∉ dottedQuad addr := by
  have htext := notMem_toText hdigit
  simp [dottedQuad, List.intercalate, htext, hdot]

theorem octet_toText (o : UInt8) : octet (toText o.toNat) = some o := by
  have hvalue : value (toText o.toNat) ≤ 255 := by
    rw [value_toText]
    exact Nat.le_of_lt_succ o.toNat_lt
  have hdigits : (toText o.toNat).all isDigit = true :=
    List.all_eq_true.mpr fun _ => isDigit_of_mem_toText
  rw [octet, if_pos ⟨toText_ne_nil _, hdigits, toText_eq_of_leadingZero, hvalue⟩, value_toText,
    UInt8.ofNat_toNat]

theorem inetPton_dottedQuad (addr : InAddr) : inetPton (dottedQuad addr) = some addr := by
  have hdots : ∀ text ∈ [addr.a, addr.b, addr.c, addr.d].map fun o => toText o.toNat,
      (46 : Byte) ∉ text := by
    intro text hmem
    obtain ⟨o, -, rfl⟩ := List.mem_map.mp hmem
    exact notMem_toText rfl o.toNat
  rw [inetPton, dottedQuad, List.splitOn_intercalate 46 hdots (by simp)]
  simp only [List.map_cons, List.map_nil, octet_toText]

theorem lastPlace_eq_none {c : Byte} {s : List Byte} (hc : c ∉ s) : lastPlace c s = none := by
  induction s with
  | nil => rfl
  | cons b s ih =>
      rw [List.mem_cons, not_or] at hc
      rw [lastPlace, ih hc.2]
      exact if_neg (Ne.symm hc.1)

theorem lastPlace_append {c : Byte} (l : List Byte) {r : List Byte} (hr : c ∉ r) :
    lastPlace c (l ++ c :: r) = some l.length := by
  induction l with
  | nil =>
      rw [List.nil_append, lastPlace, lastPlace_eq_none hr]
      exact if_pos rfl
  | cons b l ih =>
      rw [List.cons_append, lastPlace, ih]
      rfl

/-! ## There and back -/

namespace InetAddr

/-- The text of an address with a port, before it is cut. -/
def text (self : InetAddr) : List Byte :=
  dottedQuad self.in4.sinAddr ++ 58 :: toText self.getPortNumber.toNat

theorem zero_notMem_text (self : InetAddr) : (0 : Byte) ∉ self.text := by
  have hquad := notMem_dottedQuad (x := 0) rfl (by decide) self.in4.sinAddr
  have hport := notMem_toText (c := 0) rfl self.getPortNumber.toNat
  simp [text, hquad, hport]

/-- Fifteen bytes of the text are left. -/
theorem toString_eq (self : InetAddr) : self.toString = .ok (self.text.take 15) := by
  have hcut : (0 : Byte) ∉ self.text.take 15 := fun hmem =>
    self.zero_notMem_text (List.mem_of_mem_take hmem)
  have hprinted : snprintf (List.replicate 16 0) 16 self.text =
      .ok (splice (List.replicate 16 0) 0 (self.text.take 15 ++ [0])) := by
    rw [snprintf, if_neg (by decide)]
    apply memcpy_ok
    simp
  rw [toString, addrToString, inetNtop, if_pos (length_dottedQuad _)]
  dsimp only
  rw [← getPortNumber, ← text, hprinted]
  simp only [ok_bind, pure_eq_ok, ne_eq, not_true_eq_false, if_false]
  rw [splice, List.take_zero, List.nil_append, List.append_assoc, List.singleton_append,
    cString_of_notMem hcut]

end InetAddr

section Reading
variable {t : List Byte} {sa : SockaddrIn}

/-- The block that is searched. -/
theorem memcpy_block (hlt : t.length < 32) :
    memcpy (List.replicate 32 0) 0 t = .ok (t ++ 0 :: List.replicate (31 - t.length) 0) := by
  rw [memcpy_ok (by simp; omega), splice, List.take_zero, List.nil_append, Nat.zero_add,
    List.drop_replicate, ← List.replicate_succ]
  congr 3
  omega

theorem strrchr_block {c : Byte} (rest : List Byte) (hzero : 0 ∉ t) :
    strrchr c (t ++ 0 :: rest) = .ok (lastPlace c t) := by
  rw [strrchr, if_pos (by simp), cString_of_notMem hzero]
  rfl

/-- A text without a colon. -/
theorem stringToAddr_none (hlt : t.length < 32) (hzero : 0 ∉ t) (hcolon : 58 ∉ t) :
    stringToAddr t sa = .error .nullDeref := by
  rw [stringToAddr, memcpy_block hlt, ok_bind, strrchr_block _ hzero, ok_bind,
    lastPlace_eq_none hcolon]

/-- A dotted quad and some digits. -/
theorem stringToAddr_digits {addr : InAddr} {digits : List Byte}
    (hdigits : ∀ b ∈ digits, isDigit b = true) (hvalue : value digits < 2 ^ 31)
    (hlt : (dottedQuad addr ++ 58 :: digits).length < 32) :
    stringToAddr (dottedQuad addr ++ 58 :: digits) sa =
      .ok (if 32767 < value digits then (-1, ⟨afInet, htons 0, addr⟩)
        else (0, ⟨afInet, htons (UInt16.ofNat (value digits)), addr⟩)) := by
  have hquad := notMem_dottedQuad (x := 0) rfl (by decide) addr
  have hzero : 0 ∉ digits := fun hmem => ne_of_isDigit (hdigits 0 hmem) rfl rfl
  have hcolon : 58 ∉ digits := fun hmem => ne_of_isDigit (hdigits 58 hmem) rfl rfl
  have hstring : 0 ∉ dottedQuad addr ++ 58 :: digits := by simp [hquad, hzero]
  rw [stringToAddr, memcpy_block hlt, ok_bind, strrchr_block _ hstring, ok_bind,
    lastPlace_append _ hcolon]
  dsimp only
  generalize 31 - (dottedQuad addr ++ 58 :: digits).length = rest
  -- the colon is replaced by the end of a string
  have hset : (dottedQuad addr ++ 58 :: digits ++ 0 :: List.replicate rest 0).set
      (dottedQuad addr).length 0 = dottedQuad addr ++ 0 :: (digits ++ 0 :: List.replicate rest 0) := by
    rw [List.append_assoc, List.set_append_right _ _ (Nat.le_refl _), Nat.sub_self]
    rfl
  have hdrop : (dottedQuad addr ++ 0 :: (digits ++ 0 :: List.replicate rest 0)).drop
      ((dottedQuad addr).length + 1) = digits ++ 0 :: List.replicate rest 0 := by
    rw [← List.drop_drop, List.drop_left]
    rfl
  rw [hset, cString_of_notMem hquad, inetPton_dottedQuad, hdrop, cString_of_notMem hzero,
    atoi_digits hdigits hvalue]
  dsimp only
  rw [ok_bind]
  have hmax : int16Max < (value digits : Int) ↔ 32767 < value digits := by
    rw [int16Max]
    omega
  simp only [hmax]
  split
  · rfl
  · rw [ofInt_natCast]
    rfl

end Reading

namespace InetAddr

/-- What is left of the text when its address has a place for the colon. -/
theorem take_text {self : InetAddr} (hle : (dottedQuad self.in4.sinAddr).length ≤ 14) :
    self.text.take 15 = dottedQuad self.in4.sinAddr ++
      58 :: (toText self.getPortNumber.toNat).take (14 - (dottedQuad self.in4.sinAddr).length) := by
  have hsub : 15 - (dottedQuad self.in4.sinAddr).length =
      14 - (dottedQuad self.in4.sinAddr).length + 1 := by omega
  rw [text, List.take_append, List.take_of_length_le (Nat.le_succ_of_le hle), hsub,
    List.take_succ_cons]

/-- The address is too long for a colon: what is left is taken for one without a port. -/
theorem setAddr_take_text_none {self : InetAddr} (b : InetAddr)
    (hlong : ¬ (dottedQuad self.in4.sinAddr).length ≤ 14) :
    b.setAddr (self.text.take 15) = .error .nullDeref := by
  have hquad := length_dottedQuad self.in4.sinAddr
  rw [inetAddrstrlen] at hquad
  have hcut : self.text.take 15 = dottedQuad self.in4.sinAddr := by
    apply List.take_left'
    omega
  rw [setAddr, hcut, stringToAddr_none (by omega) (notMem_dottedQuad rfl (by decide) _)
    (notMem_dottedQuad rfl (by decide) _)]
  rfl

/-- Otherwise the port is what is left of its digits. -/
theorem setAddr_take_text {self : InetAddr} (b : InetAddr) {port : Nat}
    (hle : (dottedQuad self.in4.sinAddr).length ≤ 14)
    (hport : value ((toText self.getPortNumber.toNat).take
      (14 - (dottedQuad self.in4.sinAddr).length)) = port) :
    b.setAddr (self.text.take 15) =
      .ok (if 32767 < port then (-1, ⟨⟨afInet, htons 0, self.in4.sinAddr⟩⟩)
        else (0, ⟨⟨afInet, htons (UInt16.ofNat port), self.in4.sinAddr⟩⟩)) := by
  have hless : port ≤ self.getPortNumber.toNat := by
    rw [← hport]
    exact value_take_toText_le _ _
  have hlt := self.getPortNumber.toNat_lt
  have hlen : (self.text.take 15).length ≤ 15 := List.length_take_le _ _
  rw [take_text hle] at hlen ⊢
  have hdigits : ∀ c ∈ (toText self.getPortNumber.toNat).take
      (14 - (dottedQuad self.in4.sinAddr).length), isDigit c = true := fun c hc =>
    isDigit_of_mem_toText (List.mem_of_mem_take hc)
  rw [setAddr, stringToAddr_digits hdigits (by omega) (by omega), hport, ok_bind]
  by_cases hmax : 32767 < port
  · rw [if_pos hmax, if_pos hmax]
    rfl
  · rw [if_neg hmax, if_neg hmax]
    rfl

/-- **The round trip** succeeds for ports up to `INT16_MAX`, if there is a place for the colon and for
all digits of the port, or for none of them and the port is 0. -/
theorem setAddr_toString_iff (a b : InetAddr) :
    (∃ text b', a.toString = .ok text ∧ b.setAddr text = .ok (0, b') ∧
        b'.in4.sinAddr = a.in4.sinAddr ∧ b'.getPortNumber = a.getPortNumber) ↔
      a.getPortNumber.toNat ≤ 32767 ∧ (dottedQuad a.in4.sinAddr).length ≤ 14 ∧
        ((dottedQuad a.in4.sinAddr).length + (toText a.getPortNumber.toNat).length ≤ 14 ∨
          a.getPortNumber.toNat = 0) := by
  constructor
  · rintro ⟨t, b', ht, hset, -, hport⟩
    rw [toString_eq] at ht
    cases ht
    by_cases hle : (dottedQuad a.in4.sinAddr).length ≤ 14
    · generalize hvalue : value ((toText a.getPortNumber.toNat).take
        (14 - (dottedQuad a.in4.sinAddr).length)) = port at *
      rw [setAddr_take_text b hle hvalue] at hset
      split at hset
      · cases hset
      · next hmax =>
          cases hset
          rw [getPortNumber, ntohs_htons] at hport
          have hsame : port = a.getPortNumber.toNat := by
            rw [← hport, UInt16.toNat_ofNat_of_lt' (by simp only [UInt16.size]; omega)]
          rw [hsame] at hvalue hmax
          refine ⟨Nat.not_lt.mp hmax, hle, ?_⟩
          rcases (value_take_toText_eq_iff _ _).mp hvalue with hdigits | hzero
          · exact .inl (by omega)
          · exact .inr hzero
    · rw [setAddr_take_text_none b hle] at hset
      cases hset
  · rintro ⟨hmax, hle, hroom⟩
    have hvalue : value ((toText a.getPortNumber.toNat).take
        (14 - (dottedQuad a.in4.sinAddr).length)) = a.getPortNumber.toNat := by
      apply (value_take_toText_eq_iff _ _).mpr
      rcases hroom with hdigits | hzero
      · exact .inl (by omega)
      · exact .inr hzero
    have hset := setAddr_take_text b hle hvalue
    rw [if_neg (Nat.not_lt.mpr hmax)] at hset
    refine ⟨_, _, a.toString_eq, hset, rfl, ?_⟩
    rw [getPortNumber, ntohs_htons, UInt16.ofNat_toNat]

/-- The port 40000 is refused, 9900 loses its last two digits, and an address of fifteen characters
loses its colon. -/
theorem setAddr_toString_fails :
    (holding 40000 ⟨127, 0, 0, 1⟩).toString = .ok (ascii "127.0.0.1:40000") ∧
    (holding 0 ⟨0, 0, 0, 0⟩).setAddr (ascii "127.0.0.1:40000") =
      .ok (-1, holding 0 ⟨127, 0, 0, 1⟩) ∧
    (holding 9900 ⟨192, 168, 1, 10⟩).toString = .ok (ascii "192.168.1.10:99") ∧
    (holding 0 ⟨0, 0, 0, 0⟩).setAddr (ascii "192.168.1.10:99") =
      .ok (0, holding 99 ⟨192, 168, 1, 10⟩) ∧
    (holding 80 ⟨192, 168, 100, 101⟩).toString = .ok (ascii "192.168.100.101") ∧
    (holding 0 ⟨0, 0, 0, 0⟩).setAddr (ascii "192.168.100.101") = .error .nullDeref := by
  decide +kernel

end InetAddr

end Unp.Net
