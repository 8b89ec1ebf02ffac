import Unp.Util.StringPiece

/-!
# The common header names

The table and the perfect hash that `gperf` has made for it, as they are in the source, and the
lookup of a code. The code of a common header is named here by its place in `wordlist`: the table
that leads from codes back to names is filled from `wordlist`, so it is `wordlist` again.
-/

namespace Unp.Http

open Unp.Machine Unp.Util

/-- `HttpHeaderCode`. -/
inductive HttpHeaderCode where
  | none
  | other
  | common (word : Fin 93)
  deriving Repr, DecidableEq

def wordlist : List String := [
  "P3P", "Host", "Allow", "Accept", "Alt-Svc", "Expect", "Expires", "Age", "Accept-Charset",
  "Connection", "Cookie", "Referer", "Accept-Ranges", "Range", "Content-Location", "Content-Type",
  "Content-Range", "Content-Disposition", "Keep-Alive", "Content-Language",
  "Access-Control-Allow-Headers", "Access-Control-Expose-Headers",
  "Access-Control-Request-Headers", "Server", "Access-Control-Allow-Credentials", "If-Range",
  "X-Real-IP", "X-Frame-Options", "X-Accel-Redirect", "Refresh", "VIP", "Content-Length",
  "Pragma", "Access-Control-Max-Age", "If-None-Match", "ETag", "X-Forwarded-For",
  "X-XSS-Protection", "X-Content-Type-Options", "X-Wap-Profile", "Proxy-Authorization",
  "Set-Cookie", "Content-Encoding", "TE", "Proxy-Authenticate", "Link", "Accept-Encoding",
  "Content-MD5", "Trailer", "Location", "Date", "Sec-WebSocket-Accept", "X-Requested-With",
  ":Status", "If-Match", "Access-Control-Request-Method", "Accept-Language", "Proxy-Connection",
  "X-Thrift-Protocol", "Authorization", "If-Unmodified-Since", "Accept-Datetime", ":Scheme",
  "Via", "Vary", "X-UA-Compatible", "X-Powered-By", "Front-End-Https", "Sec-Token-Binding",
  "Timestamp", ":Path", "X-Forwarded-Proto", "Cache-Control", "Sec-WebSocket-Key", "DNT", "From",
  "Retry-After", ":Method", ":Authority", "Origin", "Transfer-Encoding", "If-Modified-Since",
  "Warning", "Upgrade", "User-Agent", "WWW-Authenticate", "Access-Control-Allow-Origin",
  "Last-Modified", "X-Content-Security-Policy-Report-Only", "Strict-Transport-Security",
  "Max-Forwards", ":Protocol", "Access-Control-Allow-Methods"]

def assoValues : List Nat := [
  149, 149, 149, 149, 149, 149, 149, 149, 149, 149, 149, 149, 149, 149, 149, 149, 149, 149, 149,
  149, 149, 149, 149, 149, 149, 149, 149, 149, 149, 149, 149, 149, 149, 149, 149, 149, 149, 149,
  149, 149, 149, 149, 149, 149, 149, 0, 149, 149, 149, 149, 149, 149, 149, 45, 149, 149, 149, 149,
  55, 149, 149, 149, 149, 149, 149, 0, 149, 0, 45, 5, 60, 149, 0, 5, 149, 5, 40, 120, 149, 90, 0,
  149, 5, 20, 45, 100, 35, 70, 20, 149, 149, 149, 149, 149, 149, 149, 149, 35, 149, 0, 35, 10, 75,
  35, 25, 0, 149, 10, 30, 30, 5, 45, 0, 149, 5, 0, 0, 25, 149, 0, 149, 35, 50, 149, 149, 149, 149,
  149, 149, 149, 149, 149, 149, 149, 149, 149, 149, 149, 149, 149, 149, 149, 149, 149, 149, 149,
  149, 149, 149, 149, 149, 149, 149, 149, 149, 149, 149, 149, 149, 149, 149, 149, 149, 149, 149,
  149, 149, 149, 149, 149, 149, 149, 149, 149, 149, 149, 149, 149, 149, 149, 149, 149, 149, 149,
  149, 149, 149, 149, 149, 149, 149, 149, 149, 149, 149, 149, 149, 149, 149, 149, 149, 149, 149,
  149, 149, 149, 149, 149, 149, 149, 149, 149, 149, 149, 149, 149, 149, 149, 149, 149, 149, 149,
  149, 149, 149, 149, 149, 149, 149, 149, 149, 149, 149, 149, 149, 149, 149, 149, 149, 149, 149,
  149, 149, 149, 149, 149, 149, 149, 149, 149, 149, 149, 149, 149, 149, 149]

def lookup : List Int := [
  -1, -1, -1, 0, 1, 2, 3, 4, -1, -1, -1, 5, 6, 7, 8, 9, 10, 11, 12, -1, 13, 14, 15, 16, 17, 18,
  19, -1, 20, 21, 22, 23, 24, 25, 26, 27, 28, 29, 30, 31, -1, 32, 33, 34, 35, 36, 37, 38, 39, 40,
  41, 42, 43, 44, 45, 46, 47, 48, 49, 50, 51, 52, 53, 54, 55, 56, 57, 58, 59, 60, 61, -1, 62, 63,
  64, 65, -1, 66, -1, -1, 67, -1, 68, -1, 69, 70, -1, 71, 72, -1, -1, -1, 73, 74, 75, -1, 76, 77,
  -1, -1, 78, 79, 80, -1, -1, -1, -1, 81, -1, -1, -1, -1, 82, -1, -1, -1, -1, 83, -1, -1, 84, 85,
  86, 87, -1, -1, -1, 88, -1, -1, 89, -1, 90, -1, -1, -1, -1, -1, -1, 91, -1, -1, -1, -1, -1, -1,
  -1, -1, 92]

def minWordLength : Nat := 2

def maxWordLength : Nat := 37

def maxHashValue : Nat := 148

def headerName (word : Fin 93) : List Byte := ascii (wordlist.getD word "")

/-- `asso_values[static_cast<unsigned char>(str[i])]`. -/
def assoAt (mem : List Byte) (i : Nat) : Res Nat := do
  let c ← readAt mem i
  readAt assoValues c.toNat

/-- The same, for a position the word may be too short for. -/
def assoIfLonger (mem : List Byte) (len i : Nat) : Res Nat :=
  if i < len then assoAt mem i else .ok 0

/-- `hash`, of the memory at `str`. -/
def hash (mem : List Byte) (len : Nat) : Res Nat := do
  let h₂₁ ← assoIfLonger mem len 21
  let h₇ ← assoIfLonger mem len 7
  let h₀ ← assoAt mem 0
  let hLast ← assoAt mem (len - 1)
  pure (len + h₂₁ + h₇ + h₀ + hLast)

/-- `*str == *s && !strcmp(str + 1, s + 1)`. -/
def sameString (mem word : List Byte) : Bool :=
  mem.head? = word.head? && cString mem.tail = word.tail

/-- `isValidHttpHeader`. -/
def isValidHttpHeader (mem : List Byte) (len : Nat) : Res (Option (Fin 93)) :=
  if len ≤ maxWordLength ∧ minWordLength ≤ len then do
    let key ← hash mem len
    if key ≤ maxHashValue then do
      let index ← readAt lookup key
      if h : 0 ≤ index ∧ index.toNat < 93 then
        let word : Fin 93 := ⟨index.toNat, h.2⟩
        pure (if sameString mem (headerName word) then some word else none)
      else pure none
    else pure none
  else pure none

/-- `std::toupper`, in the C locale. -/
def toUpper (c : Byte) : Byte := if 97 ≤ c ∧ c ≤ 122 then c - 32 else c

/-- `header_name[0] = std::toupper(header_name[0])`. -/
def raiseFirst : List Byte → List Byte
  | [] => []
  | c :: cs => toUpper c :: cs

/-- `HttpCommomHeaders::getHeaderCode(headerName, len)`. The copy of the second attempt ends at the
first zero byte. -/
def getHeaderCode (mem : List Byte) (len : Nat) : Res HttpHeaderCode := do
  match ← isValidHttpHeader mem len with
  | some word => pure (.common word)
  | none =>
      match ← isValidHttpHeader (raiseFirst (cString mem) ++ [0]) len with
      | some word => pure (.common word)
      | none => pure .other

/-! ## What a lookup finds -/

theorem headerName_spec (word : Fin 93) : headerName word ≠ [] ∧ 0 ∉ headerName word := by
  revert word
  decide +kernel

/-- The comparison is that of C strings: the words hold no zero byte. -/
theorem cString_of_sameString {mem : List Byte} {word : Fin 93}
    (h : sameString mem (headerName word) = true) : cString mem = headerName word := by
  simp only [sameString, Bool.and_eq_true, decide_eq_true_eq] at h
  obtain ⟨hhead, htail⟩ := h
  obtain ⟨hne, hzero⟩ := headerName_spec word
  cases hw : headerName word with
  | nil => exact absurd hw hne
  | cons c cs =>
      rw [hw] at hhead htail hzero
      cases mem with
      | nil => cases hhead
      | cons d mem =>
          have hd : d = c := by simpa using hhead
          have hc : c ≠ 0 := fun heq => hzero (by simp [heq])
          rw [List.tail_cons, List.tail_cons] at htail
          rw [hd, cString, if_neg hc, htail]

theorem isValidHttpHeader_some {mem : List Byte} {len : Nat} {word : Fin 93}
    (h : isValidHttpHeader mem len = .ok (some word)) : cString mem = headerName word := by
  rw [isValidHttpHeader] at h
  split at h
  · obtain ⟨key, -, h⟩ := bind_eq_ok h
    split at h
    · obtain ⟨index, -, h⟩ := bind_eq_ok h
      split at h
      · simp only [pure_eq_ok, Except.ok.injEq] at h
        split at h
        · next hsame =>
          cases h
          exact cString_of_sameString hsame
        · cases h
      · cases h
    · cases h
  · cases h

theorem toUpper_eq_zero {c : Byte} (h : toUpper c = 0) : c = 0 := by
  unfold toUpper at h
  split at h
  · next hc =>
    have h₁ : (97 : Nat) ≤ c.toNat := UInt8.le_iff_toNat_le.mp hc.1
    have h₂ : (c - 32).toNat = 0 := by rw [h]; rfl
    rw [UInt8.toNat_sub_of_le _ _ (UInt8.le_iff_toNat_le.mpr (le_trans (by decide) h₁))] at h₂
    have h₃ : (32 : UInt8).toNat = 32 := rfl
    omega
  · exact h

theorem zero_notMem_raiseFirst {s : List Byte} (h : 0 ∉ s) : 0 ∉ raiseFirst s := by
  cases s with
  | nil => exact h
  | cons c cs =>
      rw [List.mem_cons, not_or] at h
      rw [raiseFirst, List.mem_cons, not_or]
      exact ⟨fun heq => h.1 (toUpper_eq_zero heq.symm).symm, h.2⟩

/-- A common header is found under its name, or under its name with a small first letter. -/
theorem getHeaderCode_common {mem : List Byte} {len : Nat} {word : Fin 93}
    (h : getHeaderCode mem len = .ok (.common word)) :
    headerName word = cString mem ∨ headerName word = raiseFirst (cString mem) := by
  rw [getHeaderCode] at h
  obtain ⟨first, hfirst, h⟩ := bind_eq_ok h
  cases first with
  | some w =>
      cases h
      exact Or.inl (isValidHttpHeader_some hfirst).symm
  | none =>
      obtain ⟨second, hsecond, h⟩ := bind_eq_ok h
      cases second with
      | some w =>
          cases h
          have := isValidHttpHeader_some hsecond
          rw [cString_of_notMem (zero_notMem_raiseFirst (zero_notMem_cString mem))] at this
          exact Or.inr this.symm
      | none => cases h

theorem getHeaderCode_ne_none (mem : List Byte) (len : Nat) : getHeaderCode mem len ≠ .ok .none := by
  intro h
  rw [getHeaderCode] at h
  obtain ⟨first, -, h⟩ := bind_eq_ok h
  cases first with
  | some w => cases h
  | none =>
      obtain ⟨second, -, h⟩ := bind_eq_ok h
      cases second <;> cases h

/-! ## No read leaves the block -/

theorem assoAt_ok (mem : List Byte) {i : Nat} (h : i < mem.length) : ∃ n, assoAt mem i = .ok n := by
  obtain ⟨c, hc⟩ := readAt_ok h
  have hlen : assoValues.length = 256 := by decide +kernel
  have hlt : c.toNat < assoValues.length := by
    rw [hlen]
    exact c.toNat_lt
  obtain ⟨n, hn⟩ := readAt_ok hlt
  exact ⟨n, by rw [assoAt, hc, ok_bind, hn]⟩

theorem assoIfLonger_ok {mem : List Byte} {len : Nat} (hlen : len ≤ mem.length) (i : Nat) :
    ∃ n, assoIfLonger mem len i = .ok n := by
  rw [assoIfLonger]
  split
  · exact assoAt_ok mem (by omega)
  · exact ⟨0, rfl⟩

theorem hash_ok {mem : List Byte} {len : Nat} (hlen : len ≤ mem.length) (hpos : 1 ≤ len) :
    ∃ key, hash mem len = .ok key := by
  obtain ⟨n₂₁, h₂₁⟩ := assoIfLonger_ok hlen 21
  obtain ⟨n₇, h₇⟩ := assoIfLonger_ok hlen 7
  obtain ⟨n₀, h₀⟩ := assoAt_ok mem (i := 0) (by omega)
  obtain ⟨nl, hl⟩ := assoAt_ok mem (i := len - 1) (by omega)
  exact ⟨len + n₂₁ + n₇ + n₀ + nl, by
    rw [hash, h₂₁, ok_bind, h₇, ok_bind, h₀, ok_bind, hl, ok_bind, pure_eq_ok]⟩

theorem isValidHttpHeader_ok (mem : List Byte) (len : Nat) (hlen : len ≤ mem.length) :
    ∃ r, isValidHttpHeader mem len = .ok r := by
  rw [isValidHttpHeader]
  split
  · next hsize =>
    obtain ⟨key, hkey⟩ := hash_ok hlen (by have := hsize.2; unfold minWordLength at this; omega)
    rw [hkey, ok_bind]
    split
    · next hmax =>
      have hlt : key < lookup.length := by
        have hlookup : lookup.length = 149 := by decide +kernel
        unfold maxHashValue at hmax
        omega
      obtain ⟨index, hindex⟩ := readAt_ok hlt
      rw [hindex, ok_bind]
      split <;> exact ⟨_, rfl⟩
    · exact ⟨none, rfl⟩
  · exact ⟨none, rfl⟩

theorem length_raiseFirst (s : List Byte) : (raiseFirst s).length = s.length := by
  cases s <;> rfl

/-- A name without a zero byte always has a code. -/
theorem getHeaderCode_ok {name : List Byte} (rest : List Byte) (h : 0 ∉ name) :
    ∃ code, getHeaderCode (name ++ 0 :: rest) name.length = .ok code := by
  obtain ⟨first, hfirst⟩ := isValidHttpHeader_ok (name ++ 0 :: rest) name.length
    (by simp)
  obtain ⟨second, hsecond⟩ := isValidHttpHeader_ok (raiseFirst name ++ [0])
    name.length (by simp [length_raiseFirst])
  rw [getHeaderCode, hfirst, ok_bind]
  cases first with
  | some w => exact ⟨_, rfl⟩
  | none =>
      simp only [cString_of_notMem h, hsecond, ok_bind]
      cases second <;> exact ⟨_, rfl⟩

end Unp.Http
