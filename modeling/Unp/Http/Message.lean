import Unp.Http.CommonHeaders
import Unp.Util.Kmp

/-!
# `HttpHeaders` and `HttpMessage`

Three vectors, one entry in each for every header, and the cookies of a `Cookie` header.
-/

namespace Unp.Http

open Unp.Machine Unp.Util

/-- `HttpHeaders`. A name is a C string: one of the table, or a copy. -/
structure HttpHeaders where
  codes : List HttpHeaderCode
  headerNames : List (List Byte)
  headerValues : List (List Byte)
  codesDeleted : Nat
  deriving Repr, DecidableEq

namespace HttpHeaders

def empty : HttpHeaders := ⟨[], [], [], 0⟩

/-- `code == HTTP_HEADER_OTHER ? copyFrom(headerName) : getPointerWithHeaderCode(code)`. -/
def storedName (name : List Byte) : HttpHeaderCode → List Byte
  | .none => []
  | .other => cString (name ++ [0])
  | .common word => headerName word

/-- `add(const_string_piece, const_string_piece)`. -/
def add (headerName : StringPiece) (headerValue : List Byte) (h : HttpHeaders) :
    Res HttpHeaders :=
  if headerName.size = 0 then .ok h
  else do
    let code ← getHeaderCode headerName.mem headerName.size
    pure { h with
      codes := h.codes ++ [code]
      headerNames := h.headerNames ++ [storedName headerName.bytes code]
      headerValues := h.headerValues ++ [headerValue] }

/-- A common header is stored under the name in the table, where the first letter is a capital. -/
def SameName (given stored : List Byte) : Prop := stored = given ∨ stored = raiseFirst given

theorem zero_mem_raiseFirst {s : List Byte} (h : 0 ∈ s) : 0 ∈ raiseFirst s := by
  cases s with
  | nil => exact h
  | cons c cs =>
      rw [raiseFirst, List.mem_cons]
      rcases List.mem_cons.mp h with rfl | h
      · exact Or.inl (by decide)
      · exact Or.inr h

/-- The stored name is a C string, so it is the given one exactly when that holds no zero byte. -/
theorem sameName_storedName {name : List Byte} {code : HttpHeaderCode}
    (h : getHeaderCode (name ++ [0]) name.length = .ok code) :
    SameName name (storedName name code) ↔ 0 ∉ name := by
  have hstored : 0 ∉ storedName name code := by
    cases code with
    | none => exact absurd h (getHeaderCode_ne_none _ _)
    | other => exact zero_notMem_cString _
    | common word => exact (headerName_spec word).2
  constructor
  · rintro (heq | heq) hzero
    · rw [heq] at hstored
      exact hstored hzero
    · rw [heq] at hstored
      exact hstored (zero_mem_raiseFirst hzero)
  · intro hzero
    have hname : cString (name ++ [0]) = name := cString_of_notMem hzero
    cases code with
    | none => exact absurd h (getHeaderCode_ne_none _ _)
    | other => exact Or.inl hname
    | common word =>
        have := getHeaderCode_common h
        rw [hname] at this
        exact this

end HttpHeaders

/-- A call of `cookies_.insert`. Where there was no `=`, the key is a range that ends one byte before
it begins; that is `none`. -/
abbrev CookieInsert := Option (List Byte) × List Byte

structure HttpMessage where
  headers : HttpHeaders
  cookies : List CookieInsert
  deriving Repr, DecidableEq

namespace HttpMessage

def new : HttpMessage := ⟨.empty, []⟩

/-- The second half of a round of `parseCookie`: the value before the `"; "` at `posCol` and what is
left. A `posCol` of `-1` is less than the size too, so the rest begins at 1 then, and it is the
value. -/
def cutValue (posCol : Int) (subStr value : List Byte) : Res (List Byte × List Byte) :=
  if posCol < i32 subStr.length then do
    let rest ← subString subStr (u64OfInt (posCol + 2)) (u64OfInt (subStr.length - posCol - 2))
    pure (if posCol < 0 then rest else subStr.take posCol.toNat, rest)
  else .ok (if posCol < 0 then subStr else value, subStr)

/-- The loop of `parseCookie`, with what is left of the cookie and the value of the last round. The
comparison is between `int`s, so that `npos` is less than the size. -/
def parseCookieLoop : Nat → List Byte → List Byte → Res (List CookieInsert)
  | 0, _, _ => .error .outOfFuel
  | fuel + 1, subStr, value =>
      if subStr = [] then .ok []
      else
        let posEqual := find 61 subStr
        if i32 posEqual < i32 subStr.length then do
          let key := if posEqual = npos then none else some (subStr.take posEqual)
          let subStr ← subString subStr (u64 (posEqual + 1))
            (u64OfInt (subStr.length - posEqual - 1))
          let posCol ← kmpSearch subStr (ascii "; ")
          let (value, subStr) ← cutValue posCol subStr value
          let inserts ← parseCookieLoop fuel subStr value
          pure (if key ≠ some [] ∧ value ≠ [] then (key, value) :: inserts else inserts)
        else .ok []

/-- `parseCookie`: what it inserts. A round that ends makes the rest shorter. -/
def parseCookie (cookie : List Byte) : Res (List CookieInsert) :=
  parseCookieLoop (cookie.length + 1) cookie []

/-- The name in the table for `HTTP_HEADER_COOKIE`. -/
def cookieName : List Byte := ascii "Cookie"

/-- `if(field == ...) parseCookie(value)`. -/
def parseIfCookie (field value : List Byte) : Res (List CookieInsert) :=
  if field = cookieName then parseCookie value else .ok []

/-- `addHeader(string_t&, CStringPiece_t)`. -/
def addHeader (field value : List Byte) (m : HttpMessage) : Res HttpMessage := do
  let inserts ← parseIfCookie field value
  let headers ← m.headers.add (.ofString field) value
  pure { headers, cookies := m.cookies ++ inserts }

/-! ## The loop ends

For a cookie of less than 2 GiB, that is; beyond that the `int`s wrap around. -/

theorem semicolon_bytes : ascii "; " = [59, 32] := by decide +kernel

theorem kmpSearch_semicolon (text : List Byte) (hlen : text.length < 2 ^ 31) :
    ∃ r, kmpSearch text (ascii "; ") = .ok r ∧ -1 ≤ r ∧ (r < text.length ∨ r = -1) := by
  have hne : ascii "; " ≠ [] := by decide +kernel
  by_cases hnil : text = []
  · exact ⟨-1, by rw [kmpSearch, if_pos (Or.inl hnil)], by omega, Or.inr rfl⟩
  · obtain ⟨r, hr, hanswers⟩ := kmpSearch_ok hnil hne hlen (by decide +kernel)
    have hleast := hanswers.least
    refine ⟨r, hr, hleast, ?_⟩
    by_cases hnone : r = -1
    · exact Or.inr hnone
    · obtain ⟨o, rfl⟩ : ∃ o : Nat, r = o := ⟨r.toNat, by omega⟩
      have hend := (hanswers.sound o rfl).2.le_length hne
      have hpos := List.length_pos_iff.mpr hne
      exact Or.inl (by omega)

theorem length_subString {s s' : List Byte} {first len : Nat} (h : subString s first len = .ok s') :
    first ≤ s.length ∧ s'.length ≤ s.length - first := by
  rw [subString] at h
  split at h
  · cases h
  · cases h
    simp only [List.length_take, List.length_drop]
    omega

/-- The second half of a round shortens what is left. -/
theorem length_cutValue {posCol : Int} {subStr value value' rest : List Byte}
    (hlen : subStr.length < 2 ^ 31) (hlo : -1 ≤ posCol)
    (hhi : posCol < subStr.length ∨ posCol = -1)
    (h : cutValue posCol subStr value = .ok (value', rest)) : rest.length < subStr.length := by
  have hint : i32 subStr.length = subStr.length := by
    unfold i32
    omega
  rw [cutValue, hint, if_pos (by omega)] at h
  obtain ⟨r, hsub, h⟩ := bind_eq_ok h
  cases h
  have hfirst : 1 ≤ u64OfInt (posCol + 2) := by
    unfold u64OfInt
    omega
  have := length_subString hsub
  omega

theorem parseCookieLoop_ne_outOfFuel (fuel : Nat) {subStr : List Byte} (value : List Byte)
    (hfuel : subStr.length < fuel) (hlen : subStr.length < 2 ^ 31) :
    parseCookieLoop fuel subStr value ≠ .error .outOfFuel := by
  have hsubString : ∀ s first len, subString s first len ≠ .error .outOfFuel := by
    intro s first len
    rw [subString]
    split <;> simp
  induction fuel generalizing subStr value with
  | zero => omega
  | succ fuel ih =>
      intro herr
      rw [parseCookieLoop] at herr
      split at herr
      · cases herr
      · simp only [] at herr
        split at herr
        · rcases bind_eq_error herr with herr | ⟨rest, hrest, herr⟩
          · exact hsubString _ _ _ herr
          · have hle := (length_subString hrest).2
            obtain ⟨posCol, hpos, hlo, hhi⟩ := kmpSearch_semicolon rest (by omega)
            rw [hpos, ok_bind] at herr
            rcases bind_eq_error herr with herr | ⟨⟨value', rest'⟩, hcut, herr⟩
            · rw [cutValue] at herr
              split at herr
              · rcases bind_eq_error herr with herr | ⟨r, -, herr⟩
                · exact hsubString _ _ _ herr
                · cases herr
              · cases herr
            · have hlt := length_cutValue (by omega) hlo hhi hcut
              rcases bind_eq_error herr with herr | ⟨r, -, herr⟩
              · exact @ih rest' _ (by omega) (by omega) herr
              · cases herr
        · cases herr

/-- `parseCookie` ends. -/
theorem parseCookie_ne_outOfFuel {cookie : List Byte} (h : cookie.length < 2 ^ 31) :
    parseCookie cookie ≠ .error .outOfFuel :=
  parseCookieLoop_ne_outOfFuel _ _ (Nat.lt_succ_self _) h

/-! ## Adding a header -/

/-- Without a name there is nothing to add. -/
theorem addHeader_nil (value : List Byte) (m : HttpMessage) : m.addHeader [] value = .ok m := by
  have hne : ¬ [] = cookieName := by decide +kernel
  rw [addHeader, parseIfCookie, if_neg hne]
  cases m
  simp [HttpHeaders.add, StringPiece.ofString]

/-- `parseCookie` returns. -/
def CookieParses (value : List Byte) : Prop := ∃ inserts, parseCookie value = .ok inserts

instance decidableCookieParses (value : List Byte) : Decidable (CookieParses value) :=
  decidable_of_iff (∃ inserts, parseCookie value = .ok inserts ∧ True) (by simp [CookieParses])

theorem addHeader_ok {field value : List Byte} {m m' : HttpMessage} (hne : field ≠ [])
    (h : m.addHeader field value = .ok m') :
    (field = cookieName → CookieParses value) ∧
      ∃ code, getHeaderCode (field ++ [0]) field.length = .ok code ∧
        m'.headers.headerNames = m.headers.headerNames ++ [HttpHeaders.storedName field code] ∧
        m'.headers.headerValues = m.headers.headerValues ++ [value] := by
  rw [addHeader] at h
  obtain ⟨inserts, hcookie, h⟩ := bind_eq_ok h
  obtain ⟨headers, hadd, h⟩ := bind_eq_ok h
  cases h
  refine ⟨fun heq => ⟨inserts, by rwa [parseIfCookie, if_pos heq] at hcookie⟩, ?_⟩
  have hsize : ¬ (StringPiece.ofString field).size = 0 := by
    simpa [StringPiece.ofString] using hne
  rw [HttpHeaders.add, if_neg hsize] at hadd
  obtain ⟨code, hcode, hadd⟩ := bind_eq_ok hadd
  cases hadd
  exact ⟨code, hcode, by rw [StringPiece.bytes_ofString], rfl⟩

theorem addHeader_succeeds {field value : List Byte} (m : HttpMessage) (hzero : 0 ∉ field)
    (hcookie : field = cookieName → CookieParses value) : ∃ m', m.addHeader field value = .ok m' := by
  have hinserts : ∃ inserts, parseIfCookie field value = .ok inserts := by
    rw [parseIfCookie]
    split
    · next heq => exact hcookie heq
    · exact ⟨[], rfl⟩
  have hadd : ∃ headers, m.headers.add (.ofString field) value = .ok headers := by
    rw [HttpHeaders.add]
    split
    · exact ⟨_, rfl⟩
    · obtain ⟨code, hcode⟩ := getHeaderCode_ok [] hzero
      have hcode' : getHeaderCode (StringPiece.ofString field).mem
          (StringPiece.ofString field).size = .ok code := hcode
      rw [hcode', ok_bind]
      exact ⟨_, rfl⟩
  obtain ⟨inserts, hinserts⟩ := hinserts
  obtain ⟨headers, hadd⟩ := hadd
  exact ⟨_, by rw [addHeader, hinserts, ok_bind, hadd, ok_bind, pure_eq_ok]⟩

end HttpMessage
end Unp.Http
