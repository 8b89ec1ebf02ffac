import Unp.Lib.Run
import Unp.Http.Message

/-!
# `HttpHeaders` is an ordered multimap

A header is added at the end of the three vectors, and removed by overwriting its code with
`HTTP_HEADER_NONE`: its slot stays where it is, and `codes_deleted_` counts it. So what the object
stands for is the list of the slots whose code is another one, the *live* headers.

The code of a name is a parameter here. The lookup never answers `HTTP_HEADER_NONE`, and this is all
that is asked of it.
-/

namespace Unp.Http

open Unp.Machine Unp.Util Unp.Run

namespace HttpHeaders

/-! ## The operations -/

/-- The end of every `add`. -/
def push (code : HttpHeaderCode) (name value : List Byte) (h : HttpHeaders) : HttpHeaders :=
  { h with
    codes := h.codes ++ [code]
    headerNames := h.headerNames ++ [name]
    headerValues := h.headerValues ++ [value] }

/-- An `add` with a name, where `code` is that of the name. -/
def addNamed (code : HttpHeaderCode) (headerName : StringPiece) (headerValue : List Byte)
    (h : HttpHeaders) : HttpHeaders :=
  if headerName.size = 0 then h else h.push code (storedName headerName.bytes code) headerValue

/-- An `add` with a code. `HTTP_HEADER_NONE` and `HTTP_HEADER_OTHER` name no header. -/
def addCoded (code : HttpHeaderCode) (headerValue : List Byte) (h : HttpHeaders) : HttpHeaders :=
  match code with
  | .none | .other => h
  | .common word => h.push (.common word) (headerName word) headerValue

/-- `add(const_string_piece, const_string_piece)`. -/
def addPieces (codeOf : StringPiece → HttpHeaderCode) (headerName headerValue : StringPiece) :
    HttpHeaders → HttpHeaders :=
  addNamed (codeOf headerName) headerName headerValue.bytes

/-- `add(const std::string&, const std::string&)`. -/
def addStrings (codeOf : StringPiece → HttpHeaderCode) (headerName headerValue : List Byte) :
    HttpHeaders → HttpHeaders :=
  addNamed (codeOf (.ofString headerName)) (.ofString headerName) headerValue

/-- `add(const std::string&, std::string&&)`. -/
def addMovedString (codeOf : StringPiece → HttpHeaderCode) (headerName headerValue : List Byte) :
    HttpHeaders → HttpHeaders :=
  addNamed (codeOf (.ofString headerName)) (.ofString headerName) headerValue

/-- `add(HttpHeaderCode, std::string&&)`. -/
def addCodeString (code : HttpHeaderCode) (headerValue : List Byte) : HttpHeaders → HttpHeaders :=
  addCoded code headerValue

/-- `add(HttpHeaderCode, const_string_piece)`. -/
def addCodePiece (code : HttpHeaderCode) (headerValue : StringPiece) : HttpHeaders → HttpHeaders :=
  addCoded code headerValue.bytes

/-- `size`. There are never more deleted headers than headers. -/
def size (h : HttpHeaders) : Nat := h.codes.length - h.codesDeleted

/-- `operator[]`: a pointer to a value, or null. -/
def get (code : HttpHeaderCode) (h : HttpHeaders) : Res (Option (List Byte)) :=
  match h.codes.findIdx? (· = code) with
  | none => .ok none
  | some pos => do
      let value ← readAt h.headerValues pos
      pure (some value)

/-- `memchr(codes_.data() + pos, code, codes_.size() - pos)`, as a position in `codes_`. -/
def memchr (code : HttpHeaderCode) (pos : Nat) (codes : List HttpHeaderCode) : Option Nat :=
  ((codes.drop pos).findIdx? (· = code)).map (pos + ·)

/-- What a callback of `iterateOverCodes` works on: the object, and the flag it has captured. -/
abbrev Sweep := HttpHeaders × Bool

/-- `iterateOverCodes`, from the position `pos` on. The codes are looked at again in every round,
as the callback has left them. -/
def iterateOverCodes (code : HttpHeaderCode) (func : Nat → Sweep → Res Sweep) :
    Nat → Nat → Sweep → Res Sweep
  | 0, _, _ => .error .outOfFuel
  | fuel + 1, pos, s =>
      match memchr code pos s.1.codes with
      | none => .ok s
      | some pos => do
          let s ← func pos s
          iterateOverCodes code func fuel (pos + 1) s

/-- The callback of both `remove`s. -/
def markDeleted (pos : Nat) (s : Sweep) : Res Sweep :=
  if pos < s.1.codes.length then
    .ok ({ s.1 with
      codes := s.1.codes.set pos .none
      codesDeleted := s.1.codesDeleted + 1 }, true)
  else .error .outOfBounds

/-- The callback of `iterateOverOtherHeaderNames`. -/
def ifNamed (headerName : List Byte) (func : Nat → Sweep → Res Sweep) (pos : Nat) (s : Sweep) :
    Res Sweep := do
  let name ← readAt s.1.headerNames pos
  if caseInsensitiveEqual headerName name then func pos s else pure s

/-- `iterateOverOtherHeaderNames`. -/
def iterateOverOtherHeaderNames (headerName : List Byte) (func : Nat → Sweep → Res Sweep) :
    Nat → Nat → Sweep → Res Sweep :=
  iterateOverCodes .other (ifNamed headerName func)

/-- `remove(HttpHeaderCode)`. A round looks for a later code than the one before. -/
def removeCode (code : HttpHeaderCode) (h : HttpHeaders) : Res (Bool × HttpHeaders) := do
  let (h, removed) ← iterateOverCodes code markDeleted (h.codes.length + 1) 0 (h, false)
  pure (removed, h)

/-- `remove(const_string_piece)`. -/
def removeName (codeOf : StringPiece → HttpHeaderCode) (headerName : StringPiece)
    (h : HttpHeaders) : Res (Bool × HttpHeaders) :=
  if headerName.size = 0 then .ok (false, h)
  else if codeOf headerName ≠ .other then removeCode (codeOf headerName) h
  else do
    let (h, removed) ← iterateOverOtherHeaderNames headerName.bytes markDeleted
      (h.codes.length + 1) 0 (h, false)
    pure (removed, h)

end HttpHeaders

/-- A call of one of the five `add`s or of a `remove`. -/
inductive HeaderOp where
  | addPieces (headerName headerValue : StringPiece)
  | addStrings (headerName headerValue : List Byte)
  | addMovedString (headerName headerValue : List Byte)
  | addCodeString (code : HttpHeaderCode) (headerValue : List Byte)
  | addCodePiece (code : HttpHeaderCode) (headerValue : StringPiece)
  | removeName (headerName : StringPiece)
  | removeCode (code : HttpHeaderCode)

namespace HeaderOp

/-- The call, where `codeOf` is `getHeaderCode`. An `add` returns nothing. -/
def exec (codeOf : StringPiece → HttpHeaderCode) :
    HeaderOp → HttpHeaders → Res (Option Bool × HttpHeaders)
  | addPieces name value, h => .ok (none, h.addPieces codeOf name value)
  | addStrings name value, h => .ok (none, h.addStrings codeOf name value)
  | addMovedString name value, h => .ok (none, h.addMovedString codeOf name value)
  | addCodeString code value, h => .ok (none, h.addCodeString code value)
  | addCodePiece code value, h => .ok (none, h.addCodePiece code value)
  | removeName name, h => do
      let (removed, h) ← h.removeName codeOf name
      pure (some removed, h)
  | removeCode code, h => do
      let (removed, h) ← h.removeCode code
      pure (some removed, h)

end HeaderOp

/-! ## The multimap -/

/-- A header as it is kept. -/
structure Header where
  code : HttpHeaderCode
  name : List Byte
  value : List Byte
  deriving Repr, DecidableEq

/-- Equal up to the case of ASCII letters. -/
def EqualUpToCase (s t : List Byte) : Prop := s.map toLower = t.map toLower

instance (s t : List Byte) : Decidable (EqualUpToCase s t) :=
  inferInstanceAs (Decidable (s.map toLower = t.map toLower))

namespace HeaderOp

/-- `remove` with `HTTP_HEADER_NONE` is not asked for. -/
def Proper : HeaderOp → Prop
  | removeCode code => code ≠ .none
  | _ => True

/-- What the multimap gets from a call with a name. -/
def namedHeader (code : HttpHeaderCode) (headerName : StringPiece) (value : List Byte) :
    List Header :=
  if headerName.size = 0 then [] else [⟨code, HttpHeaders.storedName headerName.bytes code, value⟩]

/-- What it gets from a call with a code. -/
def codedHeader (code : HttpHeaderCode) (value : List Byte) : List Header :=
  match code with
  | .none | .other => []
  | .common word => [⟨.common word, headerName word, value⟩]

/-- The header a call adds, if any. -/
def added (codeOf : StringPiece → HttpHeaderCode) : HeaderOp → List Header
  | addPieces name value => namedHeader (codeOf name) name value.bytes
  | addStrings name value => namedHeader (codeOf (.ofString name)) (.ofString name) value
  | addMovedString name value => namedHeader (codeOf (.ofString name)) (.ofString name) value
  | addCodeString code value => codedHeader code value
  | addCodePiece code value => codedHeader code value.bytes
  | removeName _ => []
  | removeCode _ => []

/-- The headers a call removes. A name with a code of its own stands for that code, and the empty
name for no header. -/
def Removes (codeOf : StringPiece → HttpHeaderCode) : HeaderOp → Header → Prop
  | removeName name, x =>
      name.size ≠ 0 ∧ x.code = codeOf name ∧
        (codeOf name = .other → EqualUpToCase name.bytes x.name)
  | removeCode code, x => x.code = code
  | _, _ => False

instance (codeOf : StringPiece → HttpHeaderCode) (x : Header) :
    ∀ op : HeaderOp, Decidable (op.Removes codeOf x)
  | removeName name => inferInstanceAs (Decidable (name.size ≠ 0 ∧ x.code = codeOf name ∧
      (codeOf name = .other → EqualUpToCase name.bytes x.name)))
  | removeCode code => inferInstanceAs (Decidable (x.code = code))
  | addPieces _ _ | addStrings _ _ | addMovedString _ _ | addCodeString _ _ | addCodePiece _ _ =>
      inferInstanceAs (Decidable False)

/-- What a call does to the multimap: what it removes is gone, the rest is as it was, and what it
adds is last. -/
def apply (codeOf : StringPiece → HttpHeaderCode) (op : HeaderOp) (m : List Header) : List Header :=
  m.filter (fun x => ¬ op.Removes codeOf x) ++ op.added codeOf

/-- What a call returns. -/
def answer (codeOf : StringPiece → HttpHeaderCode) (op : HeaderOp) (m : List Header) :
    Option Bool :=
  match op with
  | removeName _ | removeCode _ => some (m.any fun x => op.Removes codeOf x)
  | _ => none

end HeaderOp

namespace HttpHeaders

/-! ## The slots

Between the calls the object is determined by its slots: the vectors are their columns, and the
counter is the number of the deleted ones. -/

/-- The three vectors side by side. -/
def slots (h : HttpHeaders) : List Header :=
  (h.codes.zip (h.headerNames.zip h.headerValues)).map fun (code, name, value) =>
    ⟨code, name, value⟩

/-- The headers that have been added and not yet removed. -/
def live (h : HttpHeaders) : List Header := h.slots.filter (·.code ≠ .none)

/-- The object with these slots. -/
def ofSlots (l : List Header) : HttpHeaders where
  codes := l.map Header.code
  headerNames := l.map Header.name
  headerValues := l.map Header.value
  codesDeleted := l.countP (·.code = .none)

theorem slots_ofSlots (l : List Header) : (ofSlots l).slots = l := by
  induction l with
  | nil => rfl
  | cons x l ih =>
      simp only [slots, ofSlots, List.map_cons, List.zip_cons_cons] at ih ⊢
      rw [ih]

theorem live_ofSlots (l : List Header) : (ofSlots l).live = l.filter (·.code ≠ .none) := by
  rw [live, slots_ofSlots]

/-- The object stands for the multimap `m`: in its vectors, in its size and in what it finds. -/
structure Represents (h : HttpHeaders) (m : List Header) : Prop where
  names_length : h.headerNames.length = h.codes.length
  values_length : h.headerValues.length = h.codes.length
  deleted_le : h.codesDeleted ≤ h.codes.length
  live_eq : h.live = m
  size_eq : h.size = m.length
  get_eq : ∀ code ≠ .none,
    h.get code = .ok ((m.find? fun x => x.code = code).map Header.value)

theorem size_ofSlots (l : List Header) : (ofSlots l).size = (ofSlots l).live.length := by
  have hsplit : l.length = l.countP (·.code = .none) + l.countP (·.code ≠ .none) := by
    rw [List.length_eq_countP_add_countP fun x : Header => decide (x.code = .none)]
    simp
  rw [live_ofSlots, ← List.countP_eq_length_filter]
  simp only [size, ofSlots, List.length_map]
  omega

/-- Where a position was found, the list is cut in two. -/
theorem findIdx?_some_split {α : Type} {p : α → Bool} {l : List α} {pos : Nat}
    (h : l.findIdx? p = some pos) :
    ∃ passed x left, l = passed ++ x :: left ∧ pos = passed.length ∧ p x = true ∧
      ∀ y ∈ passed, ¬ p y = true := by
  obtain ⟨hlt, hp, hpassed⟩ := List.findIdx?_eq_some_iff_getElem.mp h
  refine ⟨l.take pos, l[pos], l.drop (pos + 1), ?_, ?_, hp, ?_⟩
  · exact eq_take_cons_drop (List.getElem?_eq_getElem hlt)
  · rw [List.length_take, Nat.min_eq_left hlt.le]
  · intro y hy
    obtain ⟨i, hi, rfl⟩ := List.mem_take_iff_getElem.mp hy
    exact hpassed i (by omega)

/-- A deleted slot is never found: its code is `HTTP_HEADER_NONE`. -/
theorem find_filter_live (l : List Header) {code : HttpHeaderCode} (hcode : code ≠ .none) :
    (l.filter (·.code ≠ .none)).find? (fun x => x.code = code) =
      l.find? (fun x => x.code = code) := by
  rw [List.find?_filter]
  congr 1
  funext x
  by_cases hx : x.code = code
  · simp [hx, hcode]
  · simp [hx]

theorem get_ofSlots (l : List Header) {code : HttpHeaderCode} (hcode : code ≠ .none) :
    (ofSlots l).get code =
      .ok (((ofSlots l).live.find? fun x => x.code = code).map Header.value) := by
  rw [live_ofSlots, find_filter_live l hcode]
  have hcodes : (ofSlots l).codes.findIdx? (· = code) = l.findIdx? (fun x => x.code = code) :=
    List.findIdx?_map
  rw [get, hcodes]
  cases hfind : l.findIdx? (fun x => decide (x.code = code)) with
  | none =>
      have hnone : l.find? (fun x => x.code = code) = none :=
        List.find?_eq_none.mpr fun x hx => by
          rw [List.findIdx?_eq_none_iff.mp hfind x hx]
          exact Bool.false_ne_true
      rw [hnone]
      rfl
  | some pos =>
      obtain ⟨passed, x, left, rfl, rfl, hx, hpassed⟩ := findIdx?_some_split hfind
      have hvalue : readAt (ofSlots (passed ++ x :: left)).headerValues passed.length =
          .ok x.value := by simp [readAt, ofSlots]
      have hfirst : (passed ++ x :: left).find? (fun x => x.code = code) = some x := by
        rw [List.find?_append, List.find?_eq_none.mpr hpassed, Option.none_or]
        exact List.find?_cons_of_pos hx
      rw [hfirst]
      simp only [hvalue, ok_bind, pure_eq_ok, Option.map_some]

theorem represents_ofSlots (l : List Header) : Represents (ofSlots l) (ofSlots l).live where
  names_length := by simp [ofSlots]
  values_length := by simp [ofSlots]
  deleted_le := by
    simp only [ofSlots, List.length_map]
    exact List.countP_le_length
  live_eq := rfl
  size_eq := size_ofSlots l
  get_eq := fun _ hcode => get_ofSlots l hcode

/-! ## The sweep -/

section Sweep
variable (p : Header → Prop) [DecidablePred p]

/-- A slot after the sweep. -/
def bury (x : Header) : Header := if p x then { x with code := .none } else x

theorem bury_of_not {x : Header} (h : ¬ p x) : bury p x = x := if_neg h

theorem bury_of_forall_not {l : List Header} (h : ∀ x ∈ l, ¬ p x) :
    l.map (bury p) = l ∧ l.any (p ·) = false :=
  ⟨(List.map_congr_left fun x hx => bury_of_not p (h x hx)).trans (List.map_id l), by simpa using h⟩

theorem memchr_ofSlots (code : HttpHeaderCode) (done rest : List Header) :
    memchr code done.length (ofSlots (done ++ rest)).codes =
      (rest.findIdx? fun x => x.code = code).map (done.length + ·) := by
  have hdrop : (ofSlots (done ++ rest)).codes.drop done.length = rest.map Header.code := by
    simp [ofSlots]
  rw [memchr, hdrop, List.findIdx?_map]
  rfl

/-- A call of `memchr` cuts off the slots it has passed. -/
theorem memchr_some {code : HttpHeaderCode} {done rest : List Header} {pos : Nat}
    (h : memchr code done.length (ofSlots (done ++ rest)).codes = some pos) :
    ∃ passed x left, rest = passed ++ x :: left ∧ pos = (done ++ passed).length ∧ x.code = code ∧
      ∀ y ∈ passed, y.code ≠ code := by
  rw [memchr_ofSlots] at h
  obtain ⟨i, hi, rfl⟩ := Option.map_eq_some_iff.mp h
  obtain ⟨passed, x, left, hrest, rfl, hx, hpassed⟩ := findIdx?_some_split hi
  exact ⟨passed, x, left, hrest, List.length_append.symm, by simpa using hx, by simpa using hpassed⟩

theorem memchr_none {code : HttpHeaderCode} {done rest : List Header}
    (h : memchr code done.length (ofSlots (done ++ rest)).codes = none) :
    ∀ y ∈ rest, y.code ≠ code := by
  rw [memchr_ofSlots, Option.map_eq_none_iff, List.findIdx?_eq_none_iff] at h
  simpa using h

/-- What the callback does to a slot, the loop does to all that are left. -/
theorem iterateOverCodes_ok {code : HttpHeaderCode} {func : Nat → Sweep → Res Sweep}
    (hp : ∀ x, p x → x.code = code)
    (hfunc : ∀ done x left removed, x.code = code →
      func done.length (ofSlots (done ++ x :: left), removed) =
        .ok (ofSlots (done ++ bury p x :: left), removed || decide (p x)))
    (fuel : Nat) (done rest : List Header) (removed : Bool) (hfuel : rest.length < fuel) :
    iterateOverCodes code func fuel done.length (ofSlots (done ++ rest), removed) =
      .ok (ofSlots (done ++ rest.map (bury p)), removed || rest.any (p ·)) := by
  induction fuel generalizing done rest removed with
  | zero => omega
  | succ fuel ih =>
      have hpassed : ∀ l : List Header, (∀ y ∈ l, y.code ≠ code) →
          l.map (bury p) = l ∧ l.any (p ·) = false :=
        fun l hl => bury_of_forall_not p fun y hy hpy => hl y hy (hp y hpy)
      rw [iterateOverCodes]
      cases hfind : memchr code done.length (ofSlots (done ++ rest)).codes with
      | none =>
          -- no slot that is left has the code
          obtain ⟨hmap, hany⟩ := hpassed rest (memchr_none hfind)
          simp only [hmap, hany, Bool.or_false]
      | some pos =>
          -- the passed slots stay, and the loop goes on behind the one that was found
          obtain ⟨passed, x, left, rfl, rfl, hx, hne⟩ := memchr_some hfind
          obtain ⟨hmap, hany⟩ := hpassed passed hne
          simp only
          rw [← List.append_assoc, hfunc (done ++ passed) x left removed hx, ok_bind]
          have hlen : (done ++ passed).length + 1 = (done ++ passed ++ [bury p x]).length := by
            simp [Nat.add_assoc]
          have hlist : done ++ passed ++ bury p x :: left =
            (done ++ passed ++ [bury p x]) ++ left := by simp
          rw [hlen, hlist, ih _ left _ (by simp at hfuel; omega)]
          simp [hmap, hany, Bool.or_assoc]

/-- The sweep of a `remove`, over all the slots. -/
theorem sweep_ok (code : HttpHeaderCode) (func : Nat → Sweep → Res Sweep)
    (hp : ∀ x, p x → x.code = code)
    (hfunc : ∀ done x left removed, x.code = code →
      func done.length (ofSlots (done ++ x :: left), removed) =
        .ok (ofSlots (done ++ bury p x :: left), removed || decide (p x))) (l : List Header) :
    iterateOverCodes code func ((ofSlots l).codes.length + 1) 0 (ofSlots l, false) =
      .ok (ofSlots (l.map (bury p)), l.any (p ·)) := by
  have hloop := iterateOverCodes_ok p hp hfunc ((ofSlots l).codes.length + 1) [] l false
    (by simp [ofSlots])
  simpa using hloop

/-- What is left alive after a sweep. -/
theorem live_map_bury (hp : ∀ x, p x → x.code ≠ .none) (l : List Header) :
    (ofSlots (l.map (bury p))).live = (ofSlots l).live.filter (fun x => ¬ p x) := by
  simp only [live_ofSlots]
  induction l with
  | nil => rfl
  | cons x l ih =>
      rw [List.map_cons, List.filter_cons, ih, List.filter_cons]
      by_cases hx : p x
      · have hburied : (bury p x).code = .none := by rw [bury, if_pos hx]
        rw [if_neg (by simp [hburied]), if_pos (by simp [hp x hx]), List.filter_cons,
          if_neg (by simp [hx])]
      · rw [bury_of_not p hx]
        by_cases hlive : x.code = .none
        · rw [if_neg (by simp [hlive]), if_neg (by simp [hlive])]
        · rw [if_pos (by simp [hlive]), if_pos (by simp [hlive]), List.filter_cons,
            if_pos (by simp [hx])]

/-- Only live headers are removed. -/
theorem any_live (hp : ∀ x, p x → x.code ≠ .none) (l : List Header) :
    (ofSlots l).live.any (p ·) = l.any (p ·) := by
  rw [live_ofSlots, List.any_filter]
  congr 1
  funext x
  by_cases hx : p x
  · simp [hx, hp x hx]
  · simp [hx]

end Sweep

/-- The slot at the position is taken from the live ones. -/
theorem markDeleted_ok (done left : List Header) {x : Header} (hx : x.code ≠ .none)
    (removed : Bool) :
    markDeleted done.length (ofSlots (done ++ x :: left), removed) =
      .ok (ofSlots (done ++ { x with code := .none } :: left), true) := by
  have hpos : done.length < (ofSlots (done ++ x :: left)).codes.length := by simp [ofSlots]
  rw [markDeleted, if_pos hpos]
  simp [ofSlots, hx]
  omega

/-- The comparison reads the stored name, and deletes the slot or leaves it. -/
theorem ifNamed_ok {p : Header → Prop} [DecidablePred p] {name : List Byte} {x : Header}
    (hx : x.code = .other) (hp : p x ↔ EqualUpToCase name x.name) (done left : List Header)
    (removed : Bool) :
    ifNamed name markDeleted done.length (ofSlots (done ++ x :: left), removed) =
      .ok (ofSlots (done ++ bury p x :: left), removed || decide (p x)) := by
  have hname : readAt (ofSlots (done ++ x :: left)).headerNames done.length = .ok x.name := by
    simp [readAt, ofSlots]
  simp only [ifNamed, hname, ok_bind]
  split
  · next hequal =>
    have hpx : p x := hp.mpr ((caseInsensitiveEqual_iff name x.name).mp hequal)
    rw [markDeleted_ok done left (by rw [hx]; simp), bury, if_pos hpx]
    simp [hpx]
  · next hequal =>
    have hpx : ¬ p x := fun h => hequal ((caseInsensitiveEqual_iff name x.name).mpr (hp.mp h))
    rw [bury_of_not p hpx]
    simp [hpx]

/-! ## The calls -/

theorem push_ofSlots (l : List Header) {x : Header} (hx : x.code ≠ .none) :
    (ofSlots l).push x.code x.name x.value = ofSlots (l ++ [x]) := by
  simp [push, ofSlots, hx]

theorem live_append (l : List Header) {x : Header} (hx : x.code ≠ .none) :
    (ofSlots (l ++ [x])).live = (ofSlots l).live ++ [x] := by
  simp [live_ofSlots, hx]

theorem addNamed_ok (l : List Header) {code : HttpHeaderCode} (hcode : code ≠ .none)
    (name : StringPiece) (value : List Byte) :
    ∃ l', (ofSlots l).addNamed code name value = ofSlots l' ∧
      (ofSlots l').live = (ofSlots l).live ++ HeaderOp.namedHeader code name value := by
  rw [addNamed, HeaderOp.namedHeader]
  split
  · exact ⟨l, rfl, by rw [List.append_nil]⟩
  · exact ⟨_, push_ofSlots l (x := ⟨code, storedName name.bytes code, value⟩) hcode,
      live_append l hcode⟩

theorem addCoded_ok (l : List Header) (code : HttpHeaderCode) (value : List Byte) :
    ∃ l', (ofSlots l).addCoded code value = ofSlots l' ∧
      (ofSlots l').live = (ofSlots l).live ++ HeaderOp.codedHeader code value := by
  cases code with
  | none => exact ⟨l, rfl, (List.append_nil _).symm⟩
  | other => exact ⟨l, rfl, (List.append_nil _).symm⟩
  | common word =>
      have hcode : (HttpHeaderCode.common word) ≠ .none := by simp
      exact ⟨_, push_ofSlots l (x := ⟨.common word, headerName word, value⟩) hcode,
        live_append l hcode⟩

theorem removeCode_ok {p : Header → Prop} [DecidablePred p] {code : HttpHeaderCode}
    (hcode : code ≠ .none) (hp : ∀ x, p x ↔ x.code = code) (l : List Header) :
    (ofSlots l).removeCode code = .ok (l.any (p ·), ofSlots (l.map (bury p))) := by
  have hsweep := sweep_ok p code markDeleted (fun x hx => (hp x).mp hx)
    (fun done x left removed hx => by
      have hpx : p x := (hp x).mpr hx
      rw [markDeleted_ok done left (by rw [hx]; exact hcode), bury, if_pos hpx]
      simp [hpx]) l
  rw [removeCode, hsweep, ok_bind]
  rfl

variable {codeOf : StringPiece → HttpHeaderCode}

theorem removeName_ok (hcode : ∀ name, codeOf name ≠ .none) (name : StringPiece)
    (l : List Header) :
    (ofSlots l).removeName codeOf name =
      .ok (l.any ((HeaderOp.removeName name).Removes codeOf ·),
        ofSlots (l.map (bury ((HeaderOp.removeName name).Removes codeOf)))) := by
  rw [removeName]
  split
  · next hempty =>
    obtain ⟨hmap, hany⟩ := bury_of_forall_not ((HeaderOp.removeName name).Removes codeOf)
      (l := l) fun x _ hx => hx.1 hempty
    rw [hmap, hany]
  · next hempty =>
    split
    · next hcommon =>
      exact removeCode_ok (hcode name)
        (fun x => ⟨fun hx => hx.2.1, fun hx => ⟨hempty, hx, fun h => absurd h hcommon⟩⟩) l
    · -- a name without a code of its own: the stored names are compared
      next hother =>
      have hother := not_not.mp hother
      have hsweep := sweep_ok ((HeaderOp.removeName name).Removes codeOf) .other
        (ifNamed name.bytes markDeleted) (fun x hx => hother ▸ hx.2.1)
        (fun done x left removed hx => ifNamed_ok hx
          ⟨fun h => h.2.2 hother, fun h => ⟨hempty, by rw [hx, hother], fun _ => h⟩⟩
          done left removed) l
      rw [iterateOverOtherHeaderNames, hsweep, ok_bind]
      rfl

/-- An `add`, once it is known what it does to the slots. -/
theorem exec_add (op : HeaderOp) {h : HttpHeaders} {l l' : List Header}
    (hnot : ∀ x, ¬ op.Removes codeOf x) (hexec : op.exec codeOf (ofSlots l) = .ok (none, h))
    (hanswer : op.answer codeOf (ofSlots l).live = none) (hl' : h = ofSlots l')
    (hlive : (ofSlots l').live = (ofSlots l).live ++ op.added codeOf) :
    ∃ l', op.exec codeOf (ofSlots l) = .ok (op.answer codeOf (ofSlots l).live, ofSlots l') ∧
      (ofSlots l').live = op.apply codeOf (ofSlots l).live := by
  refine ⟨l', by rw [hexec, hanswer, hl'], ?_⟩
  rw [HeaderOp.apply, List.filter_eq_self.mpr fun x _ => decide_eq_true (hnot x), hlive]

/-- A `remove` that sweeps the slots. -/
theorem exec_remove {op : HeaderOp} {l : List Header}
    (hp : ∀ x, op.Removes codeOf x → x.code ≠ .none) (hadded : op.added codeOf = [])
    (hexec : op.exec codeOf (ofSlots l) =
      .ok (some (l.any (op.Removes codeOf ·)), ofSlots (l.map (bury (op.Removes codeOf)))))
    (hanswer : op.answer codeOf (ofSlots l).live =
      some ((ofSlots l).live.any (op.Removes codeOf ·))) :
    ∃ l', op.exec codeOf (ofSlots l) = .ok (op.answer codeOf (ofSlots l).live, ofSlots l') ∧
      (ofSlots l').live = op.apply codeOf (ofSlots l).live := by
  refine ⟨_, by rw [hexec, hanswer, any_live _ hp], ?_⟩
  rw [live_map_bury _ hp, HeaderOp.apply, hadded, List.append_nil]

/-- One call, on the slots and on the multimap. -/
theorem exec_ok (hcode : ∀ name, codeOf name ≠ .none) {op : HeaderOp} (hop : op.Proper)
    (l : List Header) :
    ∃ l', op.exec codeOf (ofSlots l) = .ok (op.answer codeOf (ofSlots l).live, ofSlots l') ∧
      (ofSlots l').live = op.apply codeOf (ofSlots l).live := by
  cases op with
  | addPieces name value =>
      obtain ⟨l', hl', hlive⟩ := addNamed_ok l (hcode name) name value.bytes
      exact exec_add (.addPieces name value) (fun _ => id) rfl rfl hl' hlive
  | addStrings name value =>
      obtain ⟨l', hl', hlive⟩ := addNamed_ok l (hcode (.ofString name)) (.ofString name) value
      exact exec_add (.addStrings name value) (fun _ => id) rfl rfl hl' hlive
  | addMovedString name value =>
      obtain ⟨l', hl', hlive⟩ := addNamed_ok l (hcode (.ofString name)) (.ofString name) value
      exact exec_add (.addMovedString name value) (fun _ => id) rfl rfl hl' hlive
  | addCodeString code value =>
      obtain ⟨l', hl', hlive⟩ := addCoded_ok l code value
      exact exec_add (.addCodeString code value) (fun _ => id) rfl rfl hl' hlive
  | addCodePiece code value =>
      obtain ⟨l', hl', hlive⟩ := addCoded_ok l code value.bytes
      exact exec_add (.addCodePiece code value) (fun _ => id) rfl rfl hl' hlive
  | removeName name =>
      have hp : ∀ x, (HeaderOp.removeName name).Removes codeOf x → x.code ≠ .none := by
        intro x hx
        rw [hx.2.1]
        exact hcode name
      exact exec_remove hp rfl (by rw [HeaderOp.exec, removeName_ok hcode]; rfl) rfl
  | removeCode code =>
      have hp : ∀ x, (HeaderOp.removeCode code).Removes codeOf x → x.code ≠ .none := by
        intro x hx
        rw [show x.code = code from hx]
        exact hop
      have hsweep := removeCode_ok (p := (HeaderOp.removeCode code).Removes codeOf) hop
        (fun _ => Iff.rfl) l
      exact exec_remove hp rfl (by rw [HeaderOp.exec, hsweep]; rfl) rfl

/-! ## Every sequence of calls -/

/-- The vectors are the columns of some slots, and the counter is right. -/
def Columns (h : HttpHeaders) : Prop := ∃ l, h = ofSlots l

/-- A call does to the multimap what it should, and answers what it should. -/
def Follows (codeOf : StringPiece → HttpHeaderCode) (h : HttpHeaders) (op : HeaderOp)
    (answer : Option Bool) (h' : HttpHeaders) : Prop :=
  Columns h ∧ answer = op.answer codeOf h.live ∧ h'.live = op.apply codeOf h.live

theorem Columns.represents {h : HttpHeaders} (hcols : Columns h) : Represents h h.live := by
  obtain ⟨l, rfl⟩ := hcols
  exact represents_ofSlots l

theorem exec_follows (hcode : ∀ name, codeOf name ≠ .none) (h : HttpHeaders) (op : HeaderOp)
    (hcols : Columns h) (hop : op.Proper) :
    ∃ answer h', op.exec codeOf h = .ok (answer, h') ∧ Columns h' ∧
      Follows codeOf h op answer h' ∧ h'.live = op.apply codeOf h.live := by
  obtain ⟨l, rfl⟩ := hcols
  obtain ⟨l', hexec, hlive⟩ := exec_ok hcode hop l
  exact ⟨_, _, hexec, ⟨l', rfl⟩, ⟨⟨l, rfl⟩, rfl, hlive⟩, hlive⟩

/-- **The refinement.** Whatever is added and removed, no call fails, the object stands for the
multimap on which the same calls were made, and every `remove` tells whether it removed anything. -/
theorem refines_multimap (codeOf : StringPiece → HttpHeaderCode)
    (hcode : ∀ name, codeOf name ≠ .none) (ops : List HeaderOp) (hops : ∀ op ∈ ops, op.Proper) :
    ∃ history h, run (HeaderOp.exec codeOf) ops empty = .ok (history, h) ∧
      history.map Entry.input = ops ∧
      Represents h (ops.foldl (fun m op => op.apply codeOf m) []) ∧
      ∀ e ∈ history, ∃ m, Represents e.before m ∧ e.output = e.input.answer codeOf m ∧
        Represents e.after (e.input.apply codeOf m) := by
  obtain ⟨history, h, hrun, hinputs, hcols, hlive, hall⟩ :=
    run_refines live (exec_follows hcode) ops ⟨[], rfl⟩
      (admissible_of_forall (fun op hop _ => hops op hop) (live empty))
  refine ⟨history, h, hrun, hinputs, ?_, ?_⟩
  · have hfold := hcols.represents
    rwa [hlive] at hfold
  · intro e he
    obtain ⟨hafter, hbefore, hanswer, happly⟩ := hall e he
    refine ⟨e.before.live, hbefore.represents, hanswer, ?_⟩
    rw [← happly]
    exact hafter.represents

/-! ## With the lookup of the source -/

/-- `getHeaderCode`, where it returns. -/
def knownCode (name : StringPiece) : HttpHeaderCode :=
  match getHeaderCode name.mem name.size with
  | .ok code => code
  | .error _ => .other

theorem knownCode_ne_none (name : StringPiece) : knownCode name ≠ .none := by
  rw [knownCode]
  split
  · next code hcode =>
    rintro rfl
    exact getHeaderCode_ne_none _ _ hcode
  · simp

/-- The `add` the codec calls is the first of the five. -/
theorem add_eq_addNamed {name : StringPiece} {code : HttpHeaderCode}
    (hcode : getHeaderCode name.mem name.size = .ok code) (value : List Byte) (h : HttpHeaders) :
    add name value h = .ok (h.addNamed (knownCode name) name value) := by
  have hknown : knownCode name = code := by rw [knownCode, hcode]
  rw [add, addNamed, hknown]
  split
  · rfl
  · rw [hcode, ok_bind]
    rfl

/-- Three headers; two have the same name, but for its case. -/
def mixedCase : List HeaderOp := [
  .addStrings (ascii "host") (ascii "a"),
  .addPieces (.ofString (ascii "X-Id")) (.ofString (ascii "1")),
  .addMovedString (ascii "x-id") (ascii "2"),
  .removeName (.ofString (ascii "X-ID")),
  .removeCode .other]

theorem refines_multimap_mixedCase :
    ∃ history h, run (HeaderOp.exec knownCode) mixedCase empty = .ok (history, h) ∧
      history.map Entry.input = mixedCase ∧
      Represents h (mixedCase.foldl (fun m op => op.apply knownCode m) []) ∧
      ∀ e ∈ history, ∃ m, Represents e.before m ∧ e.output = e.input.answer knownCode m ∧
        Represents e.after (e.input.apply knownCode m) :=
  refines_multimap knownCode knownCode_ne_none mixedCase (by simp [mixedCase, HeaderOp.Proper])

example : (run (HeaderOp.exec knownCode) mixedCase empty).map (fun r => r.1.map Entry.output) =
    .ok [none, none, none, some true, some false] := by decide +kernel

/-- A name that begins with a zero byte is stored as the empty name. The empty name equals it, but
`remove` returns before it looks at the headers. -/
theorem remove_emptyName :
    knownCode (.ofString []) = .other ∧ EqualUpToCase (StringPiece.ofString []).bytes [] ∧
      (run (HeaderOp.exec knownCode)
          [.addStrings [0] (ascii "v"), .removeName (.ofString [])] empty).map
        (fun r => r.1.map fun e => (e.before.live, e.output, e.after.live)) =
      .ok [([], none, [⟨.other, [], ascii "v"⟩]),
        ([⟨.other, [], ascii "v"⟩], some false, [⟨.other, [], ascii "v"⟩])] := by
  decide +kernel

end HttpHeaders

end Unp.Http
