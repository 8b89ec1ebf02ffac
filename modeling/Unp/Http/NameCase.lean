import Unp.Http.CommonNames
import Unp.Http.Headers

/-!
# The case of header names

A name is found by its code when it has one, and by comparing the stored names, up to case, when it
has none. Which of the two it is depends on the case of its letters, since the table knows a word in
one spelling and a second one, where the first letter is small. So a header that is added as `HOST`
is among the others, and is not found under the code of `Host`.
-/

namespace Unp.Http

open Unp.Machine Unp.Util Unp.Run

namespace NamePiece

/-- The C string at the name is this word but for the case of its first letter, and the name leads to
the slot of the word. -/
def KnownAs (name : NamePiece) (word : Fin 93) : Prop :=
  slotOf ((raiseFirst (cString name.mem)).take name.size) = some word ∧
    raiseFirst (cString name.mem) = headerName word

instance (name : NamePiece) (word : Fin 93) : Decidable (name.KnownAs word) :=
  inferInstanceAs (Decidable (_ ∧ _))

/-- The code of the name. -/
def code (name : NamePiece) : HttpHeaderCode := HttpHeaders.knownCode name.toStringPiece

theorem code_eq (name : NamePiece) : name.code = codeFor (cString name.mem) name.size := by
  rw [code, HttpHeaders.knownCode, getHeaderCode_codeFor name.size_pos name.size_le_strlen]

theorem code_eq_common {name : NamePiece} {word : Fin 93} :
    name.code = .common word ↔ name.KnownAs word := by
  rw [code_eq]
  exact codeFor_eq_common

theorem code_eq_other {name : NamePiece} : name.code = .other ↔ ∀ word, ¬ name.KnownAs word := by
  rw [code_eq, codeFor_eq_other, Collides, not_exists]
  apply forall_congr'
  intro word
  exact not_congr and_comm

/-- Two names have the same code when they are known as the same words, if as any. -/
theorem code_eq_code {a n : NamePiece} :
    a.code = n.code ↔ ∀ word, a.KnownAs word ↔ n.KnownAs word := by
  constructor
  · intro heq word
    rw [← code_eq_common, ← code_eq_common, heq]
  · intro hsame
    cases hcode : n.code with
    | none => exact absurd hcode (HttpHeaders.knownCode_ne_none _)
    | other =>
        apply code_eq_other.mpr
        intro word hword
        exact code_eq_other.mp hcode word ((hsame word).mp hword)
    | common word => exact code_eq_common.mpr ((hsame word).mpr (code_eq_common.mp hcode))

theorem zero_notMem_bytes (name : NamePiece) : 0 ∉ name.bytes := by
  intro hmem
  rw [StringPiece.bytes, take_cString name.size_le_strlen] at hmem
  exact zero_notMem_cString name.mem (List.mem_of_mem_take hmem)

/-- The table says the same of both names: if they are equal up to case they are known as the same
word or both unknown, and if they are not they are not known as one word. -/
structure Agree (a n : NamePiece) : Prop where
  same : EqualUpToCase n.bytes a.bytes → ∀ word, a.KnownAs word ↔ n.KnownAs word
  apart : ¬ EqualUpToCase n.bytes a.bytes → ∀ word, ¬ (a.KnownAs word ∧ n.KnownAs word)

/-- The header an `add` makes of the name. -/
def header (name : NamePiece) (value : List Byte) : Header :=
  ⟨name.code, HttpHeaders.storedName name.bytes name.code, value⟩

/-- The header is removed with its name, in any case, when the names agree. -/
theorem agree_iff (a n : NamePiece) (value : List Byte) :
    Agree a n ↔ ((HeaderOp.removeName n.toStringPiece).Removes HttpHeaders.knownCode
      (a.header value) ↔ EqualUpToCase n.bytes a.bytes) := by
  have hsize : n.size ≠ 0 := Nat.one_le_iff_ne_zero.mp n.size_pos
  have hstored : a.code = .other → (a.header value).name = a.bytes := by
    intro hother
    show HttpHeaders.storedName a.bytes a.code = a.bytes
    rw [hother]
    exact cString_of_notMem a.zero_notMem_bytes
  have hremoves : (HeaderOp.removeName n.toStringPiece).Removes HttpHeaders.knownCode
      (a.header value) ↔ a.code = n.code ∧ (a.code = .other → EqualUpToCase n.bytes a.bytes) := by
    constructor
    · rintro ⟨-, hcode, hname⟩
      refine ⟨hcode, fun hother => ?_⟩
      rw [← hstored hother]
      exact hname (hcode.symm.trans hother)
    · rintro ⟨hcode, hname⟩
      refine ⟨hsize, hcode, fun hother => ?_⟩
      have hother : a.code = .other := hcode.trans hother
      rw [hstored hother]
      exact hname hother
  rw [hremoves]
  by_cases hequal : EqualUpToCase n.bytes a.bytes
  · -- the names are equal: the codes have to be
    have hagree : Agree a n ↔ a.code = n.code := by
      rw [code_eq_code]
      exact ⟨fun h => h.same hequal, fun h => ⟨fun _ => h, fun hne => absurd hequal hne⟩⟩
    rw [hagree, iff_true_right hequal]
    exact ⟨fun h => ⟨h, fun _ => hequal⟩, And.left⟩
  · -- they are not: a code of their own must not be the same
    rw [iff_false_right hequal]
    constructor
    · rintro hagree ⟨hcode, hname⟩
      cases hknown : a.code with
      | none => exact HttpHeaders.knownCode_ne_none _ hknown
      | other => exact hequal (hname hknown)
      | common word =>
          exact hagree.apart hequal word
            ⟨code_eq_common.mp hknown, code_eq_common.mp (hcode.symm.trans hknown)⟩
    · intro hnot
      refine ⟨fun h => absurd h hequal, ?_⟩
      rintro - word ⟨ha, hn⟩
      have hknown := code_eq_common.mpr ha
      refine hnot ⟨hknown.trans (code_eq_common.mpr hn).symm, fun hother => ?_⟩
      rw [hknown] at hother
      cases hother

end NamePiece

/-! ## Names of their own -/

/-- A name in a string of its own. -/
structure OwnName where
  chars : List Byte
  ne_nil : chars ≠ []
  zero_notMem : 0 ∉ chars

namespace OwnName

theorem cString_mem (name : OwnName) : cString (name.chars ++ [0]) = name.chars :=
  cString_of_notMem name.zero_notMem

def piece (name : OwnName) : NamePiece where
  toStringPiece := .ofString name.chars
  terminated := List.mem_append_right name.chars (List.mem_singleton.mpr rfl)
  size_pos := List.length_pos_iff.mpr name.ne_nil
  size_le_strlen := by
    show name.chars.length ≤ (cString (name.chars ++ [0])).length
    rw [name.cString_mem]

/-- It is known as the word that it is but for the case of its first letter. -/
theorem knownAs_piece {name : OwnName} {word : Fin 93} :
    name.piece.KnownAs word ↔ raiseFirst name.chars = headerName word := by
  rw [← NamePiece.code_eq_common, NamePiece.code_eq]
  show codeFor (cString (name.chars ++ [0])) name.chars.length = .common word ↔ _
  rw [name.cString_mem, codeFor_whole]

theorem bytes_piece (name : OwnName) : name.piece.bytes = name.chars :=
  StringPiece.bytes_ofString name.chars

theorem toLower_toUpper (c : Byte) : toLower (toUpper c) = toLower c := by
  revert c
  exact forall_byte (by decide +kernel)

theorem toLower_raiseFirst (s : List Byte) : (raiseFirst s).map toLower = s.map toLower := by
  cases s with
  | nil => rfl
  | cons c s =>
      rw [raiseFirst, List.map_cons, List.map_cons, toLower_toUpper]

/-- Between such names it is only the spelling that counts: they agree unless they are a common name
up to case, and one of them is so but for its first letter and the other is not. -/
theorem agree_piece (a n : OwnName) :
    a.piece.Agree n.piece ↔
      (EqualUpToCase n.chars a.chars → (CommonName a.chars ↔ CommonName n.chars)) := by
  have hsame : ∀ {s t : OwnName} {word : Fin 93}, s.piece.KnownAs word → t.piece.KnownAs word →
      EqualUpToCase s.chars t.chars := by
    intro s t word hs ht
    rw [EqualUpToCase, ← toLower_raiseFirst s.chars, ← toLower_raiseFirst t.chars,
      knownAs_piece.mp hs, knownAs_piece.mp ht]
  constructor
  · intro hagree hequal
    have hknown := hagree.same (by rwa [bytes_piece, bytes_piece])
    apply exists_congr
    intro word
    rw [← knownAs_piece, ← knownAs_piece, hknown]
  · intro hcommon
    refine ⟨fun hequal word => ?_, fun hne word hboth => ?_⟩
    · rw [bytes_piece, bytes_piece] at hequal
      rw [knownAs_piece, knownAs_piece]
      -- a word that one of them is, the other is too, for the words differ in more than case
      have hword : ∀ {s t : OwnName}, EqualUpToCase s.chars t.chars →
          (CommonName s.chars → CommonName t.chars) → raiseFirst s.chars = headerName word →
          raiseFirst t.chars = headerName word := by
        intro s t hst himp hs
        obtain ⟨word', ht⟩ := himp ⟨word, hs⟩
        have hcase : (headerName word).map toLower = (headerName word').map toLower := by
          rw [← hs, ← ht, toLower_raiseFirst, toLower_raiseFirst]
          exact hst
        rw [ht, headerName_inj_upToCase hcase]
      constructor
      · exact hword hequal.symm (hcommon hequal).mp
      · exact hword hequal (hcommon hequal).mpr
    · rw [bytes_piece, bytes_piece] at hne
      exact hne (hsame hboth.2 hboth.1)

def host : OwnName := ⟨ascii "Host", by decide +kernel, by decide +kernel⟩

def upperHost : OwnName := ⟨ascii "HOST", by decide +kernel, by decide +kernel⟩

example : host.piece.KnownAs 1 ∧ ¬ upperHost.piece.KnownAs 1 := by decide +kernel

end OwnName

/-! ## Calls of `add` by name -/

/-- A call of one of the three `add`s that are given a name. -/
inductive AddCall where
  | addPieces (name : NamePiece) (value : StringPiece)
  | addStrings (name : OwnName) (value : List Byte)
  | addMovedString (name : OwnName) (value : List Byte)

namespace AddCall

def op : AddCall → HeaderOp
  | addPieces name value => .addPieces name.toStringPiece value
  | addStrings name value => .addStrings name.chars value
  | addMovedString name value => .addMovedString name.chars value

def name : AddCall → NamePiece
  | addPieces name _ => name
  | addStrings name _ | addMovedString name _ => name.piece

def value : AddCall → List Byte
  | addPieces _ value => value.bytes
  | addStrings _ value | addMovedString _ value => value

/-- The header that is added. -/
def header (call : AddCall) : Header := call.name.header call.value

/-- The call, with the lookup of the source. -/
def exec (call : AddCall) : HttpHeaders → Res (Option Bool × HttpHeaders) :=
  call.op.exec HttpHeaders.knownCode

end AddCall

namespace HttpHeaders

/-- The calls, on an object that is fresh. -/
def AfterCalls (calls : List AddCall) (h : HttpHeaders) : Prop :=
  ∃ history, run AddCall.exec calls empty = .ok (history, h)

/-- The position at which `operator[]` finds a header. -/
def position (code : HttpHeaderCode) (h : HttpHeaders) : Option Nat :=
  h.codes.findIdx? (· = code)

/-- `remove` takes away the headers that were added under this name, in any case, and no other. -/
def RemovesNamed (calls : List AddCall) (n : NamePiece) (h : HttpHeaders) : Prop :=
  ∃ removed h', h.removeName knownCode n.toStringPiece = .ok (removed, h') ∧
    h'.live = (calls.filter fun call => ¬ EqualUpToCase n.bytes call.name.bytes).map AddCall.header

/-- The first of the calls that adds a header under the name of the word, in any case, and the calls
before it. -/
def FirstNamed (calls : List AddCall) (word : Fin 93) (earlier : List AddCall) (call : AddCall) :
    Prop :=
  (∃ later, calls = earlier ++ call :: later) ∧
    EqualUpToCase (headerName word) call.name.bytes ∧
    ∀ e ∈ earlier, ¬ EqualUpToCase (headerName word) e.name.bytes

/-- If there is a header under the name of the word, in any case, `operator[]` finds the first. -/
def FindsNamed (calls : List AddCall) (word : Fin 93) (h : HttpHeaders) : Prop :=
  ∀ earlier call, FirstNamed calls word earlier call →
    h.position (.common word) = some earlier.length ∧ h.get (.common word) = .ok (some call.value)

/-- The first header under the name of the word is known as the word, and none before it is. -/
def FirstKnown (calls : List AddCall) (word : Fin 93) : Prop :=
  ∀ earlier call, FirstNamed calls word earlier call →
    call.name.KnownAs word ∧ ∀ e ∈ earlier, ¬ e.name.KnownAs word

theorem exec_addCall (l : List Header) (call : AddCall) :
    call.exec (ofSlots l) = .ok (none, ofSlots (l ++ [call.header])) := by
  have hadd : (ofSlots l).addNamed call.name.code call.name.toStringPiece call.value =
      ofSlots (l ++ [call.header]) := by
    rw [addNamed, if_neg (Nat.one_le_iff_ne_zero.mp call.name.size_pos)]
    exact push_ofSlots l (x := call.header) (knownCode_ne_none _)
  rw [← hadd]
  cases call <;> rfl

/-- The slots are the headers that were added. -/
theorem afterCalls (calls : List AddCall) :
    AfterCalls calls (ofSlots (calls.map AddCall.header)) := by
  have hstep : ∀ (h : HttpHeaders) (l : List Header) (call : AddCall), h = ofSlots l →
      ∃ answer h', call.exec h = .ok (answer, h') ∧ h' = ofSlots (l ++ [call.header]) := by
    rintro h l call rfl
    exact ⟨none, _, exec_addCall l call, rfl⟩
  obtain ⟨history, h, hrun, hslots⟩ := run_follows (fun h l => h = ofSlots l) hstep calls
    (s := empty) (x := []) rfl
  rw [List.foldl_append_eq_append, List.nil_append, ← List.flatMap_def, ← List.map_eq_flatMap]
    at hslots
  exact ⟨history, by rw [hrun, hslots]⟩

/-- What is filtered after it was mapped is what was filtered before, exactly when the two filters
say the same of every element. -/
theorem filter_map_eq_iff {α β : Type} {f : α → β} {p : β → Bool} {q : α → Bool} {l : List α} :
    (l.map f).filter p = (l.filter q).map f ↔ ∀ x ∈ l, p (f x) = q x := by
  rw [List.filter_map]
  constructor
  · intro heq
    -- what `q` keeps, `p` keeps, and they keep equally many
    have hsound : ∀ x ∈ l, q x = true → p (f x) = true := by
      intro x hx hq
      have hmem : f x ∈ (l.filter (p ∘ f)).map f := by
        rw [heq]
        exact List.mem_map_of_mem (List.mem_filter.mpr ⟨hx, hq⟩)
      obtain ⟨y, hy, hxy⟩ := List.mem_map.mp hmem
      rw [← hxy]
      exact (List.mem_filter.mp hy).2
    have hwithin : l.filter q = (l.filter (p ∘ f)).filter q := by
      rw [List.filter_filter]
      apply List.filter_congr
      intro x hx
      cases hq : q x with
      | false => rfl
      | true => exact (hsound x hx hq).symm
    have hlen := congrArg List.length heq
    rw [List.length_map, List.length_map, hwithin] at hlen
    have hcomplete := List.length_filter_eq_length_iff.mp hlen.symm
    intro x hx
    rw [Bool.eq_iff_iff]
    exact ⟨fun hp => hcomplete x (List.mem_filter.mpr ⟨hx, hp⟩), hsound x hx⟩
  · intro hsame
    congr 1
    exact List.filter_congr hsame

theorem removesNamed_iff (calls : List AddCall) (n : NamePiece) :
    RemovesNamed calls n (ofSlots (calls.map AddCall.header)) ↔
      ∀ call ∈ calls, call.name.Agree n := by
  have hcode : ∀ x, (HeaderOp.removeName n.toStringPiece).Removes knownCode x → x.code ≠ .none := by
    intro x hx
    rw [hx.2.1]
    exact knownCode_ne_none _
  have hlive : (ofSlots (calls.map AddCall.header)).live = calls.map AddCall.header := by
    rw [live_ofSlots, List.filter_eq_self]
    intro x hx
    obtain ⟨call, -, rfl⟩ := List.mem_map.mp hx
    exact decide_eq_true (knownCode_ne_none call.name.toStringPiece)
  have hremove := removeName_ok knownCode_ne_none n.toStringPiece (calls.map AddCall.header)
  have hafter := live_map_bury _ hcode (calls.map AddCall.header)
  rw [hlive] at hafter
  have hremoves : RemovesNamed calls n (ofSlots (calls.map AddCall.header)) ↔
      (calls.map AddCall.header).filter
          (fun x => ¬ (HeaderOp.removeName n.toStringPiece).Removes knownCode x) =
        (calls.filter fun call => ¬ EqualUpToCase n.bytes call.name.bytes).map AddCall.header := by
    constructor
    · rintro ⟨removed, h', hexec, hkept⟩
      rw [hremove] at hexec
      cases hexec
      rw [← hafter, hkept]
    · intro hkept
      exact ⟨_, _, hremove, by rw [hafter, hkept]⟩
  rw [hremoves, filter_map_eq_iff]
  apply forall₂_congr
  intro call _
  rw [NamePiece.agree_iff call.name n call.value, decide_eq_decide, not_iff_not]
  rfl

/-- The first place is that of an element which has the property when none before it has. -/
theorem findIdx?_eq_length_iff {α : Type} {p : α → Bool} {passed left : List α} {x : α} :
    (passed ++ x :: left).findIdx? p = some passed.length ↔
      p x = true ∧ ∀ y ∈ passed, ¬ p y = true := by
  constructor
  · intro hfind
    obtain ⟨passed', x', left', hsplit, hlen, hx, hpassed⟩ := findIdx?_some_split hfind
    obtain ⟨rfl, hrest⟩ := List.append_inj hsplit hlen
    obtain ⟨rfl, -⟩ := List.cons.inj hrest
    exact ⟨hx, hpassed⟩
  · rintro ⟨hx, hpassed⟩
    have hnone : passed.findIdx? p = none := by
      rw [List.findIdx?_eq_none_iff]
      intro y hy
      exact Bool.eq_false_of_not_eq_true (hpassed y hy)
    rw [List.findIdx?_append, hnone, Option.none_or, List.findIdx?_cons, if_pos hx]
    simp

theorem position_iff (calls : List AddCall) (word : Fin 93) {earlier later : List AddCall}
    {call : AddCall} (hcalls : calls = earlier ++ call :: later) :
    (ofSlots (calls.map AddCall.header)).position (.common word) = some earlier.length ↔
      call.name.KnownAs word ∧ ∀ e ∈ earlier, ¬ e.name.KnownAs word := by
  have hcodes : (ofSlots (calls.map AddCall.header)).codes =
      earlier.map (·.name.code) ++ call.name.code :: later.map (·.name.code) := by
    rw [hcalls]
    simp [ofSlots, AddCall.header, NamePiece.header, Function.comp_def]
  have hlen : earlier.length = (earlier.map (·.name.code)).length := (List.length_map _).symm
  rw [position, hcodes, hlen, findIdx?_eq_length_iff]
  simp [NamePiece.code_eq_common]

theorem findsNamed_iff (calls : List AddCall) (word : Fin 93) :
    FindsNamed calls word (ofSlots (calls.map AddCall.header)) ↔ FirstKnown calls word := by
  apply forall₂_congr
  intro earlier call
  constructor
  · rintro hfinds hfirst
    obtain ⟨later, hcalls⟩ := hfirst.1
    exact (position_iff calls word hcalls).mp (hfinds hfirst).1
  · rintro hknown hfirst
    obtain ⟨later, hcalls⟩ := hfirst.1
    have hposition := (position_iff calls word hcalls).mpr (hknown hfirst)
    refine ⟨hposition, ?_⟩
    rw [get, ← position, hposition]
    have hvalue : readAt (ofSlots (calls.map AddCall.header)).headerValues earlier.length =
        .ok call.value := by
      rw [hcalls]
      simp [readAt, ofSlots, AddCall.header, NamePiece.header]
    simp only [hvalue, ok_bind, pure_eq_ok]

/-- **When the case does not matter.** After any calls of `add`, a name removes exactly the headers
that it names when the table says the same of it and of each name that was added; and `operator[]`
finds the first header of a name when the table knows that name, and none before it, as the word. -/
theorem caseInsensitive_iff (calls : List AddCall) (n : NamePiece) (word : Fin 93) :
    ∃ h, AfterCalls calls h ∧
      (RemovesNamed calls n h ↔ ∀ call ∈ calls, call.name.Agree n) ∧
      (FindsNamed calls word h ↔ FirstKnown calls word) :=
  ⟨_, afterCalls calls, removesNamed_iff calls n, findsNamed_iff calls word⟩

/-- What `operator[]` finds for a word after the calls, what `remove` answers for a name, and what is
left then. -/
def lookFor (calls : List AddCall) (word : Fin 93) (n : OwnName) :
    Res (Option (List Byte) × Bool × List Header) := do
  let (_, h) ← run AddCall.exec calls empty
  let found ← h.get (.common word)
  let (removed, h) ← h.removeName knownCode n.piece.toStringPiece
  pure (found, removed, h.live)

/-- A host in capital letters is neither found nor removed. -/
theorem upperHost_isLost :
    EqualUpToCase OwnName.host.chars OwnName.upperHost.chars ∧ headerName 1 = OwnName.host.chars ∧
      lookFor [.addStrings .upperHost (ascii "a")] 1 .host =
        .ok (none, false, [⟨.other, ascii "HOST", ascii "a"⟩]) := by
  decide +kernel

end HttpHeaders
end Unp.Http
