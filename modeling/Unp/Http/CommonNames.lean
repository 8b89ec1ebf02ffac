import Mathlib.Data.List.FinRange
import Mathlib.Data.List.Nodup
import Unp.Http.Message

/-!
# What the table of common names knows

The hash of a name leads to one word of the table, the *slot* of the name, and depends on no byte
beyond the name's length. What the word is then compared with is not the name but the whole C string
at the pointer. For a name that is followed by a zero byte that is the same; for one that stands in a
longer text it is not.

A code is looked up twice, the second time with a capital first letter. Every word of the table
begins with a capital letter or with no letter, so the second attempt alone would do.
-/

namespace Unp.Http

open Unp.Machine Unp.Util

/-! ## The slot of a name -/

/-- `isValidHttpHeader`, up to the comparison. -/
def slot (mem : List Byte) (len : Nat) : Res (Option (Fin 93)) :=
  if len ≤ maxWordLength ∧ minWordLength ≤ len then do
    let key ← hash mem len
    if key ≤ maxHashValue then do
      let index ← readAt lookup key
      if 0 ≤ index then pure (if h : index.toNat < 93 then some ⟨index.toNat, h⟩ else none)
      else pure none
    else pure none
  else pure none

/-- The word a name is compared with, if any. -/
def slotOf (name : List Byte) : Option (Fin 93) :=
  match slot name name.length with
  | .ok word => word
  | .error _ => none

section Slots
variable {mem : List Byte} {len : Nat}

theorem isValidHttpHeader_eq (mem : List Byte) (len : Nat) :
    isValidHttpHeader mem len = (do
      let word ← slot mem len
      pure (word.filter fun word => sameString mem (headerName word))) := by
  rw [isValidHttpHeader, slot]
  split
  · cases hash mem len with
    | error e => rfl
    | ok key =>
        rw [ok_bind, ok_bind]
        split
        · cases readAt lookup key with
          | error e => rfl
          | ok index =>
              rw [ok_bind, ok_bind]
              by_cases hlo : 0 ≤ index
              · by_cases hhi : index.toNat < 93
                · rw [dif_pos ⟨hlo, hhi⟩, if_pos hlo, dif_pos hhi]
                  simp only [pure_eq_ok, ok_bind, Option.filter_some]
                · rw [dif_neg fun h => hhi h.2, if_pos hlo, dif_neg hhi]
                  rfl
              · rw [dif_neg fun h => hlo h.1, if_neg hlo]
                rfl
        · rfl
  · rfl

theorem readAt_take {i : Nat} (h : i < len) : readAt (mem.take len) i = readAt mem i := by
  rw [readAt, readAt, List.getElem?_take_of_lt h]

theorem assoIfLonger_take (i : Nat) : assoIfLonger (mem.take len) len i = assoIfLonger mem len i := by
  rw [assoIfLonger, assoIfLonger]
  split
  · next h => rw [assoAt, assoAt, readAt_take h]
  · rfl

/-- The hash reads nothing behind the name. -/
theorem slot_take (hpos : 1 ≤ len) : slot (mem.take len) len = slot mem len := by
  have hhash : hash (mem.take len) len = hash mem len := by
    rw [hash, hash, assoIfLonger_take, assoIfLonger_take, assoAt, assoAt, assoAt, assoAt,
      readAt_take (by omega), readAt_take (by omega)]
  rw [slot, slot, hhash]

theorem slot_returns (hlen : len ≤ mem.length) : ∃ word, slot mem len = .ok word := by
  obtain ⟨r, hr⟩ := isValidHttpHeader_ok mem len hlen
  rw [isValidHttpHeader_eq] at hr
  obtain ⟨word, hword, -⟩ := bind_eq_ok hr
  exact ⟨word, hword⟩

theorem slot_eq (hpos : 1 ≤ len) (hlen : len ≤ mem.length) :
    slot mem len = .ok (slotOf (mem.take len)) := by
  obtain ⟨word, hword⟩ := slot_returns hlen
  have hsize : (mem.take len).length = len := List.length_take_of_le hlen
  rw [slotOf, hsize, slot_take hpos, hword]

/-- The comparison is that of the C string. -/
theorem sameString_iff (mem : List Byte) (word : Fin 93) :
    sameString mem (headerName word) = true ↔ cString mem = headerName word := by
  constructor
  · exact cString_of_sameString
  · intro heq
    obtain ⟨hne, -⟩ := headerName_spec word
    cases mem with
    | nil => exact absurd heq.symm hne
    | cons c mem =>
        rw [cString] at heq
        split at heq
        · exact absurd heq.symm hne
        · rw [← heq]
          simp [sameString]

/-- The lookup of a name: its slot, if the C string at the pointer is the word in it. -/
theorem isValidHttpHeader_slotOf (hpos : 1 ≤ len) (hlen : len ≤ mem.length) :
    isValidHttpHeader mem len =
      .ok ((slotOf (mem.take len)).filter fun word => cString mem = headerName word) := by
  rw [isValidHttpHeader_eq, slot_eq hpos hlen, ok_bind, pure_eq_ok]
  congr 2
  funext word
  rw [Bool.eq_iff_iff, sameString_iff, decide_eq_true_iff]

end Slots

/-! ## The words -/

/-- Every word is in its own slot. -/
theorem slotOf_headerName (word : Fin 93) : slotOf (headerName word) = some word := by
  revert word
  decide +kernel

theorem raiseFirst_headerName (word : Fin 93) : raiseFirst (headerName word) = headerName word := by
  revert word
  decide +kernel

/-- The small letters of a name as one number. -/
def lowerKey (s : List Byte) : Nat := (s.map toLower).foldl (fun n c => 256 * n + c.toNat) 1

theorem nodup_lowerKey : ((List.finRange 93).map fun word => lowerKey (headerName word)).Nodup := by
  decide +kernel

/-- The words differ in more than the case of their letters. -/
theorem headerName_inj_upToCase {word word' : Fin 93}
    (h : (headerName word).map toLower = (headerName word').map toLower) : word = word' := by
  apply List.inj_on_of_nodup_map nodup_lowerKey (List.mem_finRange word) (List.mem_finRange word')
  show lowerKey (headerName word) = lowerKey (headerName word')
  rw [lowerKey, h, lowerKey]

/-! ## The code of a name -/

/-- The code of the first `len` bytes of a C string. -/
def codeFor (str : List Byte) (len : Nat) : HttpHeaderCode :=
  match (slotOf ((raiseFirst str).take len)).filter fun word => raiseFirst str = headerName word with
  | some word => .common word
  | none => .other

theorem codeFor_eq_common {str : List Byte} {len : Nat} {word : Fin 93} :
    codeFor str len = .common word ↔
      slotOf ((raiseFirst str).take len) = some word ∧ raiseFirst str = headerName word := by
  rw [codeFor]
  cases hfilter : (slotOf ((raiseFirst str).take len)).filter
      fun word => raiseFirst str = headerName word with
  | none =>
      refine iff_of_false (by simp) ?_
      rintro ⟨hslot, hword⟩
      rw [hslot] at hfilter
      simp [hword] at hfilter
  | some word' =>
      obtain ⟨hslot, hword⟩ := Option.filter_eq_some_iff.mp hfilter
      simp only [decide_eq_true_eq] at hword
      rw [HttpHeaderCode.common.injEq]
      constructor
      · rintro rfl
        exact ⟨hslot, hword⟩
      · rintro ⟨hslot', -⟩
        rw [hslot] at hslot'
        exact Option.some_inj.mp hslot'

theorem codeFor_ne_none (str : List Byte) (len : Nat) : codeFor str len ≠ .none := by
  rw [codeFor]
  split <;> simp

theorem cString_isPrefix (mem : List Byte) : cString mem <+: mem := by
  induction mem with
  | nil => exact List.prefix_refl _
  | cons c mem ih =>
      rw [cString]
      split
      · exact List.nil_prefix
      · exact List.cons_prefix_cons.mpr ⟨rfl, ih⟩

theorem take_cString {mem : List Byte} {len : Nat} (hlen : len ≤ (cString mem).length) :
    mem.take len = (cString mem).take len := by
  obtain ⟨rest, hrest⟩ := cString_isPrefix mem
  conv_lhs => rw [← hrest]
  rw [List.take_append_of_le_length hlen]

/-- What the two attempts come to. -/
theorem getHeaderCode_codeFor {mem : List Byte} {len : Nat} (hpos : 1 ≤ len)
    (hlen : len ≤ (cString mem).length) :
    getHeaderCode mem len = .ok (codeFor (cString mem) len) := by
  have hmem : len ≤ mem.length := Nat.le_trans hlen (cString_isPrefix mem).length_le
  have hraised : len ≤ (raiseFirst (cString mem)).length := by rwa [length_raiseFirst]
  have hsecond : isValidHttpHeader (raiseFirst (cString mem) ++ [0]) len =
      .ok ((slotOf ((raiseFirst (cString mem)).take len)).filter
        fun word => raiseFirst (cString mem) = headerName word) := by
    rw [isValidHttpHeader_slotOf hpos (by rw [List.length_append]; omega),
      List.take_append_of_le_length hraised,
      cString_of_notMem (zero_notMem_raiseFirst (zero_notMem_cString mem))]
  rw [getHeaderCode, isValidHttpHeader_slotOf hpos hmem, ok_bind, take_cString hlen]
  cases hfirst : (slotOf ((cString mem).take len)).filter
      fun word => cString mem = headerName word with
  | some word =>
      -- a word is its own raised form
      obtain ⟨hslot, hword⟩ := Option.filter_eq_some_iff.mp hfirst
      simp only [decide_eq_true_eq] at hword
      have hraise : raiseFirst (cString mem) = cString mem := by rw [hword, raiseFirst_headerName]
      rw [codeFor_eq_common.mpr ⟨by rw [hraise, hslot], by rw [hraise, hword]⟩]
      rfl
  | none =>
      dsimp only
      rw [hsecond, ok_bind, codeFor]
      generalize Option.filter _ (slotOf _) = found
      cases found <;> rfl

/-- The code of a C string: the word that it is but for the case of its first letter. -/
theorem codeFor_whole {str : List Byte} {word : Fin 93} :
    codeFor str str.length = .common word ↔ raiseFirst str = headerName word := by
  rw [codeFor_eq_common, ← length_raiseFirst, List.take_length]
  constructor
  · exact And.right
  · intro hword
    exact ⟨by rw [hword, slotOf_headerName], hword⟩

/-- `str` is a common name, but for the case of its first letter. -/
def CommonName (str : List Byte) : Prop := ∃ word, raiseFirst str = headerName word

/-- The C string is a common name, and its first `len` bytes lead to the slot of it. -/
def Collides (str : List Byte) (len : Nat) : Prop :=
  ∃ word, raiseFirst str = headerName word ∧ slotOf ((raiseFirst str).take len) = some word

example : slotOf (ascii "Re") = some 11 ∧ headerName 11 = ascii "Referer" := by decide +kernel

theorem codeFor_eq_other {str : List Byte} {len : Nat} :
    codeFor str len = .other ↔ ¬ Collides str len := by
  cases hcode : codeFor str len with
  | none => exact absurd hcode (codeFor_ne_none str len)
  | other =>
      refine iff_of_true rfl ?_
      rintro ⟨word, hword, hslot⟩
      rw [codeFor_eq_common.mpr ⟨hslot, hword⟩] at hcode
      cases hcode
  | common word =>
      obtain ⟨hslot, hword⟩ := codeFor_eq_common.mp hcode
      exact iff_of_false (by simp) fun hnot => hnot ⟨word, hword, hslot⟩

theorem codeFor_whole_eq_other {str : List Byte} :
    codeFor str str.length = .other ↔ ¬ CommonName str := by
  rw [codeFor_eq_other, not_iff_not]
  constructor
  · rintro ⟨word, hword, -⟩
    exact ⟨word, hword⟩
  · rintro ⟨word, hword⟩
    exact ⟨word, hword, (codeFor_eq_common.mp (codeFor_whole.mpr hword)).1⟩

/-- The same first bytes: the codes are the same when the C string is no longer than them, or
neither of the two lookups finds anything. -/
theorem codeFor_take_iff {str : List Byte} {len : Nat} (hlen : len ≤ str.length) :
    codeFor str len = codeFor (str.take len) len ↔
      len = str.length ∨ ¬ CommonName (str.take len) ∧ ¬ Collides str len := by
  have hsize : (str.take len).length = len := List.length_take_of_le hlen
  have hother := @codeFor_whole_eq_other (str.take len)
  rw [hsize] at hother
  rw [← hother, ← codeFor_eq_other]
  constructor
  · intro heq
    by_cases hwhole : len = str.length
    · exact Or.inl hwhole
    · right
      cases hcode : codeFor str len with
      | none => exact absurd hcode (codeFor_ne_none str len)
      | other => exact ⟨by rw [← heq, hcode], rfl⟩
      | common word =>
          -- a word of the table would be as long as its beginning
          have hshort : codeFor (str.take len) len = .common word := by rw [← heq, hcode]
          obtain ⟨-, hlong⟩ := codeFor_eq_common.mp hcode
          obtain ⟨-, htake⟩ := codeFor_eq_common.mp hshort
          have hlength := congrArg List.length (hlong.trans htake.symm)
          rw [length_raiseFirst, length_raiseFirst, hsize] at hlength
          exact absurd hlength.symm hwhole
  · rintro (hwhole | ⟨hshort, hlong⟩)
    · rw [hwhole, List.take_length]
    · rw [hshort, hlong]

/-! ## Names in larger texts -/

/-- A name in a block of memory that is terminated somewhere behind it. -/
structure NamePiece extends StringPiece where
  terminated : 0 ∈ mem
  size_pos : 1 ≤ size
  size_le_strlen : size ≤ (cString mem).length

namespace NamePiece

/-- The same name as a `std::string`. -/
def string (name : NamePiece) : StringPiece := .ofString name.bytes

theorem code_string (name : NamePiece) : getHeaderCode name.string.mem name.string.size =
    .ok (codeFor ((cString name.mem).take name.size) name.size) := by
  have hbytes : name.bytes = (cString name.mem).take name.size := take_cString name.size_le_strlen
  have hsize : name.bytes.length = name.size := List.length_take_of_le name.size_le
  have hzero : 0 ∉ name.bytes := by
    rw [hbytes]
    intro hmem
    exact zero_notMem_cString name.mem (List.mem_of_mem_take hmem)
  have hstring : cString (name.bytes ++ [0]) = name.bytes := cString_of_notMem hzero
  have hcode : getHeaderCode (name.bytes ++ [0]) name.bytes.length = .ok (codeFor
      (cString (name.bytes ++ [0])) name.bytes.length) := by
    apply getHeaderCode_codeFor
    · rw [hsize]
      exact name.size_pos
    · rw [hstring]
  rw [hstring, hsize, hbytes] at hcode
  rw [string, hbytes]
  show getHeaderCode ((cString name.mem).take name.size ++ [0])
    ((cString name.mem).take name.size).length = _
  rw [List.length_take_of_le name.size_le_strlen]
  exact hcode

/-- **When the code is that of the name.** The C string ends with the name; or the name is not a
common one, and the C string is not one whose slot the name leads to. -/
theorem code_iff (name : NamePiece) :
    (getHeaderCode name.mem name.size = getHeaderCode name.string.mem name.string.size ∧
        ∀ value h, HttpHeaders.add name.toStringPiece value h =
          HttpHeaders.add name.string value h) ↔
      name.size = (cString name.mem).length ∨
        ¬ CommonName name.bytes ∧ ¬ Collides (cString name.mem) name.size := by
  have hbytes : name.bytes = (cString name.mem).take name.size := take_cString name.size_le_strlen
  rw [hbytes, ← codeFor_take_iff name.size_le_strlen]
  have hpiece := getHeaderCode_codeFor name.size_pos name.size_le_strlen
  have hstring := name.code_string
  constructor
  · rintro ⟨hcodes, -⟩
    rw [hpiece, hstring] at hcodes
    exact Except.ok.inj hcodes
  · intro hcodes
    have hsame : getHeaderCode name.mem name.size =
        getHeaderCode name.string.mem name.string.size := by rw [hpiece, hstring, hcodes]
    refine ⟨hsame, ?_⟩
    intro value h
    have hsize : name.string.size = name.size := List.length_take_of_le name.size_le
    have hstored : name.string.bytes = name.bytes := StringPiece.bytes_ofString _
    rw [HttpHeaders.add, HttpHeaders.add, hsame, hstored, hsize]

/-- The name of `"Host: a"`. -/
def hostInText : NamePiece where
  mem := ascii "Host: a" ++ [0]
  size := 4
  size_le := by decide +kernel
  terminated := by decide +kernel
  size_pos := by decide
  size_le_strlen := by decide +kernel

/-- The first bytes of `"Referer"`. -/
def reOfReferer : NamePiece where
  mem := ascii "Referer" ++ [0]
  size := 2
  size_le := by decide +kernel
  terminated := by decide +kernel
  size_pos := by decide
  size_le_strlen := by decide +kernel

/-- A common name is not known in a longer text, and a longer common name is known by its beginning. -/
theorem code_depends_on_text :
    getHeaderCode hostInText.mem hostInText.size = .ok .other ∧
      getHeaderCode hostInText.string.mem hostInText.string.size = .ok (.common 1) ∧
      getHeaderCode reOfReferer.mem reOfReferer.size = .ok (.common 11) ∧
      getHeaderCode reOfReferer.string.mem reOfReferer.string.size = .ok .other := by
  decide +kernel

end NamePiece

end Unp.Http
