import Unp.Lib.Machine

/-!
# String pieces and the search in them

A `string_piece` is a range of memory that belongs to someone else. Most of its users only look at
the bytes between its ends; those that hand the pointer to the C library see the memory behind it
too, up to the next zero byte.
-/

namespace Unp.Util

open Unp.Machine

abbrev Byte := UInt8

/-- A string literal of the source. -/
def ascii (s : String) : List Byte := s.toUTF8.data.toList

/-- The C string at the start of a block of memory. -/
def cString : List Byte → List Byte
  | [] => []
  | c :: mem => if c = 0 then [] else c :: cString mem

theorem cString_of_notMem {s rest : List Byte} (h : 0 ∉ s) : cString (s ++ 0 :: rest) = s := by
  induction s with
  | nil => rfl
  | cons c s ih =>
      rw [List.mem_cons, not_or] at h
      rw [List.cons_append, cString, if_neg (Ne.symm h.1), ih h.2]

theorem zero_notMem_cString (mem : List Byte) : 0 ∉ cString mem := by
  induction mem with
  | nil => simp [cString]
  | cons c mem ih =>
      rw [cString]
      split
      · simp
      · next hc =>
        rw [List.mem_cons, not_or]
        exact ⟨Ne.symm hc, ih⟩

/-- `string_piece::const_string_piece`: the memory from `begin_` on, and `end_ - begin_`. -/
structure StringPiece where
  mem : List Byte
  size : Nat
  size_le : size ≤ mem.length

namespace StringPiece

def bytes (s : StringPiece) : List Byte := s.mem.take s.size

/-- `Range(const std::string&)`: a string is followed by a zero byte. -/
def ofString (str : List Byte) : StringPiece where
  mem := str ++ [0]
  size := str.length
  size_le := by simp

theorem bytes_ofString (str : List Byte) : (ofString str).bytes = str := by
  simp [bytes, ofString]

end StringPiece

/-- `std::string::npos`. -/
def npos : Nat := 2 ^ 64 - 1

/-- `Range::find(value_type)`. -/
def find (value : Byte) (s : List Byte) : Nat := (s.findIdx? (· = value)).getD npos

/-- `Range::sub_string`. -/
def subString (s : List Byte) (first len : Nat) : Res (List Byte) :=
  if s.length < first then .error .exception
  else .ok ((s.drop first).take (min len (s.length - first)))

/-! ## Comparison -/

/-- `strncmp`. -/
def strncmp : Nat → List Byte → List Byte → Int
  | n + 1, c :: s, d :: t =>
      if c = d then if c = 0 then 0 else strncmp n s t else (c.toNat : Int) - d.toNat
  | _, _, _ => 0

/-- `operator==`. -/
def rangeEqual (s t : List Byte) : Bool := s.length = t.length ∧ strncmp s.length s t = 0

/-- `Range::compare`. -/
def rangeCompare (s t : List Byte) : Int :=
  if rangeEqual s t = true then 0
  else
    let minSize := min s.length t.length
    let ret := strncmp minSize s t
    if ret ≠ 0 then ret else if minSize = s.length then -1 else 1

/-- `operator<`. -/
def rangeLess (s t : List Byte) : Bool := rangeCompare s t < 0

theorem strncmp_swap (n : Nat) (s t : List Byte) : strncmp n t s = -strncmp n s t := by
  induction n generalizing s t with
  | zero => rfl
  | succ n ih =>
      cases s with
      | nil => cases t <;> rfl
      | cons c s =>
          cases t with
          | nil => rfl
          | cons d t =>
              rw [strncmp, strncmp]
              by_cases hcd : c = d
              · rw [if_pos hcd, if_pos hcd.symm, ← hcd]
                split
                · rfl
                · exact ih s t
              · rw [if_neg hcd, if_neg (Ne.symm hcd)]
                omega

/-- `strncmp` stops at a zero byte. -/
theorem strncmp_eq_zero {s t : List Byte} (hlen : s.length = t.length) :
    strncmp s.length s t = 0 ↔ cString s = cString t := by
  induction s generalizing t with
  | nil => simp [List.length_eq_zero_iff.mp hlen.symm, strncmp]
  | cons c s ih =>
      cases t with
      | nil => simp at hlen
      | cons d t =>
          rw [List.length_cons, strncmp, cString, cString]
          by_cases hcd : c = d
          · subst hcd
            rw [if_pos rfl]
            split
            · simp
            · rw [ih (Nat.succ.inj hlen), List.cons_inj_right]
          · have hne : (c.toNat : Int) - d.toNat ≠ 0 := by
              intro hzero
              exact hcd (UInt8.toNat_inj.mp (by omega))
            rw [if_neg hcd]
            refine iff_of_false hne ?_
            by_cases hc : c = 0 <;> by_cases hd : d = 0 <;> simp [hc, hd]
            · exact hcd (hc.trans hd.symm)
            · exact fun h => absurd h hcd

theorem rangeEqual_iff (s t : List Byte) :
    rangeEqual s t = true ↔ s.length = t.length ∧ cString s = cString t := by
  rw [rangeEqual, decide_eq_true_iff]
  exact and_congr_right fun hlen => strncmp_eq_zero hlen

theorem rangeEqual_comm (s t : List Byte) : rangeEqual s t = rangeEqual t s := by
  rw [Bool.eq_iff_iff, rangeEqual_iff, rangeEqual_iff]
  exact and_congr eq_comm eq_comm

/-- Two ranges neither of which is less have one length, and are the same up to a zero byte. -/
theorem not_rangeLess_iff (s t : List Byte) :
    rangeLess s t = false ∧ rangeLess t s = false ↔ rangeEqual s t = true := by
  rw [rangeLess, rangeLess, decide_eq_false_iff_not, decide_eq_false_iff_not, rangeCompare,
    rangeCompare, rangeEqual_comm t s]
  split
  · simp [*]
  · next hne =>
    refine iff_of_false ?_ hne
    dsimp only
    rw [Nat.min_comm t.length, strncmp_swap _ s t]
    by_cases hret : strncmp (min s.length t.length) s t = 0
    · rw [if_neg (not_not.mpr hret), hret, Int.neg_zero, if_neg (not_not.mpr rfl)]
      split <;> split <;> omega
    · rw [if_pos hret, if_pos (by omega)]
      omega

/-! ## `kmp_search` -/

/-- An access to the table, whose entries are `int`s: `-1` only at 0. -/
def readTable (table : List Int) (j : Int) : Res Int :=
  if j < 0 then .error .outOfBounds else readAt table j.toNat

/-- `pattern[j]` for an `int`. -/
def readPattern (pattern : List Byte) (j : Int) : Res Byte :=
  if j < 0 then .error .outOfBounds else readAt pattern j.toNat

/-- The loop of `build_search_table`, from index `i` on; `n` is the number of its iterations. -/
def buildLoop (pattern : List Byte) : Nat → Nat → List Int → Bool → Res (List Int)
  | 0, _, table, _ => .ok table
  | n + 1, i, table, isLastEqual => do
      let back ← readAt table (table.length - 1)
      let entry := if isLastEqual then back + 1 else 0
      let table := table ++ [entry]
      let p ← readAt pattern i
      let q ← readPattern pattern entry
      buildLoop pattern n (i + 1) table (p = q)

/-- `build_search_table`. -/
def buildSearchTable (pattern : List Byte) : Res (List Int) :=
  buildLoop pattern (pattern.length - 1) 1 [-1] true

/-- `while(j != -1 && t != pattern[j]) j = search_table->operator[](j)`. -/
def fallBack (pattern : List Byte) (table : List Int) (t : Byte) : Nat → Int → Res Int
  | 0, _ => .error .outOfFuel
  | fuel + 1, j =>
      if j = -1 then .ok j
      else do
        let p ← readPattern pattern j
        if t = p then pure j
        else do
          let j ← readTable table j
          fallBack pattern table t fuel j

/-- The loop over the text, at index `i` with `j` characters of the pattern matched. -/
def searchLoop (pattern : List Byte) (table : List Int) : List Byte → Nat → Int → Res Int
  | [], _, _ => .ok (-1)
  | t :: text, i, j => do
      let p ← readPattern pattern j
      if t = p then
        if j = i32 pattern.length - 1 then pure (i32 (i - i32 pattern.length + 1))
        else searchLoop pattern table text (i + 1) (j + 1)
      else do
        let j ← fallBack pattern table t (pattern.length + 1) j
        searchLoop pattern table text (i + 1) (if j = -1 then 0 else j + 1)

/-- `kmp_search`, of text and pattern with their lengths. -/
def kmpSearch (text pattern : List Byte) : Res Int :=
  if text = [] ∨ pattern = [] then .ok (-1)
  else do
    let table ← buildSearchTable pattern
    searchLoop pattern table text 0 0

example : kmpSearch (ascii "a=b; c=d") (ascii "; ") = .ok 3 := by decide +kernel

/-! ## Comparison up to the case of letters -/

/-- `AsciiCaseInsensitiveEqual`. A `char` above 127 is negative, and no letter either way. -/
def asciiCaseInsensitiveEqual (lhs rhs : Byte) : Bool :=
  if lhs ^^^ rhs = 0 then true
  else if lhs ^^^ rhs ≠ 32 then false
  else 97 ≤ lhs ||| rhs && lhs ||| rhs ≤ 122

/-- `Range::caseInsensitiveEqual`, with the C string it is given. -/
def caseInsensitiveEqual (s str : List Byte) : Bool :=
  if str.length ≠ s.length then false
  else (s.zip str).all fun (lhs, rhs) => asciiCaseInsensitiveEqual lhs rhs

/-- The small letter of a capital one. -/
def toLower (c : Byte) : Byte := if 65 ≤ c ∧ c ≤ 90 then c + 32 else c

theorem forall_byte {P : Byte → Prop} (h : ∀ n : Fin 256, P (UInt8.ofFin n)) (c : Byte) : P c :=
  h c.toFin

/-- The case of a letter is the bit 32. -/
theorem toLower_eq_or (c : Byte) : toLower c = c ∨ toLower c = c ^^^ 32 := by
  revert c
  exact forall_byte (by decide +kernel)

theorem toLower_xor (c : Byte) :
    (97 ≤ c ||| (c ^^^ 32) ∧ c ||| (c ^^^ 32) ≤ 122) ↔ toLower c = toLower (c ^^^ 32) := by
  revert c
  exact forall_byte (by decide +kernel)

theorem xor_eq_iff (a b k : Byte) : a ^^^ b = k ↔ b = a ^^^ k := by
  constructor <;> rintro rfl <;> rw [← UInt8.xor_assoc, UInt8.xor_self, UInt8.zero_xor]

/-- Bytes that are the same letter differ in no bit but that one. -/
theorem xor_of_toLower_eq {lhs rhs : Byte} (h : toLower lhs = toLower rhs) :
    lhs ^^^ rhs = 0 ∨ lhs ^^^ rhs = 32 := by
  rcases toLower_eq_or lhs with hl | hl <;> rcases toLower_eq_or rhs with hr | hr <;>
    rw [hl, hr] at h
  · exact Or.inl (UInt8.xor_eq_zero_iff.mpr h)
  · exact Or.inr (by rw [UInt8.xor_comm, xor_eq_iff, h])
  · exact Or.inr (by rw [xor_eq_iff, h])
  · exact Or.inl (UInt8.xor_eq_zero_iff.mpr (UInt8.xor_left_inj 32 |>.mp h))

theorem asciiCaseInsensitiveEqual_iff (lhs rhs : Byte) :
    asciiCaseInsensitiveEqual lhs rhs = true ↔ toLower lhs = toLower rhs := by
  rw [asciiCaseInsensitiveEqual]
  split
  · next hsame =>
    rw [UInt8.xor_eq_zero_iff] at hsame
    simp [hsame]
  · next hdiffer =>
    split
    · next hbit =>
      simp only [Bool.false_eq_true, false_iff]
      intro hlower
      rcases xor_of_toLower_eq hlower with h | h
      · exact hdiffer h
      · exact hbit h
    · next hbit =>
      have hrhs : rhs = lhs ^^^ 32 := (xor_eq_iff lhs rhs 32).mp (not_not.mp hbit)
      rw [hrhs, Bool.and_eq_true, decide_eq_true_eq, decide_eq_true_eq]
      exact toLower_xor lhs

/-- Two strings are equal up to case when their small letters are the same. -/
theorem caseInsensitiveEqual_iff (s str : List Byte) :
    caseInsensitiveEqual s str = true ↔ s.map toLower = str.map toLower := by
  induction s generalizing str with
  | nil => cases str <;> simp [caseInsensitiveEqual]
  | cons c s ih =>
      cases str with
      | nil => simp [caseInsensitiveEqual]
      | cons d str =>
          have hcons : caseInsensitiveEqual (c :: s) (d :: str) = true ↔
              asciiCaseInsensitiveEqual c d = true ∧ caseInsensitiveEqual s str = true := by
            simp [caseInsensitiveEqual]
            tauto
          rw [hcons, asciiCaseInsensitiveEqual_iff, ih]
          simp

end Unp.Util
