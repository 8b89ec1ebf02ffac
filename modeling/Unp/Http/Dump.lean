import Mathlib.Data.List.Flatten
import Unp.Http.Headers

/-!
# What `dump` writes

A `remove` overwrites codes. The names and the values of the removed headers stay where they are, and
`dump` goes through these two vectors only. So it writes a line for every header that was ever added,
and is right as long as no `remove` has found anything.
-/

namespace Unp.Http

open Unp.Machine Unp.Util Unp.Run

namespace HttpHeaders

/-- `dump`. -/
def dump (h : HttpHeaders) : List Byte :=
  if h.headerNames.length = 0 then []
  else if h.headerNames.length ≠ h.headerValues.length then []
  else
    (h.headerNames.zip h.headerValues).foldl (fun ret (name, value) =>
      ret ++ name ++ ascii ": " ++ value ++ ascii "\r\n") [] ++ ascii "\r\n"

end HttpHeaders

/-! ## What it should write -/

namespace Header

/-- What of a header is written. -/
def field (x : Header) : List Byte × List Byte := (x.name, x.value)

end Header

/-- A header on the wire. -/
def fieldLine (field : List Byte × List Byte) : List Byte :=
  field.1 ++ ascii ": " ++ field.2 ++ ascii "\r\n"

/-- The headers `live`, one line each, and an empty line behind them. Nothing is written if none was
ever added. -/
def serialise (added live : List Header) : List Byte :=
  if added = [] then [] else live.flatMap (fun x => fieldLine x.field) ++ ascii "\r\n"

namespace HeaderOp

/-- The headers that have been added by the calls, removed or not. -/
def everAdded (codeOf : StringPiece → HttpHeaderCode) (ops : List HeaderOp) : List Header :=
  ops.flatMap (·.added codeOf)

/-- The multimap after the calls. -/
def remaining (codeOf : StringPiece → HttpHeaderCode) (m : List Header) (ops : List HeaderOp) :
    List Header :=
  ops.foldl (fun m op => op.apply codeOf m) m

/-- There is no header in the multimap that the call would remove. -/
def FindsNothing (codeOf : StringPiece → HttpHeaderCode) (m : List Header) (op : HeaderOp) : Prop :=
  ∀ x ∈ m, ¬ op.Removes codeOf x

instance (codeOf : StringPiece → HttpHeaderCode) (m : List Header) (op : HeaderOp) :
    Decidable (op.FindsNothing codeOf m) := List.decidableBAll _ m

end HeaderOp

/-! ## Lines and sublists -/

theorem fieldLine_ne_nil (field : List Byte × List Byte) : fieldLine field ≠ [] := by
  have hline : ascii "\r\n" ≠ [] := by decide +kernel
  intro hnil
  exact hline (List.append_eq_nil_iff.mp hnil).2

/-- No line of a list can be left out unnoticed. -/
theorem eq_of_sublist_of_flatMap_eq {α β : Type} {f : α → List β} (hf : ∀ x, f x ≠ [])
    {l l' : List α} (hsub : l.Sublist l') (h : l.flatMap f = l'.flatMap f) : l = l' := by
  induction hsub with
  | slnil => rfl
  | @cons l l' x hsub ih =>
      have hshort := (hsub.flatMap f).length_le
      have hlong := congrArg List.length h
      have hpos := List.length_pos_iff.mpr (hf x)
      rw [List.flatMap_cons, List.length_append] at hlong
      omega
  | @cons_cons l l' x hsub ih =>
      rw [List.flatMap_cons, List.flatMap_cons] at h
      rw [ih (List.append_cancel_left h)]

section Multimap
variable (codeOf : StringPiece → HttpHeaderCode)

/-- Whatever is removed, the rest stays in order. -/
theorem remaining_sublist (ops : List HeaderOp) (m : List Header) :
    (HeaderOp.remaining codeOf m ops).Sublist (m ++ HeaderOp.everAdded codeOf ops) := by
  induction ops generalizing m with
  | nil =>
      rw [HeaderOp.everAdded, List.flatMap_nil, List.append_nil]
      exact List.Sublist.refl m
  | cons op ops ih =>
      have hrest := ih (op.apply codeOf m)
      rw [HeaderOp.apply, List.append_assoc] at hrest
      exact hrest.trans (List.filter_sublist.append_right _)

/-- All that was added is left exactly when no call has found anything to remove. -/
theorem remaining_eq_iff (ops : List HeaderOp) (m : List Header) :
    HeaderOp.remaining codeOf m ops = m ++ HeaderOp.everAdded codeOf ops ↔
      Admissible (HeaderOp.apply codeOf) (HeaderOp.FindsNothing codeOf) m ops := by
  induction ops generalizing m with
  | nil => exact iff_of_true (List.append_nil m).symm trivial
  | cons op ops ih =>
      have hstep : HeaderOp.FindsNothing codeOf m op → op.apply codeOf m = m ++ op.added codeOf := by
        intro hnothing
        rw [HeaderOp.apply, List.filter_eq_self.mpr fun x hx => decide_eq_true (hnothing x hx)]
      constructor
      · intro heq
        -- what the call removes is missing in the end
        have hlen := (remaining_sublist codeOf ops (op.apply codeOf m)).length_le
        have hall := congrArg List.length heq
        have hnothing : HeaderOp.FindsNothing codeOf m op := by
          intro x hx
          have hkept : m.filter (fun x => ¬ op.Removes codeOf x) = m := by
            apply List.Sublist.eq_of_length_le List.filter_sublist
            rw [HeaderOp.remaining, List.foldl_cons, ← HeaderOp.remaining, HeaderOp.everAdded,
              List.flatMap_cons, ← HeaderOp.everAdded] at hall
            rw [hall, HeaderOp.apply] at hlen
            simp only [List.length_append] at hlen
            omega
          exact of_decide_eq_true (List.filter_eq_self.mp hkept x hx)
        refine ⟨hnothing, (ih _).mp ?_⟩
        rw [hstep hnothing, List.append_assoc, ← hstep hnothing]
        exact heq
      · rintro ⟨hnothing, hrest⟩
        have heq := (ih _).mpr hrest
        rw [hstep hnothing, List.append_assoc, ← hstep hnothing] at heq
        exact heq

/-- A removed header is missed: its line is not written. -/
theorem serialise_eq_iff (ops : List HeaderOp) :
    serialise (HeaderOp.everAdded codeOf ops) (HeaderOp.everAdded codeOf ops) =
        serialise (HeaderOp.everAdded codeOf ops) (HeaderOp.remaining codeOf [] ops) ↔
      Admissible (HeaderOp.apply codeOf) (HeaderOp.FindsNothing codeOf) [] ops := by
  have hsub := remaining_sublist codeOf ops []
  rw [← remaining_eq_iff]
  simp only [List.nil_append] at hsub ⊢
  constructor
  · intro heq
    rw [serialise, serialise] at heq
    split at heq
    · next hnone =>
      rw [hnone] at hsub ⊢
      exact List.sublist_nil.mp hsub
    · exact eq_of_sublist_of_flatMap_eq (fun x => fieldLine_ne_nil x.field) hsub
        (List.append_cancel_right heq).symm
  · intro heq
    rw [heq]

end Multimap

namespace HttpHeaders

/-! ## The vectors `dump` goes through -/

/-- The names beside the values. -/
def fields (h : HttpHeaders) : List (List Byte × List Byte) := h.headerNames.zip h.headerValues

/-- The three vectors have the same length. -/
structure Aligned (h : HttpHeaders) : Prop where
  names_length : h.headerNames.length = h.codes.length
  values_length : h.headerValues.length = h.codes.length

/-- Only codes have changed, and the counter of the deleted ones. -/
structure CodesOnly (h h' : HttpHeaders) : Prop where
  codes_length : h'.codes.length = h.codes.length
  names_eq : h'.headerNames = h.headerNames
  values_eq : h'.headerValues = h.headerValues

namespace CodesOnly
variable {h h' h'' : HttpHeaders}

theorem refl (h : HttpHeaders) : CodesOnly h h := ⟨rfl, rfl, rfl⟩

theorem trans (hfirst : CodesOnly h h') (hsecond : CodesOnly h' h'') : CodesOnly h h'' where
  codes_length := hsecond.codes_length.trans hfirst.codes_length
  names_eq := hsecond.names_eq.trans hfirst.names_eq
  values_eq := hsecond.values_eq.trans hfirst.values_eq

theorem aligned (hcodes : CodesOnly h h') (halign : Aligned h) : Aligned h' where
  names_length := by rw [hcodes.names_eq, hcodes.codes_length, halign.names_length]
  values_length := by rw [hcodes.values_eq, hcodes.codes_length, halign.values_length]

theorem fields_eq (hcodes : CodesOnly h h') : h'.fields = h.fields := by
  rw [fields, fields, hcodes.names_eq, hcodes.values_eq]

end CodesOnly

theorem dump_eq {h : HttpHeaders} (halign : Aligned h) :
    h.dump = if h.fields = [] then [] else h.fields.flatMap fieldLine ++ ascii "\r\n" := by
  have hlen : h.headerNames.length = h.headerValues.length :=
    halign.names_length.trans halign.values_length.symm
  have hnil : h.fields = [] ↔ h.headerNames.length = 0 := by
    rw [← List.length_eq_zero_iff, fields, List.length_zip, ← hlen, Nat.min_self]
  rw [dump, ← fields]
  simp only [hnil, hlen, ne_eq, not_true_eq_false, if_false]
  congr 2
  rw [List.flatMap_eq_foldl]
  congr 1
  funext ret field
  simp only [fieldLine, List.append_assoc]

/-! ## The calls -/

theorem memchr_bounds {code : HttpHeaderCode} {pos next : Nat} {codes : List HttpHeaderCode}
    (h : memchr code pos codes = some next) : pos ≤ next ∧ next < codes.length := by
  obtain ⟨i, hi, rfl⟩ := Option.map_eq_some_iff.mp h
  obtain ⟨hlt, -⟩ := List.findIdx?_eq_some_iff_getElem.mp hi
  rw [List.length_drop] at hlt
  omega

theorem markDeleted_codesOnly {pos : Nat} {s : Sweep} (hpos : pos < s.1.codes.length) :
    ∃ s', markDeleted pos s = .ok s' ∧ CodesOnly s.1 s'.1 := by
  refine ⟨_, by rw [markDeleted, if_pos hpos], ?_⟩
  exact ⟨List.length_set, rfl, rfl⟩

theorem ifNamed_codesOnly (name : List Byte) {pos : Nat} {s : Sweep} (halign : Aligned s.1)
    (hpos : pos < s.1.codes.length) :
    ∃ s', ifNamed name markDeleted pos s = .ok s' ∧ CodesOnly s.1 s'.1 := by
  have hlen : pos < s.1.headerNames.length := by rwa [halign.names_length]
  obtain ⟨stored, hstored⟩ := readAt_ok hlen
  rw [ifNamed, hstored, ok_bind]
  split
  · exact markDeleted_codesOnly hpos
  · exact ⟨s, rfl, .refl s.1⟩

/-- A sweep ends, and does to the vectors what its callback does. -/
theorem iterateOverCodes_codesOnly (code : HttpHeaderCode) {func : Nat → Sweep → Res Sweep}
    (hfunc : ∀ pos s, Aligned s.1 → pos < s.1.codes.length →
      ∃ s', func pos s = .ok s' ∧ CodesOnly s.1 s'.1) (fuel pos : Nat) {s : Sweep}
    (halign : Aligned s.1) (hpos : pos ≤ s.1.codes.length) (hfuel : s.1.codes.length < fuel + pos) :
    ∃ s', iterateOverCodes code func fuel pos s = .ok s' ∧ CodesOnly s.1 s'.1 := by
  induction fuel generalizing pos s with
  | zero => omega
  | succ fuel ih =>
      rw [iterateOverCodes]
      cases hfind : memchr code pos s.1.codes with
      | none => exact ⟨s, rfl, .refl s.1⟩
      | some next =>
          obtain ⟨hle, hlt⟩ := memchr_bounds hfind
          obtain ⟨s₁, hone, hkept⟩ := hfunc next s halign hlt
          have hlen := hkept.codes_length
          obtain ⟨s', hrest, hkept'⟩ := ih (next + 1) (hkept.aligned halign) (by omega) (by omega)
          refine ⟨s', ?_, hkept.trans hkept'⟩
          simp only [hone, ok_bind, hrest]

theorem removeCode_codesOnly (code : HttpHeaderCode) {h : HttpHeaders} (halign : Aligned h) :
    ∃ removed h', h.removeCode code = .ok (removed, h') ∧ CodesOnly h h' := by
  obtain ⟨⟨h', removed⟩, hsweep, hkept⟩ := iterateOverCodes_codesOnly code
    (fun pos s _ hpos => markDeleted_codesOnly hpos) (h.codes.length + 1) 0 (s := (h, false)) halign
    (Nat.zero_le _) (Nat.lt_succ_self _)
  exact ⟨removed, h', by rw [removeCode, hsweep, ok_bind]; rfl, hkept⟩

variable (codeOf : StringPiece → HttpHeaderCode)

theorem removeName_codesOnly (name : StringPiece) {h : HttpHeaders} (halign : Aligned h) :
    ∃ removed h', h.removeName codeOf name = .ok (removed, h') ∧ CodesOnly h h' := by
  rw [removeName]
  split
  · exact ⟨false, h, rfl, .refl h⟩
  · split
    · exact removeCode_codesOnly _ halign
    · obtain ⟨⟨h', removed⟩, hsweep, hkept⟩ := iterateOverCodes_codesOnly .other
        (fun pos s hs hpos => ifNamed_codesOnly name.bytes hs hpos) (h.codes.length + 1) 0
        (s := (h, false)) halign (Nat.zero_le _) (Nat.lt_succ_self _)
      exact ⟨removed, h', by rw [iterateOverOtherHeaderNames, hsweep, ok_bind]; rfl, hkept⟩

theorem fields_push (code : HttpHeaderCode) (name value : List Byte) {h : HttpHeaders}
    (halign : Aligned h) :
    Aligned (h.push code name value) ∧
      (h.push code name value).fields = h.fields ++ [(name, value)] := by
  constructor
  · constructor
    · simp [push, halign.names_length]
    · simp [push, halign.values_length]
  · exact List.zip_append (halign.names_length.trans halign.values_length.symm)

theorem fields_addNamed (code : HttpHeaderCode) (name : StringPiece) (value : List Byte)
    {h : HttpHeaders} (halign : Aligned h) :
    Aligned (h.addNamed code name value) ∧ (h.addNamed code name value).fields =
      h.fields ++ (HeaderOp.namedHeader code name value).map Header.field := by
  rw [addNamed, HeaderOp.namedHeader]
  split
  · exact ⟨halign, (List.append_nil _).symm⟩
  · exact fields_push code _ value halign

theorem fields_addCoded (code : HttpHeaderCode) (value : List Byte) {h : HttpHeaders}
    (halign : Aligned h) :
    Aligned (h.addCoded code value) ∧ (h.addCoded code value).fields =
      h.fields ++ (HeaderOp.codedHeader code value).map Header.field := by
  cases code with
  | none => exact ⟨halign, (List.append_nil _).symm⟩
  | other => exact ⟨halign, (List.append_nil _).symm⟩
  | common word => exact fields_push _ _ value halign

/-- A call that changes codes only, and adds nothing. -/
theorem fields_remove {op : HeaderOp} {answer : Option Bool} {h h' : HttpHeaders}
    (hexec : op.exec codeOf h = .ok (answer, h')) (hadded : op.added codeOf = [])
    (hkept : CodesOnly h h') (halign : Aligned h) :
    ∃ answer h', op.exec codeOf h = .ok (answer, h') ∧ Aligned h' ∧
      h'.fields = h.fields ++ (op.added codeOf).map Header.field := by
  refine ⟨answer, h', hexec, hkept.aligned halign, ?_⟩
  rw [hkept.fields_eq, hadded, List.map_nil, List.append_nil]

/-- One call: what it adds is last, and nothing that is written goes away. -/
theorem exec_fields (op : HeaderOp) {h : HttpHeaders} (halign : Aligned h) :
    ∃ answer h', op.exec codeOf h = .ok (answer, h') ∧ Aligned h' ∧
      h'.fields = h.fields ++ (op.added codeOf).map Header.field := by
  cases op with
  | addPieces name value => exact ⟨_, _, rfl, fields_addNamed _ name value.bytes halign⟩
  | addStrings name value => exact ⟨_, _, rfl, fields_addNamed _ (.ofString name) value halign⟩
  | addMovedString name value => exact ⟨_, _, rfl, fields_addNamed _ (.ofString name) value halign⟩
  | addCodeString code value => exact ⟨_, _, rfl, fields_addCoded code value halign⟩
  | addCodePiece code value => exact ⟨_, _, rfl, fields_addCoded code value.bytes halign⟩
  | removeName name =>
      obtain ⟨removed, h', hremove, hkept⟩ := removeName_codesOnly codeOf name halign
      have hexec : (HeaderOp.removeName name).exec codeOf h = .ok (some removed, h') := by
        rw [HeaderOp.exec, hremove, ok_bind]
        rfl
      exact fields_remove codeOf hexec rfl hkept halign
  | removeCode code =>
      obtain ⟨removed, h', hremove, hkept⟩ := removeCode_codesOnly code halign
      have hexec : (HeaderOp.removeCode code).exec codeOf h = .ok (some removed, h') := by
        rw [HeaderOp.exec, hremove, ok_bind]
        rfl
      exact fields_remove codeOf hexec rfl hkept halign

/-- The fields are those of the headers that have been added. -/
structure Written (h : HttpHeaders) (added : List Header) : Prop extends Aligned h where
  fields_eq : h.fields = added.map Header.field

theorem exec_written {h : HttpHeaders} {added : List Header} (op : HeaderOp)
    (hwritten : Written h added) :
    ∃ answer h', op.exec codeOf h = .ok (answer, h') ∧ Written h' (added ++ op.added codeOf) := by
  obtain ⟨answer, h', hexec, halign, hfields⟩ := exec_fields codeOf op hwritten.toAligned
  refine ⟨answer, h', hexec, halign, ?_⟩
  rw [hfields, hwritten.fields_eq, List.map_append]

/-- Every call returns, and `dump` writes all the headers that were ever added. -/
theorem run_dump (ops : List HeaderOp) :
    ∃ history h, run (HeaderOp.exec codeOf) ops empty = .ok (history, h) ∧
      h.dump = serialise (HeaderOp.everAdded codeOf ops) (HeaderOp.everAdded codeOf ops) := by
  have hempty : Written empty [] := ⟨⟨rfl, rfl⟩, rfl⟩
  obtain ⟨history, h, hrun, hwritten⟩ := run_follows Written
    (fun _ _ op hwritten => exec_written codeOf op hwritten) ops hempty
  refine ⟨history, h, hrun, ?_⟩
  rw [List.foldl_append_eq_append, List.nil_append, ← List.flatMap_def] at hwritten
  rw [dump_eq hwritten.toAligned, hwritten.fields_eq, List.flatMap_map, serialise,
    HeaderOp.everAdded]
  simp only [List.map_eq_nil_iff]

/-- **What is on the wire.** After any calls of `add` and `remove`, `dump` writes exactly the headers
that are left, if and only if none of the calls has removed one. -/
theorem dump_iff (ops : List HeaderOp) :
    ∃ history h, run (HeaderOp.exec codeOf) ops empty = .ok (history, h) ∧
      (h.dump = serialise (HeaderOp.everAdded codeOf ops) (HeaderOp.remaining codeOf [] ops) ↔
        Admissible (HeaderOp.apply codeOf) (HeaderOp.FindsNothing codeOf) [] ops) := by
  obtain ⟨history, h, hrun, hdump⟩ := run_dump codeOf ops
  exact ⟨history, h, hrun, by rw [hdump, serialise_eq_iff]⟩

/-- A header that is added and removed again. -/
def addedAndRemoved : List HeaderOp := [
  .addStrings (ascii "Authorization") (ascii "secret"),
  .removeName (.ofString (ascii "Authorization"))]

example : ¬ Admissible (HeaderOp.apply knownCode) (HeaderOp.FindsNothing knownCode) []
    addedAndRemoved := by decide +kernel

/-- It is gone, and it is written. -/
theorem dump_addedAndRemoved :
    (run (HeaderOp.exec knownCode) addedAndRemoved empty).map
        (fun r => (r.1.map Entry.output, r.2.size, r.2.dump)) =
      .ok ([none, some true], 0, ascii "Authorization: secret\r\n\r\n") ∧
    serialise (HeaderOp.everAdded knownCode addedAndRemoved)
      (HeaderOp.remaining knownCode [] addedAndRemoved) = ascii "\r\n" := by
  decide +kernel

end HttpHeaders

end Unp.Http
