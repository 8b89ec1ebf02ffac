import Unp.Http.ParseUrl

/-!
# The urls that are accepted

A url is written from its parts: a path with a query and a fragment, alone or behind a scheme and an
authority. Three habits of the parser show in the grammar. A fragment needs a path or a query in front
of it; all the `#` at its beginning are skipped; and of an address in brackets the zone belongs to the
host.
-/

namespace Unp.Http.HttpParser

open Unp.Util Unp.Schedule Unp.Scan

/-! ## The parts of a url -/

def isQueryChar (c : Byte) : Bool := isUrlChar c || c = 63

def isFragmentChar (c : Byte) : Bool := isUrlChar c || c = 63 || c = 35

/-- The bytes of a user, a host and a port. -/
def isServerChar (c : Byte) : Bool := c = 64 || isUserinfoChar c || c = 91 || c = 93

def isV6Char (c : Byte) : Bool := isHex c || c = 58 || c = 46

/-- What follows the first `#`. -/
structure Fragment where
  hashes : Nat
  body : Letters isFragmentChar
  body_head : body.1.head? ≠ some 35

def Fragment.text (f : Fragment) : List Byte := List.replicate f.hashes 35 ++ f.body.1

/-- What follows a path. -/
structure Tail where
  query : Option (Letters isQueryChar)
  fragment : Option Fragment

namespace Tail

def queryText (t : Tail) : List Byte := t.query.elim [] fun q => 63 :: q.1

def fragmentText (t : Tail) : List Byte := t.fragment.elim [] fun f => 35 :: f.text

def text (t : Tail) : List Byte := t.queryText ++ t.fragmentText

end Tail

/-- What follows an authority. -/
inductive Rest where
  | bare
  | slash (path : Letters isUrlChar) (tail : Tail)
  | question (query : Letters isQueryChar) (fragment : Option Fragment)

namespace Rest

def path : Rest → List Byte
  | .slash path _ => 47 :: path.1
  | _ => []

def tail : Rest → Tail
  | .bare => ⟨none, none⟩
  | .slash _ tail => tail
  | .question query fragment => ⟨some query, fragment⟩

def text (r : Rest) : List Byte := r.path ++ r.tail.text

end Rest

inductive Host where
  | name (word : Word isHostChar)
  | v6 (address : Word isV6Char) (zone : Option (Word isZoneChar))

namespace Host

/-- The bytes that are reported as the host. -/
def field : Host → List Byte
  | .name word => word.1
  | .v6 address zone => address.1 ++ zone.elim [] fun z => 37 :: z.1

/-- The bracket before them. -/
def lead : Host → List Byte
  | .name _ => []
  | .v6 _ _ => [91]

def trail : Host → List Byte
  | .name _ => []
  | .v6 _ _ => [93]

def text (h : Host) : List Byte := h.lead ++ h.field ++ h.trail

end Host

def portText (port : Option (Word isNum)) : List Byte := port.elim [] fun d => 58 :: d.1

structure Authority where
  userinfo : Option (Letters isUserinfoChar)
  host : Host
  port : Option (Word isNum)

namespace Authority

def userinfoText (a : Authority) : List Byte := a.userinfo.elim [] fun w => w.1 ++ [64]

def text (a : Authority) : List Byte := a.userinfoText ++ (a.host.text ++ portText a.port)

end Authority

/-! ## What is noted of a part -/

namespace ParserUrl

/-- The field has `n` bytes and begins at `p`; without any it is not set. -/
def mark (u : ParserUrl) (uf : UrlFields) (p n : Nat) : ParserUrl :=
  if n = 0 then u else (u.setData uf ⟨UInt16.ofNat p, UInt16.ofNat n⟩).setField uf

variable {u : ParserUrl} {uf f : UrlFields} {p n : Nat}

@[simp] theorem mark_zero : u.mark uf p 0 = u := if_pos rfl

theorem mark_one : u.mark uf p 1 = (u.setData uf ⟨UInt16.ofNat p, 1⟩).setField uf := rfl

theorem setData_setData (data data' : FieldData) :
    (u.setData uf data).setData uf data' = u.setData uf data' := by
  apply ParserUrl.ext
  · rfl
  · rfl
  · funext f
    show (if f = uf then data' else if f = uf then data else u.fieldData f) = _
    split
    · next heq => exact (if_pos heq).symm
    · next hne => exact (if_neg hne).symm

theorem setData_setField (data : FieldData) :
    (u.setField uf).setData uf data = (u.setData uf data).setField uf := rfl

@[simp] theorem fieldData_setData_self (data : FieldData) : (u.setData uf data).fieldData uf = data :=
  if_pos rfl

/-- One more byte of a field that has begun. -/
theorem grow_mark : (u.mark uf p (n + 1)).grow uf = u.mark uf p (n + 2) := by
  rw [mark, if_neg (Nat.succ_ne_zero n), mark, if_neg (Nat.succ_ne_zero (n + 1)), grow]
  rw [setData_setField, setData_setData]
  congr 2
  show FieldData.mk _ _ = _
  rw [show ((u.setData uf _).setField uf).fieldData uf = _ from if_pos rfl]
  congr 1
  exact (UInt16.ofNat_add (n + 1) 1).symm

end ParserUrl

def Fragment.mark (u : ParserUrl) (p : Nat) (f : Fragment) : ParserUrl :=
  u.mark .fragment (p + f.hashes) f.body.1.length

def Tail.mark (u : ParserUrl) (p : Nat) (t : Tail) : ParserUrl :=
  let u := t.query.elim u fun q => u.mark .query (p + 1) q.1.length
  t.fragment.elim u (Fragment.mark u (p + t.queryText.length + 1))

def Rest.mark (u : ParserUrl) (p : Nat) (r : Rest) : ParserUrl :=
  r.tail.mark (u.mark .path p r.path.length) (p + r.path.length)

/-- `://` -/
def delimiter : List Byte := [58, 47, 47]

/-- No `@` follows another one at once. -/
def AtsApart (w : List Byte) : Prop := w.IsChain fun c d => c = 64 → d ≠ 64

/-- The two forms of a url, up to what is inside the authority. -/
inductive Form where
  | origin (first : Byte) (first_ok : first = 47 ∨ first = 42) (path : Letters isUrlChar) (tail : Tail)
  | absolute (scheme : Word isAlpha) (server : Letters isServerChar) (apart : AtsApart server.1)
      (rest : Rest)

namespace Form

def text : Form → List Byte
  | .origin first _ path tail => first :: path.1 ++ tail.text
  | .absolute scheme server _ rest => scheme.1 ++ (delimiter ++ (server.1 ++ rest.text))

/-- What the first automaton notes. -/
def mark (u : ParserUrl) : Form → ParserUrl
  | .origin _ _ path tail => tail.mark (u.mark .path 0 (path.1.length + 1)) (1 + path.1.length)
  | .absolute scheme server _ rest =>
      let place := scheme.1.length + 3
      rest.mark ((u.mark .schema 0 scheme.1.length).mark .host place server.1.length)
        (place + server.1.length)

def hasAt : Form → Bool
  | .origin _ _ _ _ => false
  | .absolute _ server _ _ => server.1.contains 64

end Form

/-! ## The steps of the first automaton -/

section Steps
variable {p : Nat} {oldUf : Option UrlFields} {b : Bool} {u : ParserUrl}

/-- A byte of a field that has not begun. -/
theorem note_first {s s' : UrlState} {uf : UrlFields} {b' : Bool} (hold : oldUf ≠ some uf) :
    UrlScan.note ⟨s, p, oldUf, b, u⟩ s' b' uf = ⟨s', p + 1, some uf, b', u.mark uf p 1⟩ := by
  rw [UrlScan.note, if_neg hold]
  rfl

/-- A byte of a field that has begun. -/
theorem note_next {s s' : UrlState} {uf : UrlFields} {b' : Bool} {o n : Nat} :
    UrlScan.note ⟨s, p, some uf, b, u.mark uf o (n + 1)⟩ s' b' uf =
      ⟨s', p + 1, some uf, b', u.mark uf o (n + 2)⟩ := by
  rw [UrlScan.note, if_pos rfl, ParserUrl.grow_mark]

/-- Blanks and line ends are in none of the classes: of a byte that is none of them the automaton asks
only the state. -/
theorem parseUrlChar_eq {s : UrlState} {f : Byte → UrlState}
    (hblank : f 32 = .dead ∧ f 13 = .dead ∧ f 10 = .dead) (hline : f 9 = .dead ∧ f 12 = .dead)
    (hother : ∀ c, ¬ (c = 32 ∨ c = 13 ∨ c = 10) → ¬ (c = 9 ∨ c = 12) → parseUrlChar s c = f c)
    (c : Byte) : parseUrlChar s c = f c := by
  by_cases h32 : c = 32 ∨ c = 13 ∨ c = 10
  · rw [parseUrlChar.eq_def, if_pos h32]
    rcases h32 with rfl | rfl | rfl
    · exact hblank.1.symm
    · exact hblank.2.1.symm
    · exact hblank.2.2.symm
  by_cases h9 : c = 9 ∨ c = 12
  · rw [parseUrlChar.eq_def, if_neg h32, if_pos h9]
    rcases h9 with rfl | rfl
    · exact hline.1.symm
    · exact hline.2.symm
  exact hother c h32 h9

theorem parseUrlChar_reqSpacesBeforeUrl (c : Byte) : parseUrlChar .reqSpacesBeforeUrl c =
    if c = 47 ∨ c = 42 then .reqPath else if isAlpha c then .reqSchema else .dead := by
  apply parseUrlChar_eq (by decide) (by decide)
  intro c hblank hline
  rw [parseUrlChar, if_neg hblank, if_neg hline]

/-- A letter is not what a path begins with. -/
theorem not_first_of_isAlpha {c : Byte} (hc : isAlpha c = true) : ¬ (c = 47 ∨ c = 42) := by
  rintro (rfl | rfl) <;> exact absurd hc (by decide)

theorem parseUrlChar_reqSchema (c : Byte) : parseUrlChar .reqSchema c =
    if isAlpha c then .reqSchema else if c = 58 then .reqSchemaSlash else .dead := by
  apply parseUrlChar_eq (by decide) (by decide)
  intro c hblank hline
  rw [parseUrlChar, if_neg hblank, if_neg hline]

theorem parseUrlChar_reqPath (c : Byte) : parseUrlChar .reqPath c =
    if isUrlChar c then .reqPath
    else if c = 63 then .reqQueryStringStart
    else if c = 35 then .reqFragmentStart
    else .dead := by
  apply parseUrlChar_eq (by decide) (by decide)
  intro c hblank hline
  rw [parseUrlChar, if_neg hblank, if_neg hline]

theorem parseUrlChar_query {s : UrlState} (hs : s = .reqQueryStringStart ∨ s = .reqQueryString)
    (c : Byte) : parseUrlChar s c =
    if isQueryChar c then .reqQueryString else if c = 35 then .reqFragmentStart else .dead := by
  apply parseUrlChar_eq (by decide) (by decide)
  intro c hblank hline
  rw [parseUrlChar.eq_def, if_neg hblank, if_neg hline]
  rcases hs with rfl | rfl <;> grind [isQueryChar]

theorem parseUrlChar_reqFragmentStart (c : Byte) : parseUrlChar .reqFragmentStart c =
    if c = 35 then .reqFragmentStart else if isFragmentChar c then .reqFragment else .dead := by
  have hhash : isUrlChar 35 = false := by decide
  apply parseUrlChar_eq (by decide) (by decide)
  intro c hblank hline
  rw [parseUrlChar, if_neg hblank, if_neg hline]
  grind [isFragmentChar]

theorem parseUrlChar_reqFragment (c : Byte) : parseUrlChar .reqFragment c =
    if isFragmentChar c then .reqFragment else .dead := by
  apply parseUrlChar_eq (by decide) (by decide)
  intro c hblank hline
  rw [parseUrlChar, if_neg hblank, if_neg hline]
  grind [isFragmentChar]

/-- In an authority an `@` must not follow another one at once. -/
theorem parseUrlChar_server {s : UrlState}
    (hs : s = .reqServerStart ∨ s = .reqServer ∨ s = .reqServerWithAt) (c : Byte) :
    parseUrlChar s c =
      if c = 64 then if s = .reqServerWithAt then .dead else .reqServerWithAt
      else if isServerChar c then .reqServer
      else if c = 47 then .reqPath
      else if c = 63 then .reqQueryStringStart
      else .dead := by
  have hslash : isServerChar 47 = false := by decide
  have hquestion : isServerChar 63 = false := by decide
  apply parseUrlChar_eq (by rcases hs with rfl | rfl | rfl <;> decide)
    (by rcases hs with rfl | rfl | rfl <;> decide)
  intro c hblank hline
  rw [parseUrlChar.eq_def, if_neg hblank, if_neg hline]
  rcases hs with rfl | rfl | rfl <;> grind [serverChar, isServerChar]

end Steps

/-! ## Reading from a state on -/

/-- What counts at the end of the loop: the struct, and whether there was an `@`. -/
def Ends (Q : ParserUrl → Bool → Prop) (v : UrlScan) : Prop := Q v.u v.foundAt

section Reading
variable {p : Nat} {oldUf : Option UrlFields} {b : Bool} {u : ParserUrl} {text : List Byte}
  {Q : ParserUrl → Bool → Prop}

/-- A field that has begun is read to its end. -/
theorem reads_field {s : UrlState} {uf : UrlFields} {C : Byte → Bool}
    (hstay : ∀ c v, C c = true → v.s = s → urlStep c v = some (v.note s v.foundAt uf))
    (w : Letters C) :
    Reads urlStep ⟨s, p + 1, some uf, b, u.mark uf p 1⟩ (w.1 ++ text) (Ends Q) ↔
      Reads urlStep ⟨s, p + 1 + w.1.length, some uf, b, u.mark uf p (w.1.length + 1)⟩ text
        (Ends Q) := by
  let after (n : Nat) : UrlScan := ⟨s, p + 1 + n, some uf, b, u.mark uf p (n + 1)⟩
  apply reads_run after
  intro n c hc
  rw [hstay c (after n) hc rfl]
  exact congrArg some note_next

/-- The rest of a fragment that has begun. -/
theorem reads_reqFragment : Reads urlStep ⟨.reqFragment, p + 1, some .fragment, b,
      u.mark .fragment p 1⟩ text (Ends Q) ↔
    (∀ c ∈ text, isFragmentChar c = true) ∧ Q (u.mark .fragment p (text.length + 1)) b := by
  have hstay : ∀ c (v : UrlScan), isFragmentChar c = true → v.s = .reqFragment →
      urlStep c v = some (v.note .reqFragment v.foundAt .fragment) := by
    intro c v hc hs
    rw [urlStep, hs, parseUrlChar_reqFragment, if_pos hc]
  constructor
  · intro hreads
    obtain ⟨w, r, rfl, hother⟩ := exists_run isFragmentChar text
    rw [reads_field hstay] at hreads
    cases r with
    | nil =>
        rw [List.append_nil]
        have hQ := reads_nil.mp hreads
        exact ⟨w.2, hQ⟩
    | cons c r =>
        apply absurd hreads
        apply not_reads_cons
        rw [urlStep, parseUrlChar_reqFragment, hother c rfl]
        rfl
  · rintro ⟨hall, hQ⟩
    rw [← List.append_nil text, reads_field (w := ⟨text, hall⟩) hstay, reads_nil]
    exact hQ

/-- What follows a `#`. -/
theorem reads_reqFragmentStart (hold : oldUf ≠ some .fragment) :
    Reads urlStep ⟨.reqFragmentStart, p, oldUf, b, u⟩ text (Ends Q) ↔
      ∃ f : Fragment, text = f.text ∧ Q (f.mark u p) b := by
  let after (n : Nat) : UrlScan := ⟨.reqFragmentStart, p + n, oldUf, b, u⟩
  have hstay : ∀ n (c : Byte), decide (c = 35) = true → urlStep c (after n) = some (after (n + 1)) := by
    intro n c hc
    simp only [urlStep, after, parseUrlChar_reqFragmentStart, if_pos (of_decide_eq_true hc)]
    rfl
  have hbody : ∀ n (body : List Byte), body.head? ≠ some 35 →
      (Reads urlStep (after n) body (Ends Q) ↔ (∀ c ∈ body, isFragmentChar c = true) ∧
        Q (u.mark .fragment (p + n) body.length) b) := by
    intro n body hhead
    cases body with
    | nil =>
        rw [reads_nil]
        exact (and_iff_right (by simp)).symm
    | cons c r =>
        have hc : c ≠ 35 := by simpa using hhead
        rw [List.forall_mem_cons, and_assoc]
        by_cases hbegin : isFragmentChar c = true
        · have hstep : urlStep c (after n) =
              some ⟨.reqFragment, p + n + 1, some .fragment, b, u.mark .fragment (p + n) 1⟩ := by
            simp only [urlStep, after, parseUrlChar_reqFragmentStart, if_neg hc, if_pos hbegin,
              note_first hold]
          rw [reads_cons_of_some hstep, reads_reqFragment, and_iff_right hbegin]
          rfl
        · have hstep : urlStep c (after n) = none := by
            simp only [urlStep, after, parseUrlChar_reqFragmentStart, if_neg hc, if_neg hbegin]
          exact iff_of_false (not_reads_cons hstep) (fun h => hbegin h.1)
  constructor
  · intro hreads
    obtain ⟨w, body, rfl, hhead⟩ := exists_run (fun c => decide (c = 35)) text
    have hashes : w.1 = List.replicate w.1.length 35 :=
      List.eq_replicate_of_mem fun c hc => of_decide_eq_true (w.2 c hc)
    have hhead : body.head? ≠ some 35 := fun heq => of_decide_eq_false (hhead 35 heq) rfl
    obtain ⟨hall, hQ⟩ := (hbody _ body hhead).mp ((reads_run after hstay w).mp hreads)
    refine ⟨⟨w.1.length, ⟨body, hall⟩, hhead⟩, ?_, hQ⟩
    rw [Fragment.text, ← hashes]
  · rintro ⟨⟨k, ⟨body, hall⟩, hhead⟩, rfl, hQ⟩
    let w : Letters fun c : Byte => decide (c = 35) :=
      ⟨List.replicate k 35, fun c hc => decide_eq_true (List.eq_of_mem_replicate hc)⟩
    apply (reads_run after hstay w).mpr
    rw [hbody _ body hhead, List.length_replicate]
    exact ⟨hall, hQ⟩

/-- At the end of a path or a query the url ends, or the fragment begins. -/
theorem reads_fragment {s : UrlState} (hs : parseUrlChar s 35 = .reqFragmentStart)
    (hold : oldUf ≠ some .fragment) (hhead : ∀ c ∈ text.head?, c ≠ 35 → parseUrlChar s c = .dead) :
    Reads urlStep ⟨s, p, oldUf, b, u⟩ text (Ends Q) ↔
      ∃ f : Option Fragment, text = f.elim [] (fun f => 35 :: f.text) ∧
        Q (f.elim u (Fragment.mark u (p + 1))) b := by
  cases text with
  | nil =>
      rw [reads_nil]
      constructor
      · intro hQ
        exact ⟨none, rfl, hQ⟩
      · rintro ⟨_ | f, htext, hQ⟩
        · exact hQ
        · cases htext
  | cons c r =>
      by_cases hc : c = 35
      · subst hc
        have hstep : urlStep 35 ⟨s, p, oldUf, b, u⟩ = some ⟨.reqFragmentStart, p + 1, oldUf, b, u⟩ := by
          rw [urlStep, hs]
        rw [reads_cons_of_some hstep, reads_reqFragmentStart hold]
        constructor
        · rintro ⟨f, rfl, hQ⟩
          exact ⟨some f, rfl, hQ⟩
        · rintro ⟨_ | f, htext, hQ⟩
          · cases htext
          · cases htext
            exact ⟨f, rfl, hQ⟩
      · have hstep : urlStep c ⟨s, p, oldUf, b, u⟩ = none := by
          rw [urlStep, hhead c rfl hc]
        apply iff_of_false (not_reads_cons hstep)
        rintro ⟨_ | f, htext, -⟩
        · cases htext
        · cases htext
          exact hc rfl

/-- The query is read to its end. -/
theorem reads_queryRun (hquery : oldUf ≠ some .query) (hold : oldUf ≠ some .fragment)
    (q : Letters isQueryChar) (hhead : ∀ c ∈ text.head?, isQueryChar c = false) :
    Reads urlStep ⟨.reqQueryStringStart, p + 1, oldUf, b, u⟩ (q.1 ++ text) (Ends Q) ↔
      ∃ f : Option Fragment, text = Tail.fragmentText ⟨some q, f⟩ ∧
        Q (Tail.mark u p ⟨some q, f⟩) b := by
  have hdead : ∀ s, s = UrlState.reqQueryStringStart ∨ s = .reqQueryString →
      ∀ c ∈ text.head?, c ≠ 35 → parseUrlChar s c = .dead := by
    intro s hs c hc hne
    rw [parseUrlChar_query hs, hhead c hc, if_neg (by simp), if_neg hne]
  have hstay : ∀ c (v : UrlScan), isQueryChar c = true → v.s = .reqQueryString →
      urlStep c v = some (v.note .reqQueryString v.foundAt .query) := by
    intro c v hc hs
    rw [urlStep, hs, parseUrlChar_query (.inr rfl), if_pos hc]
  obtain ⟨_ | ⟨c, w⟩, hq⟩ := q
  · exact reads_fragment rfl hold (hdead _ (.inl rfl))
  · obtain ⟨hc, hw⟩ := List.forall_mem_cons.mp hq
    have hstep : urlStep c ⟨.reqQueryStringStart, p + 1, oldUf, b, u⟩ =
        some ⟨.reqQueryString, p + 1 + 1, some .query, b, u.mark .query (p + 1) 1⟩ := by
      rw [urlStep, parseUrlChar_query (.inl rfl), if_pos hc]
      exact congrArg some (note_first hquery)
    have hplace : p + 1 + 1 + w.length = p + (63 :: c :: w).length := by
      simp only [List.length_cons]
      omega
    rw [List.cons_append, reads_cons_of_some hstep, reads_field (w := ⟨w, hw⟩) hstay,
      reads_fragment rfl (by simp) (hdead _ (.inr rfl)), hplace]
    rfl

/-- What follows a `?`. -/
theorem reads_reqQueryStringStart (hquery : oldUf ≠ some .query) (hold : oldUf ≠ some .fragment) :
    Reads urlStep ⟨.reqQueryStringStart, p + 1, oldUf, b, u⟩ text (Ends Q) ↔
      ∃ q f, text = q.1 ++ Tail.fragmentText ⟨some q, f⟩ ∧ Q (Tail.mark u p ⟨some q, f⟩) b := by
  constructor
  · intro hreads
    obtain ⟨q, r, rfl, hhead⟩ := exists_run isQueryChar text
    obtain ⟨f, rfl, hQ⟩ := (reads_queryRun hquery hold q hhead).mp hreads
    exact ⟨q, f, rfl, hQ⟩
  · rintro ⟨q, f, rfl, hQ⟩
    apply (reads_queryRun hquery hold q ?_).mpr
    · exact ⟨f, rfl, hQ⟩
    · intro c hc
      cases f with
      | none => cases hc
      | some f =>
          cases hc
          decide

/-- What follows a path. -/
theorem reads_tail (hhead : ∀ c ∈ text.head?, isUrlChar c = false) :
    Reads urlStep ⟨.reqPath, p, some .path, b, u⟩ text (Ends Q) ↔
      ∃ t : Tail, text = t.text ∧ Q (t.mark u p) b := by
  by_cases hquestion : ∃ r, text = 63 :: r
  · obtain ⟨r, rfl⟩ := hquestion
    have hstep : urlStep 63 ⟨.reqPath, p, some .path, b, u⟩ =
        some ⟨.reqQueryStringStart, p + 1, some .path, b, u⟩ := rfl
    rw [reads_cons_of_some hstep, reads_reqQueryStringStart (by simp) (by simp)]
    constructor
    · rintro ⟨q, f, rfl, hQ⟩
      exact ⟨⟨some q, f⟩, rfl, hQ⟩
    · rintro ⟨⟨_ | q, f⟩, htext, hQ⟩
      · cases f <;> cases htext
      · cases htext
        exact ⟨q, f, rfl, hQ⟩
  · have hother : ∀ c ∈ text.head?, c ≠ 35 → parseUrlChar .reqPath c = .dead := by
      intro c hc hne
      have hnot : c ≠ 63 := by
        rintro rfl
        obtain ⟨r, rfl⟩ := List.head?_eq_some_iff.mp hc
        exact hquestion ⟨r, rfl⟩
      rw [parseUrlChar_reqPath, hhead c hc, if_neg (by simp), if_neg hnot, if_neg hne]
    rw [reads_fragment rfl (by simp) hother]
    constructor
    · rintro ⟨f, rfl, hQ⟩
      exact ⟨⟨none, f⟩, rfl, hQ⟩
    · rintro ⟨⟨_ | q, f⟩, rfl, hQ⟩
      · exact ⟨f, rfl, hQ⟩
      · exact absurd ⟨_, rfl⟩ hquestion

theorem head_tail (t : Tail) : ∀ c ∈ t.text.head?, isUrlChar c = false := by
  intro c hc
  obtain ⟨_ | q, _ | f⟩ := t <;> cases hc <;> decide

/-- The rest of a path that has begun. -/
theorem reads_reqPath :
    Reads urlStep ⟨.reqPath, p + 1, some .path, b, u.mark .path p 1⟩ text (Ends Q) ↔
      ∃ (w : Letters isUrlChar) (t : Tail), text = w.1 ++ t.text ∧
        Q (t.mark (u.mark .path p (w.1.length + 1)) (p + 1 + w.1.length)) b := by
  have hstay : ∀ c (v : UrlScan), isUrlChar c = true → v.s = .reqPath →
      urlStep c v = some (v.note .reqPath v.foundAt .path) := by
    intro c v hc hs
    rw [urlStep, hs, parseUrlChar_reqPath, if_pos hc]
  constructor
  · intro hreads
    obtain ⟨w, r, rfl, hhead⟩ := exists_run isUrlChar text
    obtain ⟨t, rfl, hQ⟩ := (reads_tail hhead).mp ((reads_field hstay w).mp hreads)
    exact ⟨w, t, rfl, hQ⟩
  · rintro ⟨w, t, rfl, hQ⟩
    apply (reads_field hstay w).mpr
    exact (reads_tail (head_tail t)).mpr ⟨t, rfl, hQ⟩

/-! ### The authority -/

theorem head_rest (r : Rest) : ∀ c ∈ r.text.head?, isServerChar c = false := by
  intro c hc
  cases r with
  | bare => cases hc
  | slash path tail =>
      cases hc
      decide
  | question query fragment =>
      cases hc
      decide

/-- What follows an authority. -/
theorem reads_rest {s : UrlState} (hs : s = .reqServerStart ∨ s = .reqServer ∨ s = .reqServerWithAt)
    (hpath : oldUf ≠ some .path) (hquery : oldUf ≠ some .query) (hold : oldUf ≠ some .fragment)
    (hhead : ∀ c ∈ text.head?, isServerChar c = false) :
    Reads urlStep ⟨s, p, oldUf, b, u⟩ text (Ends Q) ↔
      ∃ r : Rest, text = r.text ∧ Q (r.mark u p) b := by
  have hparse : ∀ c ∈ text.head?, parseUrlChar s c =
      if c = 47 then .reqPath else if c = 63 then .reqQueryStringStart else .dead := by
    intro c hc
    have hnot : c ≠ 64 := by
      rintro rfl
      cases hhead 64 hc
    rw [parseUrlChar_server hs, if_neg hnot, hhead c hc, if_neg (by simp)]
  cases text with
  | nil =>
      rw [reads_nil]
      constructor
      · intro hQ
        exact ⟨.bare, rfl, hQ⟩
      · rintro ⟨_ | _ | _, htext, hQ⟩
        · exact hQ
        · cases htext
        · cases htext
  | cons c r =>
      have hparse := hparse c rfl
      by_cases hslash : c = 47
      · subst hslash
        have hstep : urlStep 47 ⟨s, p, oldUf, b, u⟩ =
            some ⟨.reqPath, p + 1, some .path, b, u.mark .path p 1⟩ := by
          rw [urlStep, hparse]
          exact congrArg some (note_first hpath)
        rw [reads_cons_of_some hstep, reads_reqPath]
        constructor
        · rintro ⟨w, t, rfl, hQ⟩
          refine ⟨.slash w t, rfl, ?_⟩
          rw [Nat.add_right_comm] at hQ
          exact hQ
        · rintro ⟨_ | ⟨w, t⟩ | _, htext, hQ⟩
          · cases htext
          · cases htext
            refine ⟨w, t, rfl, ?_⟩
            rw [Nat.add_right_comm]
            exact hQ
          · cases htext
      · by_cases hquestion : c = 63
        · subst hquestion
          have hstep : urlStep 63 ⟨s, p, oldUf, b, u⟩ =
              some ⟨.reqQueryStringStart, p + 1, oldUf, b, u⟩ := by
            rw [urlStep, hparse]
            rfl
          rw [reads_cons_of_some hstep, reads_reqQueryStringStart hquery hold]
          constructor
          · rintro ⟨q, f, rfl, hQ⟩
            exact ⟨.question q f, rfl, hQ⟩
          · rintro ⟨_ | _ | ⟨q, f⟩, htext, hQ⟩
            · cases htext
            · cases htext
            · cases htext
              exact ⟨q, f, rfl, hQ⟩
        · have hstep : urlStep c ⟨s, p, oldUf, b, u⟩ = none := by
            rw [urlStep, hparse, if_neg hslash, if_neg hquestion]
          apply iff_of_false (not_reads_cons hstep)
          rintro ⟨_ | _ | _, htext, -⟩
          · cases htext
          · cases htext
            exact hslash rfl
          · cases htext
            exact hquestion rfl

/-- The authority is read to its end, from the `@` or the other byte that was read last. -/
theorem reads_server (rest : List Byte) (hhead : ∀ c ∈ rest.head?, isServerChar c = false)
    (w : List Byte) (hw : ∀ c ∈ w, isServerChar c = true) (last : Byte) (n : Nat) :
    Reads urlStep ⟨if last = 64 then .reqServerWithAt else .reqServer, p + 1 + n, some .host, b,
        u.mark .host p (n + 1)⟩ (w ++ rest) (Ends Q) ↔
      AtsApart (last :: w) ∧ ∃ r : Rest, rest = r.text ∧
        Q (r.mark (u.mark .host p (n + 1 + w.length)) (p + 1 + n + w.length))
          (b || w.contains 64) := by
  have hstate : ∀ c : Byte, (if c = 64 then UrlState.reqServerWithAt else .reqServer) =
      .reqServerStart ∨ (if c = 64 then UrlState.reqServerWithAt else .reqServer) = .reqServer ∨
      (if c = 64 then UrlState.reqServerWithAt else .reqServer) = .reqServerWithAt := by
    intro c
    split <;> simp
  induction w generalizing last n b with
  | nil =>
      rw [List.nil_append, reads_rest (hstate last) (by simp) (by simp) (by simp) hhead,
        and_iff_right (show AtsApart [last] from List.IsChain.singleton last), List.contains_nil, Bool.or_false]
      rfl
  | cons c w ih =>
      obtain ⟨hc, hw⟩ := List.forall_mem_cons.mp hw
      have hnext := ih hw c (n + 1) (b := b || c == 64)
      have hapart : AtsApart (last :: c :: w) ↔ (last = 64 → c ≠ 64) ∧ AtsApart (c :: w) :=
        List.isChain_cons_cons
      by_cases hboth : last = 64 ∧ c = 64
      · obtain ⟨rfl, rfl⟩ := hboth
        refine iff_of_false ?_ (fun h => (hapart.mp h.1).1 rfl rfl)
        exact not_reads_cons rfl
      · have hstep : urlStep c ⟨if last = 64 then .reqServerWithAt else .reqServer, p + 1 + n,
            some .host, b, u.mark .host p (n + 1)⟩ =
            some ⟨if c = 64 then .reqServerWithAt else .reqServer, p + 1 + n + 1, some .host,
              b || c == 64, u.mark .host p (n + 2)⟩ := by
          rw [urlStep, parseUrlChar_server (hstate last)]
          by_cases hat : c = 64
          · have hlast : last ≠ 64 := fun hlast => hboth ⟨hlast, hat⟩
            rw [if_pos hat, if_neg hlast, if_pos hat, hat, beq_self_eq_true, Bool.or_true]
            exact congrArg some note_next
          · rw [if_neg hat, if_pos hc, if_neg hat, beq_false_of_ne hat, Bool.or_false]
            exact congrArg some note_next
        have hlength : n + 1 + (c :: w).length = n + 1 + 1 + w.length := by
          rw [List.length_cons]
          omega
        have hplace : p + 1 + n + (c :: w).length = p + 1 + (n + 1) + w.length := by
          rw [List.length_cons]
          omega
        have hats : (b || (c :: w).contains 64) = (b || c == 64 || w.contains 64) := by
          rw [List.contains_cons, Bool.or_assoc, BEq.comm]
        rw [List.cons_append, reads_cons_of_some hstep, hapart, hlength, hplace, hats,
          and_iff_right (fun hlast hat => hboth ⟨hlast, hat⟩)]
        exact hnext

/-- What follows `://`. -/
theorem reads_reqServerStart (hhost : oldUf ≠ some .host) (hpath : oldUf ≠ some .path)
    (hquery : oldUf ≠ some .query) (hold : oldUf ≠ some .fragment) :
    Reads urlStep ⟨.reqServerStart, p, oldUf, b, u⟩ text (Ends Q) ↔
      ∃ (w : Letters isServerChar) (r : Rest), text = w.1 ++ r.text ∧ AtsApart w.1 ∧
        Q (r.mark (u.mark .host p w.1.length) (p + w.1.length)) (b || w.1.contains 64) := by
  have hrun : ∀ (w : Letters isServerChar) rest, (∀ c ∈ rest.head?, isServerChar c = false) →
      (Reads urlStep ⟨.reqServerStart, p, oldUf, b, u⟩ (w.1 ++ rest) (Ends Q) ↔
        AtsApart w.1 ∧ ∃ r : Rest, rest = r.text ∧
          Q (r.mark (u.mark .host p w.1.length) (p + w.1.length)) (b || w.1.contains 64)) := by
    rintro ⟨_ | ⟨c, w⟩, hw⟩ rest hhead
    · rw [List.nil_append, reads_rest (.inl rfl) hpath hquery hold hhead,
        and_iff_right (show AtsApart [] from List.IsChain.nil), List.contains_nil, Bool.or_false]
      rfl
    · obtain ⟨hc, hw⟩ := List.forall_mem_cons.mp hw
      have hstep : urlStep c ⟨.reqServerStart, p, oldUf, b, u⟩ =
          some ⟨if c = 64 then .reqServerWithAt else .reqServer, p + 1, some .host, b || c == 64,
            u.mark .host p 1⟩ := by
        rw [urlStep, parseUrlChar_server (.inl rfl)]
        by_cases hat : c = 64
        · rw [if_pos hat, if_neg (by simp), if_pos hat, hat, beq_self_eq_true, Bool.or_true]
          exact congrArg some (note_first hhost)
        · rw [if_neg hat, if_pos hc, if_neg hat, beq_false_of_ne hat, Bool.or_false]
          exact congrArg some (note_first hhost)
      have hnext := reads_server (p := p) (u := u) (b := b || c == 64) (Q := Q) rest hhead w hw c 0
      have hats : (b || (c :: w).contains 64) = (b || c == 64 || w.contains 64) := by
        rw [List.contains_cons, Bool.or_assoc, BEq.comm]
      rw [List.cons_append, reads_cons_of_some hstep, hats, List.length_cons,
        Nat.add_comm w.length 1, ← Nat.add_assoc]
      rw [Nat.zero_add] at hnext
      exact hnext
  constructor
  · intro hreads
    obtain ⟨w, rest, rfl, hhead⟩ := exists_run isServerChar text
    obtain ⟨hapart, r, rfl, hQ⟩ := (hrun w rest hhead).mp hreads
    exact ⟨w, r, rfl, hapart, hQ⟩
  · rintro ⟨w, r, rfl, hapart, hQ⟩
    exact (hrun w r.text (head_rest r)).mpr ⟨hapart, r, rfl, hQ⟩

/-! ### The scheme -/

/-- Where the url must not end: one byte is possible. -/
theorem reads_delimiter {s : UrlState} (s' : UrlState) {d : Byte} (hd : urlStep d ⟨s, p, oldUf, b, u⟩ =
      some ⟨s', p + 1, oldUf, b, u⟩) (hQ : ¬ Q u b)
    (hdead : ∀ c ∈ text.head?, c ≠ d → parseUrlChar s c = .dead) :
    Reads urlStep ⟨s, p, oldUf, b, u⟩ text (Ends Q) ↔
      ∃ r, text = d :: r ∧ Reads urlStep ⟨s', p + 1, oldUf, b, u⟩ r (Ends Q) := by
  cases text with
  | nil =>
      rw [reads_nil]
      exact iff_of_false hQ (by simp)
  | cons c r =>
      by_cases hc : c = d
      · subst hc
        rw [reads_cons_of_some hd]
        constructor
        · intro hreads
          exact ⟨r, rfl, hreads⟩
        · rintro ⟨r', heq, hreads⟩
          cases heq
          exact hreads
      · have hstep : urlStep c ⟨s, p, oldUf, b, u⟩ = none := by
          rw [urlStep, hdead c rfl hc]
        apply iff_of_false (not_reads_cons hstep)
        rintro ⟨r', heq, -⟩
        cases heq
        exact hc rfl

/-- From the end of the scheme to the authority. -/
theorem reads_delimiters (hQ : ¬ Q u b) (hhead : ∀ c ∈ text.head?, isAlpha c = false) :
    Reads urlStep ⟨.reqSchema, p, some .schema, b, u⟩ text (Ends Q) ↔
      ∃ r, text = delimiter ++ r ∧
        Reads urlStep ⟨.reqServerStart, p + 3, some .schema, b, u⟩ r (Ends Q) := by
  have hslash : ∀ s : UrlState, s = .reqSchemaSlash ∨ s = .reqSchemaSlashSlash →
      ∀ c : Byte, c ≠ 47 → parseUrlChar s c = .dead := by
    intro s hs c hne
    rcases hs with rfl | rfl <;> simp [parseUrlChar, hne]
  have hcolon : ∀ c ∈ text.head?, c ≠ 58 → parseUrlChar .reqSchema c = .dead := by
    intro c hc hne
    rw [parseUrlChar_reqSchema, hhead c hc, if_neg (by simp), if_neg hne]
  rw [reads_delimiter .reqSchemaSlash (d := 58) rfl hQ hcolon]
  constructor
  · rintro ⟨r₁, rfl, hreads⟩
    obtain ⟨r₂, rfl, hreads⟩ := (reads_delimiter .reqSchemaSlashSlash (d := 47) rfl hQ
      (fun c _ => hslash _ (.inl rfl) c)).mp hreads
    obtain ⟨r, rfl, hreads⟩ := (reads_delimiter .reqServerStart (d := 47) rfl hQ
      (fun c _ => hslash _ (.inr rfl) c)).mp hreads
    exact ⟨r, rfl, hreads⟩
  · rintro ⟨r, rfl, hreads⟩
    refine ⟨47 :: 47 :: r, rfl, ?_⟩
    rw [reads_cons_of_some (m := ⟨.reqSchemaSlashSlash, p + 1 + 1, some .schema, b, u⟩) rfl,
      reads_cons_of_some (m := ⟨.reqServerStart, p + 1 + 1 + 1, some .schema, b, u⟩) rfl]
    exact hreads

/-- **The first automaton.** A url that must not end without a host, once it has a scheme, is read
when it has one of the two forms. -/
theorem reads_url (hneeds : ∀ n, 0 < n → ¬ Q (u.mark .schema 0 n) false) :
    (text ≠ [] ∧ Reads urlStep ⟨.reqSpacesBeforeUrl, 0, none, false, u⟩ text (Ends Q)) ↔
      ∃ f : Form, text = f.text ∧ Q (f.mark u) f.hasAt := by
  have hstay : ∀ c (v : UrlScan), isAlpha c = true → v.s = .reqSchema →
      urlStep c v = some (v.note .reqSchema v.foundAt .schema) := by
    intro c v hc hs
    rw [urlStep, hs, parseUrlChar_reqSchema, if_pos hc]
  have halpha : ∀ c : Byte, isAlpha c = true → parseUrlChar .reqSpacesBeforeUrl c = .reqSchema := by
    intro c hc
    rw [parseUrlChar_reqSpacesBeforeUrl, if_neg (not_first_of_isAlpha hc), if_pos hc]
  have hother : ∀ c : Byte, ¬ (c = 47 ∨ c = 42) → isAlpha c = false →
      parseUrlChar .reqSpacesBeforeUrl c = .dead := by
    intro c hfirst hc
    rw [parseUrlChar_reqSpacesBeforeUrl, if_neg hfirst, if_neg (by simp [hc])]
  have hscheme : ∀ c, isAlpha c = true → urlStep c ⟨.reqSpacesBeforeUrl, 0, none, false, u⟩ =
      some ⟨.reqSchema, 0 + 1, some .schema, false, u.mark .schema 0 1⟩ := by
    intro c hc
    rw [urlStep, halpha c hc]
    exact congrArg some (note_first (by simp))
  have hpath : ∀ c : Byte, c = 47 ∨ c = 42 → urlStep c ⟨.reqSpacesBeforeUrl, 0, none, false, u⟩ =
      some ⟨.reqPath, 0 + 1, some .path, false, u.mark .path 0 1⟩ := by
    rintro c (rfl | rfl) <;> exact congrArg some (note_first (by simp))
  constructor
  · rintro ⟨hne, hreads⟩
    obtain ⟨c, text, rfl⟩ := List.exists_cons_of_ne_nil hne
    by_cases hfirst : c = 47 ∨ c = 42
    · rw [reads_cons_of_some (hpath c hfirst), reads_reqPath] at hreads
      obtain ⟨w, t, rfl, hQ⟩ := hreads
      exact ⟨.origin c hfirst w t, rfl, hQ⟩
    · cases hc : isAlpha c with
      | false =>
          apply absurd hreads
          apply not_reads_cons
          rw [urlStep, hother c hfirst hc]
      | true =>
          obtain ⟨w, rest, rfl, hhead⟩ := exists_run isAlpha text
          rw [reads_cons_of_some (hscheme c hc), reads_field hstay,
            reads_delimiters (hneeds _ (Nat.succ_pos _)) hhead] at hreads
          obtain ⟨r, rfl, hreads⟩ := hreads
          rw [reads_reqServerStart (by simp) (by simp) (by simp) (by simp)] at hreads
          obtain ⟨server, r, rfl, hapart, hQ⟩ := hreads
          have hall : ∀ d ∈ c :: w.1, isAlpha d = true := List.forall_mem_cons.mpr ⟨hc, w.2⟩
          refine ⟨.absolute ⟨c :: w.1, by simp, hall⟩ server hapart r, rfl, ?_⟩
          rw [Bool.false_or, Nat.zero_add, Nat.add_comm 1] at hQ
          exact hQ
  · rintro ⟨f, rfl, hQ⟩
    cases f with
    | origin first hfirst path tail =>
        refine ⟨by simp [Form.text], ?_⟩
        show Reads urlStep _ (first :: (path.1 ++ tail.text)) _
        rw [reads_cons_of_some (hpath first hfirst), reads_reqPath]
        exact ⟨path, tail, rfl, hQ⟩
    | absolute scheme server hapart r =>
        obtain ⟨_ | ⟨c, w⟩, hne, hall⟩ := scheme
        · exact absurd rfl hne
        · refine ⟨by simp [Form.text], ?_⟩
          obtain ⟨hc, hw⟩ := List.forall_mem_cons.mp hall
          have hhead : ∀ d ∈ (delimiter ++ (server.1 ++ r.text)).head?, isAlpha d = false := by
            intro d hd
            cases hd
            decide
          show Reads urlStep _ (c :: (w ++ (delimiter ++ (server.1 ++ r.text)))) _
          rw [reads_cons_of_some (hscheme c hc), reads_field (w := ⟨w, hw⟩) hstay,
            reads_delimiters (hneeds _ (Nat.succ_pos _)) hhead]
          refine ⟨_, rfl, ?_⟩
          rw [reads_reqServerStart (by simp) (by simp) (by simp) (by simp)]
          refine ⟨server, r, rfl, hapart, ?_⟩
          rw [Bool.false_or, Nat.zero_add, Nat.add_comm 1]
          exact hQ

end Reading

end Unp.Http.HttpParser
