import Unp.Http.UrlFields
import Unp.Http.UrlBounds
import Unp.Http.UrlParser

/-!
# `URLParser` with the parser it uses

`http_parser_parse_url` keeps what `URLParser` asks of it, and the getters then return the parts of the
url.
-/

namespace Unp.Http.URLParser

open Unp.Machine Unp.Util Unp.Run Unp.Scan Unp.Border
open HttpParser (ParserUrl Url Authority Rest UrlFields delimiter portPart bytesAt)

/-- A field as `URLParser` reads it. -/
def fieldOf {u : ParserUrl} {n : Nat} (h : u.Inside n) (f : UrlFields) : UrlField n where
  off := (u.fieldData f).off.toNat
  len := (u.fieldData f).len.toNat
  off_le := Nat.le_trans (Nat.le_add_right _ _) (h f)

/-- `http_parser_parse_url` on a struct of zeros. -/
def httpParserParseUrl : ParseUrl := fun url =>
  match h : HttpParser.parseUrl url false ParserUrl.init with
  | none => none
  | some u =>
      have hinside := (HttpParser.parseUrl_inside url false).2 u h
      some {
        schema := fieldOf hinside .schema
        host := fieldOf hinside .host
        path := fieldOf hinside .path
        query := fieldOf hinside .query
        port := u.port }

/-- What the getters return for a url of these parts. -/
def partsOf (t : Url) : UrlParts where
  scheme := t.part .schema
  host := t.part .host
  port := UInt16.ofNat (Decimal.value (t.part .port))
  path := t.part .path
  query := t.part .query

theorem bytesOf_fieldOf {u : ParserUrl} {url : List Byte} (h : u.Inside url.length) (f : UrlFields) :
    bytesOf url (fieldOf h f) = bytesAt url (u.fieldData f) := by
  have hmin : min (u.fieldData f).len.toNat (url.length - (u.fieldData f).off.toNat) =
      (u.fieldData f).len.toNat := Nat.min_eq_left (Nat.le_sub_of_add_le' (h f))
  exact congrArg (fun n => (url.drop (u.fieldData f).off.toNat).take n) hmin

/-! ## The scheme -/

theorem ascii_delimiter : ascii "://" = delimiter := by decide

theorem isAlpha_eq (c : Byte) : isAlpha c = HttpParser.isAlpha c := by
  revert c
  exact forall_byte (by decide +kernel)

/-- The scheme of a url that has one is found, and valid. -/
theorem validateScheme_scheme (scheme : Word HttpParser.isAlpha) (rest : List Byte)
    (hlen : (scheme.1 ++ (delimiter ++ rest)).length < 2 ^ 31) :
    validateScheme (scheme.1 ++ (delimiter ++ rest)) = .ok true := by
  have hoccurs : OccursAt (ascii "://") (scheme.1 ++ (delimiter ++ rest)) scheme.1.length := by
    rw [ascii_delimiter, OccursAt, List.drop_left]
    exact List.prefix_append delimiter rest
  have hfirst : FirstAt (ascii "://") (scheme.1 ++ (delimiter ++ rest)) scheme.1.length := by
    refine ⟨hoccurs, ?_⟩
    intro o ho hother
    have hletter := hother.letter (Nat.le_refl o) (by rw [ascii_delimiter]; simp)
    rw [List.getElem?_append_left ho, List.getElem?_eq_getElem ho, ascii_delimiter, Nat.sub_self]
      at hletter
    have hcolon : scheme.1[o] = 58 := Option.some.inj hletter
    have halpha := scheme.2.2 _ (List.getElem_mem ho)
    rw [hcolon] at halpha
    revert halpha
    decide
  have hkeeps : KeepsBorders (ascii "://") (2 ^ 31 - 1) := by decide
  have hint : u64OfInt (scheme.1.length : Int) = scheme.1.length := by
    rw [List.length_append] at hlen
    unfold u64OfInt
    omega
  have hcut : subString (scheme.1 ++ (delimiter ++ rest)) 0 scheme.1.length = .ok scheme.1 := by
    rw [subString, if_neg (Nat.not_lt_zero _), List.drop_zero, Nat.min_eq_left, List.take_left]
    rw [List.length_append]
    exact Nat.le_add_right _ _
  rw [validateScheme, kmpSearch_first (by decide) hlen (by decide +kernel)
    (hkeeps.mono (by omega)) hfirst, ok_bind, if_neg (by omega), hint, hcut, ok_bind]
  show Except.ok _ = _
  congr 1
  apply List.all_eq_true.mpr
  intro c hc
  rw [isAlpha_eq]
  exact scheme.2.2 c hc

/-- What begins with neither a letter nor the delimiter has no scheme. -/
theorem validateScheme_origin {c : Byte} (hc : c = 47 ∨ c = 42) (rest : List Byte)
    (hlen : (c :: rest).length < 2 ^ 31) : validateScheme (c :: rest) ≠ .ok true := by
  obtain ⟨r, hr, hanswers⟩ :=
    kmpSearch_ok (List.cons_ne_nil c rest) (show ascii "://" ≠ [] by decide) hlen
      (by decide)
  rw [validateScheme, hr, ok_bind]
  by_cases hnone : r = -1
  · rw [if_pos hnone]
    intro heq
    cases heq
  · have hleast := hanswers.least
    obtain ⟨o, rfl⟩ := Int.eq_ofNat_of_zero_le (show 0 ≤ r by omega)
    have hfound := (hanswers.sound o rfl).2
    rw [if_neg hnone, subString, if_neg (Nat.not_lt_zero _), ok_bind, List.drop_zero]
    intro heq
    have hall := List.all_eq_true.mp (Except.ok.inj heq)
    cases o with
    | zero =>
        -- the delimiter would be the first byte
        have hletter := hfound.letter (Nat.le_refl 0) (by decide)
        have hcolon : c = 58 := Option.some.inj hletter
        rcases hc with rfl | rfl <;> cases hcolon
    | succ o =>
        -- the first byte would be a letter
        have hbound := hfound.le_length (by decide)
        have hint : u64OfInt ((o + 1 : Nat) : Int) = o + 1 := by
          unfold u64OfInt
          omega
        rw [hint, Nat.sub_zero, Nat.min_eq_left (by omega)] at hall
        have halpha := hall c (by simp)
        rcases hc with rfl | rfl <;> revert halpha <;> decide

/-! ## `reset` -/

theorem httpParserParseUrl_of_some {url : List Byte} {u : ParserUrl}
    (h : HttpParser.parseUrl url false ParserUrl.init = some u) :
    ∃ hinside : u.Inside url.length, httpParserParseUrl url = some {
      schema := fieldOf hinside .schema
      host := fieldOf hinside .host
      path := fieldOf hinside .path
      query := fieldOf hinside .query
      port := u.port } := by
  refine ⟨(HttpParser.parseUrl_inside url false).2 u h, ?_⟩
  unfold httpParserParseUrl
  split
  · next heq =>
      rw [h] at heq
      cases heq
  · next u' heq =>
      rw [h] at heq
      cases heq
      rfl

theorem httpParserParseUrl_of_none {url : List Byte}
    (h : HttpParser.parseUrl url false ParserUrl.init = none) : httpParserParseUrl url = none := by
  unfold httpParserParseUrl
  split
  · rfl
  · next u heq =>
      rw [h] at heq
      cases heq

/-- A url with a scheme. -/
def HasScheme (t : Url) : Prop := t.part .schema ≠ []

/-- What `parse` makes of a url with a scheme. -/
theorem outcome_of_scheme {t : Url} (hscheme : HasScheme t) (hlen : t.text.length < 65536)
    (hfits : t.PortFits) : outcome httpParserParseUrl t.text = .accepted (partsOf t) := by
  obtain ⟨_, _, _, _⟩ | ⟨scheme, a, rest⟩ := t
  · exact absurd rfl hscheme
  · have hvalid : validateScheme (Url.absolute scheme a rest).text = .ok true := by
      have htext : (Url.absolute scheme a rest).text =
          scheme.1 ++ (delimiter ++ (a.text ++ rest.text)) := by
        simp [Url.text, Url.front, Url.path, Url.tail, HttpParser.Rest.text]
      rw [htext] at hlen ⊢
      exact validateScheme_scheme scheme _ (Nat.lt_trans hlen (by decide))
    obtain ⟨u, hparse, hreports⟩ := (HttpParser.fields_are_parts hlen).2 _ rfl hfits
    obtain ⟨hinside, hfields⟩ := httpParserParseUrl_of_some hparse
    have hport : u.port = UInt16.ofNat (Decimal.value ((Url.absolute scheme a rest).part .port)) := by
      rw [← hreports.port, UInt16.ofNat_toNat]
    rw [outcome, if_pos hvalid, hfields]
    simp only [bytesOf_fieldOf, hreports.bytes, hport]
    rfl

/-- What is accepted is a url with a scheme. -/
theorem exists_of_accepted {url : List Byte} (hlen : url.length < 65536) {parts : UrlParts}
    (haccepted : outcome httpParserParseUrl url = .accepted parts) :
    ∃ t : Url, HasScheme t ∧ url = t.text ∧ t.PortFits := by
  rw [outcome] at haccepted
  split at haccepted
  · next hvalid =>
      cases hparse : HttpParser.parseUrl url false ParserUrl.init with
      | none =>
          rw [httpParserParseUrl_of_none hparse] at haccepted
          cases haccepted
      | some u =>
          obtain ⟨t, htext, hfits, -⟩ := (HttpParser.fields_are_parts hlen).1 u hparse
          refine ⟨t, ?_, htext, hfits⟩
          obtain ⟨first, hfirst, path, tail⟩ | ⟨scheme, a, rest⟩ := t
          · rw [htext] at hvalid hlen
            exact absurd hvalid (validateScheme_origin hfirst _ (Nat.lt_trans hlen (by decide)))
          · exact scheme.2.1
  · cases haccepted

/-- **`reset` and the getters.** On a url of parts with a scheme, `reset` makes any parser valid, and
the getters return the parts; and a new parser becomes valid on no other url. -/
theorem reset_url {url : List Byte} (hlen : url.length < 65536) :
    (∀ t : Url, HasScheme t → url = t.text → t.PortFits → ∀ p : URLParser,
      ∃ p', p.reset httpParserParseUrl url = .ok p' ∧ p'.view = (true, partsOf t)) ∧
    ∀ p', fresh.reset httpParserParseUrl url = .ok p' → p'.valid = true →
      ∃ t : Url, HasScheme t ∧ url = t.text ∧ t.PortFits := by
  constructor
  · rintro t hscheme rfl hfits p
    obtain ⟨p', hreset, hview⟩ := reset_spec httpParserParseUrl t.text p
    refine ⟨p', hreset, ?_⟩
    rw [hview, outcome_of_scheme hscheme hlen hfits]
    rfl
  · intro p' hreset hvalid
    obtain ⟨q, hq, hview⟩ := reset_spec httpParserParseUrl url fresh
    rw [hreset] at hq
    cases hq
    have hvalid : (after (outcome httpParserParseUrl url) fresh).1 = true := by
      rw [← hview]
      exact hvalid
    cases houtcome : outcome httpParserParseUrl url with
    | noScheme =>
        rw [houtcome] at hvalid
        cases hvalid
    | refused =>
        rw [houtcome] at hvalid
        cases hvalid
    | accepted parts => exact exists_of_accepted hlen houtcome

theorem reset_url_small :
    (∃ p', fresh.reset httpParserParseUrl (ascii "http://me@a.b:80/c?d") = .ok p' ∧
      p'.view = (true, partsOf .small)) ∧ (partsOf .small).host = ascii "a.b" := by
  have hlen : (ascii "http://me@a.b:80/c?d").length < 65536 := by decide
  have hboth := reset_url hlen
  have hscheme : HasScheme .small := show ascii "http" ≠ [] by decide
  exact ⟨hboth.1 .small hscheme HttpParser.Url.text_small.symm (by decide) fresh,
    by decide⟩

end Unp.Http.URLParser
