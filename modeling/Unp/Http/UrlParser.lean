import Unp.Lib.Run
import Unp.Util.Kmp

/-!
# `URLParser`

`parse` returns at three places. Without a scheme it has written nothing, so the parser still says of
the new url what it said of the one before; when `http_parser_parse_url` refuses the url, it has
written `valid_` only; and at its end it has written every field.

`http_parser_parse_url` is a parameter: a function of the url, which returns 0 and fills the struct,
or not. The fields it has filled begin inside the url.
-/

namespace Unp.Http

open Unp.Machine Unp.Util Unp.Run

/-- `field_data[uf]`, for a url of `n` bytes. -/
structure UrlField (n : Nat) where
  off : Nat
  len : Nat
  off_le : off ≤ n

/-- `http_parser_url`, as far as it is read. -/
structure HttpParserUrl (n : Nat) where
  schema : UrlField n
  host : UrlField n
  path : UrlField n
  query : UrlField n
  port : UInt16

/-- `http_parser_parse_url`, for requests other than CONNECT. -/
abbrev ParseUrl := (url : List Byte) → Option (HttpParserUrl url.length)

/-- `std::isalpha`, in the C locale. -/
def isAlpha (c : Byte) : Bool := 65 ≤ c ∧ c ≤ 90 ∨ 97 ≤ c ∧ c ≤ 122

def validateScheme (url : List Byte) : Res Bool := do
  let schemeEnd ← kmpSearch url (ascii "://")
  if schemeEnd = -1 then pure false
  else do
    let scheme ← subString url 0 (u64OfInt schemeEnd)
    pure (scheme.all isAlpha)

/-- What the getters return, other than `valid()`. -/
structure UrlParts where
  scheme : List Byte
  host : List Byte
  port : UInt16
  path : List Byte
  query : List Byte
  deriving DecidableEq

structure URLParser where
  url : List Byte
  parts : UrlParts
  valid : Bool
  initilized : Bool
  deriving DecidableEq

namespace URLParser

/-- `URLParser()`. -/
def fresh : URLParser := ⟨[], ⟨[], [], 0, [], []⟩, false, false⟩

section Parser
variable (parseUrl : ParseUrl)

/-- `url_.sub_string(u.field_data[uf].off, u.field_data[uf].len)`. -/
def part (url : List Byte) (field : UrlField url.length) : Res (List Byte) :=
  subString url field.off field.len

def parse (p : URLParser) : Res URLParser := do
  if ← validateScheme p.url then
    match parseUrl p.url with
    | none => pure { p with valid := false }
    | some u => do
        let scheme ← part p.url u.schema
        let host ← part p.url u.host
        let path ← part p.url u.path
        let query ← part p.url u.query
        pure { p with valid := true, parts := ⟨scheme, host, u.port, path, query⟩ }
  else pure p

def init (urlVal : List Byte) (p : URLParser) : Res URLParser :=
  if p.initilized then pure p
  else do
    let p ← { p with url := urlVal }.parse parseUrl
    pure { p with initilized := true }

def reset (url : List Byte) (p : URLParser) : Res URLParser := do
  let p ← { p with url }.parse parseUrl
  pure { p with initilized := true }

/-- What can be asked of a parser. -/
def view (p : URLParser) : Bool × UrlParts := (p.valid, p.parts)

/-! ## What `parse` does with a url -/

/-- The three ways out of `parse`. -/
inductive Outcome where
  | noScheme
  | refused
  | accepted (parts : UrlParts)

/-- The bytes of a field that begins inside the url. -/
def bytesOf (url : List Byte) (field : UrlField url.length) : List Byte :=
  (url.drop field.off).take (min field.len (url.length - field.off))

def outcome (url : List Byte) : Outcome :=
  if validateScheme url = .ok true then
    match parseUrl url with
    | none => .refused
    | some u => .accepted
        ⟨bytesOf url u.schema, bytesOf url u.host, u.port, bytesOf url u.path, bytesOf url u.query⟩
  else .noScheme

/-- The parser after `parse`, but for the url it keeps. -/
def after : Outcome → URLParser → Bool × UrlParts
  | .noScheme, p => p.view
  | .refused, p => (false, p.parts)
  | .accepted parts, _ => (true, parts)

theorem part_ok (url : List Byte) (field : UrlField url.length) :
    part url field = .ok (bytesOf url field) := if_neg (Nat.not_lt.mpr field.off_le)

theorem validateScheme_ok (url : List Byte) : ∃ b, validateScheme url = .ok b := by
  obtain ⟨r, hr⟩ := kmpSearch_returns url (ascii "://") (by decide +kernel)
  rw [validateScheme, hr, ok_bind]
  split
  · exact ⟨false, rfl⟩
  · rw [subString, if_neg (Nat.not_lt_zero _), ok_bind]
    exact ⟨_, rfl⟩

/-- **What `parse` can do.** -/
theorem parse_spec (p : URLParser) : ∃ p', p.parse parseUrl = .ok p' ∧
    p'.view = after (outcome parseUrl p.url) p := by
  obtain ⟨b, hb⟩ := validateScheme_ok p.url
  rw [parse, hb, ok_bind, outcome, hb]
  cases b with
  | false =>
      rw [if_neg (by simp), if_neg (by simp)]
      exact ⟨p, rfl, rfl⟩
  | true =>
      rw [if_pos rfl, if_pos rfl]
      cases parseUrl p.url with
      | none => exact ⟨_, rfl, rfl⟩
      | some u =>
          simp only [part_ok, ok_bind]
          exact ⟨_, rfl, rfl⟩

theorem reset_spec (url : List Byte) (p : URLParser) :
    ∃ p', p.reset parseUrl url = .ok p' ∧ p'.view = after (outcome parseUrl url) p := by
  obtain ⟨p', hparse, hview⟩ := parse_spec parseUrl { p with url }
  refine ⟨{ p' with initilized := true }, by rw [reset, hparse]; rfl, ?_⟩
  refine Eq.trans hview ?_
  dsimp only
  cases outcome parseUrl url <;> rfl

theorem init_ok (url : List Byte) (p : URLParser) : ∃ p', p.init parseUrl url = .ok p' := by
  rw [init]
  split
  · exact ⟨p, rfl⟩
  · obtain ⟨p', hparse, -⟩ := parse_spec parseUrl { p with url }
    rw [hparse]
    exact ⟨_, rfl⟩

end Parser

/-! ## Histories -/

inductive Call where
  | init (url : List Byte)
  | reset (url : List Byte)

def Call.exec (parseUrl : ParseUrl) : Call → URLParser → Res (Unit × URLParser)
  | init url, p => do
      let p ← p.init parseUrl url
      pure ((), p)
  | reset url, p => do
      let p ← p.reset parseUrl url
      pure ((), p)

section Histories
variable (parseUrl : ParseUrl)

theorem exec_ok (call : Call) (p : URLParser) : ∃ p', call.exec parseUrl p = .ok ((), p') := by
  cases call with
  | init url =>
      obtain ⟨p', hinit⟩ := init_ok parseUrl url p
      exact ⟨p', by rw [Call.exec, hinit]; rfl⟩
  | reset url =>
      obtain ⟨p', hreset, -⟩ := reset_spec parseUrl url p
      exact ⟨p', by rw [Call.exec, hreset]; rfl⟩

/-- A parser with this history. -/
def HasHistory (calls : List Call) (p : URLParser) : Prop :=
  ∃ history, run (Call.exec parseUrl) calls fresh = .ok (history, p)

theorem exists_hasHistory (calls : List Call) : ∃ p, HasHistory parseUrl calls p := by
  obtain ⟨history, p, hrun⟩ := run_total (fun _ => True) (fun p call _ => by
    obtain ⟨p', hexec⟩ := exec_ok parseUrl call p
    exact ⟨(), p', hexec, trivial⟩) calls (s := fresh) trivial
  exact ⟨p, history, hrun⟩

/-- A fresh parser says that the url is not valid. -/
def FreshRejects (url : List Byte) : Prop :=
  ∃ p, fresh.reset parseUrl url = .ok p ∧ p.valid = false

/-- After `reset` both parsers answer the same, and that a url which a fresh one rejects is not
valid. -/
def Forgets (url : List Byte) (p q : URLParser) : Prop :=
  ∃ p' q', p.reset parseUrl url = .ok p' ∧ q.reset parseUrl url = .ok q' ∧ p'.view = q'.view ∧
    (FreshRejects parseUrl url → p'.valid = false ∧ q'.valid = false)

theorem freshRejects_iff (url : List Byte) :
    FreshRejects parseUrl url ↔ ∀ parts, outcome parseUrl url ≠ .accepted parts := by
  obtain ⟨p, hreset, hview⟩ := reset_spec parseUrl url fresh
  have hvalid : p.valid = (after (outcome parseUrl url) fresh).1 := congrArg Prod.fst hview
  have hiff : FreshRejects parseUrl url ↔ p.valid = false := by
    constructor
    · rintro ⟨p', hreset', hvalid'⟩
      rw [hreset] at hreset'
      cases hreset'
      exact hvalid'
    · intro hvalid'
      exact ⟨p, hreset, hvalid'⟩
  rw [hiff, hvalid]
  cases outcome parseUrl url with
  | noScheme => exact iff_of_true rfl (fun parts h => by cases h)
  | refused => exact iff_of_true rfl (fun parts h => by cases h)
  | accepted parts => exact iff_of_false (by simp [after]) (fun h => h parts rfl)

/-- What two parsers must have in common before `reset`, for the new url to make them the same. -/
def SameBefore : Outcome → URLParser → URLParser → Prop
  | .accepted _, _, _ => True
  | .refused, p, q => p.parts = q.parts
  | .noScheme, p, q => p.parts = q.parts ∧ p.valid = false ∧ q.valid = false

theorem forgets_iff (url : List Byte) (p q : URLParser) :
    Forgets parseUrl url p q ↔ SameBefore (outcome parseUrl url) p q := by
  obtain ⟨p', hp, hp'⟩ := reset_spec parseUrl url p
  obtain ⟨q', hq, hq'⟩ := reset_spec parseUrl url q
  have hforgets : Forgets parseUrl url p q ↔ p'.view = q'.view ∧
      (FreshRejects parseUrl url → p'.valid = false ∧ q'.valid = false) := by
    constructor
    · rintro ⟨p₁, q₁, hp₁, hq₁, hall⟩
      rw [hp] at hp₁
      rw [hq] at hq₁
      cases hp₁
      cases hq₁
      exact hall
    · intro hall
      exact ⟨p', q', hp, hq, hall⟩
  have hpv : p'.valid = (after (outcome parseUrl url) p).1 := congrArg Prod.fst hp'
  have hqv : q'.valid = (after (outcome parseUrl url) q).1 := congrArg Prod.fst hq'
  rw [hforgets, freshRejects_iff, hpv, hqv, hp', hq']
  cases outcome parseUrl url with
  | accepted parts =>
      refine iff_of_true ⟨rfl, ?_⟩ trivial
      intro hnone
      exact absurd rfl (hnone parts)
  | refused => simp [after, SameBefore]
  | noScheme =>
      simp only [after, SameBefore, view, Prod.mk.injEq]
      constructor
      · rintro ⟨⟨-, hparts⟩, hvalid⟩
        exact ⟨hparts, hvalid fun parts h => by cases h⟩
      · rintro ⟨hparts, hp, hq⟩
        exact ⟨⟨hp.trans hq.symm, hparts⟩, fun _ => ⟨hp, hq⟩⟩

/-- **What the past must have been like.** A url that is accepted is all that counts; one that is
refused leaves the parts as they were; and one without a scheme leaves everything as it was. -/
theorem reset_forgets_iff (past₁ past₂ : List Call) (url : List Byte) :
    ∃ p q, HasHistory parseUrl past₁ p ∧ HasHistory parseUrl past₂ q ∧
      (Forgets parseUrl url p q ↔ SameBefore (outcome parseUrl url) p q) := by
  obtain ⟨p, hp⟩ := exists_hasHistory parseUrl past₁
  obtain ⟨q, hq⟩ := exists_hasHistory parseUrl past₂
  exact ⟨p, q, hp, hq, forgets_iff parseUrl url p q⟩

end Histories

/-! ## A redirection to nowhere -/

def goodUrl : List Byte := ascii "http://a.b/c"

/-- What `http_parser_parse_url` makes of this url. -/
def parseGood : ParseUrl := fun url =>
  if h : url = goodUrl then
    have hlen : url.length = 12 := by
      rw [h]
      decide +kernel
    some {
      schema := ⟨0, 4, by omega⟩
      host := ⟨7, 3, by omega⟩
      path := ⟨10, 2, by omega⟩
      query := ⟨0, 0, by omega⟩
      port := 0 }
  else none

/-- After a good url, the parser still says that a bad one is valid, with the host of the good one;
a fresh parser rejects it. -/
theorem reset_remembers : ∃ p, HasHistory parseGood [.reset goodUrl] p ∧
    FreshRejects parseGood (ascii "nowhere") ∧
    ∃ p', p.reset parseGood (ascii "nowhere") = .ok p' ∧ p'.valid = true ∧
      p'.parts.host = ascii "a.b" :=
  ⟨⟨goodUrl, ⟨ascii "http", ascii "a.b", 0, ascii "/c", []⟩, true, true⟩, ⟨_, rfl⟩, ⟨_, rfl, rfl⟩,
    ⟨_, rfl, rfl, rfl⟩⟩

end URLParser
end Unp.Http
