import Unp.Http.UrlHost
import Unp.Lib.Decimal

/-!
# What is reported of a url

The fields are where the parts of the url are. Offsets and lengths have 16 bits, so this is about urls
of less than 65536 bytes; that no field ends behind the url holds for all.
-/

namespace Unp.Http.HttpParser

open Unp.Util Unp.Schedule Unp.Scan

/-! ## Urls -/

/-- A url: what a request names for the server itself, or a url with a scheme. -/
inductive Url where
  | origin (first : Byte) (first_ok : first = 47 ∨ first = 42) (path : Letters isUrlChar) (tail : Tail)
  | absolute (scheme : Word isAlpha) (authority : Authority) (rest : Rest)

def portPart (port : Option (Word isNum)) : List Byte := port.elim [] fun d => d.1

namespace Tail

def queryPart (t : Tail) : List Byte := t.query.elim [] fun q => q.1

def hashes (t : Tail) : Nat := t.fragment.elim 0 fun f => f.hashes

def fragmentPart (t : Tail) : List Byte := t.fragment.elim [] fun f => f.body.1

end Tail

def Authority.userinfoPart (a : Authority) : List Byte := a.userinfo.elim [] fun w => w.1

namespace Url

/-- The text up to the path. -/
def front : Url → List Byte
  | .origin _ _ _ _ => []
  | .absolute scheme authority _ => scheme.1 ++ (delimiter ++ authority.text)

def path : Url → List Byte
  | .origin first _ path _ => first :: path.1
  | .absolute _ _ rest => rest.path

def tail : Url → Tail
  | .origin _ _ _ tail => tail
  | .absolute _ _ rest => rest.tail

def text (t : Url) : List Byte := t.front ++ (t.path ++ t.tail.text)

/-- The part of the url that a field is for. -/
def part (t : Url) : UrlFields → List Byte
  | .path => t.path
  | .query => t.tail.queryPart
  | .fragment => t.tail.fragmentPart
  | .schema => match t with
    | .origin _ _ _ _ => []
    | .absolute scheme _ _ => scheme.1
  | .userinfo => match t with
    | .origin _ _ _ _ => []
    | .absolute _ a _ => a.userinfoPart
  | .host => match t with
    | .origin _ _ _ _ => []
    | .absolute _ a _ => a.host.field
  | .port => match t with
    | .origin _ _ _ _ => []
    | .absolute _ a _ => portPart a.port

/-- Where the part begins, if there is one. -/
def start (t : Url) : UrlFields → Nat
  | .path => t.front.length
  | .query => t.front.length + t.path.length + 1
  | .fragment => t.front.length + t.path.length + t.tail.queryText.length + 1 + t.tail.hashes
  | .schema => 0
  | .userinfo => match t with
    | .origin _ _ _ _ => 0
    | .absolute scheme _ _ => scheme.1.length + 3
  | .host => match t with
    | .origin _ _ _ _ => 0
    | .absolute scheme a _ =>
        scheme.1.length + 3 + a.userinfoText.length + a.host.lead.length
  | .port => match t with
    | .origin _ _ _ _ => 0
    | .absolute scheme a _ =>
        scheme.1.length + 3 + a.userinfoText.length + a.host.text.length + 1

/-- The port is a number of 16 bits. -/
def PortFits (t : Url) : Prop := Decimal.value (t.part .port) ≤ 0xffff

instance (t : Url) : Decidable t.PortFits := inferInstanceAs (Decidable (_ ≤ _))

/-- The struct for a url. -/
def layout (t : Url) : ParserUrl where
  fieldSet f := !(t.part f).isEmpty
  port := UInt16.ofNat (Decimal.value (t.part .port))
  fieldData f :=
    if t.part f = [] then ⟨0, 0⟩
    else ⟨UInt16.ofNat (t.start f), UInt16.ofNat (t.part f).length⟩

end Url

/-! ## A part at its place -/

section Places
variable {u : ParserUrl} {uf f : UrlFields} {p n : Nat}

theorem fieldData_mark : (u.mark uf p n).fieldData f =
    if f = uf ∧ n ≠ 0 then ⟨UInt16.ofNat p, UInt16.ofNat n⟩ else u.fieldData f := by
  rw [ParserUrl.mark]
  by_cases hn : n = 0
  · rw [if_pos hn, if_neg (fun h => h.2 hn)]
  · rw [if_neg hn]
    by_cases hf : f = uf
    · rw [if_pos ⟨hf, hn⟩]
      exact if_pos hf
    · rw [if_neg (fun h => hf h.1)]
      exact if_neg hf

theorem fieldSet_mark : (u.mark uf p n).fieldSet f =
    (decide (f = uf ∧ n ≠ 0) || u.fieldSet f) := by
  rw [ParserUrl.mark]
  by_cases hn : n = 0
  · rw [if_pos hn, decide_eq_false (fun h => h.2 hn), Bool.false_or]
  · rw [if_neg hn]
    by_cases hf : f = uf
    · rw [decide_eq_true ⟨hf, hn⟩, Bool.true_or]
      exact if_pos hf
    · rw [decide_eq_false (fun h => hf h.1), Bool.false_or]
      exact if_neg hf

@[simp] theorem port_mark : (u.mark uf p n).port = u.port := by
  rw [ParserUrl.mark]
  split <;> rfl

theorem fieldData_place : (u.place p n).fieldData f =
    if f = .host then ⟨UInt16.ofNat p, UInt16.ofNat n⟩ else u.fieldData f := rfl

@[simp] theorem fieldSet_place : (u.place p n).fieldSet f = u.fieldSet f := rfl

@[simp] theorem port_place : (u.place p n).port = u.port := rfl

theorem markPort_eq (port : Option (Word isNum)) :
    markPort u p port = u.mark .port (p + 1) (portPart port).length := by
  cases port with
  | none => exact ParserUrl.mark_zero.symm
  | some d => rfl

theorem Tail.mark_eq (t : Tail) : t.mark u p =
    (u.mark .query (p + 1) t.queryPart.length).mark .fragment (p + t.queryText.length + 1 + t.hashes)
      t.fragmentPart.length := by
  obtain ⟨_ | q, _ | f⟩ := t <;>
    simp [Tail.mark, Fragment.mark, queryPart, queryText, hashes, fragmentPart]

theorem Authority.mark_eq (a : Authority) : a.mark u p =
    ((u.mark .userinfo p a.userinfoPart.length).place (p + a.userinfoText.length + a.host.lead.length)
      a.host.field.length).mark .port (p + a.userinfoText.length + a.host.text.length + 1)
        (portPart a.port).length := by
  obtain ⟨_ | w, h, port⟩ := a
  · rw [Authority.mark, markPort_eq]
    simp [userinfoPart, userinfoText]
  · rw [Authority.mark, markPort_eq]
    rfl

end Places

namespace Url

/-- A part stands in the text where it begins. -/
theorem exists_around (t : Url) {f : UrlFields} (hpart : t.part f ≠ []) :
    ∃ before after, t.text = before ++ (t.part f ++ after) ∧ before.length = t.start f := by
  cases f with
  | path => exact ⟨t.front, t.tail.text, rfl, rfl⟩
  | query =>
      have htext : t.tail.queryText = 63 :: t.tail.queryPart := by
        revert hpart
        show t.tail.queryPart ≠ [] → _
        rw [Tail.queryPart, Tail.queryText]
        cases t.tail.query with
        | none => exact fun h => absurd rfl h
        | some q => exact fun _ => rfl
      refine ⟨t.front ++ t.path ++ [63], t.tail.fragmentText, ?_, ?_⟩
      · simp [text, Tail.text, htext, part]
      · rw [List.length_append, List.length_append]
        rfl
  | fragment =>
      have htext : t.tail.fragmentText =
          35 :: (List.replicate t.tail.hashes 35 ++ t.tail.fragmentPart) := by
        revert hpart
        show t.tail.fragmentPart ≠ [] → _
        rw [Tail.fragmentPart, Tail.fragmentText, Tail.hashes]
        cases t.tail.fragment with
        | none => exact fun h => absurd rfl h
        | some f => exact fun _ => rfl
      refine ⟨t.front ++ t.path ++ t.tail.queryText ++ 35 :: List.replicate t.tail.hashes 35, [],
        ?_, ?_⟩
      · simp [text, Tail.text, htext, part]
      · simp only [start, List.length_append, List.length_cons, List.length_replicate]
        omega
  | schema =>
      cases t with
      | origin => exact absurd rfl hpart
      | absolute scheme a rest =>
          exact ⟨[], _, List.append_assoc _ _ _, rfl⟩
  | userinfo =>
      cases t with
      | origin => exact absurd rfl hpart
      | absolute scheme a rest =>
          obtain ⟨_ | w, h, port⟩ := a
          · exact absurd rfl hpart
          · refine ⟨scheme.1 ++ delimiter, 64 :: (h.text ++ portText port ++ (rest.path ++ rest.tail.text)),
              ?_, by simp [start, delimiter]⟩
            simp [text, front, path, tail, part, Authority.text, Authority.userinfoText,
              Authority.userinfoPart]
  | host =>
      cases t with
      | origin => exact absurd rfl hpart
      | absolute scheme a rest =>
          refine ⟨scheme.1 ++ delimiter ++ a.userinfoText ++ a.host.lead,
            a.host.trail ++ portText a.port ++ (rest.path ++ rest.tail.text), ?_, ?_⟩
          · simp [text, front, path, tail, part, Authority.text, Host.text]
          · simp [start, delimiter]
            omega
  | port =>
      cases t with
      | origin => exact absurd rfl hpart
      | absolute scheme a rest =>
          obtain ⟨userinfo, h, _ | d⟩ := a
          · exact absurd rfl hpart
          · refine ⟨scheme.1 ++ delimiter ++ Authority.userinfoText ⟨userinfo, h, some d⟩ ++ h.text ++ [58],
              rest.path ++ rest.tail.text, ?_, ?_⟩
            · simp [text, front, path, tail, part, Authority.text, portText, portPart]
            · simp [start, delimiter]
              omega

/-- **Each field of the layout is its part.** -/
theorem bytesAt_layout {t : Url} (hlen : t.text.length < 65536) (f : UrlFields) :
    bytesAt t.text (t.layout.fieldData f) = t.part f := by
  by_cases hpart : t.part f = []
  · have hdata : t.layout.fieldData f = ⟨0, 0⟩ := if_pos hpart
    rw [hdata, hpart]
    rfl
  · have hdata : t.layout.fieldData f =
        ⟨UInt16.ofNat (t.start f), UInt16.ofNat (t.part f).length⟩ := if_neg hpart
    obtain ⟨before, after, htext, hstart⟩ := t.exists_around hpart
    have hlength := congrArg List.length htext
    rw [List.length_append, List.length_append] at hlength
    have hsize : UInt16.size = 65536 := rfl
    rw [hdata, bytesAt, UInt16.toNat_ofNat_of_lt' (by omega), UInt16.toNat_ofNat_of_lt' (by omega),
      htext, ← hstart, List.drop_left, List.take_left]

end Url

/-! ## The port -/

/-- One digit more of a port that is small enough so far. -/
theorem portStep_digit {c : Byte} (hc : isNum c = true) {n : Nat} (hn : n ≤ 0xffff) :
    portStep c (UInt64.ofNat n) =
      if 10 * n + (c.toNat - 48) ≤ 0xffff then some (UInt64.ofNat (10 * n + (c.toNat - 48)))
      else none := by
  have hdigit : ∀ c : Byte, isNum c = true →
      UInt64.ofInt (c.toInt8.toInt - 48) = UInt64.ofNat (c.toNat - 48) ∧ c.toNat - 48 < 10 :=
    forall_byte (by decide +kernel)
  obtain ⟨hvalue, hlt⟩ := hdigit c hc
  have hnext : UInt64.ofNat n * 10 + UInt64.ofInt (c.toInt8.toInt - 48) =
      UInt64.ofNat (10 * n + (c.toNat - 48)) := by
    rw [hvalue, UInt64.ofNat_add, UInt64.ofNat_mul, UInt64.mul_comm]
    rfl
  have hgt : UInt64.ofNat (10 * n + (c.toNat - 48)) > 0xffff ↔ ¬ 10 * n + (c.toNat - 48) ≤ 0xffff := by
    rw [gt_iff_lt, UInt64.lt_iff_toNat_lt, UInt64.toNat_ofNat_of_lt' (by simp [UInt64.size]; omega)]
    exact Nat.not_le.symm
  rw [portStep, hnext]
  by_cases hle : 10 * n + (c.toNat - 48) ≤ 0xffff
  · rw [if_pos hle, if_neg (fun h => hgt.mp h hle)]
  · rw [if_neg hle, if_pos (hgt.mpr hle)]

theorem le_foldl (digits : List Byte) (n : Nat) :
    n ≤ digits.foldl (fun n d => 10 * n + (d.toNat - 48)) n := by
  induction digits generalizing n with
  | nil => exact Nat.le_refl n
  | cons d digits ih => exact Nat.le_trans (show n ≤ 10 * n + (d.toNat - 48) by omega) (ih _)

/-- The loop over the digits of a port: it stops when the number has become too large, and then it
stays so. -/
theorem exec_portStep {digits : List Byte} (hdigits : ∀ c ∈ digits, isNum c = true) {n : Nat}
    (hn : n ≤ 0xffff) : exec portStep digits (UInt64.ofNat n) =
      if digits.foldl (fun n d => 10 * n + (d.toNat - 48)) n ≤ 0xffff then
        some (UInt64.ofNat (digits.foldl (fun n d => 10 * n + (d.toNat - 48)) n))
      else none := by
  induction digits generalizing n with
  | nil => exact (if_pos hn).symm
  | cons c digits ih =>
      obtain ⟨hc, hdigits⟩ := List.forall_mem_cons.mp hdigits
      show (portStep c (UInt64.ofNat n)).bind (exec portStep digits) = _
      rw [portStep_digit hc hn, List.foldl_cons]
      by_cases hle : 10 * n + (c.toNat - 48) ≤ 0xffff
      · rw [if_pos hle, Option.bind_some, ih hdigits hle]
      · rw [if_neg hle, if_neg]
        · rfl
        · intro hall
          exact hle (Nat.le_trans (le_foldl digits _) hall)

/-! ## The whole -/

/-- What `http_parse_host` makes of an authority. -/
theorem parseHost_eq_some {buf : List Byte} {u u' : ParserUrl} {foundAt : Bool} :
    parseHost buf u foundAt = some u' ↔
      ∃ a : Authority, a.userinfo.isSome = foundAt ∧ bytesAt buf (u.fieldData .host) = a.text ∧
        a.mark (u.setData .host { u.fieldData .host with len := 0 })
          (u.fieldData .host).off.toNat = u' := by
  have hreads : parseHost buf u foundAt = some u' ↔
      Reads hostStep ⟨if foundAt then .userinfoStart else .hostStart, (u.fieldData .host).off.toNat,
        u.setData .host { u.fieldData .host with len := 0 }⟩ (bytesAt buf (u.fieldData .host))
        (HostEnds (· = u')) := by
    rw [parseHost]
    simp only [Option.bind_eq_bind, Option.bind_eq_some_iff, Reads, HostEnds]
    constructor
    · rintro ⟨v, hrun, hv⟩
      by_cases hend : v.s.mayEnd = true
      · rw [if_pos hend] at hv
        exact ⟨v, hrun, hend, Option.some.inj hv⟩
      · rw [if_neg hend] at hv
        cases hv
    · rintro ⟨v, hrun, hend, rfl⟩
      exact ⟨v, hrun, if_pos hend⟩
  rw [hreads]
  exact reads_authority (Q := (· = u')) rfl

theorem readPort_of_not {buf : List Byte} {u : ParserUrl} (hport : u.fieldSet .port = false) :
    readPort buf u = some u := by
  rw [readPort, hport]
  rfl

theorem readPort_of_digits (buf : List Byte) {u : ParserUrl} (hport : u.fieldSet .port = true)
    (hdigits : ∀ c ∈ bytesAt buf (u.fieldData .port), isNum c = true) :
    readPort buf u =
      if Decimal.value (bytesAt buf (u.fieldData .port)) ≤ 0xffff then
        some { u with port := UInt16.ofNat (Decimal.value (bytesAt buf (u.fieldData .port))) }
      else none := by
  have hrun : exec portStep (bytesAt buf (u.fieldData .port)) 0 =
      if Decimal.value (bytesAt buf (u.fieldData .port)) ≤ 0xffff then
        some (UInt64.ofNat (Decimal.value (bytesAt buf (u.fieldData .port))))
      else none := exec_portStep hdigits (Nat.zero_le _)
  rw [readPort, if_pos hport, hrun]
  split
  · show some { u with port := (UInt64.ofNat _).toUInt16 } = _
    rw [UInt64.toUInt16_ofNat']
  · rfl

/-- The url is read to its end, and then finished. -/
theorem parseUrl_eq_some {buf : List Byte} {u : ParserUrl} :
    parseUrl buf false ParserUrl.init = some u ↔ buf ≠ [] ∧
      Reads urlStep ⟨.reqSpacesBeforeUrl, 0, none, false, ParserUrl.init⟩ buf
        (Ends fun v foundAt => finish buf false v foundAt = some u) := by
  rw [parseUrl]
  by_cases hnil : buf = []
  · rw [if_pos hnil]
    exact iff_of_false (by simp) (fun h => h.1 hnil)
  · rw [if_neg hnil, and_iff_right hnil]
    exact Option.bind_eq_some_iff

@[simp] theorem length_delimiter : delimiter.length = 3 := rfl

/-- A host has a byte. -/
theorem Host.field_ne_nil (h : Host) : h.field ≠ [] := by
  cases h with
  | name word => exact word.2.1
  | v6 address zone => exact fun heq => address.2.1 (List.append_eq_nil_iff.mp heq).1

theorem Authority.text_ne_nil (a : Authority) : a.text ≠ [] := by
  intro heq
  have hrest := (List.append_eq_nil_iff.mp heq).2
  have htext := (List.append_eq_nil_iff.mp hrest).1
  exact a.host.field_ne_nil (List.append_eq_nil_iff.mp (List.append_eq_nil_iff.mp htext).1).2

/-- What is noted of a url without a scheme. -/
theorem mark_origin {first : Byte} (hfirst : first = 47 ∨ first = 42) (path : Letters isUrlChar)
    (tail : Tail) : (Form.origin first hfirst path tail).mark ParserUrl.init =
      (Url.origin first hfirst path tail).layout := by
  apply ParserUrl.ext
  · funext f
    apply Bool.eq_iff_iff.mpr
    cases f <;> simp [Form.mark, Tail.mark_eq, fieldSet_mark, Url.layout, Url.part, Url.path,
      Url.tail, ParserUrl.init]
  · simp [Form.mark, Tail.mark_eq, Url.layout, Url.part, ParserUrl.init, Decimal.value]
  · funext f
    cases f <;> simp [Form.mark, Tail.mark_eq, fieldData_mark, Url.layout, Url.part, Url.start,
      Url.path, Url.tail, Url.front, ParserUrl.init, Nat.add_comm 1]

/-- What is noted of a url with a scheme, before its port is read. -/
theorem mark_absolute (scheme : Word isAlpha) (a : Authority) (rest : Rest) (data : FieldData) :
    a.mark ((rest.mark ((ParserUrl.init.mark .schema 0 scheme.1.length).mark .host
        (scheme.1.length + 3) a.text.length) (scheme.1.length + 3 + a.text.length)).setData .host data)
      (scheme.1.length + 3) = { (Url.absolute scheme a rest).layout with port := 0 } := by
  have htext := a.text_ne_nil
  have hfield := a.host.field_ne_nil
  apply ParserUrl.ext
  · funext f
    apply Bool.eq_iff_iff.mpr
    cases f <;> simp [Authority.mark_eq, Rest.mark, Tail.mark_eq, fieldSet_mark, Url.layout, Url.part,
      Url.path, Url.tail, ParserUrl.init, ParserUrl.setData, htext, hfield]
  · simp [Authority.mark_eq, Rest.mark, Tail.mark_eq, ParserUrl.setData, ParserUrl.init]
  · funext f
    cases f <;> simp [Authority.mark_eq, Rest.mark, Tail.mark_eq, fieldData_mark, fieldData_place,
      Url.layout, Url.part, Url.start, Url.path, Url.tail, Url.front, ParserUrl.init,
      ParserUrl.setData, htext, hfield, Nat.add_assoc, -UInt16.ofNat_add]

/-- The port of a url is read from its place. -/
theorem readPort_layout {t : Url} (hlen : t.text.length < 65536) :
    readPort t.text { t.layout with port := 0 } =
      if t.PortFits then some t.layout else none := by
  have hbytes := t.bytesAt_layout hlen .port
  by_cases hpart : t.part .port = []
  · have hport : t.layout.fieldSet .port = false := by simp [Url.layout, hpart]
    have hzero : t.layout.port = 0 := by
      rw [Url.layout, hpart]
      rfl
    have hfits : t.PortFits := by
      rw [Url.PortFits, hpart]
      decide
    rw [readPort_of_not (u := { t.layout with port := 0 }) hport, if_pos hfits, ← hzero]
  · have hport : t.layout.fieldSet .port = true := by simp [Url.layout, hpart]
    have hdigits : ∀ c ∈ t.part .port, isNum c = true := by
      obtain ⟨_, _, _, _⟩ | ⟨_, ⟨_, _, _ | d⟩, _⟩ := t
      · exact absurd rfl hpart
      · exact absurd rfl hpart
      · exact d.2.2
    have hread := readPort_of_digits t.text (u := { t.layout with port := 0 }) hport
    show _ = if Decimal.value (t.part .port) ≤ 0xffff then
      some { t.layout with port := UInt16.ofNat (Decimal.value (t.part .port)) } else none
    rw [hbytes] at hread
    exact hread hdigits

/-- A url without a scheme is finished as it is. -/
theorem finish_origin {first : Byte} {hfirst : first = 47 ∨ first = 42} {path : Letters isUrlChar}
    {tail : Tail} (hlen : (Url.origin first hfirst path tail).text.length < 65536) (foundAt : Bool) :
    finish (Url.origin first hfirst path tail).text false
      (Url.origin first hfirst path tail).layout foundAt =
        some (Url.origin first hfirst path tail).layout := by
  have hfits : (Url.origin first hfirst path tail).PortFits := show Decimal.value [] ≤ 0xffff by decide
  have hread := readPort_layout hlen
  rw [if_pos hfits] at hread
  exact hread

/-- A url with a scheme is finished when what stands behind it is an authority. -/
theorem finish_absolute {scheme : Word isAlpha} {server : Letters isServerChar} {rest : Rest}
    {buf : List Byte} (hbuf : buf = scheme.1 ++ (delimiter ++ (server.1 ++ rest.text)))
    (hlen : buf.length < 65536) {foundAt : Bool} {u : ParserUrl} :
    finish buf false (rest.mark ((ParserUrl.init.mark .schema 0 scheme.1.length).mark .host
        (scheme.1.length + 3) server.1.length) (scheme.1.length + 3 + server.1.length)) foundAt =
        some u ↔
      ∃ a : Authority, a.userinfo.isSome = foundAt ∧ server.1 = a.text ∧
        (Url.absolute scheme a rest).PortFits ∧ (Url.absolute scheme a rest).layout = u := by
  let v := rest.mark ((ParserUrl.init.mark .schema 0 scheme.1.length).mark .host
    (scheme.1.length + 3) server.1.length) (scheme.1.length + 3 + server.1.length)
  have hscheme : v.fieldSet .schema = true := by
    have hne := scheme.2.1
    simp [v, Rest.mark, Tail.mark_eq, fieldSet_mark, hne]
  have hhost : v.fieldSet .host = !server.1.isEmpty := by
    apply Bool.eq_iff_iff.mpr
    simp [v, Rest.mark, Tail.mark_eq, fieldSet_mark, ParserUrl.init]
  show finish buf false v foundAt = some u ↔ _
  by_cases hserver : server.1 = []
  · have hfinish : finish buf false v foundAt = none := by
      rw [finish, if_pos]
      simp [hscheme, hhost, hserver]
    rw [hfinish]
    apply iff_of_false (by simp)
    rintro ⟨a, -, htext, -⟩
    exact a.text_ne_nil (htext.symm.trans hserver)
  · have hset : v.fieldSet .host = true := by simp [hhost, hserver]
    have hfinish : finish buf false v foundAt = (parseHost buf v foundAt).bind (readPort buf) := by
      rw [finish, if_neg (by simp [hset]), readHost, if_pos hset]
      rfl
    have hlength := congrArg List.length hbuf
    rw [List.length_append, List.length_append, List.length_append, length_delimiter] at hlength
    have hsize : UInt16.size = 65536 := rfl
    have hdata : v.fieldData .host =
        ⟨UInt16.ofNat (scheme.1.length + 3), UInt16.ofNat server.1.length⟩ := by
      simp [v, Rest.mark, Tail.mark_eq, fieldData_mark, hserver, -UInt16.ofNat_add]
    have hoff : (v.fieldData .host).off.toNat = scheme.1.length + 3 := by
      rw [hdata, UInt16.toNat_ofNat_of_lt' (by omega)]
    have hbytes : bytesAt buf (v.fieldData .host) = server.1 := by
      have hcut : buf.drop (scheme.1.length + 3) = server.1 ++ rest.text := by
        rw [hbuf, ← List.append_assoc, show scheme.1.length + 3 = (scheme.1 ++ delimiter).length by simp,
          List.drop_left]
      rw [bytesAt, hoff, hcut, hdata, UInt16.toNat_ofNat_of_lt' (by omega), List.take_left]
    have hmark : ∀ a : Authority, server.1 = a.text →
        a.mark (v.setData .host { v.fieldData .host with len := 0 }) (scheme.1.length + 3) =
          { (Url.absolute scheme a rest).layout with port := 0 } := by
      intro a ha
      show a.mark ((rest.mark ((ParserUrl.init.mark .schema 0 scheme.1.length).mark .host
        (scheme.1.length + 3) server.1.length) (scheme.1.length + 3 + server.1.length)).setData .host
          _) (scheme.1.length + 3) = _
      rw [ha]
      exact mark_absolute scheme a rest _
    have hread : ∀ a : Authority, server.1 = a.text →
        readPort buf { (Url.absolute scheme a rest).layout with port := 0 } =
          if (Url.absolute scheme a rest).PortFits then some (Url.absolute scheme a rest).layout
          else none := by
      intro a ha
      have htext : buf = (Url.absolute scheme a rest).text := by
        rw [hbuf, ha, Url.text, Url.front]
        simp [Url.path, Url.tail, Rest.text]
      rw [htext] at hlen ⊢
      exact readPort_layout hlen
    rw [hfinish, Option.bind_eq_some_iff]
    simp only [parseHost_eq_some, hoff, hbytes]
    constructor
    · rintro ⟨-, ⟨a, huser, ha, rfl⟩, hport⟩
      rw [hmark a ha, hread a ha] at hport
      by_cases hfits : (Url.absolute scheme a rest).PortFits
      · rw [if_pos hfits] at hport
        exact ⟨a, huser, ha, hfits, Option.some.inj hport⟩
      · rw [if_neg hfits] at hport
        cases hport
    · rintro ⟨a, huser, ha, hfits, rfl⟩
      refine ⟨_, ⟨a, huser, ha, rfl⟩, ?_⟩
      rw [hmark a ha, hread a ha, if_pos hfits]

/-- **The urls that are accepted.** -/
theorem parseUrl_iff {buf : List Byte} (hlen : buf.length < 65536) {u : ParserUrl} :
    parseUrl buf false ParserUrl.init = some u ↔
      ∃ t : Url, buf = t.text ∧ t.PortFits ∧ t.layout = u := by
  rw [parseUrl_eq_some]
  have hneeds : ∀ n, 0 < n →
      ¬ finish buf false (ParserUrl.init.mark .schema 0 n) false = some u := by
    intro n hn
    rw [finish, if_pos]
    · simp
    · have hne : n ≠ 0 := Nat.pos_iff_ne_zero.mp hn
      simp [fieldSet_mark, hne, ParserUrl.init]
  rw [reads_url (Q := fun v foundAt => finish buf false v foundAt = some u) hneeds]
  constructor
  · rintro ⟨f, htext, hfinish⟩
    cases f with
    | origin first hfirst path tail =>
        have hbuf : buf = (Url.origin first hfirst path tail).text := htext
        rw [mark_origin, hbuf, finish_origin (hbuf ▸ hlen)] at hfinish
        exact ⟨.origin first hfirst path tail, hbuf, by simp [Url.PortFits, Url.part, Decimal.value],
          Option.some.inj hfinish⟩
    | absolute scheme server hapart rest =>
        obtain ⟨a, -, ha, hfits, hu⟩ := (finish_absolute htext hlen).mp hfinish
        refine ⟨.absolute scheme a rest, ?_, hfits, hu⟩
        rw [htext, Form.text, ha]
        simp [Url.text, Url.front, Url.path, Url.tail, Rest.text]
  · rintro ⟨t, htext, hfits, rfl⟩
    cases t with
    | origin first hfirst path tail =>
        refine ⟨.origin first hfirst path tail, htext, ?_⟩
        rw [mark_origin, htext]
        exact finish_origin (htext ▸ hlen) _
    | absolute scheme a rest =>
        let server : Letters isServerChar := ⟨a.text, a.isServerChar_text⟩
        have hform : buf = scheme.1 ++ (delimiter ++ (server.1 ++ rest.text)) := by
          rw [htext]
          simp [Url.text, Url.front, Url.path, Url.tail, Rest.text, server]
        refine ⟨.absolute scheme server a.atsApart_text rest, hform, ?_⟩
        exact (finish_absolute hform hlen).mpr ⟨a, a.contains_text.symm, rfl, hfits, rfl⟩

/-- What the struct says of a url. -/
structure Reports (buf : List Byte) (u : ParserUrl) (t : Url) : Prop where
  set : ∀ f, u.fieldSet f = true ↔ t.part f ≠ []
  bytes : ∀ f, bytesAt buf (u.fieldData f) = t.part f
  port : u.port.toNat = Decimal.value (t.part .port)

theorem Url.reports {t : Url} (hlen : t.text.length < 65536) (hfits : t.PortFits) :
    Reports t.text t.layout t where
  set f := by simp [Url.layout]
  bytes := t.bytesAt_layout hlen
  port := UInt16.toNat_ofNat_of_lt' (Nat.lt_succ_of_le hfits)

/-- **Urls are taken apart as they are put together.** A url that is accepted is written from parts,
and every url that is written from parts is accepted; each field is then the part it is for, and the
port is its number. The struct has been zeroed by `http_parser_url_init` before: what the fields of an
earlier url would leave behind is not looked at. -/
theorem fields_are_parts {buf : List Byte} (hlen : buf.length < 65536) :
    (∀ u, parseUrl buf false ParserUrl.init = some u →
      ∃ t : Url, buf = t.text ∧ t.PortFits ∧ Reports buf u t) ∧
    ∀ t : Url, buf = t.text → t.PortFits →
      ∃ u, parseUrl buf false ParserUrl.init = some u ∧ Reports buf u t := by
  constructor
  · intro u hparse
    obtain ⟨t, rfl, hfits, rfl⟩ := (parseUrl_iff hlen).mp hparse
    exact ⟨t, rfl, hfits, t.reports hlen hfits⟩
  · rintro t rfl hfits
    exact ⟨t.layout, (parseUrl_iff hlen).mpr ⟨t, rfl, hfits, rfl⟩, t.reports hlen hfits⟩

/-- `http://me@a.b:80/c?d` -/
def Url.small : Url :=
  .absolute ⟨ascii "http", by decide +kernel⟩
    ⟨some ⟨ascii "me", by decide +kernel⟩, .name ⟨ascii "a.b", by decide +kernel⟩,
      some ⟨ascii "80", by decide +kernel⟩⟩
    (.slash ⟨ascii "c", by decide +kernel⟩ ⟨some ⟨ascii "d", by decide +kernel⟩, none⟩)

theorem Url.text_small : Url.small.text = ascii "http://me@a.b:80/c?d" := by decide

theorem fields_are_parts_small :
    (∃ u, parseUrl (ascii "http://me@a.b:80/c?d") false ParserUrl.init = some u ∧
      bytesAt (ascii "http://me@a.b:80/c?d") (u.fieldData .host) = ascii "a.b" ∧ u.port.toNat = 80) ∧
    ∀ u, parseUrl (ascii "http://me@a.b:80/c?d") false ParserUrl.init = some u →
      ∃ t : Url, ascii "http://me@a.b:80/c?d" = t.text := by
  have hlen : (ascii "http://me@a.b:80/c?d").length < 65536 := by decide
  have hboth := fields_are_parts hlen
  constructor
  · obtain ⟨u, hparse, hreports⟩ := hboth.2 .small Url.text_small.symm (by decide)
    exact ⟨u, hparse, hreports.bytes .host, hreports.port.trans (by decide)⟩
  · intro u hparse
    obtain ⟨t, htext, -⟩ := hboth.1 u hparse
    exact ⟨t, htext⟩

end Unp.Http.HttpParser
