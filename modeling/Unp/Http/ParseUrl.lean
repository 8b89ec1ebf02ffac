import Unp.Lib.Scan
import Unp.Util.StringPiece

/-!
# `http_parser_parse_url`

Two automata, one after the other. The first reads the whole url, and a byte that leaves it in a state
of a field belongs to that field: the place of the first one is noted, and how many there are. Of the
second the text is what the first has noted for the host; it takes user, host and port apart.

The strict variant is the one that is compiled (`HTTP_PARSER_STRICT` is 1 by default). Offsets and
lengths are 16 bits wide. What the struct holds after a failure is not modelled: nobody reads it.
-/

namespace Unp.Http.HttpParser

open Unp.Util Unp.Schedule

/-! ## Character classes -/

/-- `LOWER`. -/
def lower (c : Byte) : Byte := c ||| 0x20

def isAlpha (c : Byte) : Bool := 97 ≤ lower c && lower c ≤ 122

def isNum (c : Byte) : Bool := 48 ≤ c && c ≤ 57

def isAlphanum (c : Byte) : Bool := isAlpha c || isNum c

def isHex (c : Byte) : Bool := isNum c || (97 ≤ lower c && lower c ≤ 102)

/-- `- _ . ! ~ * ' ( )` -/
def isMark (c : Byte) : Bool :=
  c = 45 || c = 95 || c = 46 || c = 33 || c = 126 || c = 42 || c = 39 || c = 40 || c = 41

/-- Letters, digits, marks and `% ; : & = + $ ,` -/
def isUserinfoChar (c : Byte) : Bool :=
  isAlphanum c || isMark c || c = 37 || c = 59 || c = 58 || c = 38 || c = 61 || c = 43 || c = 36 ||
    c = 44

def normalUrlChar : List Byte :=
  [0, 0, 0, 0, 246, 255, 255, 127, 255, 255, 255, 255, 255, 255, 255, 127,
   0, 0, 0, 0, 0, 0, 0, 0, 0, 0, 0, 0, 0, 0, 0, 0]

/-- `BIT_AT`. -/
def bitAt (a : List Byte) (i : Byte) : Bool := (a[(i >>> 3).toNat]?.getD 0) &&& (1 <<< (i &&& 7)) ≠ 0

def isUrlChar (c : Byte) : Bool := bitAt normalUrlChar c

/-- Letters, digits, `.` and `-` -/
def isHostChar (c : Byte) : Bool := isAlphanum c || c = 46 || c = 45

/-! ## The url -/

/-- The states of `enum state` that `parse_url_char` is called with or returns. -/
inductive UrlState where
  | dead
  | reqSpacesBeforeUrl
  | reqSchema
  | reqSchemaSlash
  | reqSchemaSlashSlash
  | reqServerStart
  | reqServer
  | reqServerWithAt
  | reqPath
  | reqQueryStringStart
  | reqQueryString
  | reqFragmentStart
  | reqFragment
  deriving DecidableEq

/-- The cases after which `parse_url_char` looks at `/ ? @`. -/
def serverChar (ch : Byte) : UrlState :=
  if ch = 47 then .reqPath
  else if ch = 63 then .reqQueryStringStart
  else if ch = 64 then .reqServerWithAt
  else if isUserinfoChar ch || ch = 91 || ch = 93 then .reqServer
  else .dead

/-- `parse_url_char`. Of the bytes by their number: `#` is 35, `*` 42, `/` 47, `:` 58, `?` 63,
`@` 64. -/
def parseUrlChar (s : UrlState) (ch : Byte) : UrlState :=
  if ch = 32 ∨ ch = 13 ∨ ch = 10 then .dead
  else if ch = 9 ∨ ch = 12 then .dead
  else match s with
    | .reqSpacesBeforeUrl =>
        if ch = 47 ∨ ch = 42 then .reqPath else if isAlpha ch then .reqSchema else .dead
    | .reqSchema => if isAlpha ch then .reqSchema else if ch = 58 then .reqSchemaSlash else .dead
    | .reqSchemaSlash => if ch = 47 then .reqSchemaSlashSlash else .dead
    | .reqSchemaSlashSlash => if ch = 47 then .reqServerStart else .dead
    | .reqServerWithAt => if ch = 64 then .dead else serverChar ch
    | .reqServerStart => serverChar ch
    | .reqServer => serverChar ch
    | .reqPath =>
        if isUrlChar ch then .reqPath
        else if ch = 63 then .reqQueryStringStart
        else if ch = 35 then .reqFragmentStart
        else .dead
    | .reqQueryStringStart | .reqQueryString =>
        if isUrlChar ch then .reqQueryString
        else if ch = 63 then .reqQueryString
        else if ch = 35 then .reqFragmentStart
        else .dead
    | .reqFragmentStart =>
        if isUrlChar ch then .reqFragment
        else if ch = 63 then .reqFragment
        else if ch = 35 then .reqFragmentStart
        else .dead
    | .reqFragment =>
        if isUrlChar ch then .reqFragment
        else if ch = 63 ∨ ch = 35 then .reqFragment
        else .dead
    | .dead => .dead

/-- `enum http_parser_url_fields`. -/
inductive UrlFields where
  | schema
  | host
  | port
  | path
  | query
  | fragment
  | userinfo
  deriving DecidableEq

/-- All of them, up to `UF_MAX`. -/
def UrlFields.all : List UrlFields := [.schema, .host, .port, .path, .query, .fragment, .userinfo]

structure FieldData where
  off : UInt16
  len : UInt16
  deriving DecidableEq

/-- `struct http_parser_url`. -/
@[ext] structure ParserUrl where
  fieldSet : UrlFields → Bool
  port : UInt16
  fieldData : UrlFields → FieldData

namespace ParserUrl

/-- `http_parser_url_init`. -/
def init : ParserUrl := ⟨fun _ => false, 0, fun _ => ⟨0, 0⟩⟩

/-- `u->field_data[uf] = data`. -/
def setData (u : ParserUrl) (uf : UrlFields) (data : FieldData) : ParserUrl :=
  { u with fieldData := fun f => if f = uf then data else u.fieldData f }

/-- `u->field_set |= (1 << uf)`. -/
def setField (u : ParserUrl) (uf : UrlFields) : ParserUrl :=
  { u with fieldSet := fun f => if f = uf then true else u.fieldSet f }

/-- `u->field_data[uf].len++`. -/
def grow (u : ParserUrl) (uf : UrlFields) : ParserUrl :=
  u.setData uf { u.fieldData uf with len := (u.fieldData uf).len + 1 }

/-- `u->field_set == mask`. -/
def fieldSetIs (u : ParserUrl) (mask : List UrlFields) : Bool :=
  UrlFields.all.all fun uf => u.fieldSet uf == mask.contains uf

end ParserUrl

/-- The variables of the loop over the url, with `p - buf`. -/
structure UrlScan where
  s : UrlState
  p : Nat
  oldUf : Option UrlFields
  foundAt : Bool
  u : ParserUrl

/-- One turn of the loop, once the field is known. -/
def UrlScan.note (v : UrlScan) (s : UrlState) (foundAt : Bool) (uf : UrlFields) : UrlScan :=
  if v.oldUf = some uf then ⟨s, v.p + 1, v.oldUf, foundAt, v.u.grow uf⟩
  else ⟨s, v.p + 1, some uf, foundAt, (v.u.setData uf ⟨UInt16.ofNat v.p, 1⟩).setField uf⟩

def urlStep (ch : Byte) (v : UrlScan) : Option UrlScan :=
  match parseUrlChar v.s ch with
  | .dead => none
  -- delimiters
  | .reqSchemaSlash => some { v with s := .reqSchemaSlash, p := v.p + 1 }
  | .reqSchemaSlashSlash => some { v with s := .reqSchemaSlashSlash, p := v.p + 1 }
  | .reqServerStart => some { v with s := .reqServerStart, p := v.p + 1 }
  | .reqQueryStringStart => some { v with s := .reqQueryStringStart, p := v.p + 1 }
  | .reqFragmentStart => some { v with s := .reqFragmentStart, p := v.p + 1 }
  | .reqSchema => some (v.note .reqSchema v.foundAt .schema)
  | .reqServerWithAt => some (v.note .reqServerWithAt true .host)
  | .reqServer => some (v.note .reqServer v.foundAt .host)
  | .reqPath => some (v.note .reqPath v.foundAt .path)
  | .reqQueryString => some (v.note .reqQueryString v.foundAt .query)
  | .reqFragment => some (v.note .reqFragment v.foundAt .fragment)
  -- `assert(!"Unexpected state")`
  | .reqSpacesBeforeUrl => none

/-! ## The host -/

/-- `enum http_host_state`. -/
inductive HostState where
  | dead
  | userinfoStart
  | userinfo
  | hostStart
  | hostV6Start
  | host
  | hostV6
  | hostV6End
  | hostV6ZoneStart
  | hostV6Zone
  | hostPortStart
  | hostPort
  deriving DecidableEq

/-- Letters, digits and `% . - _ ~` -/
def isZoneChar (ch : Byte) : Bool :=
  isAlphanum ch || ch = 37 || ch = 46 || ch = 45 || ch = 95 || ch = 126

/-- `http_parse_host_char`. Of the bytes by their number: `%` is 37, `.` 46, `:` 58, `@` 64, `[` 91,
`]` 93. -/
def parseHostChar (s : HostState) (ch : Byte) : HostState :=
  match s with
  | .userinfo | .userinfoStart =>
      if ch = 64 then .hostStart else if isUserinfoChar ch then .userinfo else .dead
  | .hostStart => if ch = 91 then .hostV6Start else if isHostChar ch then .host else .dead
  | .host => if isHostChar ch then .host else if ch = 58 then .hostPortStart else .dead
  | .hostV6End => if ch = 58 then .hostPortStart else .dead
  | .hostV6 =>
      if ch = 93 then .hostV6End
      else if isHex ch || ch = 58 || ch = 46 then .hostV6
      else if ch = 37 then .hostV6ZoneStart
      else .dead
  | .hostV6Start => if isHex ch || ch = 58 || ch = 46 then .hostV6 else .dead
  | .hostV6Zone =>
      if ch = 93 then .hostV6End else if isZoneChar ch then .hostV6Zone else .dead
  | .hostV6ZoneStart => if isZoneChar ch then .hostV6Zone else .dead
  | .hostPort | .hostPortStart => if isNum ch then .hostPort else .dead
  | .dead => .dead

/-- The variables of the loop in `http_parse_host`, with `p - buf`. -/
structure HostScan where
  s : HostState
  p : Nat
  u : ParserUrl

/-- A byte of the host: where the host begins, its place is noted. -/
def HostScan.noteHost (v : HostScan) (s : HostState) : ParserUrl :=
  (if v.s = s then v.u
    else v.u.setData .host { v.u.fieldData .host with off := UInt16.ofNat v.p }).grow .host

/-- A byte of the user or of the port. -/
def HostScan.note (v : HostScan) (s : HostState) (uf : UrlFields) : ParserUrl :=
  (if v.s = s then v.u
    else (v.u.setData uf ⟨UInt16.ofNat v.p, 0⟩).setField uf).grow uf

def hostStep (ch : Byte) (v : HostScan) : Option HostScan :=
  match parseHostChar v.s ch with
  | .dead => none
  | .host => some ⟨.host, v.p + 1, v.noteHost .host⟩
  | .hostV6 => some ⟨.hostV6, v.p + 1, v.noteHost .hostV6⟩
  | .hostV6ZoneStart => some ⟨.hostV6ZoneStart, v.p + 1, v.u.grow .host⟩
  | .hostV6Zone => some ⟨.hostV6Zone, v.p + 1, v.u.grow .host⟩
  | .hostPort => some ⟨.hostPort, v.p + 1, v.note .hostPort .port⟩
  | .userinfo => some ⟨.userinfo, v.p + 1, v.note .userinfo .userinfo⟩
  | s => some { v with s, p := v.p + 1 }

/-- Where a host may end. -/
def HostState.mayEnd : HostState → Bool
  | .hostStart | .hostV6Start | .hostV6 | .hostV6ZoneStart | .hostV6Zone | .hostPortStart | .userinfo
  | .userinfoStart => false
  | .dead | .host | .hostV6End | .hostPort => true

/-- The bytes of the url from `off` on, `len` of them. -/
def bytesAt (buf : List Byte) (data : FieldData) : List Byte :=
  (buf.drop data.off.toNat).take data.len.toNat

/-- `http_parse_host`. -/
def parseHost (buf : List Byte) (u : ParserUrl) (foundAt : Bool) : Option ParserUrl := do
  let data := u.fieldData .host
  let start : HostScan :=
    ⟨if foundAt then .userinfoStart else .hostStart, data.off.toNat,
      u.setData .host { data with len := 0 }⟩
  let v ← exec hostStep (bytesAt buf data) start
  if v.s.mayEnd then some v.u else none

/-! ## The port, and the whole -/

/-- `v *= 10; v += *p - '0'` in an `unsigned long`; the difference is an `int`, and `char` is
signed. -/
def portStep (ch : Byte) (v : UInt64) : Option UInt64 :=
  let v := v * 10 + UInt64.ofInt (ch.toInt8.toInt - 48)
  if v > 0xffff then none else some v

/-- The port as a number, where there is one. -/
def readPort (buf : List Byte) (u : ParserUrl) : Option ParserUrl :=
  if u.fieldSet .port then do
    let v ← exec portStep (bytesAt buf (u.fieldData .port)) 0
    some { u with port := v.toUInt16 }
  else some u

/-- The fields of the host, where there is one. -/
def readHost (buf : List Byte) (u : ParserUrl) (foundAt : Bool) : Option ParserUrl :=
  if u.fieldSet .host then parseHost buf u foundAt else some u

/-- What `http_parser_parse_url` does after its loop. -/
def finish (buf : List Byte) (isConnect : Bool) (u : ParserUrl) (foundAt : Bool) :
    Option ParserUrl :=
  -- host must be present if there is a schema
  if u.fieldSet .schema ∧ ¬ u.fieldSet .host then none
  else do
    let u ← readHost buf u foundAt
    -- CONNECT requests can only contain "hostname:port"
    if isConnect ∧ ¬ u.fieldSetIs [.host, .port] then none else readPort buf u

/-- `http_parser_parse_url`; `none` is the return value 1. -/
def parseUrl (buf : List Byte) (isConnect : Bool) (u : ParserUrl) : Option ParserUrl :=
  if buf = [] then none
  else do
    let u := { u with port := 0, fieldSet := fun _ => false }
    let s := if isConnect then .reqServerStart else .reqSpacesBeforeUrl
    let v ← exec urlStep buf ⟨s, 0, none, false, u⟩
    finish buf isConnect v.u v.foundAt

end Unp.Http.HttpParser
