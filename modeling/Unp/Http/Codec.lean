import Unp.Http.Message

/-!
# `Http1xCodec`: header callbacks

`http_parser` hands the name and the value of a header to the codec in pieces, cut wherever a read
has ended. The codec collects a name but wants it to be empty when the next piece comes, and adds the
header with the first piece of the value; `codec_holds_headers_iff` says for which deliveries that
is right.
-/

namespace Unp.Http

open Unp.Machine Unp.Util

inductive CodecState where
  | error
  | idle
  | paused
  | onUrl
  | onStatus
  | onMessageBegin
  | onHeaderField
  | onHeaderValue
  | onHeadersComplete
  | onChunkHeader
  | onChunkComplete
  | onBody
  | onMessageComplete
  deriving Repr, DecidableEq

structure Http1xCodec where
  message : Option HttpMessage
  currentHeaderFiled : List Byte
  state : CodecState
  deriving Repr, DecidableEq

/-- The callbacks of `http_parser` that concern headers. -/
inductive Callback where
  | onMessageBegin
  | onHeaderField (buf : List Byte)
  | onHeaderValue (buf : List Byte)
  deriving Repr, DecidableEq

namespace Http1xCodec

def new : Http1xCodec := ⟨none, [], .idle⟩

def onMessageBegin (c : Http1xCodec) : Http1xCodec :=
  { c with state := .onMessageBegin, message := some .new }

def onHeaderField (buf : List Byte) (c : Http1xCodec) : Res Http1xCodec :=
  if c.currentHeaderFiled = [] then
    .ok { c with currentHeaderFiled := c.currentHeaderFiled ++ buf, state := .onHeaderField }
  else .error .assertion

def onHeaderValue (buf : List Byte) (c : Http1xCodec) : Res Http1xCodec :=
  match c.message with
  | none => .error .nullDeref
  | some m => do
      let m ← m.addHeader c.currentHeaderFiled buf
      pure { message := some m, currentHeaderFiled := [], state := .onHeaderValue }

def call (c : Http1xCodec) : Callback → Res Http1xCodec
  | .onMessageBegin => .ok c.onMessageBegin
  | .onHeaderField buf => c.onHeaderField buf
  | .onHeaderValue buf => c.onHeaderValue buf

/-- The codec after some callbacks. -/
def calls (callbacks : List Callback) (c : Http1xCodec) : Res Http1xCodec := callbacks.foldlM call c

end Http1xCodec

namespace Http1xCodec

theorem calls_append (xs ys : List Callback) (c : Http1xCodec) :
    c.calls (xs ++ ys) = c.calls xs >>= fun c => c.calls ys :=
  List.foldlM_append

theorem calls_cons (x : Callback) (xs : List Callback) (c : Http1xCodec) :
    c.calls (x :: xs) = c.call x >>= fun c => c.calls xs :=
  List.foldlM_cons

/-- Pieces of a value that come after the first one are dropped. -/
theorem calls_values_dropped (pieces : List (List Byte)) {c : Http1xCodec} {m : HttpMessage}
    (hfield : c.currentHeaderFiled = []) (hm : c.message = some m) :
    ∃ c', c.calls (pieces.map .onHeaderValue) = .ok c' ∧ c'.currentHeaderFiled = [] ∧
      c'.message = some m := by
  induction pieces generalizing c with
  | nil => exact ⟨c, rfl, hfield, hm⟩
  | cons piece pieces ih =>
      have hcall : c.call (.onHeaderValue piece) =
          .ok { message := some m, currentHeaderFiled := [], state := .onHeaderValue } := by
        simp only [call, onHeaderValue, hm, hfield, HttpMessage.addHeader_nil, ok_bind, pure_eq_ok]
      rw [List.map_cons, calls_cons, hcall, ok_bind]
      exact ih rfl rfl

end Http1xCodec

/-! ## Deliveries -/

/-- A header as it is delivered: name and value, each in one or more pieces that are not empty. -/
structure Delivery where
  name : List (List Byte)
  value : List (List Byte)
  name_ne : name ≠ []
  value_ne : value ≠ []
  pieces_ne : ∀ piece ∈ name ++ value, piece ≠ []

namespace Delivery

def callbacks (d : Delivery) : List Callback :=
  d.name.map .onHeaderField ++ d.value.map .onHeaderValue

/-- The name the peer has sent. -/
def wholeName (d : Delivery) : List Byte := d.name.flatten

def wholeValue (d : Delivery) : List Byte := d.value.flatten

end Delivery

/-- The headers are the given ones, in order. -/
def HoldsHeaders (ds : List Delivery) (headers : HttpHeaders) : Prop :=
  headers.headerValues = ds.map Delivery.wholeValue ∧
    List.Forall₂ HttpHeaders.SameName (ds.map Delivery.wholeName) headers.headerNames

/-- After `onMessageBegin` and the callbacks of the deliveries, the message holds what was given;
nothing has failed on the way. -/
def HoldsDelivered (ds : List Delivery) : Prop :=
  ∃ c m, Http1xCodec.new.calls (.onMessageBegin :: ds.flatMap Delivery.callbacks) = .ok c ∧
    c.message = some m ∧ HoldsHeaders ds m.headers

/-! ## One header -/

namespace Delivery
variable (d : Delivery)

/-- The name arrives in one piece. -/
theorem calls_whole {n v : List Byte} {vs : List (List Byte)} {c : Http1xCodec} {m : HttpMessage}
    (hname : d.name = [n]) (hvalue : d.value = v :: vs) (hfield : c.currentHeaderFiled = [])
    (hm : c.message = some m) :
    (∀ e, m.addHeader n v = .error e → c.calls d.callbacks = .error e) ∧
    (∀ m', m.addHeader n v = .ok m' → ∃ c', c.calls d.callbacks = .ok c' ∧
      c'.currentHeaderFiled = [] ∧ c'.message = some m') := by
  have hfirst : c.call (.onHeaderField n) =
      .ok { c with currentHeaderFiled := n, state := .onHeaderField } := by
    simp only [Http1xCodec.call, Http1xCodec.onHeaderField, hfield, if_true, List.nil_append]
  have hcalls : c.calls d.callbacks = m.addHeader n v >>= fun m' =>
      Http1xCodec.calls (vs.map .onHeaderValue)
        { message := some m', currentHeaderFiled := [], state := .onHeaderValue } := by
    rw [callbacks, hname, hvalue, List.map_cons, List.map_nil, List.map_cons, List.singleton_append,
      Http1xCodec.calls_cons, hfirst, ok_bind, Http1xCodec.calls_cons]
    simp only [Http1xCodec.call, Http1xCodec.onHeaderValue, hm]
    cases m.addHeader n v with
    | error e => simp only [error_bind]
    | ok m' => simp only [ok_bind, pure_eq_ok]
  refine ⟨fun e he => by rw [hcalls, he, error_bind], ?_⟩
  intro m' hm'
  rw [hcalls, hm', ok_bind]
  exact Http1xCodec.calls_values_dropped vs rfl rfl

/-- A name in two pieces runs into the `assert`. -/
theorem calls_cut {n n' : List Byte} {ns : List (List Byte)} {c : Http1xCodec}
    (hname : d.name = n :: n' :: ns) (hfield : c.currentHeaderFiled = []) :
    c.calls d.callbacks = .error .assertion := by
  have hn : n ≠ [] := d.pieces_ne n (by simp [hname])
  have hfirst : c.call (.onHeaderField n) =
      .ok { c with currentHeaderFiled := n, state := .onHeaderField } := by
    simp only [Http1xCodec.call, Http1xCodec.onHeaderField, hfield, if_true, List.nil_append]
  have hsecond : Http1xCodec.call { c with currentHeaderFiled := n, state := .onHeaderField }
      (.onHeaderField n') = .error .assertion := by
    simp only [Http1xCodec.call, Http1xCodec.onHeaderField, if_neg hn]
  rw [callbacks, hname, List.map_cons, List.map_cons, List.cons_append, List.cons_append,
    Http1xCodec.calls_cons, hfirst, ok_bind, Http1xCodec.calls_cons, hsecond, error_bind]

/-- The deliveries the codec gets right: name and value in one piece, a name without a zero byte,
and no cookie on which `parseCookie` throws. -/
def Whole : Prop :=
  d.name.length = 1 ∧ d.value.length = 1 ∧ 0 ∉ d.wholeName ∧
    (d.wholeName = HttpMessage.cookieName → HttpMessage.CookieParses d.wholeValue)

theorem flatten_eq_head {v : List Byte} {vs : List (List Byte)} (hne : ∀ piece ∈ vs, piece ≠ []) :
    v = (v :: vs).flatten ↔ vs = [] := by
  rw [List.flatten_cons]
  constructor
  · intro h
    have hnil : vs.flatten = [] := List.append_right_eq_self.mp h.symm
    rw [List.flatten_eq_nil_iff] at hnil
    exact List.eq_nil_iff_forall_not_mem.mpr fun piece hp => hne piece hp (hnil piece hp)
  · rintro rfl
    simp

/-- One header: something fails, or one entry is added; the entry is the header exactly when the
delivery is one the codec gets right. -/
theorem calls_spec {c : Http1xCodec} {m : HttpMessage} (hfield : c.currentHeaderFiled = [])
    (hm : c.message = some m) :
    (∃ e, c.calls d.callbacks = .error e ∧ ¬ d.Whole) ∨
    ∃ c' m' name value, c.calls d.callbacks = .ok c' ∧ c'.currentHeaderFiled = [] ∧
      c'.message = some m' ∧
      m'.headers.headerNames = m.headers.headerNames ++ [name] ∧
      m'.headers.headerValues = m.headers.headerValues ++ [value] ∧
      (value = d.wholeValue ∧ HttpHeaders.SameName d.wholeName name ↔ d.Whole) := by
  obtain ⟨v, vs, hvalue⟩ := List.exists_cons_of_ne_nil d.value_ne
  obtain ⟨n, ns, hname⟩ := List.exists_cons_of_ne_nil d.name_ne
  have hpieces : ∀ piece ∈ vs, piece ≠ [] := fun piece hp => d.pieces_ne piece (by simp [hvalue, hp])
  cases ns with
  | cons n' ns =>
      -- the second piece of the name meets the assertion
      refine Or.inl ⟨_, d.calls_cut hname hfield, ?_⟩
      intro hwhole
      have := hwhole.1
      simp [hname] at this
  | nil =>
      have hn : d.wholeName = n := by simp [wholeName, hname]
      have hv : d.value.length = 1 ↔ v = d.wholeValue := by
        rw [wholeValue, hvalue, flatten_eq_head hpieces]
        simp
      -- the first piece of the value makes the header, and the others are dropped
      obtain ⟨herror, hok⟩ := d.calls_whole hname hvalue hfield hm
      cases hadd : m.addHeader n v with
      | error e =>
          refine Or.inl ⟨e, herror e hadd, fun ⟨_, hone, hzero, hcookie⟩ => ?_⟩
          rw [hn] at hzero hcookie
          rw [← hv.mp hone] at hcookie
          obtain ⟨m', hm'⟩ := m.addHeader_succeeds hzero hcookie
          rw [hadd] at hm'
          cases hm'
      | ok m' =>
          obtain ⟨c', hcalls, hfield', hm'⟩ := hok m' hadd
          have hnne : n ≠ [] := d.pieces_ne n (by simp [hname])
          obtain ⟨hcookie, code, hcode, hnames, hvalues⟩ := HttpMessage.addHeader_ok hnne hadd
          refine Or.inr ⟨c', m', _, v, hcalls, hfield', hm', hnames, hvalues, ?_⟩
          rw [hn, HttpHeaders.sameName_storedName hcode, Whole, hn, hname, ← hv]
          constructor
          · rintro ⟨hone, hzero⟩
            refine ⟨rfl, hone, hzero, ?_⟩
            intro heq
            rw [← hv.mp hone]
            exact hcookie heq
          · rintro ⟨-, hone, hzero, -⟩
            exact ⟨hone, hzero⟩

end Delivery

/-! ## All headers -/

theorem calls_deliveries (ds : List Delivery) {c : Http1xCodec} {m : HttpMessage}
    (hfield : c.currentHeaderFiled = []) (hm : c.message = some m) :
    (∃ e, c.calls (ds.flatMap Delivery.callbacks) = .error e ∧ ¬ ∀ d ∈ ds, d.Whole) ∨
    ∃ c' m' names values, c.calls (ds.flatMap Delivery.callbacks) = .ok c' ∧
      c'.message = some m' ∧
      m'.headers.headerNames = m.headers.headerNames ++ names ∧
      m'.headers.headerValues = m.headers.headerValues ++ values ∧
      (values = ds.map Delivery.wholeValue ∧
        List.Forall₂ HttpHeaders.SameName (ds.map Delivery.wholeName) names ↔
        ∀ d ∈ ds, d.Whole) := by
  induction ds generalizing c m with
  | nil => exact Or.inr ⟨c, m, [], [], rfl, hm, by simp, by simp, by simp⟩
  | cons d ds ih =>
      rw [List.flatMap_cons, Http1xCodec.calls_append]
      rcases d.calls_spec hfield hm with ⟨e, he, hnot⟩ | ⟨c₁, m₁, name, value, hcalls, hfield₁, hm₁,
        hnames, hvalues, hiff⟩
      · exact Or.inl ⟨e, by rw [he, error_bind], fun hall => hnot (hall d (by simp))⟩
      · rw [hcalls, ok_bind]
        rcases ih hfield₁ hm₁ with ⟨e, he, hnot⟩ | ⟨c', m', names, values, hcalls', hm', hnames',
          hvalues', hiff'⟩
        · exact Or.inl ⟨e, he, fun hall => hnot fun d' hd' => hall d' (by simp [hd'])⟩
        · refine Or.inr ⟨c', m', name :: names, value :: values, hcalls', hm', ?_, ?_, ?_⟩
          · rw [hnames', hnames, List.append_assoc, List.singleton_append]
          · rw [hvalues', hvalues, List.append_assoc, List.singleton_append]
          · rw [List.forall_mem_cons, ← hiff, ← hiff', List.map_cons, List.map_cons, List.cons.injEq,
              List.forall₂_cons]
            constructor
            · rintro ⟨⟨h₁, h₂⟩, h₃, h₄⟩
              exact ⟨⟨h₁, h₃⟩, h₂, h₄⟩
            · rintro ⟨⟨h₁, h₃⟩, h₂, h₄⟩
              exact ⟨⟨h₁, h₂⟩, h₃, h₄⟩

/-- **When the codec holds the headers it is given.** For all deliveries of all lists of headers:
exactly when every name and every value arrives in one piece, no name holds a zero byte and no
`Cookie` header has a value on which `parseCookie` throws. -/
theorem codec_holds_headers_iff (ds : List Delivery) :
    HoldsDelivered ds ↔ ∀ d ∈ ds, d.Whole := by
  have hbegin : Http1xCodec.new.calls (.onMessageBegin :: ds.flatMap Delivery.callbacks) =
      Http1xCodec.new.onMessageBegin.calls (ds.flatMap Delivery.callbacks) := by
    rw [Http1xCodec.calls_cons, Http1xCodec.call, ok_bind]
  rw [HoldsDelivered, hbegin]
  rcases calls_deliveries ds (c := Http1xCodec.new.onMessageBegin) (m := .new) rfl rfl with
    ⟨e, he, hnot⟩ | ⟨c, m, names, values, hcalls, hm, hnames, hvalues, hiff⟩
  · constructor
    · rintro ⟨c, m, hcalls, -⟩
      rw [he] at hcalls
      cases hcalls
    · exact fun hall => absurd hall hnot
  · have hnames : m.headers.headerNames = names := hnames
    have hvalues : m.headers.headerValues = values := hvalues
    rw [← hiff]
    constructor
    · rintro ⟨c', m', hcalls', hm', hholds⟩
      rw [hcalls] at hcalls'
      cases hcalls'
      rw [hm] at hm'
      cases hm'
      rwa [HoldsHeaders, hnames, hvalues] at hholds
    · intro hholds
      exact ⟨c, m, hcalls, hm, by rwa [HoldsHeaders, hnames, hvalues]⟩

/-- `Host: a.b`, with the value cut in two. -/
def cutHost : Delivery where
  name := [ascii "Host"]
  value := [ascii "a.", ascii "b"]
  name_ne := by simp
  value_ne := by simp
  pieces_ne := by decide +kernel

/-- **A value that is cut is stored up to the cut.** -/
theorem codec_truncates_cut_value : ¬ HoldsDelivered [cutHost] := by
  rintro ⟨c, m, hcalls, hm, hvalues, -⟩
  have hrun : (Http1xCodec.new.calls (.onMessageBegin :: [cutHost].flatMap Delivery.callbacks)).map
      (fun c => c.message.map fun m => m.headers.headerValues) = .ok (some [ascii "a."]) := by
    decide +kernel
  rw [hcalls] at hrun
  have hstored : m.headers.headerValues = [ascii "a."] := by
    simpa [Except.map, hm] using hrun
  rw [hstored] at hvalues
  exact absurd hvalues (by decide +kernel)

end Unp.Http
