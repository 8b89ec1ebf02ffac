import Unp.Http.ParseUrl

/-!
# No field ends behind the url

Offsets and lengths are cut to 16 bits, and of a long url the fields are wrong; but what is cut has
only become smaller. The second automaton and the loop over the port read what has been noted, so they
read inside the url too.
-/

namespace Unp.Http.HttpParser

open Unp.Util Unp.Schedule

/-- A field, before its place and its length are cut to 16 bits, ends here at the latest. -/
def FieldData.EndsBy (data : FieldData) (e : Nat) : Prop :=
  ∃ o l, o + l ≤ e ∧ data = ⟨UInt16.ofNat o, UInt16.ofNat l⟩

namespace FieldData.EndsBy

variable {data : FieldData} {e e' : Nat}

theorem mono (h : data.EndsBy e) (hle : e ≤ e') : data.EndsBy e' := by
  obtain ⟨o, l, hend, heq⟩ := h
  exact ⟨o, l, Nat.le_trans hend hle, heq⟩

/-- Cut, it ends there all the more. -/
theorem toNat_le (h : data.EndsBy e) : data.off.toNat + data.len.toNat ≤ e := by
  obtain ⟨o, l, hend, rfl⟩ := h
  have ho : (UInt16.ofNat o).toNat ≤ o := Nat.mod_le o _
  have hl : (UInt16.ofNat l).toNat ≤ l := Nat.mod_le l _
  show (UInt16.ofNat o).toNat + (UInt16.ofNat l).toNat ≤ e
  omega

/-- One byte longer. -/
theorem grow (h : data.EndsBy e) : EndsBy { data with len := data.len + 1 } (e + 1) := by
  obtain ⟨o, l, hend, rfl⟩ := h
  refine ⟨o, l + 1, Nat.succ_le_succ hend, ?_⟩
  rw [UInt16.ofNat_add]
  rfl

/-- A field that begins at this byte. -/
theorem begins (p n : Nat) : EndsBy ⟨UInt16.ofNat p, UInt16.ofNat n⟩ (p + n) :=
  ⟨p, n, Nat.le_refl _, rfl⟩

end FieldData.EndsBy

/-- Each field has its own bound. -/
def ParserUrl.EndBy (u : ParserUrl) (bound : UrlFields → Nat) : Prop :=
  ∀ f, (u.fieldData f).EndsBy (bound f)

/-- No field ends behind a text of `n` bytes. -/
def ParserUrl.Inside (u : ParserUrl) (n : Nat) : Prop :=
  ∀ f, (u.fieldData f).off.toNat + (u.fieldData f).len.toNat ≤ n

section Fields
variable {u : ParserUrl} {bound : UrlFields → Nat} {uf : UrlFields}

theorem ParserUrl.EndBy.mono {bound' : UrlFields → Nat} (h : u.EndBy bound)
    (hle : ∀ f, bound f ≤ bound' f) : u.EndBy bound' := fun f => (h f).mono (hle f)

/-- A field is written, the others are left as they are. -/
theorem ParserUrl.EndBy.setData (h : u.EndBy bound) {data : FieldData}
    (hdata : data.EndsBy (bound uf)) : (u.setData uf data).EndBy bound := by
  intro f
  show (if f = uf then data else u.fieldData f).EndsBy (bound f)
  by_cases hf : f = uf
  · rw [if_pos hf, hf]
    exact hdata
  · rw [if_neg hf]
    exact h f

theorem ParserUrl.EndBy.grow {bound' : UrlFields → Nat} (h : u.EndBy bound)
    (hle : ∀ f, bound f ≤ bound' f) (huf : bound uf + 1 ≤ bound' uf) : (u.grow uf).EndBy bound' :=
  (h.mono hle).setData ((h uf).grow.mono huf)

theorem ParserUrl.EndBy.inside {n : Nat} (h : u.EndBy bound) (hn : ∀ f, bound f ≤ n) :
    u.Inside n := fun f => Nat.le_trans (h f).toNat_le (hn f)

end Fields

/-! ## The first automaton -/

/-- After `p` bytes. Port and user are not its fields. -/
def urlBound (p : Nat) (f : UrlFields) : Nat := if f = .port ∨ f = .userinfo then 0 else p

theorem urlBound_mono {p q : Nat} (hle : p ≤ q) (f : UrlFields) : urlBound p f ≤ urlBound q f := by
  unfold urlBound
  split <;> omega

/-- **What one byte does** to the place and the struct. -/
theorem urlStep_cases {ch : Byte} {v v' : UrlScan} (hstep : urlStep ch v = some v') :
    v'.p = v.p + 1 ∧ (v'.u = v.u ∨
      ∃ s b uf, (uf ≠ .port ∧ uf ≠ .userinfo) ∧ v' = v.note s b uf) := by
  have hnote : ∀ s b uf, (v.note s b uf).p = v.p + 1 := by
    intro s b uf
    rw [UrlScan.note]
    split <;> rfl
  rw [urlStep] at hstep
  split at hstep <;> cases hstep
  case h_2 | h_3 | h_4 | h_5 | h_6 => exact ⟨rfl, .inl rfl⟩
  all_goals exact ⟨hnote _ _ _, .inr ⟨_, _, _, by simp, rfl⟩⟩

theorem note_endBy {v : UrlScan} (h : v.u.EndBy (urlBound v.p)) (s : UrlState) (b : Bool)
    {uf : UrlFields} (huf : uf ≠ .port ∧ uf ≠ .userinfo) :
    (v.note s b uf).u.EndBy (urlBound (v.p + 1)) := by
  have hbound : ∀ p, urlBound p uf = p := fun p => if_neg (not_or.mpr huf)
  have hle := urlBound_mono (Nat.le_succ v.p)
  rw [UrlScan.note]
  split
  · apply h.grow hle
    rw [hbound, hbound]
  · apply (h.mono hle).setData
    rw [hbound]
    exact .begins v.p 1

/-- The loop over the url. -/
theorem exec_urlStep {text : List Byte} {v v' : UrlScan} (h : v.u.EndBy (urlBound v.p))
    (hrun : exec urlStep text v = some v') :
    v'.p = v.p + text.length ∧ v'.u.EndBy (urlBound v'.p) := by
  induction text generalizing v with
  | nil =>
      cases hrun
      exact ⟨rfl, h⟩
  | cons ch text ih =>
      obtain ⟨m, hone, hrest⟩ := exec_cons_eq_some.mp hrun
      obtain ⟨hp, hu⟩ := urlStep_cases hone
      have hm : m.u.EndBy (urlBound m.p) := by
        rw [hp]
        rcases hu with hu | ⟨s, b, uf, huf, rfl⟩
        · rw [hu]
          exact h.mono (urlBound_mono (Nat.le_succ v.p))
        · exact note_endBy h s b huf
      obtain ⟨hlen, hall⟩ := ih hm hrest
      refine ⟨?_, hall⟩
      rw [hlen, hp, List.length_cons]
      omega

/-! ## The second automaton -/

/-- The fields that the second automaton writes end where it is. -/
def hostBound (n p : Nat) (f : UrlFields) : Nat :=
  if f = .host ∨ f = .port ∨ f = .userinfo then p else n

theorem hostBound_mono {n p q : Nat} (hle : p ≤ q) (f : UrlFields) :
    hostBound n p f ≤ hostBound n q f := by
  unfold hostBound
  split <;> omega

/-- The states before the first byte of the host. -/
def HostState.beforeHost : HostState → Bool
  | .userinfoStart | .userinfo | .hostStart | .hostV6Start => true
  | _ => false

structure HostOk (n : Nat) (v : HostScan) : Prop where
  endBy : v.u.EndBy (hostBound n v.p)
  empty : v.s.beforeHost = true → (v.u.fieldData .host).len = 0

section Host
variable {n : Nat} {v : HostScan}

theorem noteHost_endBy (h : HostOk n v) {s : HostState} (hs : v.s = s ∨ v.s.beforeHost = true) :
    (v.noteHost s).EndBy (hostBound n (v.p + 1)) := by
  have hle := hostBound_mono (n := n) (Nat.le_succ v.p)
  rw [HostScan.noteHost]
  by_cases heq : v.s = s
  · rw [if_pos heq]
    exact h.endBy.grow hle (Nat.le_refl _)
  · rw [if_neg heq]
    show ((v.u.setData .host ⟨UInt16.ofNat v.p, (v.u.fieldData .host).len⟩).grow .host).EndBy _
    rw [h.empty (hs.resolve_left heq)]
    apply ParserUrl.EndBy.grow (h.endBy.setData ?_) hle (Nat.le_refl _)
    exact .begins v.p 0

theorem hostNote_endBy (h : HostOk n v) (s : HostState) {uf : UrlFields}
    (huf : uf = .port ∨ uf = .userinfo) : (v.note s uf).EndBy (hostBound n (v.p + 1)) := by
  have hle := hostBound_mono (n := n) (Nat.le_succ v.p)
  have hbound : ∀ p, hostBound n p uf = p := by
    intro p
    rcases huf with rfl | rfl <;> rfl
  have hnext : hostBound n v.p uf + 1 ≤ hostBound n (v.p + 1) uf := by rw [hbound, hbound]
  rw [HostScan.note]
  split
  · exact h.endBy.grow hle hnext
  · apply ParserUrl.EndBy.grow ?_ hle hnext
    apply h.endBy.setData
    rw [hbound]
    exact .begins v.p 0

/-- The host is entered from in front of it. -/
theorem parseHostChar_enters (s s' : HostState) (hs' : s' = .host ∨ s' = .hostV6) (ch : Byte) :
    parseHostChar s ch = s' → s = s' ∨ s.beforeHost = true := by
  fun_cases parseHostChar s ch <;> rcases hs' with rfl | rfl <;> simp [HostState.beforeHost]

/-- And never again. -/
theorem parseHostChar_before (s : HostState) (ch : Byte) :
    (parseHostChar s ch).beforeHost = true → s.beforeHost = true := by
  fun_cases parseHostChar s ch <;> simp [HostState.beforeHost]

theorem hostStep_ok (h : HostOk n v) {ch : Byte} {v' : HostScan} (hstep : hostStep ch v = some v') :
    v'.p = v.p + 1 ∧ HostOk n v' := by
  have hle := hostBound_mono (n := n) (Nat.le_succ v.p)
  have hbefore := parseHostChar_before v.s ch
  have henters := fun s' hs' => parseHostChar_enters v.s s' hs' ch
  have hgrow : (v.u.grow .host).EndBy (hostBound n (v.p + 1)) := h.endBy.grow hle (Nat.le_refl _)
  rw [hostStep] at hstep
  generalize parseHostChar v.s ch = s' at hstep hbefore henters
  cases s' with
  | dead => cases hstep
  | host =>
      cases hstep
      exact ⟨rfl, noteHost_endBy h (henters _ (.inl rfl) rfl), fun hs => by cases hs⟩
  | hostV6 =>
      cases hstep
      exact ⟨rfl, noteHost_endBy h (henters _ (.inr rfl) rfl), fun hs => by cases hs⟩
  | hostV6ZoneStart =>
      cases hstep
      exact ⟨rfl, hgrow, fun hs => by cases hs⟩
  | hostV6Zone =>
      cases hstep
      exact ⟨rfl, hgrow, fun hs => by cases hs⟩
  | hostPort =>
      cases hstep
      exact ⟨rfl, hostNote_endBy h _ (.inl rfl), fun hs => by cases hs⟩
  | userinfo =>
      cases hstep
      refine ⟨rfl, hostNote_endBy h _ (.inr rfl), fun _ => ?_⟩
      -- the user is written, not the host
      have hempty := h.empty (hbefore rfl)
      simp only [HostScan.note]
      split <;> exact hempty
  | userinfoStart | hostStart | hostV6Start =>
      cases hstep
      exact ⟨rfl, h.endBy.mono hle, fun _ => h.empty (hbefore rfl)⟩
  | hostV6End | hostPortStart =>
      cases hstep
      exact ⟨rfl, h.endBy.mono hle, fun hs => by cases hs⟩

theorem exec_hostStep {text : List Byte} {v' : HostScan} (h : HostOk n v)
    (hrun : exec hostStep text v = some v') : v'.p = v.p + text.length ∧ HostOk n v' := by
  induction text generalizing v with
  | nil =>
      cases hrun
      exact ⟨rfl, h⟩
  | cons ch text ih =>
      obtain ⟨m, hone, hrest⟩ := exec_cons_eq_some.mp hrun
      obtain ⟨hp, hm⟩ := hostStep_ok h hone
      obtain ⟨hlen, hall⟩ := ih hm hrest
      refine ⟨?_, hall⟩
      rw [hlen, hp, List.length_cons]
      omega

end Host

/-! ## The whole -/

/-- `http_parse_host` on a struct whose fields end inside the url. -/
theorem parseHost_inside {buf : List Byte} {u u' : ParserUrl} {foundAt : Bool}
    (h : u.EndBy (urlBound buf.length)) (hparse : parseHost buf u foundAt = some u') :
    u'.Inside buf.length := by
  have hhost : (u.fieldData .host).off.toNat + (u.fieldData .host).len.toNat ≤ buf.length :=
    (h .host).toNat_le
  obtain ⟨v, hrun, hv⟩ := Option.bind_eq_some_iff.mp hparse
  split at hv
  · cases hv
    have hstart : HostOk buf.length
        ⟨if foundAt then .userinfoStart else .hostStart, (u.fieldData .host).off.toNat,
          u.setData .host { u.fieldData .host with len := 0 }⟩ := by
      constructor
      · intro f
        by_cases hf : f = .host
        · subst hf
          refine ⟨(u.fieldData .host).off.toNat, 0, Nat.le_refl _, ?_⟩
          rw [UInt16.ofNat_toNat]
          rfl
        · show (if f = .host then _ else u.fieldData f).EndsBy _
          rw [if_neg hf]
          apply (h f).mono
          rw [urlBound, hostBound]
          by_cases hother : f = .port ∨ f = .userinfo
          · rw [if_pos hother]
            exact Nat.zero_le _
          · rw [if_neg hother, if_neg (not_or.mpr ⟨hf, hother⟩)]
      · intro _
        rfl
    obtain ⟨hp, hall⟩ := exec_hostStep hstart hrun
    apply hall.endBy.inside
    intro f
    have hlen : (bytesAt buf (u.fieldData .host)).length ≤ (u.fieldData .host).len.toNat :=
      List.length_take_le _ _
    have hend : v.p ≤ buf.length := by
      rw [hp]
      show (u.fieldData .host).off.toNat + _ ≤ _
      omega
    unfold hostBound
    split
    · exact hend
    · exact Nat.le_refl _
  · cases hv

theorem readPort_inside {buf : List Byte} {u u' : ParserUrl} {n : Nat} (h : u.Inside n)
    (hread : readPort buf u = some u') : u'.Inside n := by
  rw [readPort] at hread
  split at hread
  · obtain ⟨v, -, heq⟩ := Option.bind_eq_some_iff.mp hread
    cases heq
    exact h
  · cases hread
    exact h

theorem init_endBy (bound : UrlFields → Nat) (u : ParserUrl)
    (hu : u.fieldData = ParserUrl.init.fieldData) : u.EndBy bound := by
  intro f
  rw [hu]
  exact ⟨0, 0, Nat.zero_le _, rfl⟩

/-- After the loop over the url. -/
theorem exec_url_endBy {buf : List Byte} {s : UrlState} {u : ParserUrl} {v : UrlScan}
    (hu : u.fieldData = ParserUrl.init.fieldData)
    (hrun : exec urlStep buf ⟨s, 0, none, false, u⟩ = some v) : v.u.EndBy (urlBound buf.length) := by
  obtain ⟨hp, hall⟩ := exec_urlStep (init_endBy _ u hu) hrun
  rw [hp, Nat.zero_add] at hall
  exact hall

theorem urlBound_le (n : Nat) (f : UrlFields) : urlBound n f ≤ n := by
  unfold urlBound
  split
  · exact Nat.zero_le n
  · exact Nat.le_refl n

/-- **The parser stays inside the url**, of any length: the field that `http_parse_host` reads, the
digits of the port, and every field that is reported. -/
theorem parseUrl_inside (buf : List Byte) (isConnect : Bool) :
    (∀ s v, exec urlStep buf ⟨s, 0, none, false, ParserUrl.init⟩ = some v →
      v.u.Inside buf.length ∧ ∀ u, parseHost buf v.u v.foundAt = some u → u.Inside buf.length) ∧
    ∀ u, parseUrl buf isConnect ParserUrl.init = some u → u.Inside buf.length := by
  constructor
  · intro s v hrun
    have hend := exec_url_endBy rfl hrun
    exact ⟨hend.inside (urlBound_le _), fun u hhost => parseHost_inside hend hhost⟩
  · intro u hparse
    rw [parseUrl] at hparse
    split at hparse
    · cases hparse
    · obtain ⟨v, hrun, hfinish⟩ := Option.bind_eq_some_iff.mp hparse
      have hend := exec_url_endBy rfl hrun
      rw [finish] at hfinish
      split at hfinish
      · cases hfinish
      · obtain ⟨u', hhost, hread⟩ := Option.bind_eq_some_iff.mp hfinish
        have hinside : u'.Inside buf.length := by
          rw [readHost] at hhost
          split at hhost
          · exact parseHost_inside hend hhost
          · cases hhost
            exact hend.inside (urlBound_le _)
        split at hread
        · cases hread
        · exact readPort_inside hinside hread

/-! ### A long url -/

/-- Bytes of a path, one after the other. -/
theorem exec_urlStep_path {ch : Byte} (hch : parseUrlChar .reqPath ch = .reqPath) (n p : Nat)
    (u : ParserUrl) :
    ∃ u', exec urlStep (List.replicate n ch) ⟨.reqPath, p, some .path, false, u⟩ =
        some ⟨.reqPath, p + n, some .path, false, u'⟩ ∧
      u'.fieldSet = u.fieldSet ∧
      u'.fieldData .path =
        ⟨(u.fieldData .path).off, (u.fieldData .path).len + UInt16.ofNat n⟩ := by
  induction n generalizing p u with
  | zero => exact ⟨u, rfl, rfl, by simp⟩
  | succ n ih =>
      obtain ⟨u', hrun, hset, hdata⟩ := ih (p + 1) (u.grow .path)
      have hstep : urlStep ch ⟨.reqPath, p, some .path, false, u⟩ =
          some ⟨.reqPath, p + 1, some .path, false, u.grow .path⟩ := by
        simp only [urlStep, hch, UrlScan.note, if_true]
      refine ⟨u', ?_, hset, ?_⟩
      · rw [List.replicate_succ, exec, hstep, Option.bind_some, hrun, Nat.add_assoc, Nat.add_comm 1 n]
      · rw [hdata]
        simp only [ParserUrl.grow, ParserUrl.setData, if_true, UInt16.ofNat_add]
        congr 1
        rw [UInt16.add_assoc, UInt16.add_comm 1]
        rfl

/-- `/cc…c?d`. The path has 65541 bytes and the query one: the length of the one and the place of the
other are cut to 16 bits. -/
def longUrl : List Byte := [47] ++ (List.replicate 65540 99 ++ [63, 100])

theorem parseUrl_inside_long :
    ∃ u, parseUrl longUrl false ParserUrl.init = some u ∧ u.fieldData .path = ⟨0, 5⟩ ∧
      u.fieldData .query = ⟨6, 1⟩ ∧ u.Inside longUrl.length := by
  obtain ⟨u₁, hu₁⟩ : ∃ u₁, u₁ = (ParserUrl.init.setData .path ⟨0, 1⟩).setField .path := ⟨_, rfl⟩
  obtain ⟨u₂, hpath, hset, hdata⟩ := exec_urlStep_path (by decide : parseUrlChar .reqPath 99 = .reqPath)
    65540 1 u₁
  obtain ⟨u₃, hu₃⟩ : ∃ u₃, u₃ = (u₂.setData .query ⟨6, 1⟩).setField .query := ⟨_, rfl⟩
  have hslash : exec urlStep [47] ⟨.reqSpacesBeforeUrl, 0, none, false, ParserUrl.init⟩ =
      some ⟨.reqPath, 1, some .path, false, u₁⟩ := by
    rw [hu₁]
    rfl
  have hquery : exec urlStep [63, 100] ⟨.reqPath, 1 + 65540, some .path, false, u₂⟩ =
      some ⟨.reqQueryString, 65543, some .query, false, u₃⟩ := by
    have hcut : UInt16.ofNat 65542 = 6 := by decide
    rw [hu₃, ← hcut]
    rfl
  have hrun : exec urlStep longUrl ⟨.reqSpacesBeforeUrl, 0, none, false, ParserUrl.init⟩ =
      some ⟨.reqQueryString, 65543, some .query, false, u₃⟩ :=
    exec_append_eq_some.mpr ⟨_, hslash, exec_append_eq_some.mpr ⟨_, hpath, hquery⟩⟩
  have hfields : ∀ f, f ≠ .path → f ≠ .query → u₃.fieldSet f = false := by
    intro f hnotPath hnotQuery
    rw [hu₃, ParserUrl.setField, ParserUrl.setData]
    simp only [hnotQuery, if_false, hset, hu₁, ParserUrl.setField, hnotPath, ParserUrl.setData]
    rfl
  have hparse : parseUrl longUrl false ParserUrl.init = some u₃ := by
    have hne : longUrl ≠ [] := List.cons_ne_nil _ _
    have hinit : { ParserUrl.init with port := 0, fieldSet := fun _ => false } = ParserUrl.init := rfl
    rw [parseUrl, if_neg hne]
    simp only [hinit, Bool.false_eq_true, if_false, hrun]
    simp [finish, readHost, readPort, hfields]
  refine ⟨u₃, hparse, ?_, ?_, (parseUrl_inside longUrl false).2 u₃ hparse⟩
  · rw [hu₃]
    show u₂.fieldData .path = _
    rw [hdata, hu₁]
    rfl
  · rw [hu₃]
    rfl

end Unp.Http.HttpParser
