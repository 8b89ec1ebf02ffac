import Unp.Http.UrlGrammar

/-!
# User, host and port

The second automaton reads what the first has noted for the host, from the user on when there was an
`@` and else from the host on.
-/

namespace Unp.Http.HttpParser

open Unp.Util Unp.Schedule Unp.Scan

namespace ParserUrl

/-- The host has `n` bytes and begins at `p`. -/
def place (u : ParserUrl) (p n : Nat) : ParserUrl :=
  u.setData .host ⟨UInt16.ofNat p, UInt16.ofNat n⟩

variable {u : ParserUrl} {p n : Nat}

theorem grow_place : (u.place p n).grow .host = u.place p (n + 1) := by
  rw [grow, place, setData_setData, fieldData_setData_self, place, UInt16.ofNat_add]
  rfl

theorem grow_begun (uf : UrlFields) :
    ((u.setData uf ⟨UInt16.ofNat p, 0⟩).setField uf).grow uf = u.mark uf p 1 := by
  rw [grow, setData_setField, setData_setData, mark_one]
  congr 2
  show FieldData.mk _ _ = _
  rw [show ((u.setData uf _).setField uf).fieldData uf = _ from if_pos rfl]
  rfl

end ParserUrl

def markPort (u : ParserUrl) (p : Nat) (port : Option (Word isNum)) : ParserUrl :=
  port.elim u fun d => u.mark .port (p + 1) d.1.length

/-- What the second automaton notes of the authority. -/
def Authority.mark (u : ParserUrl) (p : Nat) (a : Authority) : ParserUrl :=
  let u := a.userinfo.elim u fun w => u.mark .userinfo p w.1.length
  let p := p + a.userinfoText.length
  markPort (u.place (p + a.host.lead.length) a.host.field.length) (p + a.host.text.length) a.port

/-! ## The steps -/

theorem parseHostChar_userinfo {s : HostState} (hs : s = .userinfoStart ∨ s = .userinfo) (c : Byte) :
    parseHostChar s c =
      if isUserinfoChar c then .userinfo else if c = 64 then .hostStart else .dead := by
  have hat : isUserinfoChar 64 = false := by decide
  rcases hs with rfl | rfl <;> grind [parseHostChar]

theorem parseHostChar_hostV6 (c : Byte) : parseHostChar .hostV6 c =
    if isV6Char c then .hostV6
    else if c = 93 then .hostV6End
    else if c = 37 then .hostV6ZoneStart
    else .dead := by
  have hclose : isV6Char 93 = false := by decide
  grind [parseHostChar, isV6Char]

theorem parseHostChar_hostV6Zone (c : Byte) : parseHostChar .hostV6Zone c =
    if isZoneChar c then .hostV6Zone else if c = 93 then .hostV6End else .dead := by
  have hclose : isZoneChar 93 = false := by decide
  grind [parseHostChar]

section Notes
variable {s s' : HostState} {uf : UrlFields} {p o n : Nat} {u : ParserUrl}

theorem hostNote_first (hs : s ≠ s') : HostScan.note ⟨s, p, u⟩ s' uf = u.mark uf p 1 := by
  rw [HostScan.note, if_neg hs, ParserUrl.grow_begun]

theorem hostNote_next :
    HostScan.note ⟨s, p, u.mark uf o (n + 1)⟩ s uf = u.mark uf o (n + 2) := by
  rw [HostScan.note, if_pos rfl, ParserUrl.grow_mark]

theorem noteHost_first (hs : s ≠ s') (hlen : (u.fieldData .host).len = 0) :
    HostScan.noteHost ⟨s, p, u⟩ s' = u.place p 1 := by
  rw [HostScan.noteHost, if_neg hs]
  show (u.setData .host ⟨UInt16.ofNat p, (u.fieldData .host).len⟩).grow .host = _
  rw [hlen]
  exact ParserUrl.grow_place (n := 0)

theorem noteHost_next : HostScan.noteHost ⟨s, p, u.place o n⟩ s = u.place o (n + 1) := by
  rw [HostScan.noteHost, if_pos rfl, ParserUrl.grow_place]

end Notes

/-- What counts at the end of the loop: that the state may be the last one, and the struct. -/
def HostEnds (Q : ParserUrl → Prop) (v : HostScan) : Prop := v.s.mayEnd = true ∧ Q v.u

section Reading
variable {p o n : Nat} {u : ParserUrl} {text : List Byte} {Q : ParserUrl → Prop}

/-! ## The port -/

theorem reads_hostPortStart :
    Reads hostStep ⟨.hostPortStart, p, u⟩ text (HostEnds Q) ↔
      ∃ d : Word isNum, text = d.1 ∧ Q (u.mark .port p d.1.length) := by
  let after (n : Nat) : HostScan := ⟨.hostPort, p + n, u.mark .port p n⟩
  have hfirst : ∀ c, isNum c = true → hostStep c ⟨.hostPortStart, p, u⟩ = some (after 1) := by
    intro c hc
    simp only [hostStep, parseHostChar, if_pos hc]
    rw [hostNote_first (by simp)]
  have hstay : ∀ n c, isNum c = true → hostStep c (after (n + 1)) = some (after (n + 2)) := by
    intro n c hc
    simp only [hostStep, after, parseHostChar, if_pos hc]
    rw [hostNote_next, Nat.add_assoc]
  have hother : ∀ s, s = HostState.hostPort ∨ s = .hostPortStart → ∀ c q v, isNum c = false →
      hostStep c ⟨s, q, v⟩ = none := by
    intro s hs c q v hc
    rcases hs with rfl | rfl <;> simp only [hostStep, parseHostChar, hc] <;> rfl
  constructor
  · intro hreads
    obtain ⟨d, r, rfl, hstop⟩ := exists_word (hother _ (.inr rfl) · _ _ ·) (by simp [HostEnds, HostState.mayEnd]) hreads
    rw [reads_word after hfirst hstay] at hreads
    cases r with
    | nil =>
        rw [List.append_nil]
        exact ⟨d, rfl, (reads_nil.mp hreads).2⟩
    | cons c r =>
        exact absurd hreads (not_reads_cons (hother _ (.inl rfl) c _ _ (hstop c rfl)))
  · rintro ⟨d, rfl, hQ⟩
    rw [← List.append_nil d.1, reads_word after hfirst hstay, reads_nil]
    exact ⟨rfl, hQ⟩

/-- What follows a host. -/
theorem reads_port {s : HostState} (hs : s = .host ∨ s = .hostV6End)
    (hhead : s = .host → ∀ c ∈ text.head?, isHostChar c = false) :
    Reads hostStep ⟨s, p, u⟩ text (HostEnds Q) ↔
      ∃ port : Option (Word isNum), text = portText port ∧ Q (markPort u p port) := by
  have hstep : ∀ c ∈ text.head?, hostStep c ⟨s, p, u⟩ =
      if c = 58 then some ⟨.hostPortStart, p + 1, u⟩ else none := by
    intro c hc
    have hparse : parseHostChar s c = if c = 58 then .hostPortStart else .dead := by
      rcases hs with rfl | rfl
      · rw [parseHostChar, hhead rfl c hc]
        rfl
      · rfl
    by_cases hcolon : c = 58
    · rw [hostStep, hparse, if_pos hcolon, if_pos hcolon]
    · rw [hostStep, hparse, if_neg hcolon, if_neg hcolon]
  cases text with
  | nil =>
      rw [reads_nil]
      have hend : s.mayEnd = true := by rcases hs with rfl | rfl <;> rfl
      constructor
      · rintro ⟨-, hQ⟩
        exact ⟨none, rfl, hQ⟩
      · rintro ⟨_ | d, htext, hQ⟩
        · exact ⟨hend, hQ⟩
        · cases htext
  | cons c r =>
      have hstep := hstep c rfl
      by_cases hc : c = 58
      · subst hc
        rw [reads_cons_of_some hstep, reads_hostPortStart]
        constructor
        · rintro ⟨d, rfl, hQ⟩
          exact ⟨some d, rfl, hQ⟩
        · rintro ⟨_ | d, htext, hQ⟩
          · cases htext
          · cases htext
            exact ⟨d, rfl, hQ⟩
      · rw [if_neg hc] at hstep
        apply iff_of_false (not_reads_cons hstep)
        rintro ⟨_ | d, htext, -⟩
        · cases htext
        · cases htext
          exact hc rfl

/-! ## The host -/

theorem reads_hostV6ZoneStart {E : HostScan → Prop} (hE : ∀ v, E v → v.s.mayEnd = true) :
    Reads hostStep ⟨.hostV6ZoneStart, p, u.place o n⟩ text E ↔
      ∃ (z : Word isZoneChar) (r : List Byte), text = z.1 ++ 93 :: r ∧
        Reads hostStep ⟨.hostV6End, p + z.1.length + 1, u.place o (n + z.1.length)⟩ r E := by
  let after (k : Nat) : HostScan := ⟨.hostV6Zone, p + k, u.place o (n + k)⟩
  have hgrow : ∀ m, (u.place o m).grow .host = u.place o (m + 1) := fun m => ParserUrl.grow_place
  have hfirst : ∀ c, isZoneChar c = true →
      hostStep c ⟨.hostV6ZoneStart, p, u.place o n⟩ = some (after 1) := by
    intro c hc
    simp only [hostStep, parseHostChar, if_pos hc, hgrow, after]
  have hstay : ∀ k c, isZoneChar c = true → hostStep c (after (k + 1)) = some (after (k + 2)) := by
    intro k c hc
    simp only [hostStep, after, parseHostChar_hostV6Zone, if_pos hc, hgrow]
    rfl
  have hother : ∀ c, isZoneChar c = false →
      hostStep c ⟨.hostV6ZoneStart, p, u.place o n⟩ = none := by
    intro c hc
    simp only [hostStep, parseHostChar, hc]
    rfl
  have hclose : ∀ k, hostStep 93 (after k) =
      some ⟨.hostV6End, p + k + 1, u.place o (n + k)⟩ := fun k => rfl
  constructor
  · intro hreads
    obtain ⟨z, r, rfl, hstop⟩ := exists_word hother (fun h => by cases hE _ h) hreads
    rw [reads_word after hfirst hstay] at hreads
    cases r with
    | nil =>
        have hend := hE _ (reads_nil.mp hreads)
        cases hend
    | cons c r =>
        by_cases hc : c = 93
        · subst hc
          rw [reads_cons_of_some (hclose _)] at hreads
          exact ⟨z, r, rfl, hreads⟩
        · apply absurd hreads
          apply not_reads_cons
          simp only [hostStep, after, parseHostChar_hostV6Zone, hstop c rfl, if_neg hc]
          rfl
  · rintro ⟨z, r, rfl, hreads⟩
    rw [reads_word after hfirst hstay, reads_cons_of_some (hclose _)]
    exact hreads

/-- What follows a `[`. -/
theorem reads_hostV6Start {E : HostScan → Prop} (hE : ∀ v, E v → v.s.mayEnd = true)
    (hlen : (u.fieldData .host).len = 0) :
    Reads hostStep ⟨.hostV6Start, p, u⟩ text E ↔
      ∃ address zone r, text = (Host.v6 address zone).field ++ 93 :: r ∧
        Reads hostStep ⟨.hostV6End, p + (Host.v6 address zone).field.length + 1,
          u.place p (Host.v6 address zone).field.length⟩ r E := by
  let after (k : Nat) : HostScan := ⟨.hostV6, p + k, u.place p k⟩
  have hfirst : ∀ c, isV6Char c = true → hostStep c ⟨.hostV6Start, p, u⟩ = some (after 1) := by
    intro c hc
    have hparse : parseHostChar .hostV6Start c = .hostV6 := if_pos hc
    simp only [hostStep, hparse, after]
    rw [noteHost_first (by simp) hlen]
  have hstay : ∀ k c, isV6Char c = true → hostStep c (after (k + 1)) = some (after (k + 2)) := by
    intro k c hc
    simp only [hostStep, after, parseHostChar_hostV6, if_pos hc, noteHost_next]
    rfl
  have hother : ∀ c, isV6Char c = false → hostStep c ⟨.hostV6Start, p, u⟩ = none := by
    intro c hc
    have hparse : parseHostChar .hostV6Start c = .dead := if_neg (Bool.eq_false_iff.mp hc)
    simp only [hostStep, hparse]
  have hclose : ∀ k, hostStep 93 (after k) = some ⟨.hostV6End, p + k + 1, u.place p k⟩ :=
    fun k => rfl
  have hzone : ∀ k, hostStep 37 (after k) = some ⟨.hostV6ZoneStart, p + k + 1, u.place p (k + 1)⟩ := by
    intro k
    show some (HostScan.mk _ _ ((u.place p k).grow .host)) = _
    rw [ParserUrl.grow_place]
  constructor
  · intro hreads
    obtain ⟨a, r, rfl, hstop⟩ := exists_word hother (fun h => by cases hE _ h) hreads
    rw [reads_word after hfirst hstay] at hreads
    cases r with
    | nil =>
        have hend := hE _ (reads_nil.mp hreads)
        cases hend
    | cons c r =>
        by_cases hc : c = 93
        · subst hc
          rw [reads_cons_of_some (hclose _)] at hreads
          refine ⟨a, none, r, by simp [Host.field], ?_⟩
          simpa [Host.field] using hreads
        · by_cases hpercent : c = 37
          · subst hpercent
            rw [reads_cons_of_some (hzone _), reads_hostV6ZoneStart hE] at hreads
            obtain ⟨z, r, rfl, hreads⟩ := hreads
            have hfield : (Host.v6 a (some z)).field.length = a.1.length + 1 + z.1.length := by
              simp only [Host.field, Option.elim_some, List.length_append, List.length_cons]
              omega
            refine ⟨a, some z, r, by simp [Host.field], ?_⟩
            rw [hfield, ← Nat.add_assoc, ← Nat.add_assoc]
            exact hreads
          · apply absurd hreads
            apply not_reads_cons
            simp only [hostStep, after, parseHostChar_hostV6, hstop c rfl, if_neg hc,
              if_neg hpercent]
            rfl
  · rintro ⟨a, _ | z, r, rfl, hreads⟩
    · have hfield : (Host.v6 a none).field = a.1 := List.append_nil a.1
      rw [hfield] at hreads ⊢
      rw [reads_word after hfirst hstay, reads_cons_of_some (hclose _)]
      exact hreads
    · have hfield : (Host.v6 a (some z)).field.length = a.1.length + 1 + z.1.length := by
        simp only [Host.field, Option.elim_some, List.length_append, List.length_cons]
        omega
      rw [hfield, ← Nat.add_assoc, ← Nat.add_assoc] at hreads
      show Reads hostStep _ ((a.1 ++ 37 :: z.1) ++ 93 :: r) E
      rw [List.append_assoc, reads_word after hfirst hstay, List.cons_append,
        reads_cons_of_some (hzone _), reads_hostV6ZoneStart hE]
      exact ⟨z, r, rfl, hreads⟩

theorem reads_hostStart (hlen : (u.fieldData .host).len = 0) :
    Reads hostStep ⟨.hostStart, p, u⟩ text (HostEnds Q) ↔
      ∃ (h : Host) (port : Option (Word isNum)), text = h.text ++ portText port ∧
        Q (markPort (u.place (p + h.lead.length) h.field.length) (p + h.text.length) port) := by
  let after (k : Nat) : HostScan := ⟨.host, p + k, u.place p k⟩
  have hnot : ∀ c : Byte, isHostChar c = true → c ≠ 91 := by
    rintro c hc rfl
    revert hc
    decide
  have hfirst : ∀ c, isHostChar c = true → hostStep c ⟨.hostStart, p, u⟩ = some (after 1) := by
    intro c hc
    simp only [hostStep, parseHostChar, if_neg (hnot c hc), if_pos hc, after]
    rw [noteHost_first (by simp) hlen]
  have hstay : ∀ k c, isHostChar c = true → hostStep c (after (k + 1)) = some (after (k + 2)) := by
    intro k c hc
    simp only [hostStep, after, parseHostChar, if_pos hc, noteHost_next]
    rfl
  have hbracket : hostStep 91 ⟨.hostStart, p, u⟩ = some ⟨.hostV6Start, p + 1, u⟩ := rfl
  have hends : ∀ v, HostEnds Q v → v.s.mayEnd = true := fun _ h => h.1
  have hport : ∀ port c, c ∈ (portText port).head? → isHostChar c = false := by
    intro port c hc
    cases port with
    | none => cases hc
    | some d =>
        cases hc
        decide
  constructor
  · intro hreads
    by_cases hv6 : ∃ r, text = 91 :: r
    · obtain ⟨r, rfl⟩ := hv6
      rw [reads_cons_of_some hbracket, reads_hostV6Start hends hlen] at hreads
      obtain ⟨address, zone, r, rfl, hreads⟩ := hreads
      obtain ⟨port, rfl, hQ⟩ := (reads_port (.inr rfl) (by simp)).mp hreads
      refine ⟨.v6 address zone, port, by simp [Host.text, Host.lead, Host.trail, portText], ?_⟩
      have hplace : p + (Host.v6 address zone).text.length =
          p + 1 + (Host.v6 address zone).field.length + 1 := by
        simp only [Host.text, Host.lead, Host.trail, List.length_append, List.length_singleton]
        omega
      rw [hplace]
      exact hQ
    · have hother : ∀ c, isHostChar c = false → c ≠ 91 →
          hostStep c ⟨.hostStart, p, u⟩ = none := by
        intro c hc hne
        simp only [hostStep, parseHostChar, if_neg hne, hc]
        rfl
      obtain ⟨⟨w, hw⟩, r, rfl, hstop⟩ := exists_run isHostChar text
      have hne : w ≠ [] := by
        rintro rfl
        cases r with
        | nil =>
            have hend := hends _ (reads_nil.mp hreads)
            cases hend
        | cons c r =>
            have hc : c ≠ 91 := fun hc => hv6 ⟨r, by rw [hc]; rfl⟩
            exact not_reads_cons (hother c (hstop c rfl) hc) hreads
      rw [reads_word after hfirst hstay ⟨w, hne, hw⟩] at hreads
      obtain ⟨port, rfl, hQ⟩ := (reads_port (.inl rfl) (fun _ => hstop)).mp hreads
      refine ⟨.name ⟨w, hne, hw⟩, port, by simp [Host.text, Host.lead, Host.field, Host.trail, portText], ?_⟩
      have htext : (Host.name ⟨w, hne, hw⟩).text = w := List.append_nil w
      rw [htext]
      exact hQ
  · rintro ⟨h, port, rfl, hQ⟩
    cases h with
    | name word =>
        have htext : (Host.name word).text = word.1 := List.append_nil word.1
        rw [htext] at hQ ⊢
        rw [reads_word after hfirst hstay, reads_port (.inl rfl) (fun _ => hport port)]
        exact ⟨port, rfl, hQ⟩
    | v6 address zone =>
        have htext : (Host.v6 address zone).text ++ portText port =
            91 :: ((Host.v6 address zone).field ++ 93 :: portText port) := by
          simp [Host.text, Host.lead, Host.trail]
        have hplace : p + (Host.v6 address zone).text.length =
            p + 1 + (Host.v6 address zone).field.length + 1 := by
          simp only [Host.text, Host.lead, Host.trail, List.length_append, List.length_singleton]
          omega
        rw [htext, reads_cons_of_some hbracket, reads_hostV6Start hends hlen]
        refine ⟨address, zone, _, rfl, ?_⟩
        rw [reads_port (.inr rfl) (by simp)]
        rw [hplace] at hQ
        exact ⟨port, rfl, hQ⟩

/-! ## The user -/

theorem reads_userinfoStart (hlen : (u.fieldData .host).len = 0) :
    Reads hostStep ⟨.userinfoStart, p, u⟩ text (HostEnds Q) ↔
      ∃ (w : Letters isUserinfoChar) (h : Host) (port : Option (Word isNum)),
        text = w.1 ++ 64 :: (h.text ++ portText port) ∧
          Q (Authority.mark u p ⟨some w, h, port⟩) := by
  let after (k : Nat) : HostScan :=
    k.casesOn ⟨.userinfoStart, p, u⟩ fun k => ⟨.userinfo, p + (k + 1), u.mark .userinfo p (k + 1)⟩
  have hafter : ∀ k, (after k).s = .userinfoStart ∨ (after k).s = .userinfo := by
    rintro (_ | k)
    · exact .inl rfl
    · exact .inr rfl
  have hstay : ∀ k c, isUserinfoChar c = true → hostStep c (after k) = some (after (k + 1)) := by
    intro k c hc
    rw [hostStep, parseHostChar_userinfo (hafter k), if_pos hc]
    cases k with
    | zero => exact congrArg (fun v => some (HostScan.mk _ _ v)) (hostNote_first (by simp))
    | succ k => exact congrArg (fun v => some (HostScan.mk _ _ v)) hostNote_next
  have hat : ∀ k, hostStep 64 (after k) =
      some ⟨.hostStart, p + k + 1, u.mark .userinfo p k⟩ := by
    rintro (_ | k)
    · exact congrArg (fun v => some (HostScan.mk _ _ v)) ParserUrl.mark_zero.symm
    · rfl
  have hother : ∀ k c, isUserinfoChar c = false → c ≠ 64 → hostStep c (after k) = none := by
    intro k c hc hne
    rw [hostStep, parseHostChar_userinfo (hafter k), hc, if_neg (by simp), if_neg hne]
  have hlen' : ∀ k, ((u.mark .userinfo p k).fieldData .host).len = 0 := by
    rintro (_ | k)
    · exact hlen
    · exact hlen
  have hmark : ∀ (w : Letters isUserinfoChar) h port, Authority.mark u p ⟨some w, h, port⟩ =
      markPort ((u.mark .userinfo p w.1.length).place (p + w.1.length + 1 + h.lead.length)
        h.field.length) (p + w.1.length + 1 + h.text.length) port := by
    intro w h port
    have hplace : p + (Authority.userinfoText ⟨some w, h, port⟩).length = p + w.1.length + 1 := by
      rw [Authority.userinfoText, Option.elim_some, List.length_append, List.length_singleton,
        Nat.add_assoc]
    rw [Authority.mark, hplace]
    rfl
  constructor
  · intro hreads
    obtain ⟨w, r, rfl, hstop⟩ := exists_run isUserinfoChar text
    have hreads := (reads_run after hstay w).mp hreads
    cases r with
    | nil =>
        have hend : (after w.1.length).s.mayEnd = true := (reads_nil.mp hreads).1
        rcases hafter w.1.length with hs | hs <;> rw [hs] at hend <;> cases hend
    | cons c r =>
        by_cases hc : c = 64
        · subst hc
          rw [reads_cons_of_some (hat _), reads_hostStart (hlen' _)] at hreads
          obtain ⟨h, port, rfl, hQ⟩ := hreads
          refine ⟨w, h, port, rfl, ?_⟩
          rw [hmark]
          exact hQ
        · exact absurd hreads (not_reads_cons (hother _ c (hstop c rfl) hc))
  · rintro ⟨w, h, port, rfl, hQ⟩
    apply (reads_run after hstay w).mpr
    rw [reads_cons_of_some (hat _), reads_hostStart (hlen' _)]
    refine ⟨h, port, rfl, ?_⟩
    rw [hmark] at hQ
    exact hQ

/-- **The second automaton.** It reads an authority, which has a user just when it is started for
one. -/
theorem reads_authority {foundAt : Bool} (hlen : (u.fieldData .host).len = 0) :
    Reads hostStep ⟨if foundAt then .userinfoStart else .hostStart, p, u⟩ text (HostEnds Q) ↔
      ∃ a : Authority, a.userinfo.isSome = foundAt ∧ text = a.text ∧ Q (a.mark u p) := by
  cases foundAt with
  | true =>
      rw [if_pos rfl, reads_userinfoStart hlen]
      constructor
      · rintro ⟨w, h, port, rfl, hQ⟩
        refine ⟨⟨some w, h, port⟩, rfl, ?_, hQ⟩
        simp [Authority.text, Authority.userinfoText]
      · rintro ⟨⟨_ | w, h, port⟩, hsome, rfl, hQ⟩
        · cases hsome
        · refine ⟨w, h, port, ?_, hQ⟩
          simp [Authority.text, Authority.userinfoText]
  | false =>
      rw [if_neg (by simp), reads_hostStart hlen]
      constructor
      · rintro ⟨h, port, rfl, hQ⟩
        exact ⟨⟨none, h, port⟩, rfl, rfl, hQ⟩
      · rintro ⟨⟨_ | w, h, port⟩, hsome, rfl, hQ⟩
        · exact ⟨h, port, rfl, hQ⟩
        · cases hsome

end Reading

/-! ## What the first automaton makes of an authority -/

theorem isServerChar_of_isUserinfoChar (c : Byte) :
    isUserinfoChar c = true → isServerChar c = true ∧ c ≠ 64 := by
  have hat : isUserinfoChar 64 = false := by decide
  grind [isServerChar]

/-- The bytes of a host and of a port are bytes of a user, but for the brackets. -/
theorem isUserinfoChar_of_host (c : Byte) : isHostChar c = true ∨ isV6Char c = true ∨
    isZoneChar c = true ∨ isNum c = true → isUserinfoChar c = true := by
  have hhex : isHex c = true → isAlphanum c = true := by
    intro hc
    simp only [isHex, isAlphanum, isAlpha, Bool.or_eq_true, Bool.and_eq_true, decide_eq_true_eq] at hc ⊢
    exact hc.symm.imp_left fun h => ⟨h.1, UInt8.le_trans h.2 (by decide)⟩
  grind [isUserinfoChar, isHostChar, isV6Char, isZoneChar, isMark, isAlphanum]

namespace Authority

/-- What follows the user has no `@`. -/
theorem hostPort_chars (h : Host) (port : Option (Word isNum)) :
    ∀ c ∈ h.text ++ portText port, isServerChar c = true ∧ c ≠ 64 := by
  have hword : ∀ c, (isHostChar c = true ∨ isV6Char c = true ∨ isZoneChar c = true ∨
      isNum c = true) → isServerChar c = true ∧ c ≠ 64 :=
    fun c hc => isServerChar_of_isUserinfoChar c (isUserinfoChar_of_host c hc)
  have hmark : ∀ c : Byte, c = 91 ∨ c = 93 ∨ c = 37 ∨ c = 58 → isServerChar c = true ∧ c ≠ 64 := by
    rintro c (rfl | rfl | rfl | rfl) <;> decide
  have hport : ∀ c ∈ portText port, isServerChar c = true ∧ c ≠ 64 := by
    intro c hc
    cases port with
    | none => cases hc
    | some d =>
        rcases List.mem_cons.mp hc with rfl | hc
        · exact hmark _ (by simp)
        · exact hword c (.inr (.inr (.inr (d.2.2 c hc))))
  have hhost : ∀ c ∈ h.text, isServerChar c = true ∧ c ≠ 64 := by
    intro c hc
    cases h with
    | name word =>
        have hc : c ∈ word.1 := by simpa [Host.text, Host.lead, Host.field, Host.trail] using hc
        exact hword c (.inl (word.2.2 c hc))
    | v6 address zone =>
        simp only [Host.text, Host.lead, Host.field, Host.trail, List.mem_append,
          List.mem_singleton] at hc
        rcases hc with (rfl | hc | hc) | rfl
        · exact hmark _ (by simp)
        · exact hword c (.inr (.inl (address.2.2 c hc)))
        · cases zone with
          | none => cases hc
          | some z =>
              rcases List.mem_cons.mp hc with rfl | hc
              · exact hmark _ (by simp)
              · exact hword c (.inr (.inr (.inl (z.2.2 c hc))))
        · exact hmark _ (by simp)
  intro c hc
  rcases List.mem_append.mp hc with hc | hc
  · exact hhost c hc
  · exact hport c hc

theorem isServerChar_text (a : Authority) : ∀ c ∈ a.text, isServerChar c = true := by
  intro c hc
  rcases List.mem_append.mp hc with hc | hc
  · obtain ⟨_ | w, h, port⟩ := a
    · cases hc
    · rcases List.mem_append.mp hc with hc | hc
      · exact (isServerChar_of_isUserinfoChar c (w.2 c hc)).1
      · rw [List.mem_singleton.mp hc]
        decide
  · exact (hostPort_chars a.host a.port c hc).1

/-- There is an `@` just when there is a user. -/
theorem contains_text (a : Authority) : a.text.contains 64 = a.userinfo.isSome := by
  have hrest : (a.host.text ++ portText a.port).contains 64 = false := by
    rw [List.contains_eq_mem, decide_eq_false_iff_not]
    intro hmem
    exact (hostPort_chars a.host a.port 64 hmem).2 rfl
  obtain ⟨_ | w, h, port⟩ := a
  · exact hrest
  · simp [text, userinfoText]

/-- It is the only one. -/
theorem atsApart_text (a : Authority) : AtsApart a.text := by
  apply List.Pairwise.isChain
  have hrest : ∀ c ∈ a.host.text ++ portText a.port, c ≠ 64 :=
    fun c hc => (hostPort_chars a.host a.port c hc).2
  apply List.pairwise_append.mpr
  refine ⟨?_, List.pairwise_of_forall_mem_list fun c _ d hd _ => hrest d hd,
    fun c _ d hd _ => hrest d hd⟩
  obtain ⟨_ | w, h, port⟩ := a
  · exact List.Pairwise.nil
  · have huser : ∀ c ∈ w.1, c ≠ 64 := fun c hc => (isServerChar_of_isUserinfoChar c (w.2 c hc)).2
    apply List.pairwise_append.mpr
    exact ⟨List.pairwise_of_forall_mem_list fun c hc _ _ heq => absurd heq (huser c hc),
      List.pairwise_singleton _ _, fun c hc _ _ heq => absurd heq (huser c hc)⟩

end Authority

end Unp.Http.HttpParser
