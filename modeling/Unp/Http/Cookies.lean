import Unp.Lib.FirstWins
import Unp.Http.Message

/-!
# Cookies, formatted and parsed

`parseCookie` cuts the cookie at `=` and at `"; "`. Behind the last value there is no `"; "`; the
position is `-1` then, and that is less than the size as well, so the rest loses a byte before it
becomes the value, and the loop goes on with it.

What `parseCookie` leaves in `cookies_` is compared here with the pairs the cookie was made of.
-/

namespace Unp.Http

open Unp.Machine Unp.Util Unp.Border

/-! ## The map -/

/-- The keys of `std::map` are the same when neither is less. One without a `=` has the size
`2 ^ 64 - 1`, and is no other key. -/
def sameKey : Option (List Byte) → Option (List Byte) → Bool
  | some s, some t => !rangeLess s t && !rangeLess t s
  | _, _ => false

theorem sameKey_some (s t : List Byte) : sameKey (some s) (some t) = rangeEqual s t := by
  rw [Bool.eq_iff_iff, ← not_rangeLess_iff, sameKey]
  simp

theorem sameKey_comm (s t : Option (List Byte)) : sameKey s t = sameKey t s := by
  match s, t with
  | some s, some t => rw [sameKey_some, sameKey_some, rangeEqual_comm]
  | some s, none => rfl
  | none, some t => rfl
  | none, none => rfl

theorem sameKey_refl (s : List Byte) : sameKey (some s) (some s) = true := by
  rw [sameKey_some, rangeEqual_iff]
  exact ⟨rfl, rfl⟩

/-- `cookies_` after the calls of `insert`. -/
def cookiesOf (inserts : List CookieInsert) : List CookieInsert :=
  FirstWins.insertAll sameKey [] inserts

/-! ## The format -/

abbrev CookiePair := List Byte × List Byte

/-- `k1=v1; k2=v2; ...; kn=vn`. -/
def formatCookies : List CookiePair → List Byte
  | [] => []
  | [(k, v)] => k ++ ascii "=" ++ v
  | (k, v) :: pairs => k ++ ascii "=" ++ v ++ ascii "; " ++ formatCookies pairs

/-- The pairs of a cookie: nothing in them reads like a separator that would end them. -/
structure IsCookie (pairs : List CookiePair) : Prop where
  nonempty : pairs ≠ []
  keys : ∀ p ∈ pairs, p.1 ≠ [] ∧ 61 ∉ p.1 ∧ ¬ ascii "; " <:+: p.1
  values : ∀ p ∈ pairs, p.2 ≠ [] ∧ ¬ ascii "; " <:+: p.2
  short : (formatCookies pairs).length < 2 ^ 31

/-- `parseCookie` returns, and what is in `cookies_` then is the first value of every key. -/
def Inverts (pairs : List CookiePair) : Prop :=
  ∃ inserts, HttpMessage.parseCookie (formatCookies pairs) = .ok inserts ∧
    ∀ e, e ∈ cookiesOf inserts ↔ ∃ k v, e = (some k, v) ∧ pairs.lookup k = some v

theorem formatCookies_cons (k v : List Byte) {pairs : List CookiePair} (hne : pairs ≠ []) :
    formatCookies ((k, v) :: pairs) = k ++ 61 :: (v ++ 59 :: 32 :: formatCookies pairs) := by
  have heq : ascii "=" = [61] := by decide +kernel
  match pairs, hne with
  | p :: pairs, _ =>
      rw [formatCookies, heq, HttpMessage.semicolon_bytes]
      · simp
      · simp

theorem formatCookies_singleton (k v : List Byte) : formatCookies [(k, v)] = k ++ 61 :: v := by
  have heq : ascii "=" = [61] := by decide +kernel
  rw [formatCookies, heq]
  simp

namespace HttpMessage

/-! ## One round -/

theorem find_append {key : List Byte} (hkey : 61 ∉ key) (u : List Byte) :
    find 61 (key ++ 61 :: u) = key.length := by
  have hnone : key.findIdx? (fun c => decide (c = 61)) = none := by
    rw [List.findIdx?_eq_none_iff]
    intro c hc
    exact decide_eq_false fun heq => hkey (heq ▸ hc)
  rw [find, List.findIdx?_append, hnone, List.findIdx?_cons, if_pos (decide_eq_true rfl)]
  simp

theorem find_none {s : List Byte} (hs : 61 ∉ s) : find 61 s = npos := by
  have hnone : s.findIdx? (fun c => decide (c = 61)) = none := by
    rw [List.findIdx?_eq_none_iff]
    intro c hc
    exact decide_eq_false fun heq => hs (heq ▸ hc)
  rw [find, hnone]
  rfl

theorem subString_drop {s : List Byte} {first len : Nat} (hfirst : first ≤ s.length)
    (hlen : s.length - first ≤ len) : subString s first len = .ok (s.drop first) := by
  rw [subString, if_neg (by omega), Nat.min_eq_right hlen, ← List.length_drop, List.take_length]

/-- What a round adds in front of what the later ones insert. -/
def keep (key : Option (List Byte)) (value : List Byte) (inserts : List CookieInsert) :
    List CookieInsert :=
  if key ≠ some [] ∧ value ≠ [] then (key, value) :: inserts else inserts

/-- How a round cuts at `=`: into a key and what is behind the `=`. Without a `=` the key is no
range, and everything is left. -/
inductive CutAtEqual : List Byte → Option (List Byte) → List Byte → Prop
  | found {k u : List Byte} : 61 ∉ k → CutAtEqual (k ++ 61 :: u) (some k) u
  | missing {s : List Byte} : s ≠ [] → 61 ∉ s → CutAtEqual s none s

theorem exists_cutAtEqual {s : List Byte} (hs : s ≠ []) : ∃ key u, CutAtEqual s key u := by
  by_cases h : 61 ∈ s
  · obtain ⟨k, u, rfl, hk⟩ := List.eq_append_cons_of_mem h
    exact ⟨some k, u, .found hk⟩
  · exact ⟨none, s, .missing hs h⟩

/-- A round, after the key. -/
theorem parseCookieLoop_cut {s u : List Byte} {key : Option (List Byte)} (fuel : Nat)
    (value : List Byte) (hcut : CutAtEqual s key u) (hlen : s.length < 2 ^ 31) :
    parseCookieLoop (fuel + 1) s value =
      (kmpSearch u (ascii "; ") >>= fun posCol => cutValue posCol u value) >>= fun cut =>
        parseCookieLoop fuel cut.2 cut.1 >>= fun inserts => pure (keep key cut.1 inserts) := by
  have hint : i32 s.length = s.length := by
    unfold i32
    omega
  cases hcut with
  | @found k u hk =>
      have hne : ¬ k ++ 61 :: u = [] := by simp
      have hlength : (k ++ 61 :: u).length = k.length + (u.length + 1) := by simp
      have hpos : i32 k.length = k.length := by
        unfold i32
        omega
      have hfirst : u64 (k.length + 1) = k.length + 1 := u64_of_lt (by omega)
      have hrest : u64OfInt ((k ++ 61 :: u).length - k.length - 1) = u.length := by
        rw [hlength]
        unfold u64OfInt
        omega
      have hnpos : ¬ k.length = npos := by
        unfold npos
        omega
      have hdrop : (k ++ 61 :: u).drop (k.length + 1) = u := by
        rw [← List.drop_drop, List.drop_left, List.drop_succ_cons, List.drop_zero]
      rw [parseCookieLoop, if_neg hne, find_append hk, if_pos (by omega), hfirst, hrest,
        subString_drop (by omega) (by omega), ok_bind, hdrop, if_neg hnpos, List.take_left, bind_assoc]
      rfl
  | missing hne hs =>
      have hpos : i32 npos = -1 := by decide +kernel
      have hfirst : u64 (npos + 1) = 0 := by decide +kernel
      have hrest : u64OfInt (s.length - npos - 1) = s.length := by
        unfold u64OfInt npos
        omega
      rw [parseCookieLoop, if_neg hne, find_none hs]
      dsimp only
      rw [hpos, if_pos (by omega), hfirst, hrest, subString_drop (Nat.zero_le _) (by omega), ok_bind,
        List.drop_zero, if_pos rfl, bind_assoc]
      rfl

theorem CutAtEqual.suffix {s u : List Byte} {key : Option (List Byte)} (h : CutAtEqual s key u) :
    u <:+ s := by
  cases h with
  | @found k u _ => exact ⟨k ++ [61], by simp⟩
  | missing _ _ => exact List.suffix_refl s

/-! ### The search for the separator -/

theorem keepsBorders_semicolon : KeepsBorders (ascii "; ") (2 ^ 31 - 1) := by decide +kernel

theorem firstAt_separator {v : List Byte} (hv : ¬ ascii "; " <:+: v) (rest : List Byte) :
    FirstAt (ascii "; ") (v ++ 59 :: 32 :: rest) v.length := by
  rw [semicolon_bytes] at hv ⊢
  constructor
  · rw [OccursAt, List.drop_left]
    exact ⟨rest, rfl⟩
  · intro o ho hoccurs
    rw [OccursAt, List.drop_append_of_le_length (Nat.le_of_lt ho)] at hoccurs
    have hsuffix : v.drop o <:+ v := List.drop_suffix o v
    rcases hcut : v.drop o with _ | ⟨c, _ | ⟨d, w⟩⟩
    · have := List.drop_eq_nil_iff.mp hcut
      omega
    · rw [hcut] at hoccurs
      simp at hoccurs
    · rw [hcut] at hoccurs hsuffix
      rw [List.cons_append, List.cons_append, List.cons_prefix_cons, List.cons_prefix_cons]
        at hoccurs
      obtain ⟨rfl, rfl, -⟩ := hoccurs
      exact hv (List.IsInfix.trans ⟨[], w, rfl⟩ hsuffix.isInfix)

theorem not_occursAt {p s : List Byte} (h : ¬ p <:+: s) (o : Nat) : ¬ OccursAt p s o :=
  fun hoccurs => h (hoccurs.isInfix.trans (List.drop_suffix o s).isInfix)

/-- A value with a pair behind it is cut right. -/
theorem cutValue_middle {v rest : List Byte} (value : List Byte) (hv : ¬ ascii "; " <:+: v)
    (hlen : (v ++ 59 :: 32 :: rest).length < 2 ^ 31) :
    (kmpSearch (v ++ 59 :: 32 :: rest) (ascii "; ") >>= fun posCol =>
      cutValue posCol (v ++ 59 :: 32 :: rest) value) = .ok (v, rest) := by
  have hlength : (v ++ 59 :: 32 :: rest).length = v.length + (rest.length + 2) := by simp
  have hint : i32 (v ++ 59 :: 32 :: rest).length = (v ++ 59 :: 32 :: rest).length := by
    unfold i32
    omega
  have hfirst : u64OfInt ((v.length : Int) + 2) = v.length + 2 := by
    unfold u64OfInt
    omega
  have hrest : u64OfInt ((v ++ 59 :: 32 :: rest).length - (v.length : Int) - 2) = rest.length := by
    rw [hlength]
    unfold u64OfInt
    omega
  have hdrop : (v ++ 59 :: 32 :: rest).drop (v.length + 2) = rest := by
    rw [← List.drop_drop, List.drop_left]
    rfl
  rw [kmpSearch_first (by decide +kernel) hlen (by decide +kernel)
      (keepsBorders_semicolon.mono (by omega)) (firstAt_separator hv rest), ok_bind, cutValue, hint,
    if_pos (by omega), hfirst, hrest, subString_drop (by omega) (by omega), ok_bind, hdrop,
    if_neg (by omega), Int.toNat_natCast, List.take_left]
  rfl

/-- Without a separator the value loses its first byte, and what is left is the value again. -/
theorem cutValue_last {u : List Byte} (value : List Byte) (hu : ¬ ascii "; " <:+: u)
    (hlen : u.length < 2 ^ 31) :
    (kmpSearch u (ascii "; ") >>= fun posCol => cutValue posCol u value) =
      if u = [] then .error .exception else .ok (u.tail, u.tail) := by
  have hint : i32 u.length = u.length := by
    unfold i32
    omega
  rw [kmpSearch_absent hlen (by decide +kernel) (not_occursAt hu), ok_bind, cutValue,
    hint, if_pos (by omega), show u64OfInt (-1 + 2) = 1 by decide +kernel]
  by_cases hnil : u = []
  · rw [if_pos hnil, hnil]
    rfl
  · have hpos := List.length_pos_iff.mpr hnil
    have hrest : u64OfInt ((u.length : Int) - -1 - 2) = u.length - 1 := by
      unfold u64OfInt
      omega
    rw [if_neg hnil, hrest, subString_drop (by omega) (by omega), ok_bind, if_pos (by decide),
      List.drop_one]
    rfl

/-! ## The rest of the last value -/

theorem parseCookieLoop_tail {s u : List Byte} {key : Option (List Byte)} {c : Byte} (fuel : Nat)
    (value : List Byte) (hcut : CutAtEqual s key (c :: u)) (hlen : s.length < 2 ^ 31)
    (hu : ¬ ascii "; " <:+: c :: u) :
    parseCookieLoop (fuel + 1) s value =
      parseCookieLoop fuel u u >>= fun inserts => pure (keep key u inserts) := by
  have hlength := hcut.suffix.length_le
  rw [parseCookieLoop_cut fuel value hcut hlen, cutValue_last value hu (by omega),
    if_neg (by simp), ok_bind]
  rfl

/-- A `=` at the very end: the exception of `sub_string`. -/
theorem parseCookieLoop_throws {s : List Byte} {key : Option (List Byte)} (fuel : Nat)
    (value : List Byte) (hcut : CutAtEqual s key []) (hlen : s.length < 2 ^ 31) :
    parseCookieLoop (fuel + 1) s value = .error .exception := by
  rw [parseCookieLoop_cut fuel value hcut hlen,
    cutValue_last value (by rw [semicolon_bytes]; simp) (by simp), if_pos rfl, error_bind]

theorem insertAll_keep_iff {m : List CookieInsert} {key : Option (List Byte)} {value : List Byte}
    {inserts : List CookieInsert} :
    FirstWins.insertAll sameKey m (keep key value inserts) = m ↔
      (key = some [] ∨ value = [] ∨ FirstWins.Has sameKey m key) ∧
        FirstWins.insertAll sameKey m inserts = m := by
  rw [keep]
  split
  · next h => simp [FirstWins.insertAll_cons_eq_self_iff, h.1, h.2]
  · next h =>
    have hskip : key = some [] ∨ value = [] := by
      by_contra hne
      exact h (not_or.mp hne)
    rcases hskip with hskip | hskip <;> simp [hskip]

/-- A rest that the loop can go over without an exception and without a new key. A key that is known
already is not inserted again. -/
inductive Harmless (known : List Byte → Prop) : List Byte → Prop
  | nil : Harmless known []
  | last {c : Byte} : c ≠ 61 → Harmless known [c]
  | pair {k s : List Byte} {c : Byte} : 61 ∉ k → k = [] ∨ s = [] ∨ known k → Harmless known s →
      Harmless known (k ++ 61 :: c :: s)

theorem CutAtEqual.unique {k u k' u' : List Byte} (hk : 61 ∉ k) (hk' : 61 ∉ k')
    (heq : k ++ 61 :: u = k' ++ 61 :: u') : k = k' ∧ u = u' := by
  have hlen : k.length = k'.length := by rw [← find_append hk u, heq, find_append hk' u']
  obtain ⟨hkeys, htails⟩ := List.append_inj heq hlen
  exact ⟨hkeys, (List.cons.inj htails).2⟩

theorem harmless_pair_iff {known : List Byte → Prop} {k u : List Byte} (hk : 61 ∉ k) :
    Harmless known (k ++ 61 :: u) ↔
      ∃ c s, u = c :: s ∧ (k = [] ∨ s = [] ∨ known k) ∧ Harmless known s := by
  constructor
  · intro h
    generalize hwhole : k ++ 61 :: u = whole at h
    cases h with
    | nil => simp at hwhole
    | @last c hc =>
        cases k with
        | nil => exact absurd (List.cons.inj hwhole).1.symm hc
        | cons a k => simp at hwhole
    | @pair k' s c hk' hknown hs =>
        obtain ⟨rfl, rfl⟩ := CutAtEqual.unique hk hk' hwhole
        exact ⟨c, s, rfl, hknown, hs⟩
  · rintro ⟨c, s, rfl, hknown, hs⟩
    exact .pair hk hknown hs

theorem harmless_missing_iff {known : List Byte → Prop} {c : Byte} {s : List Byte}
    (hs : 61 ∉ c :: s) : Harmless known (c :: s) ↔ s = [] := by
  constructor
  · intro h
    generalize hwhole : c :: s = whole at h
    cases h with
    | nil => cases hwhole
    | last _ => exact (List.cons.inj hwhole).2
    | pair _ _ _ => exact absurd (hwhole ▸ hs) (by simp)
  · rintro rfl
    exact .last fun heq => hs (by simp [heq])

/-- **What the rest does.** The loop goes over it and leaves the map as it is exactly when the rest
is harmless. By induction on the rounds, one case for each way to cut. -/
theorem tail_harmless_iff {m : List CookieInsert} {fuel : Nat} {s : List Byte} (value : List Byte)
    (hfuel : s.length < fuel) (hlen : s.length < 2 ^ 31) (hsep : ¬ ascii "; " <:+: s) :
    (∃ inserts, parseCookieLoop fuel s value = .ok inserts ∧
      FirstWins.insertAll sameKey m inserts = m) ↔
        Harmless (fun k => FirstWins.Has sameKey m (some k)) s := by
  induction fuel generalizing s value with
  | zero => omega
  | succ fuel ih =>
      by_cases hnil : s = []
      · subst hnil
        exact iff_of_true ⟨[], rfl, rfl⟩ .nil
      · obtain ⟨key, u, hcut⟩ := exists_cutAtEqual hnil
        have hlength := hcut.suffix.length_le
        cases u with
        | nil =>
            rw [parseCookieLoop_throws fuel value hcut hlen]
            refine iff_of_false (by simp) ?_
            cases hcut with
            | found hk =>
                rw [harmless_pair_iff hk]
                simp
            | missing hne _ => exact absurd rfl hne
        | cons c u =>
            rw [List.length_cons] at hlength
            have hsuffix : u <:+ s := (List.suffix_cons c u).trans hcut.suffix
            rw [parseCookieLoop_tail fuel value hcut hlen fun h => hsep (h.trans hcut.suffix.isInfix)]
            have hrest := ih u (by omega) (by omega) fun hu => hsep (hu.trans hsuffix.isInfix)
            have hround : (∃ inserts, (parseCookieLoop fuel u u >>= fun inserts =>
                pure (keep key u inserts)) = .ok inserts ∧
                  FirstWins.insertAll sameKey m inserts = m) ↔
                (key = some [] ∨ u = [] ∨ FirstWins.Has sameKey m key) ∧
                  Harmless (fun k => FirstWins.Has sameKey m (some k)) u := by
              rw [← hrest]
              constructor
              · rintro ⟨all, hall, hsame⟩
                obtain ⟨inserts, hloop, hkeep⟩ := bind_eq_ok hall
                cases hkeep
                obtain ⟨hkey, hsame⟩ := insertAll_keep_iff.mp hsame
                exact ⟨hkey, inserts, hloop, hsame⟩
              · rintro ⟨hkey, inserts, hloop, hsame⟩
                refine ⟨keep key u inserts, ?_, insertAll_keep_iff.mpr ⟨hkey, hsame⟩⟩
                rw [hloop, ok_bind, pure_eq_ok]
            rw [hround]
            cases hcut with
            | found hk =>
                rw [harmless_pair_iff hk]
                simp
            | missing _ hs =>
                rw [harmless_missing_iff hs]
                have hnone : ¬ FirstWins.Has sameKey m none := by
                  rintro ⟨e, -, he⟩
                  cases he
                constructor
                · rintro ⟨hkey | hu | hkey, -⟩
                  · cases hkey
                  · exact hu
                  · exact absurd hkey hnone
                · rintro rfl
                  exact ⟨Or.inr (Or.inl rfl), .nil⟩

/-- The values of the rest are shorter than it. -/
theorem length_of_mem_tail {fuel : Nat} {s : List Byte} {value : List Byte}
    {inserts : List CookieInsert} (hlen : s.length < 2 ^ 31) (hsep : ¬ ascii "; " <:+: s)
    (h : parseCookieLoop fuel s value = .ok inserts) : ∀ e ∈ inserts, e.2.length < s.length := by
  induction fuel generalizing s value inserts with
  | zero => cases h
  | succ fuel ih =>
      by_cases hnil : s = []
      · subst hnil
        cases h
        simp
      · obtain ⟨key, u, hcut⟩ := exists_cutAtEqual hnil
        have hlength := hcut.suffix.length_le
        cases u with
        | nil =>
            rw [parseCookieLoop_throws fuel value hcut hlen] at h
            cases h
        | cons c u =>
            rw [List.length_cons] at hlength
            have hsuffix : u <:+ s := (List.suffix_cons c u).trans hcut.suffix
            rw [parseCookieLoop_tail fuel value hcut hlen fun h =>
              hsep (h.trans hcut.suffix.isInfix)] at h
            obtain ⟨rest, hloop, hkeep⟩ := bind_eq_ok h
            have hshort := ih (by omega) (fun hu => hsep (hu.trans hsuffix.isInfix)) hloop
            cases hkeep
            intro e he
            rw [keep] at he
            split at he
            · rcases List.mem_cons.mp he with rfl | he
              · show u.length < s.length
                omega
              · have := hshort e he
                omega
            · have := hshort e he
              omega

/-! ## The pairs before the last -/

/-- The calls of `insert` for pairs that are cut right. -/
def insertsOf (pairs : List CookiePair) : List CookieInsert := pairs.map fun p => (some p.1, p.2)

/-- The loop cuts every pair but the last as it was written. -/
theorem parseCookieLoop_pairs {init : List CookiePair} {k v : List Byte} {fuel : Nat}
    (value : List Byte)
    (hkeys : ∀ p ∈ init, p.1 ≠ [] ∧ 61 ∉ p.1) (hvalues : ∀ p ∈ init, p.2 ≠ [] ∧ ¬ ascii "; " <:+: p.2)
    (hfuel : (formatCookies (init ++ [(k, v)])).length < fuel)
    (hlen : (formatCookies (init ++ [(k, v)])).length < 2 ^ 31) :
    ∃ fuel' value', (k ++ 61 :: v).length < fuel' ∧ (k ++ 61 :: v).length < 2 ^ 31 ∧
      parseCookieLoop fuel (formatCookies (init ++ [(k, v)])) value =
        parseCookieLoop fuel' (k ++ 61 :: v) value' >>= fun inserts =>
          pure (insertsOf init ++ inserts) := by
  induction init generalizing fuel value with
  | nil =>
      rw [List.nil_append, formatCookies_singleton] at hfuel hlen ⊢
      exact ⟨fuel, value, hfuel, hlen, (bind_pure _).symm⟩
  | cons p init ih =>
      obtain ⟨key, val⟩ := p
      obtain ⟨hkey, hkeys⟩ := List.forall_mem_cons.mp hkeys
      obtain ⟨hvalue, hvalues⟩ := List.forall_mem_cons.mp hvalues
      have hne : init ++ [(k, v)] ≠ [] := by simp
      rw [List.cons_append, formatCookies_cons key val hne] at hfuel hlen ⊢
      simp only [List.length_append, List.length_cons] at hfuel hlen
      obtain ⟨fuel, rfl⟩ : ∃ f, fuel = f + 1 := ⟨fuel - 1, by omega⟩
      obtain ⟨fuel', value', hfuel', hlen', hrest⟩ :=
        @ih fuel val hkeys hvalues (by omega) (by omega)
      refine ⟨fuel', value', hfuel', hlen', ?_⟩
      rw [parseCookieLoop_cut fuel value (.found hkey.2) (by simp; omega),
        cutValue_middle value hvalue.2 (by simp; omega), ok_bind, hrest, bind_assoc]
      apply congrArg
      funext inserts
      have hsome : some key ≠ some [] := fun heq => hkey.1 (Option.some.inj heq)
      rw [pure_eq_ok, ok_bind, keep, if_pos ⟨hsome, hvalue.1⟩]
      rfl

/-- The last pair is inserted without the first byte of its value, and the loop goes on. -/
theorem parseCookie_eq {init : List CookiePair} {k v : List Byte} {c : Byte}
    (h : IsCookie (init ++ [(k, c :: v)])) :
    ∃ fuel, v.length < fuel ∧ v.length < 2 ^ 31 ∧
      parseCookie (formatCookies (init ++ [(k, c :: v)])) =
        parseCookieLoop fuel v v >>= fun inserts =>
          pure (insertsOf init ++ keep (some k) v inserts) := by
  have hlast : (k, c :: v) ∈ init ++ [(k, c :: v)] := by simp
  obtain ⟨fuel, value, hfuel, hlen, hloop⟩ := parseCookieLoop_pairs []
    (fun p hp => have := h.keys p (List.mem_append_left _ hp); ⟨this.1, this.2.1⟩)
    (fun p hp => h.values p (List.mem_append_left _ hp)) (Nat.lt_succ_self _) h.short
  have hlength : (k ++ 61 :: c :: v).length = k.length + (v.length + 2) := by simp
  obtain ⟨fuel, rfl⟩ : ∃ f, fuel = f + 1 := ⟨fuel - 1, by omega⟩
  refine ⟨fuel, by omega, by omega, ?_⟩
  rw [parseCookie, hloop, parseCookieLoop_tail fuel value (.found (h.keys _ hlast).2.1) hlen
    (h.values _ hlast).2, bind_assoc]
  rfl

end HttpMessage

open HttpMessage

/-! ## When the map is right -/

theorem cookiesOf_append (es es' : List CookieInsert) :
    cookiesOf (es ++ es') = FirstWins.insertAll sameKey (cookiesOf es) es' :=
  FirstWins.insertAll_append [] es es'

theorem lookup_insertsOf (pairs : List CookiePair) (k : List Byte) :
    (insertsOf pairs).lookup (some k) = pairs.lookup k := by
  rw [insertsOf, List.lookup_eq_findSome?, List.lookup_eq_findSome?, List.findSome?_map]
  rfl

/-- The keys differ before their first zero byte, so that they are different keys of the map. -/
def Distinct (pairs : List CookiePair) : Prop :=
  ∀ p ∈ pairs, ∀ q ∈ pairs, rangeEqual p.1 q.1 = true → p.1 = q.1

theorem mem_cookiesOf_insertsOf {pairs : List CookiePair} (h : Distinct pairs) (e : CookieInsert) :
    e ∈ cookiesOf (insertsOf pairs) ↔ ∃ k v, e = (some k, v) ∧ pairs.lookup k = some v := by
  have hsame : ∀ a ∈ insertsOf pairs, ∀ b ∈ insertsOf pairs,
      sameKey a.1 b.1 = true ↔ a.1 = b.1 := by
    intro a ha b hb
    obtain ⟨p, hp, rfl⟩ := List.mem_map.mp ha
    obtain ⟨q, hq, rfl⟩ := List.mem_map.mp hb
    rw [sameKey_some]
    constructor
    · exact fun hequal => congrArg some (h p hp q hq hequal)
    · intro heq
      rw [Option.some.inj heq, rangeEqual_iff]
      exact ⟨rfl, rfl⟩
  rw [cookiesOf, FirstWins.mem_insertAll_iff hsame]
  obtain ⟨key, v⟩ := e
  cases key with
  | none =>
      refine iff_of_false ?_ fun ⟨k, v, heq, _⟩ => by cases heq
      rw [List.lookup_eq_some_iff]
      rintro ⟨before, after, heq, -⟩
      have hmem : (none, v) ∈ insertsOf pairs := by
        rw [heq]
        simp
      obtain ⟨p, -, hp⟩ := List.mem_map.mp hmem
      cases hp
  | some k =>
      rw [lookup_insertsOf]
      constructor
      · exact fun hfound => ⟨k, v, rfl, hfound⟩
      · rintro ⟨k', v', heq, hfound⟩
        cases heq
        exact hfound

/-- The last key has come before, so that its value does not matter; the rest of that value, without
its first byte, adds nothing; and the map tells the keys apart. -/
def LastRepeats (pairs : List CookiePair) : Prop :=
  ∃ init k v, pairs = init ++ [(k, v)] ∧ k ∈ init.map Prod.fst ∧ Distinct pairs ∧
    Harmless (fun k' => ∃ p ∈ init, rangeEqual k' p.1 = true) v.tail

theorem distinct_init {init : List CookiePair} {p : CookiePair} (h : Distinct (init ++ [p])) :
    Distinct init := fun q hq r hr => h q (List.mem_append_left _ hq) r (List.mem_append_left _ hr)

/-- A key that came before has its first value before. -/
theorem lookup_append_of_mem {init : List CookiePair} {p : CookiePair} (hmem : p.1 ∈ init.map Prod.fst)
    (k : List Byte) : (init ++ [p]).lookup k = init.lookup k := by
  rw [List.lookup_append]
  cases hfound : init.lookup k with
  | some v => rfl
  | none =>
      have hne : ¬ k = p.1 := by
        rintro rfl
        obtain ⟨q, hq, heq⟩ := List.mem_map.mp hmem
        have := List.lookup_eq_none_iff.mp hfound q hq
        simp [heq] at this
      rw [List.lookup_eq_findSome?, List.findSome?_singleton]
      simp [hne]

theorem has_cookiesOf_insertsOf {pairs : List CookiePair} (h : Distinct pairs) (k : List Byte) :
    FirstWins.Has sameKey (cookiesOf (insertsOf pairs)) (some k) ↔
      ∃ p ∈ pairs, rangeEqual k p.1 = true := by
  constructor
  · rintro ⟨e, he, hsame⟩
    obtain ⟨k', v, rfl, hfound⟩ := (mem_cookiesOf_insertsOf h e).mp he
    obtain ⟨before, after, heq, -⟩ := List.lookup_eq_some_iff.mp hfound
    rw [sameKey_some] at hsame
    exact ⟨(k', v), by rw [heq]; simp, hsame⟩
  · rintro ⟨p, hp, hequal⟩
    have hsome : (pairs.lookup p.1).isSome = true :=
      List.lookup_isSome_iff.mpr ⟨p, hp, beq_self_eq_true p.1⟩
    obtain ⟨v, hv⟩ := Option.isSome_iff_exists.mp hsome
    refine ⟨(some p.1, v), (mem_cookiesOf_insertsOf h _).mpr ⟨p.1, v, rfl, hv⟩, ?_⟩
    rwa [sameKey_some]

theorem harmless_congr {P Q : List Byte → Prop} (h : ∀ k, P k ↔ Q k) (s : List Byte) :
    Harmless P s ↔ Harmless Q s := by
  rw [show P = Q from funext fun k => propext (h k)]

/-- What is in the map after the pairs before the last stays the map exactly when the last adds
nothing. -/
theorem inverts_of_unchanged {init : List CookiePair} {k v : List Byte} {inserts : List CookieInsert}
    (hparse : parseCookie (formatCookies (init ++ [(k, v)])) = .ok inserts)
    (hdistinct : Distinct (init ++ [(k, v)])) (hmem : k ∈ init.map Prod.fst)
    (hsame : cookiesOf inserts = cookiesOf (insertsOf init)) : Inverts (init ++ [(k, v)]) := by
  refine ⟨inserts, hparse, ?_⟩
  intro e
  rw [hsame, mem_cookiesOf_insertsOf (distinct_init hdistinct)]
  have hlookup := lookup_append_of_mem (p := (k, v)) hmem
  simp only [hlookup]

/-- The keys of a map that is right are told apart. -/
theorem Inverts.distinct {pairs : List CookiePair} (h : Inverts pairs) : Distinct pairs := by
  obtain ⟨inserts, -, hmap⟩ := h
  have hentry : ∀ p ∈ pairs, ∃ v, (some p.1, v) ∈ cookiesOf inserts := by
    intro p hp
    have hsome : (pairs.lookup p.1).isSome = true :=
      List.lookup_isSome_iff.mpr ⟨p, hp, beq_self_eq_true p.1⟩
    obtain ⟨v, hv⟩ := Option.isSome_iff_exists.mp hsome
    exact ⟨v, (hmap _).mpr ⟨p.1, v, rfl, hv⟩⟩
  intro p hp q hq hequal
  obtain ⟨v, hv⟩ := hentry p hp
  obtain ⟨w, hw⟩ := hentry q hq
  have hapart : FirstWins.Apart sameKey (cookiesOf inserts) :=
    FirstWins.Apart.insertAll List.Pairwise.nil inserts
  have heq := hapart.eq_of_same sameKey_comm hv hw (by rwa [sameKey_some])
  exact Option.some.inj (congrArg Prod.fst heq)

/-- Two pairs that come out as `k1=v1; k2=2`. -/
theorem parseCookie_last_value :
    IsCookie [(ascii "k1", ascii "v1"), (ascii "k2", ascii "v2")] ∧
      parseCookie (formatCookies [(ascii "k1", ascii "v1"), (ascii "k2", ascii "v2")]) =
        .ok [(some (ascii "k1"), ascii "v1"), (some (ascii "k2"), ascii "2")] ∧
      ¬ Inverts [(ascii "k1", ascii "v1"), (ascii "k2", ascii "v2")] := by
  have hparse : parseCookie (formatCookies [(ascii "k1", ascii "v1"), (ascii "k2", ascii "v2")]) =
      .ok [(some (ascii "k1"), ascii "v1"), (some (ascii "k2"), ascii "2")] := by decide +kernel
  refine ⟨⟨by simp, by decide +kernel, by decide +kernel, by decide +kernel⟩, hparse, ?_⟩
  rintro ⟨inserts, hok, hmap⟩
  rw [hparse] at hok
  cases hok
  have hmem := (hmap (some (ascii "k2"), ascii "v2")).mpr
    ⟨ascii "k2", ascii "v2", rfl, by decide +kernel⟩
  revert hmem
  decide +kernel

/-- If the map is right, the last key came before: its value has lost a byte, and what is inserted
after it is shorter still. -/
theorem mem_of_inverts {init : List CookiePair} {k v : List Byte} {c : Byte}
    {tail : List CookieInsert} (htail : ∀ e ∈ tail, e.2.length < v.length)
    (hmap : ∀ e, e ∈ cookiesOf (insertsOf init ++ keep (some k) v tail) ↔
      ∃ k' v', e = (some k', v') ∧ (init ++ [(k, c :: v)]).lookup k' = some v') :
    k ∈ init.map Prod.fst := by
  by_contra hnew
  have hfound : (init ++ [(k, c :: v)]).lookup k = some (c :: v) := by
    rw [List.lookup_append, List.lookup_eq_none_iff.mpr, Option.none_or, List.lookup_cons_self]
    intro p hp
    rw [bne_iff_ne]
    rintro rfl
    exact hnew (List.mem_map.mpr ⟨p, hp, rfl⟩)
  have hmem := (hmap (some k, c :: v)).mpr ⟨k, c :: v, rfl, hfound⟩
  rcases List.mem_append.mp ((FirstWins.mem_insertAll hmem).resolve_left List.not_mem_nil)
    with hinit | hkeep
  · obtain ⟨p, hp, heq⟩ := List.mem_map.mp hinit
    exact hnew (List.mem_map.mpr ⟨p, hp, Option.some.inj (congrArg Prod.fst heq)⟩)
  · have hlonger : ∀ e ∈ keep (some k) v tail, e.2.length ≤ v.length := by
      intro e he
      rw [keep] at he
      split at he
      · rcases List.mem_cons.mp he with rfl | he
        · exact Nat.le_refl _
        · exact Nat.le_of_lt (htail e he)
      · exact Nat.le_of_lt (htail e he)
    have := hlonger _ hkeep
    simp at this

/-- If the map is right, nothing has been added to that of the pairs before the last. -/
theorem unchanged_of_inverts {init : List CookiePair} {p : CookiePair} {inserts : List CookieInsert}
    (hdistinct : Distinct (init ++ [p])) (hmem : p.1 ∈ init.map Prod.fst)
    (hmap : ∀ e, e ∈ cookiesOf (insertsOf init ++ inserts) ↔
      ∃ k v, e = (some k, v) ∧ (init ++ [p]).lookup k = some v) :
    FirstWins.insertAll sameKey (cookiesOf (insertsOf init)) inserts =
      cookiesOf (insertsOf init) := by
  obtain ⟨added, hadded⟩ :=
    FirstWins.insertAll_eq_append sameKey (cookiesOf (insertsOf init)) inserts
  have hapart : FirstWins.Apart sameKey (cookiesOf (insertsOf init ++ inserts)) :=
    FirstWins.Apart.insertAll List.Pairwise.nil _
  rw [cookiesOf_append, hadded] at hmap hapart
  rw [hadded]
  cases added with
  | nil => exact List.append_nil _
  | cons e added =>
      obtain ⟨k, v, rfl, hfound⟩ := (hmap e).mp (by simp)
      rw [lookup_append_of_mem hmem] at hfound
      have hold := (mem_cookiesOf_insertsOf (distinct_init hdistinct) (some k, v)).mpr
        ⟨k, v, rfl, hfound⟩
      have hdiffer := (List.pairwise_append.mp hapart).2.2 _ hold _ List.mem_cons_self
      rw [sameKey_refl] at hdiffer
      cases hdiffer

/-- **When parsing inverts formatting**: when the last pair does not matter. -/
theorem parseCookie_inverts_iff {pairs : List CookiePair} (h : IsCookie pairs) :
    Inverts pairs ↔ LastRepeats pairs := by
  rcases List.eq_nil_or_concat pairs with hnil | ⟨init, ⟨k, v⟩, hpairs⟩
  · exact absurd hnil h.nonempty
  rw [List.concat_eq_append] at hpairs
  subst hpairs
  have hvalue := h.values (k, v) (by simp)
  cases v with
  | nil => exact absurd rfl hvalue.1
  | cons c v =>
      obtain ⟨fuel, hfuel, hlen, hparse⟩ := parseCookie_eq h
      have hsep : ¬ ascii "; " <:+: v := fun hv =>
        hvalue.2 (hv.trans (List.suffix_cons c v).isInfix)
      have hrest (hdistinct : Distinct (init ++ [(k, c :: v)])) :
          (∃ tail, parseCookieLoop fuel v v = .ok tail ∧
            FirstWins.insertAll sameKey (cookiesOf (insertsOf init)) tail =
              cookiesOf (insertsOf init)) ↔
          Harmless (fun k' => ∃ p ∈ init, rangeEqual k' p.1 = true) v :=
        (tail_harmless_iff v hfuel hlen hsep).trans
          (harmless_congr (has_cookiesOf_insertsOf (distinct_init hdistinct)) v)
      constructor
      · intro hinverts
        have hdistinct := hinverts.distinct
        obtain ⟨inserts, hok, hmap⟩ := hinverts
        rw [hparse] at hok
        obtain ⟨tail, htail, hok⟩ := bind_eq_ok hok
        cases hok
        have hmem := mem_of_inverts (length_of_mem_tail hlen hsep htail) hmap
        have hsame := unchanged_of_inverts hdistinct hmem hmap
        refine ⟨init, k, c :: v, rfl, hmem, hdistinct, (hrest hdistinct).mp ⟨tail, htail, ?_⟩⟩
        exact (insertAll_keep_iff.mp hsame).2
      · rintro ⟨init', k', v', hpairs, hmem, hdistinct, hharmless⟩
        obtain ⟨rfl, hlast⟩ := List.append_inj' hpairs rfl
        cases hlast
        obtain ⟨tail, htail, hsame⟩ := (hrest hdistinct).mpr hharmless
        rw [htail, ok_bind, pure_eq_ok] at hparse
        refine inverts_of_unchanged hparse hdistinct hmem ?_
        obtain ⟨p, hp, rfl⟩ := List.mem_map.mp hmem
        have hhas := (has_cookiesOf_insertsOf (distinct_init hdistinct) p.1).mpr
          ⟨p, hp, (rangeEqual_iff p.1 p.1).mpr ⟨rfl, rfl⟩⟩
        rw [cookiesOf_append]
        exact insertAll_keep_iff.mpr ⟨Or.inr (Or.inr hhas), hsame⟩

/-- A key that comes twice, the second time with a value of one byte. -/
theorem parseCookie_inverts_iff_repeated :
    Inverts [(ascii "k", ascii "v"), (ascii "k", ascii "w")] ↔
      LastRepeats [(ascii "k", ascii "v"), (ascii "k", ascii "w")] :=
  parseCookie_inverts_iff ⟨by simp, by decide +kernel, by decide +kernel, by decide +kernel⟩

end Unp.Http
