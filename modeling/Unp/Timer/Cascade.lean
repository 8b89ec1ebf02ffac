import Unp.Timer.Walk
import Mathlib.Tactic.FinCases
import Mathlib.Tactic.NormNum
import Mathlib.Tactic.Ring

/-!
# The cascade, tick by tick

Let the ticks be processed one after the other, with insertions before each. A handler of bucket
`k` waits for its *cascade point*, the multiple of `256 ^ k` at which its slot is reached; it is not
behind its expiration, so the handler is put back in time, and in the first bucket it is the
expiration itself.
-/

namespace Unp.Timer

open Unp.Machine Unp.Slots

namespace Wheel

/-! ## Cascade points -/

/-- At tick `t`, a handler that expires at `e` sits in the place `p` and is next moved at `c`. -/
structure Point (t e : Int) (p : Place) (c : Int) : Prop where
  dvd : (256 : Int) ^ p.1.val ∣ c
  ge : t ≤ c
  lt : c < t + 256 ^ (p.1.val + 1)
  le : c ≤ e
  first : p.1 = 0 → c = e
  slot : p.2 = levelSlot p.1.val c

theorem slotOf_eq_iff {a b : Int} : slotOf a = slotOf b ↔ a % 256 = b % 256 := by
  unfold slotOf
  rw [Fin.mk.injEq]
  omega

theorem slotOf_eq_zero_iff {a : Int} : slotOf a = 0 ↔ a % 256 = 0 := by
  have h : (0 : Slot) = slotOf 0 := rfl
  rw [h, slotOf_eq_iff]
  omega

/-- A place is emptied at `t` when `t` is a multiple of the size of its wheel's slots and its slot
is the one of `t`. -/
theorem visitedAt_iff (t : Int) (p : Place) :
    VisitedAt t p ↔ (256 : Int) ^ p.1.val ∣ t ∧ p.2 = levelSlot p.1.val t := by
  obtain ⟨k, s⟩ := p
  have h₁ : slotOf t = 0 ↔ (256 : Int) ∣ t := by
    rw [slotOf_eq_zero_iff]
    omega
  have h₂ : levelSlot 1 t = 0 ↔ t / 256 % 256 = 0 := by
    rw [levelSlot, slotOf_eq_zero_iff, pow_one]
  have h₃ : levelSlot 2 t = 0 ↔ t / 65536 % 256 = 0 := by
    rw [levelSlot, slotOf_eq_zero_iff]
    norm_num
  unfold VisitedAt cascades
  -- the wheel `k` is cascaded when all wheels below it are at slot 0
  fin_cases k
  · have hzero : levelSlot 0 t = slotOf t := by
      rw [levelSlot, pow_zero, Int.ediv_one]
    split <;> [split; skip] <;> [split; skip; skip] <;> simp [hzero]
  · split
    · next h => split <;> [split; skip] <;> simp [h₁.mp h]
    · next h => simp [mt h₁.mpr h]
  · have hdvd : ((256 : Int) ^ 2 ∣ t) ↔ slotOf t = 0 ∧ levelSlot 1 t = 0 := by
      rw [h₁, h₂]
      norm_num
      omega
    simp only [hdvd]
    split
    · next h => split <;> [split; skip] <;> simp_all
    · next h => simp [h]
  · have hdvd : ((256 : Int) ^ 3 ∣ t) ↔ slotOf t = 0 ∧ levelSlot 1 t = 0 ∧ levelSlot 2 t = 0 := by
      rw [h₁, h₂, h₃]
      norm_num
      omega
    simp only [hdvd]
    split
    · next h => split <;> [split; skip] <;> simp_all
    · next h => simp [h]

/-- The place of a handler is reached exactly at its cascade point. -/
theorem Point.visitedAt_iff {t e c : Int} {p : Place} (h : Point t e p c) :
    VisitedAt t p ↔ c = t := by
  have hge := h.ge
  have hlt := h.lt
  have hpos : (0 : Int) < 256 ^ p.1.val := by positivity
  rw [Wheel.visitedAt_iff, h.slot]
  constructor
  · rintro ⟨⟨b, hb⟩, hslot⟩
    obtain ⟨a, ha⟩ := h.dvd
    rw [levelSlot, levelSlot, slotOf_eq_iff, ha, hb, Int.mul_ediv_cancel_left _ hpos.ne',
      Int.mul_ediv_cancel_left _ hpos.ne'] at hslot
    -- both are multiples of the slot size, less than a turn of the wheel apart
    have hle : b ≤ a := by
      rw [ha, hb] at hge
      exact le_of_mul_le_mul_left hge hpos
    have hturn : a < b + 256 := by
      rw [ha, hb, pow_succ, ← mul_add] at hlt
      exact lt_of_mul_lt_mul_left hlt hpos.le
    have : a = b := by omega
    rw [ha, hb, this]
  · rintro rfl
    exact ⟨h.dvd, rfl⟩

theorem Point.next {t e c : Int} {p : Place} (h : Point t e p c) (hne : c ≠ t) :
    Point (t + 1) e p c where
  dvd := h.dvd
  ge := by have := h.ge; omega
  lt := by have := h.lt; omega
  le := h.le
  first := h.first
  slot := h.slot

/-- The multiple of `256 ^ k` at or below `e`. -/
def roundDown (k : Nat) (e : Int) : Int := 256 ^ k * (e / 256 ^ k)

theorem roundDown_le (k : Nat) (e : Int) : roundDown k e ≤ e :=
  Int.mul_ediv_self_le (by positivity)

theorem lt_roundDown (k : Nat) (e : Int) : e - 256 ^ k < roundDown k e := by
  have hpos : (0 : Int) < 256 ^ k := by positivity
  have h := Int.lt_mul_ediv_self_add (x := e) hpos
  unfold roundDown
  omega

theorem levelSlot_roundDown (k : Nat) (e : Int) : levelSlot k (roundDown k e) = levelSlot k e := by
  have hpos : (0 : Int) < 256 ^ k := by positivity
  rw [levelSlot, levelSlot, roundDown, Int.mul_ediv_cancel_left _ hpos.ne']

/-- An insertion at tick `t` goes to a place that is reached later, or at the expiration. -/
theorem placeOf_point {t e : Int} (h : t ≤ e) :
    ∃ c, Point t e (placeOf t e) c ∧ ((placeOf t e).1 ≠ 0 → t < c) := by
  -- a handler `d` ticks away in bucket `k` is moved at the multiple of `256 ^ k` below
  have hbucket : ∀ (k : Fin 4) (d : Int), k ≠ 0 → (256 : Int) ^ k.val ≤ d →
      d < 256 ^ (k.val + 1) → t + d ≤ e →
      Point t e (k, levelSlot k.val (t + d)) (roundDown k.val (t + d)) ∧
        t < roundDown k.val (t + d) := by
    intro k d hk hlo hhi hle
    have h₁ := roundDown_le k.val (t + d)
    have h₂ := lt_roundDown k.val (t + d)
    refine ⟨⟨⟨_, rfl⟩, by omega, by simp only []; omega, by omega, fun h0 => absurd h0 hk,
      (levelSlot_roundDown _ _).symm⟩, by omega⟩
  have he : t + (e - t) = e := by omega
  unfold placeOf
  simp only []
  rw [if_neg (by omega : ¬ e - t < 0)]
  split
  · next hlt =>
    unfold wheelSize at hlt
    refine ⟨e, ⟨by simp, h, ?_, le_refl _, fun _ => rfl, ?_⟩, fun h0 => absurd rfl h0⟩
    · norm_num
      omega
    · simp [levelSlot]
  · next h₀ =>
    unfold wheelSize at h₀
    split
    · next h₁ =>
      have := hbucket 1 (e - t) (by decide) (by norm_num; omega) (by norm_num; omega) (by omega)
      rw [he] at this
      exact ⟨_, this.1, fun _ => this.2⟩
    · next h₁ =>
      split
      · next h₂ =>
        have := hbucket 2 (e - t) (by decide) (by norm_num; omega) (by norm_num; omega) (by omega)
        rw [he] at this
        exact ⟨_, this.1, fun _ => this.2⟩
      · next h₂ =>
        split
        · next h₃ =>
          -- more than `0xffffffff` ticks away: the last wheel holds it for almost a turn
          unfold largestSlot at h₃
          have := hbucket 3 0xffffffff (by decide) (by norm_num) (by norm_num) (by omega)
          rw [add_comm t] at this
          exact ⟨_, this.1, fun _ => this.2⟩
        · next h₃ =>
          unfold largestSlot at h₃
          have := hbucket 3 (e - t) (by decide) (by norm_num; omega) (by norm_num; omega)
            (by omega)
          rw [he] at this
          exact ⟨_, this.1, fun _ => this.2⟩

/-! ## One tick -/

/-- Every handler is where it should be at tick `t`. -/
def Placed (cfg : Config) (t : Int) (w : Wheel) : Prop :=
  ∀ x p, x ∈ w.lists p → ∃ c, Point t (w.tick cfg x) p c

/-- `scheduleTimeoutImpl_(h, t, e_h)` for some handlers. -/
def insertAll (cfg : Config) (t : Int) (hs : List HandlerId) (w : Wheel) : Wheel :=
  hs.foldl (fun w h => w.scheduleTimeoutImpl h t (w.tick cfg h)) w

theorem insertAll_spec (cfg : Config) (t : Int) (hs : List HandlerId) {w : Wheel}
    (hplaced : Placed cfg t w) (hsync : BitSync w) (hfut : ∀ h ∈ hs, t ≤ w.tick cfg h) :
    Frame w (insertAll cfg t hs w) ∧ Placed cfg t (insertAll cfg t hs w) ∧
      BitSync (insertAll cfg t hs w) ∧
      (insertAll cfg t hs w).linked = w.linked + (hs : Multiset HandlerId) := by
  induction hs generalizing w with
  | nil => exact ⟨Frame.refl w, hplaced, hsync, by simp [insertAll]⟩
  | cons h hs ih =>
      obtain ⟨w₁, hw₁⟩ : ∃ w₁, w₁ = w.scheduleTimeoutImpl h t (w.tick cfg h) := ⟨_, rfl⟩
      have hframe : Frame w w₁ := hw₁ ▸ scheduleTimeoutImpl_frame _ _ _ _
      have hplaced₁ : Placed cfg t w₁ := by
        intro x p hx
        rw [hframe.tick_eq]
        rw [hw₁, mem_scheduleTimeoutImpl] at hx
        rcases hx with hx | ⟨rfl, rfl⟩
        · exact hplaced x p hx
        · obtain ⟨c, hc, -⟩ := placeOf_point (hfut x (by simp))
          exact ⟨c, hc⟩
      have hfut₁ : ∀ h ∈ hs, t ≤ w₁.tick cfg h := by
        intro h' hh'
        rw [hframe.tick_eq]
        exact hfut h' (List.mem_cons_of_mem _ hh')
      obtain ⟨hframe', hplaced', hsync', hlinked⟩ :=
        ih hplaced₁ (hw₁ ▸ scheduleTimeoutImpl_bitSync _ _ _ _ hsync) hfut₁
      have hstep : insertAll cfg t (h :: hs) w = insertAll cfg t hs w₁ := by rw [hw₁]; rfl
      rw [hstep]
      refine ⟨hframe.trans hframe', hplaced', hsync', ?_⟩
      rw [hlinked, hw₁, linked_scheduleTimeoutImpl, ← Multiset.cons_coe, Multiset.cons_add,
        Multiset.add_cons]

/-- **One tick drains exactly the handlers that expire at it.** -/
theorem tickBody_spec (cfg : Config) (t : Int) {w : Wheel} (hplaced : Placed cfg t w)
    (hsync : BitSync w) :
    Placed cfg (t + 1) (tickBody cfg t t w).2 ∧
      (∀ x ∈ (tickBody cfg t t w).1, w.tick cfg x = t) ∧
      (∀ x ∈ (tickBody cfg t t w).2.linked, t < w.tick cfg x) := by
  have htick := tickBody_ticked cfg t t hsync
  generalize (tickBody cfg t t w).1 = drained at htick ⊢
  generalize (tickBody cfg t t w).2 = w' at htick ⊢
  -- a handler that is cascaded now expires now or later
  have hmoved : ∀ {x}, (∃ p ∈ cascades t, x ∈ w.lists p) → t ≤ w.tick cfg x := by
    rintro x ⟨p, hp, hx⟩
    obtain ⟨c, hc⟩ := hplaced x p hx
    have hct := hc.visitedAt_iff.mp (Or.inr hp)
    have := hc.le
    omega
  have hnext : ∀ x q, x ∈ w'.lists q → ∃ c, Point (t + 1) (w.tick cfg x) q c := by
    intro x q hx
    obtain ⟨hslot, ⟨hx, hq⟩ | ⟨hfrom, hq⟩⟩ := htick.origin hx
    · obtain ⟨c, hc⟩ := hplaced x q hx
      exact ⟨c, hc.next fun hct => (hc.visitedAt_iff.mpr hct).elim hslot hq⟩
    · obtain ⟨c, hc, hlater⟩ := placeOf_point (hmoved hfrom)
      rw [← hq] at hc hlater
      refine ⟨c, hc.next ?_⟩
      intro hct
      by_cases hfirst : q.1 = 0
      · rcases hc.visitedAt_iff.mpr hct with hv | hv
        · exact hslot hv
        · have hq₀ : q = (0, q.2) := Prod.ext hfirst rfl
          rw [hq₀] at hv
          exact slot_not_cascaded t q.2 hv
      · have := hlater hfirst
        omega
  refine ⟨fun x q hx => ?_, fun x hx => ?_, fun x hx => ?_⟩
  · rw [htick.frame.tick_eq]
    exact hnext x q hx
  · rcases htick.drained_origin hx with hx | ⟨hfrom, hq⟩
    · obtain ⟨c, hc⟩ := hplaced x _ hx
      rw [← hc.first rfl]
      exact hc.visitedAt_iff.mp (Or.inl rfl)
    · obtain ⟨c, hc, -⟩ := placeOf_point (hmoved hfrom)
      rw [← hq] at hc
      rw [← hc.first rfl]
      exact hc.visitedAt_iff.mp (Or.inl rfl)
  · obtain ⟨q, hx⟩ := mem_linked.mp hx
    obtain ⟨c, hc⟩ := hnext x q hx
    have h₁ := hc.ge
    have h₂ := hc.le
    omega

/-! ## Consecutive ticks -/

/-- Processes the ticks `t`, `t + 1`, ..., each after the insertion of the next list of handlers.
Returns what each tick takes out of the first bucket. -/
def ticking (cfg : Config) : Int → List (List HandlerId) → Wheel → List (List HandlerId) × Wheel
  | _, [], w => ([], w)
  | t, hs :: rest, w =>
      let (drained, w) := (insertAll cfg t hs w).tickBody cfg t t
      let (later, w) := ticking cfg (t + 1) rest w
      (drained :: later, w)

/-- Every handler is inserted at or before its tick. -/
def InTime (e : HandlerId → Int) : Int → List (List HandlerId) → Prop
  | _, [] => True
  | t, hs :: rest => (∀ h ∈ hs, t ≤ e h) ∧ InTime e (t + 1) rest

theorem filter_drained {e : HandlerId → Int} {t : Int} {drained : List HandlerId}
    {left all : Multiset HandlerId} (hall : all = (drained : Multiset HandlerId) + left)
    (hdrained : ∀ x ∈ drained, e x = t) (hleft : ∀ x ∈ left, t < e x) :
    (drained : Multiset HandlerId) = all.filter (e · = t) ∧
      ∀ t', t < t' → all.filter (e · = t') = left.filter (e · = t') := by
  constructor
  · have hself : (drained : Multiset HandlerId).filter (e · = t) = drained :=
      Multiset.filter_eq_self.mpr fun x hx => hdrained x (Multiset.mem_coe.mp hx)
    have hnone : left.filter (e · = t) = 0 :=
      Multiset.filter_eq_nil.mpr fun x hx heq => by have := hleft x hx; omega
    rw [hall, Multiset.filter_add, hself, hnone, add_zero]
  · intro t' ht'
    have hnone : (drained : Multiset HandlerId).filter (e · = t') = 0 :=
      Multiset.filter_eq_nil.mpr fun x hx heq => by
        have := hdrained x (Multiset.mem_coe.mp hx)
        omega
    rw [hall, Multiset.filter_add, hnone, zero_add]

/-- The run lemma: what tick `t + i` drains are the handlers, present or inserted on the way, that
expire at `t + i`. -/
theorem ticking_spec (cfg : Config) (t : Int) (sched : List (List HandlerId)) {w : Wheel}
    {e : HandlerId → Int} (he : ∀ x, w.tick cfg x = e x) (hplaced : Placed cfg t w)
    (hsync : BitSync w) (hfut : InTime e t sched) :
    (ticking cfg t sched w).1.length = sched.length ∧
    ∀ (i : Nat) (drained : List HandlerId), (ticking cfg t sched w).1[i]? = some drained →
      (drained : Multiset HandlerId) =
        (w.linked + ((sched.take (i + 1)).flatten : Multiset HandlerId)).filter
          (e · = t + i) := by
  induction sched generalizing t w with
  | nil => exact ⟨rfl, fun i drained h => by simp [ticking] at h⟩
  | cons hs rest ih =>
      obtain ⟨hhs, hrest⟩ := hfut
      obtain ⟨hframe, hplaced₁, hsync₁, hlinked⟩ :=
        insertAll_spec cfg t hs hplaced hsync fun h hh => by rw [he]; exact hhs h hh
      obtain ⟨hplaced₂, hdue, hlater⟩ := tickBody_spec cfg t hplaced₁ hsync₁
      have htick := tickBody_ticked cfg t t hsync₁
      have hstep : ticking cfg t (hs :: rest) w =
          ((tickBody cfg t t (insertAll cfg t hs w)).1 ::
            (ticking cfg (t + 1) rest (tickBody cfg t t (insertAll cfg t hs w)).2).1,
            (ticking cfg (t + 1) rest (tickBody cfg t t (insertAll cfg t hs w)).2).2) := rfl
      rw [hstep]
      generalize (tickBody cfg t t (insertAll cfg t hs w)).1 = drained₀ at *
      generalize (tickBody cfg t t (insertAll cfg t hs w)).2 = w₂ at *
      simp only [hframe.tick_eq, he] at hdue hlater
      obtain ⟨hlen, hih⟩ := ih (t + 1) (w := w₂)
        (fun x => by rw [htick.frame.tick_eq, hframe.tick_eq, he]) hplaced₂ htick.bitSync hrest
      have hall := htick.linked_eq
      rw [hlinked] at hall
      -- what expires now is drained now, and what expires later is still linked
      obtain ⟨hnow, hthen⟩ := filter_drained hall hdue hlater
      refine ⟨by simp [hlen], ?_⟩
      intro i drained hi
      cases i with
      | zero =>
          simp only [List.getElem?_cons_zero, Option.some.injEq] at hi
          subst hi
          simpa using hnow
      | succ i =>
          rw [List.getElem?_cons_succ] at hi
          have hshift : t + 1 + (i : Int) = t + ((i + 1 : Nat) : Int) := by push_cast; ring
          rw [hih i drained hi, hshift, Multiset.filter_add, ← hthen _ (by omega),
            ← Multiset.filter_add, List.take_succ_cons, List.flatten_cons, ← Multiset.coe_add,
            add_assoc]

theorem InTime.later {e : HandlerId → Int} {t : Int} {sched : List (List HandlerId)}
    (h : InTime e t sched) (i : Nat) : ∀ x ∈ (sched.drop i).flatten, t + i ≤ e x := by
  induction sched generalizing t i with
  | nil => simp
  | cons hs rest ih =>
      obtain ⟨hhs, hrest⟩ := h
      cases i with
      | zero =>
          intro x hx
          rw [List.drop_zero, List.flatten_cons, List.mem_append] at hx
          rcases hx with hx | hx
          · have := hhs x hx
            omega
          · have := ih hrest 0 x (by rwa [List.drop_zero])
            omega
      | succ i =>
          intro x hx
          have := ih hrest i x (by rwa [List.drop_succ_cons] at hx)
          omega

/-- **Cascade theorem.** On an empty wheel, with handlers inserted at or before their ticks in any
numbers, each tick drains exactly the handlers that expire at it: every handler is drained once, and
at its tick, however far away it was. -/
theorem cascade_exact (cfg : Config) (t₀ : Int) (sched : List (List HandlerId)) (w : Wheel)
    (hempty : ∀ p, w.lists p = []) (hfut : InTime (w.tick cfg) t₀ sched) :
    (ticking cfg t₀ sched w).1.length = sched.length ∧
    ∀ (i : Nat) (drained : List HandlerId), (ticking cfg t₀ sched w).1[i]? = some drained →
      drained.Perm (sched.flatten.filter fun h => w.tick cfg h = t₀ + i) := by
  have hplaced : Placed cfg t₀ w := fun x p hx => by simp [hempty p] at hx
  have hsync : BitSync w := fun s hs => absurd (hempty _) hs
  have hnone : w.linked = 0 := by
    apply Multiset.eq_zero_of_forall_notMem
    intro x hx
    obtain ⟨p, hx⟩ := mem_linked.mp hx
    simp [hempty p] at hx
  obtain ⟨hlen, hall⟩ := ticking_spec cfg t₀ sched (fun _ => rfl) hplaced hsync hfut
  refine ⟨hlen, ?_⟩
  intro i drained hi
  -- what is inserted after tick `t₀ + i` expires later
  have hlater : (sched.drop (i + 1)).flatten.filter (fun h => w.tick cfg h = t₀ + i) = [] := by
    rw [List.filter_eq_nil_iff]
    intro x hx
    have := hfut.later (i + 1) x hx
    simp only [decide_eq_true_eq]
    omega
  have hsplit : sched.flatten.filter (fun h => w.tick cfg h = t₀ + i) =
      (sched.take (i + 1)).flatten.filter fun h => w.tick cfg h = t₀ + i := by
    conv_lhs => rw [← List.take_append_drop (i + 1) sched]
    rw [List.flatten_append, List.filter_append, hlater, List.append_nil]
  have := hall i drained hi
  rw [hnone, zero_add, Multiset.filter_coe] at this
  rw [hsplit]
  exact Multiset.coe_eq_coe.mp this

/-- A timer with ticks of a millisecond, whose user `n` expires at tick `n`. -/
def everyTick : Config where
  startTime := 0
  interval := 1
  now := fun _ => 0
  interval_pos := le_refl _
  now_mono := monotone_const
  start_le := le_refl _

def expiresAtOwnTick : Wheel :=
  { Wheel.new with handlers := fun
      | .user n => ⟨-1, n * nanosPerMilli, false⟩
      | .fn _ | .internal _ => ⟨-1, 0, false⟩ }

/-- Three handlers, inserted before ticks 254 and 256; the first cascade is at tick 256. -/
theorem cascade_exact_threeHandlers :
    InTime (expiresAtOwnTick.tick everyTick) 254 [[.user 256, .user 255], [], [.user 512]] ∧
    ∀ drained : List HandlerId,
      (ticking everyTick 254 [[.user 256, .user 255], [], [.user 512]] expiresAtOwnTick).1[2]? =
        some drained → drained.Perm [.user 256] := by
  have hfut : InTime (expiresAtOwnTick.tick everyTick) 254
      [[.user 256, .user 255], [], [.user 512]] := by
    simp [InTime, tick, tickOf, expiresAtOwnTick, everyTick, nanosPerMilli]
  refine ⟨hfut, ?_⟩
  intro drained hdrained
  have hperm := (cascade_exact everyTick 254 _ expiresAtOwnTick (fun _ => rfl) hfut).2 2 drained
    hdrained
  simpa [tick, tickOf, expiresAtOwnTick, everyTick, nanosPerMilli] using hperm

end Wheel
end Unp.Timer
