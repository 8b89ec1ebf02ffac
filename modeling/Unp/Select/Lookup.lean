import Unp.Select.Table

/-!
# Looking up a handler

`get_handler` asks whether the handle is below the width and then reads the entry, so it needs an
entry for every handle below the width, and no handler beyond it. Both hold in every table that calls
of `bind` and `unbind` have led to, whatever handles, handlers and event types they were given; the
width itself may be too large then (`bind` raises it for the event type `NONE` too).

What is bound is told by the calls alone: the abstract table is a list for every handle, and a lookup
is answered from it.
-/

namespace Unp.Select

open Unp.Machine Unp.Run
open Unp.Epoll (EventType HandlerId)
open Unp.Net (fdSetSize invalidHandle)

namespace SelectDemultiplexTable

/-! ## The abstract table -/

/-- A call with any handle, handler and event type. -/
inductive Request where
  | bind (handle : Int) (handler : Option HandlerId) (type : EventType)
  | unbindHandle (handle : Int)
  | unbind (handle : Int) (handler : Option HandlerId) (type : EventType)

/-- What is bound to each handle, in the order in which it was bound. -/
abbrev Bindings := Int → EventTuple

namespace Request

def exec : Request → SelectDemultiplexTable → Res (Int × SelectDemultiplexTable)
  | bind handle handler type => SelectDemultiplexTable.bind handle handler type
  | unbindHandle handle => SelectDemultiplexTable.unbindHandle handle
  | unbind handle handler type => SelectDemultiplexTable.unbind handle handler type

/-- What a call does to the bindings. -/
def apply : Request → Bindings → Bindings
  | bind _ none _, m => m
  | bind handle (some h) type, m =>
      if isValidHandle handle = true ∧ type ≠ .none then
        Function.update m handle (m handle ++ [(type, h)])
      else m
  | unbindHandle handle, m => Function.update m handle []
  | unbind handle handler type, m =>
      if type ≠ .none ∧ handler ≠ none ∧ (m handle).find type = handler then
        Function.update m handle ((m handle).eraseP fun p => p.1 = type)
      else m

end Request

/-- The first handler for the event type; for `READ_EVENT`, without one, the first handler for
`ACCEPT_EVENT`. -/
def answer (type : EventType) (e : EventTuple) : Option HandlerId :=
  match e.find type with
  | some h => some h
  | none => if type = .read then e.find .accept else none

/-- The table holds the bindings, every handle below its width has an entry, and no other handle has
a handler. -/
structure Holds (t : SelectDemultiplexTable) (m : Bindings) : Prop where
  handlersOf_eq : ∀ n : Nat, t.handlersOf n = m n
  negative : ∀ handle < 0, m handle = []
  lt_width : ∀ n : Nat, m n ≠ [] → (n : Int) < t.currentMaxHandleP1
  width_le : t.currentMaxHandleP1 ≤ t.eventVector.length

section Requests
variable {t t' : SelectDemultiplexTable} {m : Bindings} {n : Nat}

theorem Holds.lt_length (ht : t.Holds m) (hin : (n : Int) < t.currentMaxHandleP1) :
    n < t.eventVector.length := by
  have := ht.width_le
  omega

theorem Holds.entry (ht : t.Holds m) (hin : (n : Int) < t.currentMaxHandleP1) :
    t.entry n = .ok (m n) := by
  rw [entry_natCast (ht.lt_length hin), ht.handlersOf_eq]

/-- A handle in range is not negative, and below the width. -/
theorem isHandleInRange_iff {handle : Int} (h : t.isHandleInRange handle = .ok true) :
    ∃ n : Nat, handle = n ∧ (n : Int) < t.currentMaxHandleP1 := by
  rw [isHandleInRange] at h
  split at h
  · cases h
  · next hneg =>
    obtain ⟨next, hnext, h⟩ := bind_eq_ok h
    obtain ⟨rfl, -, -⟩ := checkedI32_eq_ok hnext
    have hle : handle + 1 ≤ t.currentMaxHandleP1 := by simpa using h
    exact ⟨handle.toNat, by omega, by omega⟩

/-- A handle that is out of range has no handler. -/
theorem Holds.none_of_outside (ht : t.Holds m) {handle : Int}
    (h : t.isHandleInRange handle = .ok false) : m handle = [] := by
  rw [isHandleInRange] at h
  split at h
  · next hneg => exact ht.negative handle hneg
  · next hneg =>
    obtain ⟨next, hnext, h⟩ := bind_eq_ok h
    obtain ⟨rfl, -, -⟩ := checkedI32_eq_ok hnext
    obtain ⟨n, rfl⟩ := Int.eq_ofNat_of_zero_le (Int.not_lt.mp hneg)
    by_contra hne
    have hlt := ht.lt_width n hne
    have hge : ¬ (n : Int) + 1 ≤ t.currentMaxHandleP1 := by simpa using h
    omega

/-- An entry is written into a table that has the same handlers, and the width is set. -/
theorem Holds.write {t₁ : SelectDemultiplexTable} {width : Int} (ht : t.Holds m) (e : EventTuple)
    (hsame : ∀ k, t₁.handlersOf k = t.handlersOf k) (hlt : n < t₁.eventVector.length)
    (hbound : ∀ k : Nat, Function.update m n e k ≠ [] → (k : Int) < width)
    (hwidth : width ≤ t₁.eventVector.length) :
    ({ t₁.put n e with currentMaxHandleP1 := width } : SelectDemultiplexTable).Holds
      (Function.update m n e) where
  handlersOf_eq k := by
    refine (handlersOf_put hlt e k).trans ?_
    by_cases heq : k = n
    · rw [if_pos heq, heq, Function.update_self]
    · rw [if_neg heq, Function.update_of_ne (by omega), hsame, ht.handlersOf_eq]
  negative handle hneg := by
    rw [Function.update_of_ne (by omega)]
    exact ht.negative handle hneg
  lt_width := hbound
  width_le := by
    show width ≤ (t₁.eventVector.set _ e).length
    rwa [List.length_set]

/-- The other handles are below the width as before. -/
theorem Holds.lt_width_of_ne (ht : t.Holds m) {e : EventTuple} {k : Nat} (hne : k ≠ n)
    (hk : Function.update m n e k ≠ []) : m k ≠ [] ∧ (k : Int) < t.currentMaxHandleP1 := by
  rw [Function.update_of_ne (by omega)] at hk
  exact ⟨hk, ht.lt_width k hk⟩

/-- The bindings of one handle change, and the width stays. -/
theorem Holds.put (ht : t.Holds m) (hin : (n : Int) < t.currentMaxHandleP1) (e : EventTuple) :
    (t.put n e).Holds (Function.update m n e) := by
  apply ht.write e (fun _ => rfl) (ht.lt_length hin) _ ht.width_le
  intro k hk
  by_cases heq : k = n
  · rwa [heq]
  · exact (ht.lt_width_of_ne heq hk).2

/-- The last handle below the width has lost its handlers, and the width goes down. -/
theorem Holds.lower {tmp : Int} (ht : t.Holds m) (hlast : (n : Int) + 1 = t.currentMaxHandleP1)
    (htmp : Top t.handlersOf n tmp) :
    ({ t.put n [] with currentMaxHandleP1 := tmp + 1 } : SelectDemultiplexTable).Holds
      (Function.update m n []) := by
  have hlt : n < t.eventVector.length := ht.lt_length (by omega)
  apply ht.write [] (fun _ => rfl) hlt
  · intro k hk
    have hkn : k ≠ n := by
      rintro rfl
      rw [Function.update_self] at hk
      exact hk rfl
    obtain ⟨hk, hbelow⟩ := ht.lt_width_of_ne hkn hk
    rw [← ht.handlersOf_eq] at hk
    rcases htmp with ⟨k₀, -, -, habove, rfl⟩ | ⟨hall, -⟩
    · by_contra hge
      exact hk (habove k (by omega) (by omega))
    · exact absurd (hall k (by omega)) hk
  · rcases htmp with ⟨k₀, hbelow, -, -, rfl⟩ | ⟨-, rfl⟩
    · omega
    · unfold invalidHandle
      omega

theorem grown_negative {handle : Int} (hneg : handle < 0) :
    t.grown handle = .error .exception := by
  have hhalf : handle.tdiv 2 ≤ 0 := by
    rw [← Int.neg_neg handle, Int.neg_tdiv, Int.tdiv_eq_ediv_of_nonneg (by omega)]
    omega
  rw [grown, if_pos (Or.inl hneg), resize, if_pos (by omega)]

/-- The vector never gets shorter. -/
theorem length_grown (h : t.grown n = .ok t') : t.eventVector.length ≤ t'.eventVector.length := by
  have hhalf : (0 : Int) ≤ (n : Int).tdiv 2 := by
    rw [Int.tdiv_eq_ediv_of_nonneg (by omega)]
    omega
  rw [grown] at h
  split at h
  · rw [resize] at h
    split at h
    · cases h
    · cases h
      rw [List.length_append, List.length_take, List.length_replicate]
      omega
  · cases h
    exact le_refl _

/-- The vector has grown, an entry is written into it, and the width reaches the entry. -/
theorem Holds.raise {t₁ : SelectDemultiplexTable} (ht : t.Holds m) (e : EventTuple)
    (hsame : ∀ k, t₁.handlersOf k = t.handlersOf k)
    (hcur : t₁.currentMaxHandleP1 = t.currentMaxHandleP1)
    (hlonger : t.eventVector.length ≤ t₁.eventVector.length) (hlt : n < t₁.eventVector.length) :
    ({ t₁.put n e with
        currentMaxHandleP1 := if t₁.currentMaxHandleP1 - 1 < (n : Int) then (n : Int) + 1
          else t₁.currentMaxHandleP1 } : SelectDemultiplexTable).Holds (Function.update m n e) := by
  have hwidth := ht.width_le
  rw [hcur]
  apply ht.write e hsame hlt
  · intro k hk
    by_cases heq : k = n
    · split <;> omega
    · have hbelow := (ht.lt_width_of_ne heq hk).2
      split <;> omega
  · split <;> omega

/-- `bind_new` binds nothing for the event type `NONE`. -/
theorem bindNew_apply {handle : Int} (hvalid : isValidHandle handle = true) (h : HandlerId)
    (type : EventType) : (Request.bind handle (some h) type).apply m =
      Function.update m handle (EventTuple.bindNew type (some h) (m handle)).2 := by
  rw [Request.apply, EventTuple.bindNew]
  by_cases htype : type = .none
  · rw [if_neg fun hc => hc.2 htype, if_pos htype, Function.update_eq_self]
  · rw [if_pos ⟨hvalid, htype⟩, if_neg htype]

theorem Holds.bind {handle ret : Int} {handler : Option HandlerId} {type : EventType}
    (ht : t.Holds m) (hok : t.bind handle handler type = .ok (ret, t')) :
    t'.Holds ((Request.bind handle handler type).apply m) := by
  rw [SelectDemultiplexTable.bind] at hok
  cases handler with
  | none =>
      rw [if_pos (Or.inr rfl)] at hok
      cases hok
      exact ht
  | some h =>
      by_cases hvalid : isValidHandle handle = true
      · rw [if_neg (by simp [hvalid])] at hok
        obtain ⟨t₁, hgrow, hok⟩ := bind_eq_ok hok
        have hneg : ¬ handle < 0 := by
          intro hneg
          rw [grown_negative hneg] at hgrow
          cases hgrow
        obtain ⟨n, rfl⟩ := Int.eq_ofNat_of_zero_le (Int.not_lt.mp hneg)
        obtain ⟨t₂, hgrow₂, hsame, hcur, -⟩ := grown_spec t n
        rw [hgrow] at hgrow₂
        cases hgrow₂
        obtain ⟨e, hentry, hok⟩ := bind_eq_ok hok
        have hlt : n < t₁.eventVector.length := by
          by_contra hout
          rw [entry_outside (Nat.le_of_not_lt hout)] at hentry
          cases hentry
        rw [entry_natCast hlt, hsame, ht.handlersOf_eq] at hentry
        cases hentry
        cases hok
        rw [bindNew_apply hvalid]
        exact ht.raise _ hsame hcur (length_grown hgrow) hlt
      · rw [if_pos (Or.inl (by simpa using hvalid))] at hok
        cases hok
        rw [Request.apply, if_neg fun hc => hvalid hc.1]
        exact ht

theorem Holds.unbindHandle {handle ret : Int} (ht : t.Holds m)
    (hok : t.unbindHandle handle = .ok (ret, t')) :
    t'.Holds ((Request.unbindHandle handle).apply m) := by
  rw [SelectDemultiplexTable.unbindHandle] at hok
  rw [Request.apply]
  obtain ⟨inRange, hrange, hok⟩ := bind_eq_ok hok
  cases inRange with
  | false =>
      cases hok
      rw [← ht.none_of_outside hrange, Function.update_eq_self]
      exact ht
  | true =>
      obtain ⟨n, rfl, hin⟩ := isHandleInRange_iff hrange
      rw [if_pos rfl, ht.entry hin, ok_bind] at hok
      split at hok
      · next hempty =>
        cases hok
        rw [← List.length_eq_zero_iff.mp hempty, Function.update_eq_self]
        exact ht
      · split at hok
        · next hlast =>
          obtain ⟨tmp, htmp, hok⟩ := bind_eq_ok hok
          obtain ⟨tmp₁, hok₁, htop⟩ := lastBelow_spec (Nat.le_of_lt (ht.lt_length hin))
          rw [Int.toNat_natCast, hok₁] at htmp
          cases htmp
          cases hok
          exact ht.lower hlast.symm htop
        · cases hok
          exact ht.put hin []

theorem unbind_apply (handle : Int) (handler : Option HandlerId) (type : EventType) :
    (Request.unbind handle handler type).apply m =
      Function.update m handle ((m handle).unbind type handler).2 := by
  rw [Request.apply, EventTuple.unbind]
  by_cases hnone : type = .none ∨ handler = none
  · rw [if_pos hnone, if_neg (by tauto), Function.update_eq_self]
  · rw [if_neg hnone]
    rw [not_or] at hnone
    cases hfind : (m handle).find type with
    | none =>
        rw [if_neg fun hc => hnone.2 hc.2.2.symm]
        exact (Function.update_eq_self handle m).symm
    | some h =>
        dsimp only
        by_cases hsame : some h = handler
        · rw [if_neg (not_not.mpr hsame), if_pos ⟨hnone.1, hnone.2, hsame⟩]
        · rw [if_pos hsame, if_neg fun hc => hsame hc.2.2]
          exact (Function.update_eq_self handle m).symm

theorem Holds.unbind {handle ret : Int} {handler : Option HandlerId} {type : EventType}
    (ht : t.Holds m) (hok : t.unbind handle handler type = .ok (ret, t')) :
    t'.Holds ((Request.unbind handle handler type).apply m) := by
  rw [SelectDemultiplexTable.unbind] at hok
  obtain ⟨inRange, hrange, hok⟩ := bind_eq_ok hok
  cases inRange with
  | false =>
      cases hok
      rw [Request.apply, if_neg fun hc => ?_]
      · exact ht
      · -- nothing is found in an empty entry
        rw [ht.none_of_outside hrange] at hc
        exact hc.2.1 hc.2.2.symm
  | true =>
      obtain ⟨n, rfl, hin⟩ := isHandleInRange_iff hrange
      rw [if_pos rfl, ht.entry hin, ok_bind] at hok
      obtain ⟨-, -, hok⟩ := bind_eq_ok hok
      rw [unbind_apply]
      dsimp only at hok
      split at hok
      · -- the entry is empty now: the search that returns has found another handle
        next hlast =>
        obtain ⟨tmp, htmp, hok⟩ := bind_eq_ok hok
        have hempty := List.length_eq_zero_iff.mp hlast.1
        cases hok
        rw [hempty] at htmp ⊢
        rw [Int.toNat_natCast] at htmp
        have hlen : n ≤ (t.put n []).eventVector.length := by
          rw [SelectDemultiplexTable.put, List.length_set]
          exact Nat.le_of_lt (ht.lt_length hin)
        have hsome : ∃ k < n, (t.put n []).handlersOf k ≠ [] := by
          by_contra hnone
          simp only [not_exists, not_and, not_not] at hnone
          rw [lastBefore_fault hlen hnone] at htmp
          cases htmp
        obtain ⟨tmp₁, hok₁, htop⟩ := lastBelow_spec hlen
        rw [lastBefore_eq hlen hsome, hok₁] at htmp
        cases htmp
        refine ht.lower hlast.2 (htop.congr ?_)
        intro k hk
        rw [handlersOf_put (ht.lt_length hin), if_neg (by omega)]
      · cases hok
        exact ht.put hin _

/-! ## The lookup -/

/-- An entry is looked up as it should when there is something to find. -/
theorem getHandler_answer_iff (e : EventTuple) (type : EventType) :
    (do let h ← e.getHandler type
        pure (some h)) = Except.ok (answer type e) ↔ e.Bound type := by
  by_cases hbound : e.Bound type
  · refine iff_of_true ?_ hbound
    obtain ⟨h, hlookup⟩ := EventTuple.getHandler_of_bound hbound
    rw [hlookup, answer, ok_bind]
    unfold EventTuple.getHandler at hlookup
    cases hfind : e.find type with
    | some h₁ =>
        rw [hfind] at hlookup
        cases hlookup
        rfl
    | none =>
        have hread : type = .read := (hbound.resolve_left (not_not.mpr hfind)).1
        rw [hfind] at hlookup
        dsimp only at hlookup ⊢
        rw [if_pos hread] at hlookup ⊢
        cases haccept : e.find .accept with
        | some h₁ =>
            rw [haccept] at hlookup
            cases hlookup
            rfl
        | none =>
            rw [haccept] at hlookup
            cases hlookup
  · refine iff_of_false ?_ hbound
    rw [EventTuple.getHandler_of_not_bound hbound, error_bind]
    simp

/-- The range check returns unless there is no next `int`. -/
theorem isHandleInRange_returns {handle : Int} :
    (∃ inRange, t.isHandleInRange handle = .ok inRange) ↔ handle < 2 ^ 31 - 1 := by
  rw [isHandleInRange]
  constructor
  · rintro ⟨inRange, hrange⟩
    split at hrange
    · omega
    · obtain ⟨next, hnext, -⟩ := bind_eq_ok hrange
      have hbounds := checkedI32_eq_ok hnext
      omega
  · intro hmax
    split
    · exact ⟨false, rfl⟩
    · rw [checkedI32_ok (by omega) (by omega), ok_bind]
      exact ⟨_, rfl⟩

theorem Holds.getHandler_iff (ht : t.Holds m) (handle : Int) (type : EventType) :
    t.getHandler handle type = .ok (answer type (m handle)) ↔
      handle < 2 ^ 31 - 1 ∧ (t.isHandleInRange handle = .ok true → (m handle).Bound type) := by
  rw [SelectDemultiplexTable.getHandler, ← isHandleInRange_returns (t := t)]
  cases hrange : t.isHandleInRange handle with
  | error e => simp
  | ok inRange =>
      rw [ok_bind, and_iff_right ⟨inRange, rfl⟩]
      cases inRange with
      | false =>
          rw [ht.none_of_outside hrange]
          refine iff_of_true ?_ (by simp)
          have hempty : answer type [] = none := by
            rw [answer]
            split
            · next hfind => cases hfind
            · split <;> rfl
          rw [hempty]
          rfl
      | true =>
          obtain ⟨n, rfl, hin⟩ := isHandleInRange_iff hrange
          rw [if_pos rfl, ht.entry hin, ok_bind, getHandler_answer_iff]
          simp

end Requests

theorem new_holds (size : Nat) : (new size).Holds fun _ => [] where
  handlersOf_eq := new_handlersOf size
  negative _ _ := rfl
  lt_width _ h := absurd rfl h
  width_le := by
    show invalidHandle + 1 ≤ _
    unfold invalidHandle
    omega

theorem exec_holds {t t' : SelectDemultiplexTable} {m : Bindings} {request : Request} {ret : Int}
    (ht : t.Holds m) (hok : request.exec t = .ok (ret, t')) : t'.Holds (request.apply m) := by
  cases request with
  | bind handle handler type => exact ht.bind hok
  | unbindHandle handle => exact ht.unbindHandle hok
  | unbind handle handler type => exact ht.unbind hok

/-- What the calls have bound to the handles, from nothing. -/
def boundBy (requests : List Request) : Bindings :=
  requests.foldl (fun m request => request.apply m) fun _ => []

/-- **The lookups that answer.** After any calls, a lookup finds what is bound, or null for a handle
out of range; for a handle in range it must have something to find. The range check adds one to the
handle, which the last `int` does not allow. -/
theorem getHandler_answers_iff (size : Nat) {requests : List Request}
    {history : List (Entry SelectDemultiplexTable Request Int)} {t : SelectDemultiplexTable}
    (hrun : run Request.exec requests (new size) = .ok (history, t)) (handle : Int)
    (type : EventType) :
    t.getHandler handle type = .ok (answer type (boundBy requests handle)) ↔
      handle < 2 ^ 31 - 1 ∧
        (t.isHandleInRange handle = .ok true → (boundBy requests handle).Bound type) :=
  (run_simulates (fun _ _ _ _ _ => exec_holds) (new_holds size) hrun).getHandler_iff handle type

/-- A handle that reads and accepts, and one that only writes. -/
def mixture : List Request :=
  [.bind 5 (some 1) .accept, .bind 5 (some 2) .read, .bind 7 (some 3) .write, .unbind 5 (some 2) .read]

/-- The table after these calls. -/
def mixedTable : SelectDemultiplexTable where
  eventVector := [[], [], [], [], [], [(.accept, 1)], [], [(.write, 3)]]
  currentMaxHandleP1 := 8

theorem getHandler_answers_mixture :
    ∃ history, run Request.exec mixture (new 8) = .ok (history, mixedTable) ∧
      (mixedTable.getHandler 5 .read = .ok (answer .read (boundBy mixture 5)) ↔
        (5 : Int) < 2 ^ 31 - 1 ∧
          (mixedTable.isHandleInRange 5 = .ok true → (boundBy mixture 5).Bound .read)) := by
  have hrun : ∃ history, run Request.exec mixture (new 8) = .ok (history, mixedTable) := ⟨_, rfl⟩
  obtain ⟨history, hrun⟩ := hrun
  exact ⟨history, hrun, getHandler_answers_iff 8 hrun 5 .read⟩

/-- Nothing is bound to handle 7 for `READ_EVENT`, and nothing for `ACCEPT_EVENT`. -/
theorem getHandler_readsBeyond :
    ∃ history, run Request.exec mixture (new 8) = .ok (history, mixedTable) ∧
    mixedTable.isHandleInRange 7 = .ok true ∧ answer .read (boundBy mixture 7) = none ∧
      mixedTable.getHandler 7 .read = .error .outOfBounds :=
  ⟨_, rfl, rfl, rfl, rfl⟩

end SelectDemultiplexTable
end Unp.Select
