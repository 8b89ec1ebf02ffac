import Unp.Epoll.EventRepo
import Unp.Lib.PriorityQueue

/-!
# The timeout handlers of `select_demultiplex_table`

They stand in a `min_heap` over their expirations. To unbind one that is not the first, the handlers
in front of it are popped into a vector and pushed again afterwards; when the handler is not found,
the function returns before it pushes them again, and everything that was bound is gone.

The handlers are known by their addresses, and a handler that is bound twice is there twice.
-/

namespace Unp.Select

open Unp.Machine Unp.Queues
open Unp.Epoll (HandlerId)

namespace TimeoutHandlers

-- `expirationTimePoint()` of every handler, in the ticks of the clock
variable {expiration : HandlerId → Int} (Q : PriorityQueue expiration)

def bindTimeoutEvent (handler : HandlerId) (q : Q.Queue) : Int × Q.Queue := (0, Q.push handler q)

def unbindTimeoutEvent (handler : HandlerId) (q : Q.Queue) : Res (Int × Q.Queue) :=
  match Q.top q with
  | none => pure (-1, q)
  | some first =>
      if first = handler then pure (0, Q.pop q)
      else do
        let (handlers, q) ← Q.popUntil (· = handler) (Q.size q + 1) [] q
        match Q.top q with
        | none => pure (-1, q)
        | some _ => pure (0, Q.pushAll handlers (Q.pop q))

/-- `getLatestTimeoutHandler`: a pointer, or null. -/
def getLatestTimeoutHandler (q : Q.Queue) : Option HandlerId := Q.top q

/-! ## What is left -/

/-- One occurrence of the handler goes, if there is one, and the result tells; everything else
stays. -/
def UnbindsOne (handler : HandlerId) (before : Multiset HandlerId) (ret : Int)
    (after : Multiset HandlerId) : Prop :=
  (handler ∈ before → ret = 0 ∧ after = before.erase handler) ∧
    (handler ∉ before → ret = -1 ∧ after = before)

/-- A handler that is bound and expires no later than any other. -/
def IsLatest (expiration : HandlerId → Int) (m : Multiset HandlerId) (latest : Option HandlerId) :
    Prop :=
  match latest with
  | none => m = 0
  | some a => a ∈ m ∧ ∀ b ∈ m, expiration a ≤ expiration b

theorem getLatestTimeoutHandler_isLatest (q : Q.Queue) :
    IsLatest expiration (Q.items q) (getLatestTimeoutHandler Q q) := by
  rw [getLatestTimeoutHandler]
  cases htop : Q.top q with
  | none => exact (Q.top_eq_none q).mp htop
  | some a => exact ⟨Q.top_mem q a htop, Q.top_le q a htop⟩

section Unbind
variable {Q} {q : Q.Queue} {handler : HandlerId}

/-- What the loop leaves: the handler is the first one, or it was not there and all is popped. -/
theorem popUntil_handler (handler : HandlerId) (q : Q.Queue) :
    ∃ popped q₁, Q.popUntil (· = handler) (Q.size q + 1) [] q = .ok (popped, q₁) ∧
      ↑popped + Q.items q₁ = Q.items q ∧ handler ∉ (popped : Multiset HandlerId) ∧
        (Q.top q₁ = some handler ∨ Q.top q₁ = none ∧ handler ∉ Q.items q) := by
  obtain ⟨popped, q₁, hok, hitems, hpopped, hlast⟩ :=
    Q.popUntil_spec (· = handler) [] (Nat.lt_succ_self (Q.size q))
  have hout : handler ∉ (popped : Multiset HandlerId) := by
    intro hin
    simpa using hpopped handler hin
  refine ⟨popped, q₁, hok, hitems, hout, ?_⟩
  cases htop : Q.top q₁ with
  | none =>
      right
      rw [(Q.top_eq_none q₁).mp htop, Multiset.add_zero] at hitems
      exact ⟨rfl, hitems ▸ hout⟩
  | some a =>
      left
      have ha : a = handler := by simpa using hlast a htop
      rw [ha]

/-- The handler is somewhere in the queue: it goes, and what was in front of it comes back. -/
theorem unbind_bound (hmem : handler ∈ Q.items q) :
    ∃ q', unbindTimeoutEvent Q handler q = .ok (0, q') ∧
      Q.items q' = (Q.items q).erase handler := by
  rw [unbindTimeoutEvent]
  cases htop : Q.top q with
  | none =>
      rw [(Q.top_eq_none q).mp htop] at hmem
      exact absurd hmem (Multiset.notMem_zero handler)
  | some first =>
      dsimp only
      by_cases hfirst : first = handler
      · subst hfirst
        refine ⟨Q.pop q, if_pos rfl, ?_⟩
        rw [← Q.items_pop q first htop, Multiset.erase_cons_head]
      · rw [if_neg hfirst]
        obtain ⟨popped, q₁, hok, hitems, hout, hleft⟩ := popUntil_handler handler q
        have htop₁ : Q.top q₁ = some handler := hleft.resolve_right fun h => h.2 hmem
        rw [hok, ok_bind, htop₁]
        refine ⟨_, rfl, ?_⟩
        rw [Q.items_pushAll, ← hitems, Multiset.erase_add_right_neg _ hout,
          ← Q.items_pop q₁ handler htop₁, Multiset.erase_cons_head]

/-- The handler is not there: the queue is popped to its end. -/
theorem unbind_absent (hmem : handler ∉ Q.items q) :
    ∃ q', unbindTimeoutEvent Q handler q = .ok (-1, q') ∧ Q.items q' = 0 := by
  rw [unbindTimeoutEvent]
  cases htop : Q.top q with
  | none => exact ⟨q, rfl, (Q.top_eq_none q).mp htop⟩
  | some first =>
      have hfirst : first ≠ handler := by
        rintro rfl
        exact hmem (Q.top_mem q first htop)
      dsimp only
      rw [if_neg hfirst]
      obtain ⟨popped, q₁, hok, hitems, -, hleft⟩ := popUntil_handler handler q
      rw [hok, ok_bind]
      rcases hleft with htop₁ | ⟨htop₁, -⟩
      · -- then it would have been there
        refine absurd ?_ hmem
        rw [← hitems, Multiset.mem_add]
        exact Or.inr (Q.top_mem q₁ handler htop₁)
      · rw [htop₁]
        exact ⟨q₁, rfl, (Q.top_eq_none q₁).mp htop₁⟩

end Unbind

/-- **When the others stay.** The handler is bound, or nothing is. -/
theorem unbindTimeoutEvent_keeps_iff (handler : HandlerId) (q : Q.Queue) :
    (∃ ret q', unbindTimeoutEvent Q handler q = .ok (ret, q') ∧
        UnbindsOne handler (Q.items q) ret (Q.items q') ∧
        IsLatest expiration (Q.items q') (getLatestTimeoutHandler Q q')) ↔
      handler ∈ Q.items q ∨ Q.items q = 0 := by
  by_cases hmem : handler ∈ Q.items q
  · refine iff_of_true ?_ (Or.inl hmem)
    obtain ⟨q', hok, hitems⟩ := unbind_bound hmem
    refine ⟨0, q', hok, ⟨fun _ => ⟨rfl, hitems⟩, ?_⟩, getLatestTimeoutHandler_isLatest Q q'⟩
    intro hout
    exact absurd hmem hout
  · obtain ⟨q', hok, hnone⟩ := unbind_absent hmem
    constructor
    · rintro ⟨ret, q₁, hok₁, ⟨-, hkeeps⟩, -⟩
      rw [hok] at hok₁
      cases hok₁
      right
      rw [← (hkeeps hmem).2, hnone]
    · intro hempty
      have hempty := hempty.resolve_left hmem
      refine ⟨-1, q', hok, ⟨?_, ?_⟩, getLatestTimeoutHandler_isLatest Q q'⟩
      · intro hin
        exact absurd hin hmem
      · intro _
        exact ⟨rfl, hnone.trans hempty.symm⟩

/-- Handlers that expire in the order of their addresses, in a sorted queue. -/
def byAddress : PriorityQueue fun handler : HandlerId => (handler : Int) := .sorted _

def twoBound : byAddress.Queue :=
  (bindTimeoutEvent byAddress 2 (bindTimeoutEvent byAddress 1 byAddress.empty).2).2

/-- Handlers 1 and 2 are bound, and 3 is to be unbound. -/
theorem unbind_loses_all : byAddress.items twoBound = {1, 2} ∧
    ∃ q', unbindTimeoutEvent byAddress 3 twoBound = .ok (-1, q') ∧ byAddress.items q' = 0 :=
  ⟨by decide, unbind_absent (by decide)⟩

end TimeoutHandlers

end Unp.Select
