import Unp.Epoll.EventRepo
import Unp.Net.HandleSet

/-!
# `select_demultiplex_table`

The handlers of a handle stand in a vector that is indexed by the handle, and
`current_max_handle_p_1_` is one more than the largest handle that has any: it is the width that
`select` is given, and the lookups are refused from there on.

Each entry of the vector is itself a vector of pairs, and an event type is looked for from its front.
A lookup that finds nothing reads the pair behind the last one.
-/

namespace Unp.Select

open Unp.Machine Unp.Run
open Unp.Epoll (EventType HandlerId)
open Unp.Net (fdSetSize invalidHandle)

/-- `select_event_tuple`: the event types of a handle, with their handlers. -/
abbrev EventTuple := List (EventType × HandlerId)

namespace EventTuple

def bindNew (type : EventType) (handler : Option HandlerId) (e : EventTuple) : Int × EventTuple :=
  match handler with
  | none => (-1, e)
  | some h => if type = .none then (-1, e) else (0, e ++ [(type, h)])

/-- `std::find_if`: the handler of the first pair of this type. -/
def find (type : EventType) (e : EventTuple) : Option HandlerId :=
  (List.find? (fun p => p.1 = type) e).map Prod.snd

def unbind (type : EventType) (handler : Option HandlerId) (e : EventTuple) : Int × EventTuple :=
  if type = .none ∨ handler = none then (-1, e)
  else match e.find type with
    | none => (-1, e)
    | some h => if some h ≠ handler then (-1, e) else (0, e.eraseP fun p => p.1 = type)

/-- `ACCEPT_EVENT` stands in for `READ_EVENT`; an iterator at the end is dereferenced. -/
def getHandler (type : EventType) (e : EventTuple) : Res HandlerId :=
  match e.find type with
  | some h => .ok h
  | none =>
      if type = .read then
        match e.find .accept with
        | some h => .ok h
        | none => .error .outOfBounds
      else .error .outOfBounds

section Lookups
variable {e : EventTuple} {type : EventType} {h : HandlerId}

theorem getHandler_of_find (hfind : e.find type = some h) : e.getHandler type = .ok h := by
  rw [getHandler, hfind]

/-- There is something to find. -/
def Bound (type : EventType) (e : EventTuple) : Prop :=
  e.find type ≠ none ∨ type = .read ∧ e.find .accept ≠ none

theorem getHandler_of_bound (hbound : e.Bound type) : ∃ h, e.getHandler type = .ok h := by
  unfold getHandler
  cases hfind : e.find type with
  | some h => exact ⟨h, rfl⟩
  | none =>
      obtain ⟨hread, haccept⟩ := hbound.resolve_left (not_not.mpr hfind)
      obtain ⟨h, haccept⟩ := Option.ne_none_iff_exists'.mp haccept
      dsimp only
      rw [if_pos hread, haccept]
      exact ⟨h, rfl⟩

/-- The lookup of a type that is not there reads behind the end. -/
theorem getHandler_of_not_bound (hbound : ¬ e.Bound type) :
    e.getHandler type = .error .outOfBounds := by
  simp only [Bound, not_or, not_and, not_not] at hbound
  rw [getHandler, hbound.1]
  dsimp only
  split
  · next hread => rw [hbound.2 hread]
  · rfl

theorem ne_nil_of_getHandler (hlookup : e.getHandler type = .ok h) : e ≠ [] := by
  rintro rfl
  unfold getHandler find at hlookup
  by_cases hread : type = .read <;> simp [hread] at hlookup

theorem unbind_refused (hother : e.find type ≠ some h) : e.unbind type (some h) = (-1, e) := by
  unfold unbind
  split
  · rfl
  · split
    · rfl
    · next h₁ hfind =>
        rw [hfind] at hother
        exact if_pos hother

theorem unbind_taken (htype : type ≠ .none) (hfind : e.find type = some h) :
    e.unbind type (some h) = (0, e.eraseP fun p => p.1 = type) := by
  rw [unbind, if_neg (by simp [htype]), hfind]
  exact if_neg (by simp)

/-- When nothing is left, the handler was the only one. -/
theorem eq_singleton_of_eraseP (hfind : e.find type = some h)
    (hempty : e.eraseP (fun p => p.1 = type) = []) : e = [(type, h)] := by
  rcases List.eraseP_eq_nil_iff.mp hempty with rfl | ⟨⟨type₁, h₁⟩, htype, rfl⟩
  · simp [find] at hfind
  · have heq : type₁ = type := by simpa using htype
    subst heq
    have hh : h₁ = h := by simpa [find] using hfind
    rw [hh]

end Lookups

end EventTuple

structure SelectDemultiplexTable where
  eventVector : List EventTuple
  currentMaxHandleP1 : Int

namespace SelectDemultiplexTable

def maxNumberOfHandle : Nat := fdSetSize

def new (size : Nat) : SelectDemultiplexTable :=
  ⟨List.replicate (if maxNumberOfHandle < size then maxNumberOfHandle else size) [],
    invalidHandle + 1⟩

def isHandleInRange (handle : Int) (t : SelectDemultiplexTable) : Res Bool :=
  if handle < 0 then pure false
  else do
    let next ← checkedI32 (handle + 1)
    pure (next ≤ t.currentMaxHandleP1)

def isValidHandle (handle : Int) : Bool :=
  ¬ (handle = invalidHandle ∨ (maxNumberOfHandle : Int) < handle)

/-- `event_vector_[handle]`. No vector is so long that a negative index would be inside. -/
def entry (handle : Int) (t : SelectDemultiplexTable) : Res EventTuple :=
  if handle < 0 then .error .outOfBounds else readAt t.eventVector handle.toNat

/-- `event_vector_[handle] = e`, where the index has been looked at before. -/
def put (handle : Int) (e : EventTuple) (t : SelectDemultiplexTable) : SelectDemultiplexTable :=
  { t with eventVector := t.eventVector.set handle.toNat e }

/-- `event_vector_.resize(static_cast<size_t>(size))`; it throws when the size is a negative number
that has become a large one. -/
def resize (size : Int) (t : SelectDemultiplexTable) : Res SelectDemultiplexTable :=
  if size < 0 then .error .exception
  else .ok { t with
    eventVector := t.eventVector.take size.toNat ++
      List.replicate (size.toNat - t.eventVector.length) [] }

def getHandler (handle : Int) (type : EventType) (t : SelectDemultiplexTable) :
    Res (Option HandlerId) := do
  if ← t.isHandleInRange handle then do
    let e ← t.entry handle
    let h ← e.getHandler type
    pure (some h)
  else pure none

/-- The table whose vector `bind` writes into. -/
def grown (handle : Int) (t : SelectDemultiplexTable) : Res SelectDemultiplexTable :=
  if handle < 0 ∨ t.eventVector.length ≤ handle.toNat then t.resize (handle + handle.tdiv 2)
  else pure t

def bind (handle : Int) (handler : Option HandlerId) (type : EventType)
    (t : SelectDemultiplexTable) : Res (Int × SelectDemultiplexTable) :=
  if isValidHandle handle = false ∨ handler = none then pure (-1, t)
  else do
    let t ← t.grown handle
    let e ← t.entry handle
    let t := t.put handle (e.bindNew type handler).2
    pure (0, { t with
      currentMaxHandleP1 :=
        if t.currentMaxHandleP1 - 1 < handle then handle + 1 else t.currentMaxHandleP1 })

/-- `while(--tmp != INVALID_HANDLE && event_vector_[tmp].handler_count() == 0);`, for a `tmp` that
is not negative. -/
def lastBelow (t : SelectDemultiplexTable) : Nat → Res Int
  | 0 => pure invalidHandle
  | n + 1 => do
      let e ← t.entry n
      if e.length = 0 then t.lastBelow n else pure n

/-- `unbind(handle)`. -/
def unbindHandle (handle : Int) (t : SelectDemultiplexTable) : Res (Int × SelectDemultiplexTable) := do
  if ← t.isHandleInRange handle then do
    let e ← t.entry handle
    if e.length = 0 then pure (-1, t)
    else if t.currentMaxHandleP1 = handle + 1 then do
      let tmp ← t.lastBelow handle.toNat
      pure (0, { t.put handle [] with currentMaxHandleP1 := tmp + 1 })
    else pure (0, t.put handle [])
  else pure (-1, t)

/-- `while(tmp-- != INVALID_HANDLE && event_vector_[tmp].handler_count() == 0);`, for a `tmp` that
is not negative. The entry is read before `tmp` is compared again. -/
def lastBefore (t : SelectDemultiplexTable) : Nat → Res Int
  | 0 => do
      let e ← t.entry invalidHandle
      if e.length = 0 then .error .outOfFuel else pure invalidHandle
  | n + 1 => do
      let e ← t.entry n
      if e.length = 0 then t.lastBefore n else pure n

/-- `unbind(handle, handler, type)`. The handlers of an entry are never null. -/
def unbind (handle : Int) (handler : Option HandlerId) (type : EventType)
    (t : SelectDemultiplexTable) : Res (Int × SelectDemultiplexTable) := do
  if ← t.isHandleInRange handle then do
    let e ← t.entry handle
    let _ ← e.getHandler type
    let (ret, e) := e.unbind type handler
    let t := t.put handle e
    if e.length = 0 ∧ handle + 1 = t.currentMaxHandleP1 then do
      let tmp ← t.lastBefore handle.toNat
      pure (ret, { t with currentMaxHandleP1 := tmp + 1 })
    else pure (ret, t)
  else pure (-1, t)

/-! ## What is bound -/

/-- The handlers of a handle. -/
def handlersOf (t : SelectDemultiplexTable) (n : Nat) : EventTuple := t.eventVector[n]?.getD []

/-- `current_max_handle_p_1_` is one more than the largest handle that has a handler, and zero when
there is none. -/
structure Exact (t : SelectDemultiplexTable) : Prop where
  lt_current : ∀ n, t.handlersOf n ≠ [] → (n : Int) < t.currentMaxHandleP1
  top : t.currentMaxHandleP1 = 0 ∨
    ∃ n, t.handlersOf n ≠ [] ∧ t.currentMaxHandleP1 = (n : Int) + 1

section Entries
variable {t : SelectDemultiplexTable} {n : Nat}

theorem entry_natCast (h : n < t.eventVector.length) : t.entry n = .ok (t.handlersOf n) := by
  rw [entry, if_neg (by omega), Int.toNat_natCast, readAt, handlersOf, List.getElem?_eq_getElem h]
  rfl

theorem entry_outside (h : t.eventVector.length ≤ n) : t.entry n = .error .outOfBounds := by
  rw [entry, if_neg (by omega), Int.toNat_natCast, readAt, List.getElem?_eq_none h]

theorem lt_length_of_handlersOf (h : t.handlersOf n ≠ []) : n < t.eventVector.length := by
  by_contra hge
  refine h ?_
  rw [handlersOf, List.getElem?_eq_none (by omega)]
  rfl

theorem handlersOf_put (h : n < t.eventVector.length) (e : EventTuple) (k : Nat) :
    (t.put n e).handlersOf k = if k = n then e else t.handlersOf k := by
  rw [handlersOf, put, Int.toNat_natCast, List.getElem?_set]
  by_cases heq : n = k
  · subst heq
    rw [if_pos rfl, if_pos h, if_pos rfl]
    rfl
  · rw [if_neg heq, if_neg (Ne.symm heq), handlersOf]

theorem put_handlersOf (h : n < t.eventVector.length) : t.put n (t.handlersOf n) = t := by
  have hget : t.handlersOf n = t.eventVector[n] := by
    rw [handlersOf, List.getElem?_eq_getElem h]
    rfl
  rw [put, Int.toNat_natCast, hget, List.set_getElem_self]

theorem isHandleInRange_natCast (h : n < 2 ^ 31 - 1) :
    t.isHandleInRange n = .ok (decide ((n : Int) < t.currentMaxHandleP1)) := by
  have hnext : checkedI32 ((n : Int) + 1) = .ok ((n : Int) + 1) :=
    checkedI32_ok (by omega) (by omega)
  rw [isHandleInRange, if_neg (by omega), hnext, ok_bind]
  rfl

/-- The lookups that are not refused stay inside the vector. -/
theorem Exact.lt_length (ht : t.Exact) (h : (n : Int) < t.currentMaxHandleP1) :
    n < t.eventVector.length := by
  rcases ht.top with hzero | ⟨k, hk, htop⟩
  · omega
  · have := lt_length_of_handlersOf hk
    omega

end Entries

/-! ## The backward searches -/

/-- `tmp` is the largest handle below `n` that has a handler, or `INVALID_HANDLE`. -/
def Top (f : Nat → EventTuple) (n : Nat) (tmp : Int) : Prop :=
  (∃ k < n, f k ≠ [] ∧ (∀ k', k < k' → k' < n → f k' = []) ∧ tmp = k) ∨
    ((∀ k < n, f k = []) ∧ tmp = invalidHandle)

theorem Top.congr {f g : Nat → EventTuple} {n : Nat} {tmp : Int} (h : Top f n tmp)
    (hfg : ∀ k < n, f k = g k) : Top g n tmp := by
  rcases h with ⟨k, hlt, hk, habove, htmp⟩ | ⟨hall, htmp⟩
  · refine Or.inl ⟨k, hlt, by rwa [← hfg k hlt], ?_, htmp⟩
    intro k' hlo hhi
    rw [← hfg k' hhi]
    exact habove k' hlo hhi
  · refine Or.inr ⟨?_, htmp⟩
    intro k hlt
    rw [← hfg k hlt]
    exact hall k hlt

section Searches
variable {t : SelectDemultiplexTable} {n : Nat}

theorem lastBelow_spec (h : n ≤ t.eventVector.length) :
    ∃ tmp, t.lastBelow n = .ok tmp ∧ Top t.handlersOf n tmp := by
  induction n with
  | zero => exact ⟨invalidHandle, rfl, Or.inr ⟨by simp, rfl⟩⟩
  | succ n ih =>
      rw [lastBelow, entry_natCast h, ok_bind]
      by_cases hempty : t.handlersOf n = []
      · rw [if_pos (by simp [hempty])]
        obtain ⟨tmp, hok, hspec⟩ := ih (Nat.le_of_succ_le h)
        refine ⟨tmp, hok, ?_⟩
        rcases hspec with ⟨k, hlt, hk, habove, htmp⟩ | ⟨hall, htmp⟩
        · refine Or.inl ⟨k, Nat.lt_succ_of_lt hlt, hk, ?_, htmp⟩
          intro k' hlo hhi
          rcases Nat.lt_succ_iff_lt_or_eq.mp hhi with hlt' | rfl
          · exact habove k' hlo hlt'
          · exact hempty
        · refine Or.inr ⟨?_, htmp⟩
          intro k hlt
          rcases Nat.lt_succ_iff_lt_or_eq.mp hlt with hlt' | rfl
          · exact hall k hlt'
          · exact hempty
      · rw [if_neg (by simpa using hempty)]
        refine ⟨n, rfl, Or.inl ⟨n, Nat.lt_succ_self n, hempty, ?_, rfl⟩⟩
        intro k' hlo hhi
        omega

/-- The second search agrees with the first one when there is something to find. -/
theorem lastBefore_eq (h : n ≤ t.eventVector.length) (hsome : ∃ k < n, t.handlersOf k ≠ []) :
    t.lastBefore n = t.lastBelow n := by
  induction n with
  | zero =>
      obtain ⟨k, hlt, -⟩ := hsome
      omega
  | succ n ih =>
      rw [lastBefore, lastBelow, entry_natCast h, ok_bind, ok_bind]
      by_cases hempty : t.handlersOf n = []
      · rw [if_pos (by simp [hempty]), if_pos (by simp [hempty])]
        refine ih (Nat.le_of_succ_le h) ?_
        obtain ⟨k, hlt, hk⟩ := hsome
        rcases Nat.lt_succ_iff_lt_or_eq.mp hlt with hlt' | rfl
        · exact ⟨k, hlt', hk⟩
        · exact absurd hempty hk
      · rw [if_neg (by simpa using hempty), if_neg (by simpa using hempty)]

/-- When there is nothing to find it reads in front of the vector. -/
theorem lastBefore_fault (h : n ≤ t.eventVector.length) (hnone : ∀ k < n, t.handlersOf k = []) :
    t.lastBefore n = .error .outOfBounds := by
  induction n with
  | zero => rfl
  | succ n ih =>
      rw [lastBefore, entry_natCast h, ok_bind, if_pos (by simp [hnone n (Nat.lt_succ_self n)])]
      exact ih (Nat.le_of_succ_le h) fun k hlt => hnone k (Nat.lt_succ_of_lt hlt)

end Searches

/-! ## One call -/

section Calls
variable {t : SelectDemultiplexTable} {n : Nat}

/-- An entry is replaced and the width stays right: the handle keeps a handler, or it was not the
last one. -/
theorem Exact.put {e : EventTuple} (ht : t.Exact) (h : (n : Int) < t.currentMaxHandleP1)
    (hkeep : e ≠ [] ∨ (n : Int) + 1 ≠ t.currentMaxHandleP1) : (t.put n e).Exact := by
  have hput := handlersOf_put (ht.lt_length h) e
  constructor
  · intro k hk
    show (k : Int) < t.currentMaxHandleP1
    rw [hput] at hk
    by_cases heq : k = n
    · rwa [heq]
    · rw [if_neg heq] at hk
      exact ht.lt_current k hk
  · rcases ht.top with hzero | ⟨k, hk, htop⟩
    · exact Or.inl hzero
    · refine Or.inr ⟨k, ?_, htop⟩
      rw [hput]
      by_cases heq : k = n
      · subst heq
        rw [if_pos rfl]
        exact hkeep.resolve_right (not_not.mpr htop.symm)
      · rwa [if_neg heq]

/-- The last handle loses its handlers, and the width goes down to the one below it. -/
theorem Exact.lower {tmp : Int} (ht : t.Exact) (hlast : (n : Int) + 1 = t.currentMaxHandleP1)
    (htmp : Top t.handlersOf n tmp) :
    ({ t.put n [] with currentMaxHandleP1 := tmp + 1 } : SelectDemultiplexTable).Exact := by
  have hput : ∀ k, ({ t.put n [] with currentMaxHandleP1 := tmp + 1 } :
      SelectDemultiplexTable).handlersOf k = if k = n then [] else t.handlersOf k :=
    handlersOf_put (ht.lt_length (by omega)) []
  have hbelow : ∀ k, k ≠ n → t.handlersOf k ≠ [] → k < n := by
    intro k hne hk
    have := ht.lt_current k hk
    omega
  have hleft : ∀ k, ({ t.put n [] with currentMaxHandleP1 := tmp + 1 } :
      SelectDemultiplexTable).handlersOf k ≠ [] → k < n ∧ t.handlersOf k ≠ [] := by
    intro k hk
    rw [hput] at hk
    by_cases heq : k = n
    · exact absurd (if_pos heq) hk
    · rw [if_neg heq] at hk
      exact ⟨hbelow k heq hk, hk⟩
  rcases htmp with ⟨k₀, hlt, hk₀, habove, rfl⟩ | ⟨hall, rfl⟩
  · constructor
    · intro k hk
      obtain ⟨hkn, hk⟩ := hleft k hk
      show (k : Int) < (k₀ : Int) + 1
      by_contra hge
      exact hk (habove k (by omega) hkn)
    · refine Or.inr ⟨k₀, ?_, rfl⟩
      rw [hput, if_neg (by omega)]
      exact hk₀
  · constructor
    · intro k hk
      obtain ⟨hkn, hk⟩ := hleft k hk
      exact absurd (hall k hkn) hk
    · exact Or.inl rfl

theorem handlersOf_append (l : List EventTuple) (cur : Int) (m k : Nat) :
    (⟨l ++ List.replicate m [], cur⟩ : SelectDemultiplexTable).handlersOf k =
      (⟨l, cur⟩ : SelectDemultiplexTable).handlersOf k := by
  simp only [handlersOf]
  by_cases hlt : k < l.length
  · rw [List.getElem?_append_left hlt]
  · rw [List.getElem?_append_right (by omega), List.getElem?_replicate,
      List.getElem?_eq_none (Nat.le_of_not_lt hlt)]
    split <;> rfl

/-- The vector that `bind` writes into: it reaches handle `n` unless `n / 2` is zero. -/
theorem grown_spec (t : SelectDemultiplexTable) (n : Nat) :
    ∃ t', t.grown n = .ok t' ∧ (∀ k, t'.handlersOf k = t.handlersOf k) ∧
      t'.currentMaxHandleP1 = t.currentMaxHandleP1 ∧
      (n < t'.eventVector.length ↔ n < t.eventVector.length ∨ 2 ≤ n) := by
  have hsize : (n : Int) + (n : Int).tdiv 2 = ((n + n / 2 : Nat) : Int) := by
    rw [Int.tdiv_eq_ediv_of_nonneg (by omega)]
    omega
  rw [grown, Int.toNat_natCast]
  by_cases hlt : n < t.eventVector.length
  · rw [if_neg (by omega)]
    exact ⟨t, rfl, fun _ => rfl, rfl, by simp [hlt]⟩
  · rw [if_pos (by omega), hsize, resize, if_neg (by omega), Int.toNat_natCast,
      List.take_of_length_le (by omega)]
    refine ⟨_, rfl, handlersOf_append _ _ _, rfl, ?_⟩
    rw [List.length_append, List.length_replicate]
    omega

theorem isValidHandle_natCast (h : n < fdSetSize) : isValidHandle n = true := by
  have hmax : (maxNumberOfHandle : Int) = fdSetSize := rfl
  simp only [isValidHandle, invalidHandle, hmax, decide_eq_true_eq]
  omega

/-- A handle gets a handler, and the width goes up to it. -/
theorem Exact.raise {t' : SelectDemultiplexTable} {e : EventTuple} (ht : t.Exact) (he : e ≠ [])
    (hof : ∀ k, t'.handlersOf k = if k = n then e else t.handlersOf k)
    (hcur : t'.currentMaxHandleP1 =
      if t.currentMaxHandleP1 - 1 < (n : Int) then (n : Int) + 1 else t.currentMaxHandleP1) :
    t'.Exact := by
  constructor
  · intro k hk
    rw [hof] at hk
    rw [hcur]
    by_cases heq : k = n
    · split <;> omega
    · rw [if_neg heq] at hk
      have := ht.lt_current k hk
      split <;> omega
  · rw [hcur]
    split
    · refine Or.inr ⟨n, ?_, rfl⟩
      rwa [hof, if_pos rfl]
    · rcases ht.top with hzero | ⟨k, hk, htop⟩
      · omega
      · refine Or.inr ⟨k, ?_, htop⟩
        rw [hof]
        split
        · exact he
        · exact hk

theorem bind_spec (ht : t.Exact) (hn : n < fdSetSize) (h : HandlerId) {type : EventType}
    (htype : type ≠ .none) (hreach : n < t.eventVector.length ∨ 2 ≤ n) :
    ∃ t', t.bind n (some h) type = .ok (0, t') ∧ t'.Exact ∧
      ∀ k, t'.handlersOf k = if k = n then t.handlersOf n ++ [(type, h)] else t.handlersOf k := by
  obtain ⟨t₁, hgrow, hsame, hcur, hlen⟩ := grown_spec t n
  have hlt : n < t₁.eventVector.length := hlen.mpr hreach
  have hnew : (t₁.handlersOf n).bindNew type (some h) = (0, t₁.handlersOf n ++ [(type, h)]) := by
    rw [EventTuple.bindNew]
    exact if_neg htype
  have hof : ∀ k, (t₁.put n (t₁.handlersOf n ++ [(type, h)])).handlersOf k =
      if k = n then t.handlersOf n ++ [(type, h)] else t.handlersOf k := by
    intro k
    rw [handlersOf_put hlt, hsame, hsame]
  rw [bind, if_neg (by simp [isValidHandle_natCast hn]), hgrow, ok_bind, entry_natCast hlt, ok_bind,
    hnew]
  refine ⟨_, rfl, ht.raise (by simp) hof ?_, hof⟩
  rw [← hcur]
  rfl

/-- For handle `0` or `1` the vector is resized to a size that does not reach it. -/
theorem bind_fault (hn : n < fdSetSize) (h : HandlerId) (type : EventType)
    (hreach : ¬ (n < t.eventVector.length ∨ 2 ≤ n)) :
    t.bind n (some h) type = .error .outOfBounds := by
  obtain ⟨t₁, hgrow, -, -, hlen⟩ := grown_spec t n
  have hout : t₁.eventVector.length ≤ n := Nat.le_of_not_lt fun h => hreach (hlen.mp h)
  rw [bind, if_neg (by simp [isValidHandle_natCast hn]), hgrow, ok_bind, entry_outside hout,
    error_bind]

theorem unbindHandle_spec (ht : t.Exact) (hn : n < 2 ^ 31 - 1) :
    ∃ ret t', t.unbindHandle n = .ok (ret, t') ∧ t'.Exact := by
  rw [unbindHandle, isHandleInRange_natCast hn, ok_bind]
  by_cases hin : (n : Int) < t.currentMaxHandleP1
  · rw [if_pos (by simpa using hin), entry_natCast (ht.lt_length hin), ok_bind]
    by_cases hempty : (t.handlersOf n).length = 0
    · exact ⟨-1, t, if_pos hempty, ht⟩
    · rw [if_neg hempty]
      by_cases hlast : t.currentMaxHandleP1 = (n : Int) + 1
      · obtain ⟨tmp, hok, htmp⟩ := lastBelow_spec (Nat.le_of_lt (ht.lt_length hin))
        rw [if_pos hlast, Int.toNat_natCast, hok, ok_bind]
        exact ⟨0, _, rfl, ht.lower hlast.symm htmp⟩
      · rw [if_neg hlast]
        exact ⟨0, _, rfl, ht.put hin (Or.inr fun h => hlast h.symm)⟩
  · rw [if_neg (by simpa using hin)]
    exact ⟨-1, t, rfl, ht⟩

/-! `unbind` of one event type: first what it returns without a change, then the change. -/

theorem unbind_outside (hn : n < 2 ^ 31 - 1) (handler : Option HandlerId) (type : EventType)
    (hout : ¬ (n : Int) < t.currentMaxHandleP1) : t.unbind n handler type = .ok (-1, t) := by
  rw [unbind, isHandleInRange_natCast hn, ok_bind, if_neg (by simpa using hout)]
  rfl

theorem unbind_fault (ht : t.Exact) (hn : n < 2 ^ 31 - 1) (handler : Option HandlerId)
    {type : EventType} (hin : (n : Int) < t.currentMaxHandleP1) {e : Fault}
    (hlookup : (t.handlersOf n).getHandler type = .error e) :
    t.unbind n handler type = .error e := by
  rw [unbind, isHandleInRange_natCast hn, ok_bind, if_pos (by simpa using hin),
    entry_natCast (ht.lt_length hin), ok_bind, hlookup, error_bind]

theorem unbind_found (ht : t.Exact) (hn : n < 2 ^ 31 - 1) (handler : Option HandlerId)
    {type : EventType} (hin : (n : Int) < t.currentMaxHandleP1) {h : HandlerId}
    (hlookup : (t.handlersOf n).getHandler type = .ok h) :
    t.unbind n handler type = (
      let (ret, e) := (t.handlersOf n).unbind type handler
      let t := t.put n e
      if e.length = 0 ∧ (n : Int) + 1 = t.currentMaxHandleP1 then do
        let tmp ← t.lastBefore n
        pure (ret, { t with currentMaxHandleP1 := tmp + 1 })
      else pure (ret, t)) := by
  rw [unbind, isHandleInRange_natCast hn, ok_bind, if_pos (by simpa using hin),
    entry_natCast (ht.lt_length hin), ok_bind, hlookup, ok_bind, Int.toNat_natCast]

theorem unbind_refused (ht : t.Exact) (hn : n < 2 ^ 31 - 1) {h h₁ : HandlerId} {type : EventType}
    (hin : (n : Int) < t.currentMaxHandleP1)
    (hlookup : (t.handlersOf n).getHandler type = .ok h₁)
    (hother : (t.handlersOf n).find type ≠ some h) : t.unbind n (some h) type = .ok (-1, t) := by
  have hne : ¬ ((t.handlersOf n).length = 0 ∧ (n : Int) + 1 = t.currentMaxHandleP1) := by
    rintro ⟨hempty, -⟩
    exact EventTuple.ne_nil_of_getHandler hlookup (List.length_eq_zero_iff.mp hempty)
  rw [unbind_found ht hn _ hin hlookup, EventTuple.unbind_refused hother]
  dsimp only
  rw [put_handlersOf (ht.lt_length hin), if_neg hne]
  rfl

/-- A handler goes, and the table has another one. -/
theorem unbind_taken (ht : t.Exact) (hn : n < 2 ^ 31 - 1) {h : HandlerId} {type : EventType}
    (htype : type ≠ .none) (hin : (n : Int) < t.currentMaxHandleP1)
    (hfind : (t.handlersOf n).find type = some h)
    (hmore : ¬ (t.handlersOf n = [(type, h)] ∧ ∀ k ≠ n, t.handlersOf k = [])) :
    ∃ t', t.unbind n (some h) type = .ok (0, t') ∧ t'.Exact := by
  have hlen := ht.lt_length hin
  rw [unbind_found ht hn _ hin (EventTuple.getHandler_of_find hfind),
    EventTuple.unbind_taken htype hfind]
  dsimp only
  by_cases hempty : (t.handlersOf n).eraseP (fun p => p.1 = type) = []
  · rw [hempty]
    by_cases hlast : (n : Int) + 1 = t.currentMaxHandleP1
    · -- the last handle is bare now, and some handle below it has a handler
      have hsome : ∃ k < n, t.handlersOf k ≠ [] := by
        by_contra hnone
        simp only [not_exists, not_and, not_not] at hnone
        refine hmore ⟨EventTuple.eq_singleton_of_eraseP hfind hempty, ?_⟩
        intro k hne
        by_contra hk
        have := ht.lt_current k hk
        exact hk (hnone k (by omega))
      have hput : ∀ k < n, (t.put n []).handlersOf k = t.handlersOf k := by
        intro k hlt
        rw [handlersOf_put hlen, if_neg (by omega)]
      have hlen' : n ≤ (t.put n []).eventVector.length := by
        rw [put, List.length_set]
        omega
      obtain ⟨tmp, hok, htmp⟩ := lastBelow_spec hlen'
      have hsome' : ∃ k < n, (t.put n []).handlersOf k ≠ [] := by
        obtain ⟨k, hlt, hk⟩ := hsome
        exact ⟨k, hlt, by rwa [hput k hlt]⟩
      rw [if_pos ⟨rfl, hlast⟩, lastBefore_eq hlen' hsome', hok, ok_bind]
      exact ⟨_, rfl, ht.lower hlast (htmp.congr hput)⟩
    · rw [if_neg fun h => hlast h.2]
      exact ⟨_, rfl, ht.put hin (Or.inr hlast)⟩
  · rw [if_neg fun h => hempty (List.length_eq_zero_iff.mp h.1)]
    exact ⟨_, rfl, ht.put hin (Or.inl hempty)⟩

/-- The last handler of the table goes, and the search for another handle leaves the vector. -/
theorem unbind_last (ht : t.Exact) (hn : n < 2 ^ 31 - 1) {h : HandlerId} {type : EventType}
    (htype : type ≠ .none) (hin : (n : Int) < t.currentMaxHandleP1)
    (honly : t.handlersOf n = [(type, h)]) (hnone : ∀ k ≠ n, t.handlersOf k = []) :
    t.unbind n (some h) type = .error .outOfBounds := by
  have hlen := ht.lt_length hin
  have hfind : (t.handlersOf n).find type = some h := by
    rw [honly]
    simp [EventTuple.find]
  have hlast : (n : Int) + 1 = t.currentMaxHandleP1 := by
    rcases ht.top with hzero | ⟨k, hk, htop⟩
    · omega
    · by_cases heq : k = n
      · rw [htop, heq]
      · exact absurd (hnone k heq) hk
  have hempty : (t.handlersOf n).eraseP (fun p => p.1 = type) = [] := by
    rw [honly]
    simp
  have hlen' : n ≤ (t.put n []).eventVector.length := by
    rw [put, List.length_set]
    omega
  have hbare : ∀ k < n, (t.put n []).handlersOf k = [] := by
    intro k hlt
    rw [handlersOf_put hlen, if_neg (by omega)]
    exact hnone k (by omega)
  rw [unbind_found ht hn _ hin (EventTuple.getHandler_of_find hfind),
    EventTuple.unbind_taken htype hfind]
  dsimp only
  rw [hempty, if_pos ⟨rfl, hlast⟩, lastBefore_fault hlen' hbare, error_bind]

/-- **What `unbind` does when it returns**: it refuses and changes nothing, or the handler was the
first one of this type and is gone. -/
theorem unbind_cases {t' : SelectDemultiplexTable} {handle ret : Int} {h : HandlerId}
    {type : EventType} (ht : t.Exact) (htype : type ≠ .none)
    (hok : t.unbind handle (some h) type = .ok (ret, t')) :
    (ret = -1 ∧ t' = t ∧ ¬ (0 ≤ handle ∧ (t.handlersOf handle.toNat).find type = some h)) ∨
      (ret = 0 ∧ t'.Exact ∧ (t.handlersOf handle.toNat).find type = some h) := by
  by_cases hneg : handle < 0
  · have hout : t.isHandleInRange handle = .ok false := if_pos hneg
    rw [unbind, hout, ok_bind, if_neg (by simp)] at hok
    cases hok
    exact Or.inl ⟨rfl, rfl, fun h => by omega⟩
  obtain ⟨n, rfl⟩ := Int.eq_ofNat_of_zero_le (Int.not_lt.mp hneg)
  rw [Int.toNat_natCast]
  by_cases hn : n < 2 ^ 31 - 1
  · by_cases hin : (n : Int) < t.currentMaxHandleP1
    · cases hlookup : (t.handlersOf n).getHandler type with
      | error e =>
          rw [unbind_fault ht hn _ hin hlookup] at hok
          cases hok
      | ok h₁ =>
          by_cases hfind : (t.handlersOf n).find type = some h
          · by_cases hlast : t.handlersOf n = [(type, h)] ∧ ∀ k ≠ n, t.handlersOf k = []
            · rw [unbind_last ht hn htype hin hlast.1 hlast.2] at hok
              cases hok
            · obtain ⟨t₁, hok₁, ht₁⟩ := unbind_taken ht hn htype hin hfind hlast
              rw [hok₁] at hok
              cases hok
              exact Or.inr ⟨rfl, ht₁, hfind⟩
          · rw [unbind_refused ht hn hin hlookup hfind] at hok
            cases hok
            exact Or.inl ⟨rfl, rfl, fun h => hfind h.2⟩
    · rw [unbind_outside hn _ _ hin] at hok
      cases hok
      refine Or.inl ⟨rfl, rfl, ?_⟩
      rintro ⟨-, hfind⟩
      refine hin (ht.lt_current n ?_)
      exact EventTuple.ne_nil_of_getHandler (EventTuple.getHandler_of_find hfind)
  · have hover : t.isHandleInRange n = .error .overflow := by
      rw [isHandleInRange, if_neg (by omega), checkedI32_overflow (by omega), error_bind]
    rw [unbind, hover, error_bind] at hok
    cases hok

end Calls

/-! ## Runs -/

/-- An event type other than `NONE`. -/
abbrev SomeEvent := { type : EventType // type ≠ .none }

inductive Call where
  | bind (handle : Fin fdSetSize) (handler : HandlerId) (type : SomeEvent)
  | unbindHandle (handle : Fin fdSetSize)
  | unbind (handle : Fin fdSetSize) (handler : HandlerId) (type : SomeEvent)
  deriving DecidableEq

def step : Call → SelectDemultiplexTable → Res (Int × SelectDemultiplexTable)
  | .bind handle handler type, t => t.bind handle (some handler) type
  | .unbindHandle handle, t => t.unbindHandle handle
  | .unbind handle handler type, t => t.unbind handle (some handler) type

/-- `bind` is not to be called for handle `0` or `1` while the vector does not reach it; an event
type that is unbound is bound, unless the handle is refused; and its handler is not the last one of
the table. -/
def Careful (t : SelectDemultiplexTable) : Call → Prop
  | .bind handle _ _ => (handle : Nat) < t.eventVector.length ∨ 2 ≤ (handle : Nat)
  | .unbindHandle _ => True
  | .unbind handle handler type =>
      ((handle : Int) < t.currentMaxHandleP1 → (t.handlersOf handle).Bound type) ∧
        ¬ (t.handlersOf handle = [(type.1, handler)] ∧ ∀ k ≠ (handle : Nat), t.handlersOf k = [])

theorem new_handlersOf (size n : Nat) : (new size).handlersOf n = [] := by
  simp only [handlersOf, new, List.getElem?_replicate]
  split <;> split <;> rfl

theorem new_exact (size : Nat) : (new size).Exact :=
  ⟨fun n h => absurd (new_handlersOf size n) h, Or.inl rfl⟩

theorem handle_lt (handle : Fin fdSetSize) : (handle : Nat) < 2 ^ 31 - 1 :=
  Nat.lt_trans handle.isLt (by decide)

section Steps
variable {t : SelectDemultiplexTable} {call : Call}

theorem step_careful (ht : t.Exact) (hcall : t.Careful call) :
    ∃ ret t', step call t = .ok (ret, t') ∧ t'.Exact := by
  cases call with
  | bind handle handler type =>
      obtain ⟨t', hok, ht', -⟩ := bind_spec ht handle.isLt handler type.2 hcall
      exact ⟨0, t', hok, ht'⟩
  | unbindHandle handle => exact unbindHandle_spec ht (handle_lt handle)
  | unbind handle handler type =>
      obtain ⟨hbound, hmore⟩ := hcall
      by_cases hin : ((handle : Nat) : Int) < t.currentMaxHandleP1
      · obtain ⟨h₁, hlookup⟩ := EventTuple.getHandler_of_bound (hbound hin)
        by_cases hfind : (t.handlersOf handle).find type = some handler
        · obtain ⟨t', hok, ht'⟩ := unbind_taken ht (handle_lt handle) type.2 hin hfind hmore
          exact ⟨0, t', hok, ht'⟩
        · exact ⟨-1, t, unbind_refused ht (handle_lt handle) hin hlookup hfind, ht⟩
      · exact ⟨-1, t, unbind_outside (handle_lt handle) _ _ hin, ht⟩

/-- A careless call leaves the vector. -/
theorem step_careless (ht : t.Exact) (hcall : ¬ t.Careful call) :
    step call t = .error .outOfBounds := by
  cases call with
  | bind handle handler type => exact bind_fault handle.isLt handler type hcall
  | unbindHandle handle => exact absurd trivial hcall
  | unbind handle handler type =>
      have hin : ((handle : Nat) : Int) < t.currentMaxHandleP1 := by
        by_contra hout
        refine hcall ⟨fun h => absurd h hout, ?_⟩
        rintro ⟨honly, -⟩
        exact hout (ht.lt_current _ (by simp [honly]))
      by_cases hbound : (t.handlersOf handle).Bound type
      · have honly : t.handlersOf handle = [(type.1, handler)] ∧
            ∀ k ≠ (handle : Nat), t.handlersOf k = [] := by
          by_contra hmore
          exact hcall ⟨fun _ => hbound, hmore⟩
        exact unbind_last ht (handle_lt handle) type.2 hin honly.1 honly.2
      · exact unbind_fault ht (handle_lt handle) _ hin (EventTuple.getHandler_of_not_bound hbound)

end Steps

/-- **The width is exact** after every call, and no call leaves the vector, in the runs whose calls
are careful. -/
theorem width_exact_iff (size : Nat) (calls : List Call) :
    AllGood step (fun e => e.after.Exact) (new size) calls ↔ Along step Careful (new size) calls := by
  refine run_good_iff ?_ ?_ calls (new_exact size)
  · intro t call ht hcall
    obtain ⟨ret, t', hok, ht'⟩ := step_careful ht hcall
    exact ⟨ret, t', hok, ht', ht'⟩
  · intro t call ret t' ht hcall hok
    rw [step_careless ht hcall] at hok
    cases hok

/-- One handler, bound and unbound again. -/
def bindAndUnbind : List Call :=
  [.bind ⟨7, by decide⟩ 1 ⟨.read, by decide⟩, .unbind ⟨7, by decide⟩ 1 ⟨.read, by decide⟩]

theorem unbind_leaves_vector :
    ¬ AllGood step (fun e => e.after.Exact) (new 8) bindAndUnbind := by
  rintro ⟨history, t, hrun, -⟩
  cases hrun

end SelectDemultiplexTable

end Unp.Select
