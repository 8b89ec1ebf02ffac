import Mathlib.Algebra.GroupWithZero.Nat
import Mathlib.Algebra.Order.BigOperators.Group.List
import Mathlib.Algebra.Order.Group.Nat
import Mathlib.Logic.Relation

/-!
# Mutexes and condition variables

What a verification of a monitor (a mutex, and condition variables that its threads sleep on) needs
and what has nothing to do with what the monitor is for.

* `Exclusive`: the threads that are between `lock` and `unlock` are the owner of the mutex and nobody
  else.
* `notifyOne`, `notifyAll`: what the calls do to a list of threads. Both leave a thread as it was or
  wake a sleeping one (`Woken`).
* `Ledger`: a condition variable by its numbers. Threads that look for a unit of something (a task, a
  free place) and find none go to sleep; whoever adds a unit owes a `notify_one` for it. `Fair` is
  what makes this work: as long as a thread sleeps, each unit is known to another thread that is up.
-/

namespace Unp.Monitor

/-! ## The mutex -/

section Mutex
variable {T : Type} {mutex : Option T} {inside inside' : T → Prop} {s t : T}

def Exclusive (mutex : Option T) (inside : T → Prop) : Prop := ∀ t, inside t ↔ mutex = some t

theorem Exclusive.eq (h : Exclusive mutex inside) (hs : inside s) (ht : inside t) : s = t :=
  Option.some.inj (((h s).mp hs).symm.trans ((h t).mp ht))

theorem Exclusive.keep (h : Exclusive mutex inside) (hkeep : ∀ t, inside' t ↔ inside t) :
    Exclusive mutex inside' :=
  fun t => (hkeep t).trans (h t)

/-- Thread `t` goes on, and is inside afterwards if `now` holds. The others stay where they are. -/
def Goes (t : T) (now : Prop) (inside inside' : T → Prop) : Prop :=
  ∀ u, inside' u ↔ u = t ∧ now ∨ u ≠ t ∧ inside u

variable {now : Prop}

theorem Exclusive.stay (h : Exclusive mutex inside) (hgoes : Goes t now inside inside')
    (hnow : now ↔ inside t) : Exclusive mutex inside' := by
  refine h.keep ?_
  intro u
  rw [hgoes u]
  by_cases hu : u = t
  · simp [hu, hnow]
  · simp [hu]

theorem Exclusive.enter (h : Exclusive none inside) (hgoes : Goes t now inside inside')
    (hnow : now) : Exclusive (some t) inside' := by
  intro u
  rw [hgoes u, h u]
  simp [hnow, eq_comm]

theorem Exclusive.leave (h : Exclusive mutex inside) (hgoes : Goes t now inside inside')
    (ht : inside t) (hnow : ¬ now) : Exclusive none inside' := by
  intro u
  rw [hgoes u]
  refine iff_of_false ?_ (by simp)
  rintro (⟨-, hn⟩ | ⟨hne, hu⟩)
  · exact hnow hn
  · exact hne (h.eq hu ht)

end Mutex

/-! ## Lists of threads -/

section Threads
variable {L : Type} {P : Nat → L → Prop} {l : List L} {i j : Nat} {x y : L}

theorem getElem?_set_of_some (hx : l[i]? = some x) :
    (l.set i y)[j]? = if i = j then some y else l[j]? := by
  obtain ⟨hlt, -⟩ := List.getElem?_eq_some_iff.mp hx
  rw [List.getElem?_set, if_pos hlt]

def AllAt (P : Nat → L → Prop) (l : List L) : Prop := ∀ (i : Nat) (x : L), l[i]? = some x → P i x

/-- One thread moves. -/
theorem allAt_set (hothers : ∀ j x, j ≠ i → l[j]? = some x → P j x) (hy : P i y) :
    AllAt P (l.set i y) := by
  intro j z hz
  rw [List.getElem?_set] at hz
  split at hz
  · next hij =>
      subst hij
      split at hz
      · cases hz
        exact hy
      · cases hz
  · next hij => exact hothers j z (Ne.symm hij) hz

theorem AllAt.set (h : AllAt P l) (hy : P i y) : AllAt P (l.set i y) :=
  allAt_set (fun j x _ hx => h j x hx) hy

end Threads

/-! ## Numbers of threads -/

section Total
variable {L : Type} {f : L → Nat} {l : List L} {i : Nat} {x y : L}

/-- The sum of `f` over the threads. -/
def total (f : L → Nat) (l : List L) : Nat := (l.map f).sum

/-- How a sum changes when one thread moves from `x` to `y`. -/
theorem total_set (h : l[i]? = some x) : total f (l.set i y) + f x = total f l + f y := by
  induction l generalizing i with
  | nil => simp at h
  | cons a l ih =>
      cases i with
      | zero =>
          obtain rfl : a = x := by simpa using h
          simp only [total, List.set_cons_zero, List.map_cons, List.sum_cons]
          omega
      | succ i =>
          have hrest := ih (i := i) (by simpa using h)
          simp only [total, List.set_cons_succ, List.map_cons, List.sum_cons] at hrest ⊢
          omega

theorem le_total (h : l[i]? = some x) : f x ≤ total f l :=
  List.le_sum_of_mem (List.mem_map_of_mem (List.mem_of_getElem? h))

theorem total_eq_zero (h : ∀ x ∈ l, f x = 0) : total f l = 0 := by
  unfold total
  rw [List.sum_eq_zero]
  simpa using h

theorem total_append (l l' : List L) : total f (l ++ l') = total f l + total f l' := by
  simp [total]

end Total

/-! ## Waking -/

section Condition
variable {L : Type} (asleep : L → Bool) (wake : L → L)

/-- `notify_one`: one of the threads that sleep. Which one is not the caller's choice. -/
def notifyOne (choice : Nat) (threads : List L) : Option (List L) :=
  if threads.any asleep then
    match threads[choice]? with
    | some t => if asleep t then some (threads.set choice (wake t)) else none
    | none => none
  else some threads

def notifyAll (threads : List L) : List L := threads.map fun t => if asleep t then wake t else t

/-- Every thread is where it was, or it slept and is awake now. -/
def Woken (before after : List L) : Prop :=
  before.length = after.length ∧ ∀ (i : Nat) (y : L), after[i]? = some y →
    ∃ x, before[i]? = some x ∧ (y = x ∨ asleep x = true ∧ y = wake x)

variable {asleep wake} {threads threads' : List L} {choice : Nat}

theorem notifyOne_cases (h : notifyOne asleep wake choice threads = some threads') :
    ((∀ t ∈ threads, asleep t = false) ∧ threads' = threads) ∨
      ∃ t, threads[choice]? = some t ∧ asleep t = true ∧ threads' = threads.set choice (wake t) := by
  unfold notifyOne at h
  split at h
  · split at h
    · next t ht =>
        split at h
        · next hs => exact Or.inr ⟨t, ht, hs, (Option.some.inj h).symm⟩
        · cases h
    · cases h
  · next hno =>
      refine Or.inl ⟨?_, (Option.some.inj h).symm⟩
      simpa using hno

/-- The call never blocks. -/
theorem exists_notifyOne (asleep : L → Bool) (wake : L → L) (threads : List L) :
    ∃ choice threads', notifyOne asleep wake choice threads = some threads' := by
  unfold notifyOne
  split
  · next hany =>
      obtain ⟨t, ht, hs⟩ := List.any_eq_true.mp hany
      obtain ⟨i, hi⟩ := List.mem_iff_getElem?.mp ht
      exact ⟨i, threads.set i (wake t), by rw [hi]; exact if_pos hs⟩
  · exact ⟨0, threads, rfl⟩

theorem Woken.refl (threads : List L) : Woken asleep wake threads threads :=
  ⟨rfl, fun _ y hy => ⟨y, hy, Or.inl rfl⟩⟩

theorem woken_set {i : Nat} {t : L} (ht : threads[i]? = some t) (hs : asleep t = true) :
    Woken asleep wake threads (threads.set i (wake t)) := by
  refine ⟨(List.length_set ..).symm, ?_⟩
  intro j y hy
  rw [List.getElem?_set] at hy
  split at hy
  · next hij =>
      subst hij
      split at hy
      · exact ⟨t, ht, Or.inr ⟨hs, (Option.some.inj hy).symm⟩⟩
      · cases hy
  · exact ⟨y, hy, Or.inl rfl⟩

theorem woken_notifyOne (h : notifyOne asleep wake choice threads = some threads') :
    Woken asleep wake threads threads' := by
  rcases notifyOne_cases h with ⟨-, rfl⟩ | ⟨t, ht, hs, rfl⟩
  · exact Woken.refl _
  · exact woken_set ht hs

theorem woken_notifyAll (threads : List L) :
    Woken asleep wake threads (notifyAll asleep wake threads) := by
  refine ⟨(List.length_map ..).symm, ?_⟩
  intro i y hy
  rw [notifyAll, List.getElem?_map, Option.map_eq_some_iff] at hy
  obtain ⟨x, hx, rfl⟩ := hy
  refine ⟨x, hx, ?_⟩
  by_cases hs : asleep x = true
  · exact Or.inr ⟨hs, if_pos hs⟩
  · exact Or.inl (if_neg hs)

theorem Woken.back (h : Woken asleep wake threads threads') {i : Nat} {x : L}
    (hx : threads[i]? = some x) :
    ∃ y, threads'[i]? = some y ∧ (y = x ∨ asleep x = true ∧ y = wake x) := by
  obtain ⟨hlt, -⟩ := List.getElem?_eq_some_iff.mp hx
  obtain ⟨x', hx', hy⟩ := h.2 i _ (List.getElem?_eq_getElem (h.1 ▸ hlt))
  cases hx.symm.trans hx'
  exact ⟨_, List.getElem?_eq_getElem _, hy⟩

theorem Woken.allAt {P : Nat → L → Prop} (h : Woken asleep wake threads threads')
    (hall : AllAt P threads) (hwake : ∀ i x, asleep x = true → P i x → P i (wake x)) :
    AllAt P threads' := by
  intro i y hy
  obtain ⟨x, hx, rfl | ⟨hs, rfl⟩⟩ := h.2 i y hy
  · exact hall i y hx
  · exact hwake i x hs (hall i x hx)

theorem Woken.total_le (h : Woken asleep wake threads threads') {f : L → Nat}
    (hf : ∀ x, asleep x = true → f (wake x) ≤ f x) : total f threads' ≤ total f threads := by
  refine List.Forall₂.sum_le_sum (List.forall₂_iff_get.mpr ⟨by simp [h.1], ?_⟩)
  intro i hi hi'
  rw [List.length_map] at hi
  obtain ⟨x, hx, hy⟩ := h.2 i _ (List.getElem?_eq_getElem hi)
  obtain ⟨hlt, rfl⟩ := List.getElem?_eq_some_iff.mp hx
  simp only [List.get_eq_getElem, List.getElem_map]
  rcases hy with hy | ⟨hs, hy⟩
  · rw [hy]
  · rw [hy]
    exact hf _ hs

/-- A count that does not tell a sleeping thread from the same thread awake. -/
theorem Woken.total_eq (h : Woken asleep wake threads threads') {f : L → Nat}
    (hf : ∀ x, asleep x = true → f (wake x) = f x) : total f threads' = total f threads := by
  suffices heq : threads'.map f = threads.map f by rw [total, total, heq]
  refine List.ext_getElem (by simp [h.1]) ?_
  intro i hi hi'
  rw [List.length_map] at hi
  obtain ⟨x, hx, hy⟩ := h.2 i _ (List.getElem?_eq_getElem hi)
  obtain ⟨hlt, rfl⟩ := List.getElem?_eq_some_iff.mp hx
  rw [List.getElem_map, List.getElem_map]
  rcases hy with hy | ⟨hs, hy⟩
  · rw [hy]
  · rw [hy, hf _ hs]

end Condition

/-! ## A condition variable by its numbers -/

structure Ledger where
  asleep : Nat
  /-- Threads that will look for a unit before they sleep again. -/
  looking : Nat
  /-- Threads that have added a unit and have not called `notify_one` yet. -/
  owing : Nat
  units : Nat

namespace Ledger

inductive Step (b b' : Ledger) : Prop
  | enter (ha : b'.asleep = b.asleep) (hl : b'.looking = b.looking + 1) (ho : b'.owing = b.owing)
      (hu : b'.units = b.units)
  | take (ha : b'.asleep = b.asleep) (hl : b'.looking + 1 = b.looking) (ho : b'.owing = b.owing)
      (hu : b'.units + 1 = b.units)
  /-- Only who finds nothing goes to sleep. -/
  | sleep (ha : b'.asleep = b.asleep + 1) (hl : b'.looking + 1 = b.looking) (ho : b'.owing = b.owing)
      (hnone : b.units = 0) (hu : b'.units = 0)
  /-- A spurious wakeup, or a `notify_all`. -/
  | wake (ha : b'.asleep ≤ b.asleep) (hl : b'.asleep + b'.looking = b.asleep + b.looking)
      (ho : b'.owing = b.owing) (hu : b'.units = b.units)
  /-- A thread that sleeps is cancelled. -/
  | leave (ha : b'.asleep + 1 = b.asleep) (hl : b'.looking = b.looking) (ho : b'.owing = b.owing)
      (hu : b'.units = b.units)
  | add (ha : b'.asleep = b.asleep) (hl : b'.looking = b.looking) (ho : b'.owing = b.owing + 1)
      (hu : b'.units = b.units + 1)
  | notify (ha : b'.asleep + 1 = b.asleep) (hl : b'.looking = b.looking + 1)
      (ho : b'.owing + 1 = b.owing) (hu : b'.units = b.units)
  | notifyNobody (hnobody : b.asleep = 0) (ha : b'.asleep = 0) (hl : b'.looking = b.looking)
      (ho : b'.owing + 1 = b.owing) (hu : b'.units = b.units)

/-- **No lost wakeup.** While a thread sleeps, each unit has a thread of its own that will look for it
or will wake somebody for it. -/
def Fair (b : Ledger) : Prop := 0 < b.asleep → b.units ≤ b.looking + b.owing

theorem Step.fair {b b' : Ledger} (h : Step b b') (hb : Fair b) : Fair b' := by
  unfold Fair at hb ⊢
  cases h <;> omega

theorem fair_of_run {b b' : Ledger} (h : Relation.ReflTransGen Step b b') (hb : Fair b) : Fair b' := by
  induction h with
  | refl => exact hb
  | tail _ hstep ih => exact hstep.fair ih

end Ledger

end Unp.Monitor
