import Mathlib.Data.List.Basic
import Mathlib.Logic.Relation

/-!
# Schedules

A system of threads is a function `step : ι → σ → Option σ`. The action says which thread moves and
what the scheduler chooses for it; `none` means that this is not possible now (the thread sleeps, or
the mutex is taken). A schedule is a list of actions, and `exec` carries it out.

A property of all interleavings is proved from one step: `exec_invariant` for what every step keeps,
`exec_simulates` for a system that follows another one, `length_add_measure_le` for threads that come
to rest.
-/

namespace Unp.Schedule

variable {σ ι α : Type}

def exec (step : ι → σ → Option σ) : List ι → σ → Option σ
  | [], s => some s
  | i :: is, s => (step i s).bind (exec step is)

section Runs
variable {step : ι → σ → Option σ} {i : ι} {is js : List ι} {s s' : σ}

@[simp] theorem exec_nil : exec step [] s = some s := rfl

theorem exec_cons_eq_some :
    exec step (i :: is) s = some s' ↔ ∃ m, step i s = some m ∧ exec step is m = some s' :=
  Option.bind_eq_some_iff

theorem exec_append_eq_some :
    exec step (is ++ js) s = some s' ↔ ∃ m, exec step is s = some m ∧ exec step js m = some s' := by
  induction is generalizing s with
  | nil => simp
  | cons i is ih =>
      simp only [List.cons_append, exec_cons_eq_some, ih]
      constructor
      · rintro ⟨m, hone, m', hrest, hlast⟩
        exact ⟨m', ⟨m, hone, hrest⟩, hlast⟩
      · rintro ⟨m', ⟨m, hone, hrest⟩, hlast⟩
        exact ⟨m, hone, m', hrest, hlast⟩

/-- **The invariant rule.** What every allowed step keeps holds after every schedule of such steps. -/
theorem exec_invariant (Inv : σ → Prop) (Allowed : ι → Prop)
    (hstep : ∀ s i s', Inv s → Allowed i → step i s = some s' → Inv s')
    (hs : Inv s) (hall : ∀ i ∈ is, Allowed i) (hrun : exec step is s = some s') : Inv s' := by
  induction is generalizing s with
  | nil =>
      cases hrun
      exact hs
  | cons i is ih =>
      obtain ⟨m, hone, hrest⟩ := exec_cons_eq_some.mp hrun
      obtain ⟨hi, his⟩ := List.forall_mem_cons.mp hall
      exact ih (hstep s i m hs hi hone) his hrest

/-- The invariant rule where nothing is asked of the actions. -/
theorem exec_keeps (Inv : σ → Prop) (hstep : ∀ s i s', Inv s → step i s = some s' → Inv s')
    (hs : Inv s) (hrun : exec step is s = some s') : Inv s' :=
  exec_invariant Inv (fun _ => True) (fun s i s' hs _ => hstep s i s' hs) hs (by simp) hrun

/-- **The simulation rule.** If every step is a step of an abstract system, or leaves its state as it
is, then every schedule is a run of the abstract system. -/
theorem exec_simulates (Inv : σ → Prop) (abs : σ → α) {AStep : α → α → Prop}
    (hstep : ∀ s i s', Inv s → step i s = some s' → Inv s' ∧
      (abs s' = abs s ∨ AStep (abs s) (abs s')))
    (hs : Inv s) (hrun : exec step is s = some s') :
    Relation.ReflTransGen AStep (abs s) (abs s') := by
  induction is generalizing s with
  | nil =>
      cases hrun
      exact Relation.ReflTransGen.refl
  | cons i is ih =>
      obtain ⟨m, hone, hrest⟩ := exec_cons_eq_some.mp hrun
      obtain ⟨hm, habs⟩ := hstep s i m hs hone
      have hlater := ih hm hrest
      rcases habs with habs | habs
      · rwa [habs] at hlater
      · exact Relation.ReflTransGen.head habs hlater

end Runs

/-! ## Threads that come to rest -/

/-- None of the allowed actions is possible. -/
def AtRest (step : ι → σ → Option σ) (Allowed : ι → Prop) (s : σ) : Prop :=
  ∀ i, Allowed i → step i s = none

section Rest
variable {step : ι → σ → Option σ} {Allowed : ι → Prop} {Inv : σ → Prop} {measure : σ → Nat}

/-- A schedule is no longer than what its steps use up. -/
theorem length_add_measure_le
    (hstep : ∀ s i s', Inv s → Allowed i → step i s = some s' → Inv s' ∧ measure s' < measure s)
    {is : List ι} {s s' : σ} (hs : Inv s) (hall : ∀ i ∈ is, Allowed i)
    (hrun : exec step is s = some s') : is.length + measure s' ≤ measure s := by
  induction is generalizing s with
  | nil =>
      cases hrun
      simp
  | cons i is ih =>
      obtain ⟨m, hone, hrest⟩ := exec_cons_eq_some.mp hrun
      obtain ⟨hi, his⟩ := List.forall_mem_cons.mp hall
      obtain ⟨hm, hlt⟩ := hstep s i m hs hi hone
      have hlater := ih hm his hrest
      rw [List.length_cons]
      omega

/-- Every schedule can be continued until the threads are at rest. -/
theorem exists_atRest
    (hstep : ∀ s i s', Inv s → Allowed i → step i s = some s' → Inv s' ∧ measure s' < measure s)
    {s : σ} (hs : Inv s) :
    ∃ is s', (∀ i ∈ is, Allowed i) ∧ exec step is s = some s' ∧ AtRest step Allowed s' := by
  induction hn : measure s using Nat.strongRecOn generalizing s with
  | ind n ih =>
      by_cases hrest : AtRest step Allowed s
      · exact ⟨[], s, by simp, rfl, hrest⟩
      · obtain ⟨i, hi, m, hone⟩ : ∃ i, Allowed i ∧ ∃ m, step i s = some m := by
          simpa [AtRest, Option.ne_none_iff_exists'] using hrest
        obtain ⟨hm, hlt⟩ := hstep s i m hs hi hone
        obtain ⟨is, s', hall, hrun, hs'⟩ := ih (measure m) (hn ▸ hlt) hm rfl
        refine ⟨i :: is, s', List.forall_mem_cons.mpr ⟨hi, hall⟩, ?_, hs'⟩
        exact exec_cons_eq_some.mpr ⟨m, hone, hrun⟩

end Rest

end Unp.Schedule
