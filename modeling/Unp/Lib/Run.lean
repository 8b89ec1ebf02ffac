import Unp.Lib.Machine

/-!
# Runs of a fallible step function

A component is a step function: it takes an input and a state and, unless something goes wrong,
returns an output and the next state. `run` feeds it a list of inputs and keeps the whole history.

`run_refines` is the simulation rule: to show something about every run it is enough to relate one
step to a step of an abstract machine. `run_good_iff` and `run_tracks_iff` are for a component that
goes wrong under some inputs: they say which runs are free of them.
-/

namespace Unp.Run

open Unp.Machine

variable {σ ι ο α : Type}

/-- One step of a history. -/
structure Entry (σ ι ο : Type) where
  before : σ
  input : ι
  output : ο
  after : σ

def run (step : ι → σ → Res (ο × σ)) : List ι → σ → Res (List (Entry σ ι ο) × σ)
  | [], s => .ok ([], s)
  | i :: is, s => do
      let (o, s') ← step i s
      let (history, s'') ← run step is s'
      pure (⟨s, i, o, s'⟩ :: history, s'')

theorem run_cons_ok {step : ι → σ → Res (ο × σ)} {i : ι} {is : List ι} {s s'' : σ}
    {history : List (Entry σ ι ο)} (h : run step (i :: is) s = .ok (history, s'')) :
    ∃ o s' rest, step i s = .ok (o, s') ∧ run step is s' = .ok (rest, s'') ∧
      history = ⟨s, i, o, s'⟩ :: rest := by
  rw [run] at h
  obtain ⟨⟨o, s'⟩, hstep, h⟩ := bind_eq_ok h
  obtain ⟨⟨rest, s₂⟩, hrest, h⟩ := bind_eq_ok h
  cases h
  exact ⟨o, s', rest, hstep, hrest, rfl⟩

/-- A run returns if every step does. -/
theorem run_total {step : ι → σ → Res (ο × σ)} (Inv : σ → Prop)
    (hstep : ∀ s i, Inv s → ∃ o s', step i s = .ok (o, s') ∧ Inv s') (is : List ι) {s : σ}
    (hs : Inv s) : ∃ history s', run step is s = .ok (history, s') := by
  induction is generalizing s with
  | nil => exact ⟨[], s, rfl⟩
  | cons i is ih =>
      obtain ⟨o, s₁, hone, hs₁⟩ := hstep s i hs
      obtain ⟨history, s', hrest⟩ := ih hs₁
      refine ⟨⟨s, i, o, s₁⟩ :: history, s', ?_⟩
      rw [run, hone, ok_bind]
      simp only [hrest, ok_bind, pure_eq_ok]

/-- **The invariant rule.** In a run whose steps all satisfy `Cond`, what every such step keeps holds
in every state, and every step meets its contract. -/
theorem run_invariant {step : ι → σ → Res (ο × σ)} (Inv : σ → Prop) (Cond : ι → ο → Prop)
    (Meets : σ → ι → ο → σ → Prop)
    (hstep : ∀ s i o s', Inv s → step i s = .ok (o, s') → Cond i o → Inv s' ∧ Meets s i o s')
    {is : List ι} {s s' : σ} {history : List (Entry σ ι ο)} (hs : Inv s)
    (hrun : run step is s = .ok (history, s')) (hcond : ∀ e ∈ history, Cond e.input e.output) :
    Inv s' ∧ ∀ e ∈ history, Inv e.after ∧ Meets e.before e.input e.output e.after := by
  induction is generalizing s history with
  | nil =>
      cases hrun
      exact ⟨hs, by simp⟩
  | cons i is ih =>
      obtain ⟨o, s₁, rest, hone, hrest, rfl⟩ := run_cons_ok hrun
      obtain ⟨hnow, hlater⟩ := List.forall_mem_cons.mp hcond
      obtain ⟨hinv, hmeets⟩ := hstep s i o s₁ hs hone hnow
      obtain ⟨hfinal, hall⟩ := ih hinv hrest hlater
      exact ⟨hfinal, List.forall_mem_cons.mpr ⟨⟨hinv, hmeets⟩, hall⟩⟩

/-- An entry cuts the history into what was before and what came after it. -/
theorem eq_take_cons_drop {l : List α} {n : Nat} {a : α} (h : l[n]? = some a) :
    l = l.take n ++ a :: l.drop (n + 1) := by
  obtain ⟨hlt, rfl⟩ := List.getElem?_eq_some_iff.mp h
  rw [← List.drop_eq_getElem_cons hlt, List.take_append_drop]

/-- **The history rule.** Like the invariant rule, for facts about a state and what led to it: a
step is judged by its entry and by the entries before it. -/
theorem run_history {step : ι → σ → Res (ο × σ)} (Inv : List (Entry σ ι ο) → σ → Prop)
    (Cond : σ → ι → Prop) (Good : List (Entry σ ι ο) → Entry σ ι ο → Prop)
    (hstep : ∀ past s i o s', Inv past s → Cond s i → step i s = .ok (o, s') →
      Inv (past ++ [⟨s, i, o, s'⟩]) s' ∧ Good past ⟨s, i, o, s'⟩)
    {is : List ι} {s s' : σ} {past history : List (Entry σ ι ο)} (hs : Inv past s)
    (hrun : run step is s = .ok (history, s')) (hcond : ∀ e ∈ history, Cond e.before e.input) :
    Inv (past ++ history) s' ∧
      ∀ earlier e later, history = earlier ++ e :: later → Good (past ++ earlier) e := by
  induction is generalizing s past history with
  | nil =>
      cases hrun
      exact ⟨by rwa [List.append_nil], fun earlier e later heq => absurd heq (by simp)⟩
  | cons i is ih =>
      obtain ⟨o, s₁, rest, hone, hrest, rfl⟩ := run_cons_ok hrun
      obtain ⟨hnow, hlater⟩ := List.forall_mem_cons.mp hcond
      obtain ⟨hinv, hgood⟩ := hstep past s i o s₁ hs hnow hone
      obtain ⟨hfinal, hall⟩ := ih hinv hrest hlater
      refine ⟨by rwa [List.append_assoc] at hfinal, ?_⟩
      intro earlier e later heq
      cases earlier with
      | nil =>
          obtain ⟨rfl, -⟩ := List.cons.inj heq
          rwa [List.append_nil]
      | cons e₀ earlier =>
          obtain ⟨rfl, hsplit⟩ := List.cons.inj heq
          have hgood' := hall earlier e later hsplit
          rwa [List.append_assoc] at hgood'

/-! ## When a run is good

A component that is right only under a condition on its inputs: the condition is looked at in the
states the run goes through. -/

section Exact
variable {step : ι → σ → Res (ο × σ)} {Cond : σ → ι → Prop} {Inv : σ → Prop}
  {Good : Entry σ ι ο → Prop}

/-- Every input meets the condition in the state it comes to, as far as the run gets. -/
def Along (step : ι → σ → Res (ο × σ)) (Cond : σ → ι → Prop) : σ → List ι → Prop
  | _, [] => True
  | s, i :: is => Cond s i ∧ ∀ o s', step i s = .ok (o, s') → Along step Cond s' is

instance decidableAlong (step : ι → σ → Res (ο × σ)) (Cond : σ → ι → Prop)
    [∀ s i, Decidable (Cond s i)] : ∀ s is, Decidable (Along step Cond s is)
  | _, [] => inferInstanceAs (Decidable True)
  | s, i :: is =>
      match hstep : step i s with
      | .error _ => decidable_of_iff (Cond s i) (by simp [Along, hstep])
      | .ok (_, s') =>
          have := decidableAlong step Cond s' is
          decidable_of_iff (Cond s i ∧ Along step Cond s' is) (by simp [Along, hstep])

/-- Every step returns, and is good. -/
def AllGood (step : ι → σ → Res (ο × σ)) (Good : Entry σ ι ο → Prop) (s : σ) (is : List ι) : Prop :=
  ∃ history s', run step is s = .ok (history, s') ∧ ∀ e ∈ history, Good e

theorem allGood_cons {i : ι} {is : List ι} {s s' : σ} {o : ο} (hstep : step i s = .ok (o, s')) :
    AllGood step Good s (i :: is) ↔ Good ⟨s, i, o, s'⟩ ∧ AllGood step Good s' is := by
  constructor
  · rintro ⟨history, s'', hrun, hall⟩
    obtain ⟨o₁, s₁, rest, hone, hrest, rfl⟩ := run_cons_ok hrun
    rw [hstep] at hone
    cases hone
    obtain ⟨hnow, hlater⟩ := List.forall_mem_cons.mp hall
    exact ⟨hnow, rest, s'', hrest, hlater⟩
  · rintro ⟨hnow, rest, s'', hrest, hlater⟩
    refine ⟨⟨s, i, o, s'⟩ :: rest, s'', ?_, List.forall_mem_cons.mpr ⟨hnow, hlater⟩⟩
    rw [run, hstep, ok_bind]
    simp only [hrest, ok_bind, pure_eq_ok]

/-- **The exactness rule.** If the condition makes a step good and keeps an invariant, and without
it the step is not good or does not return, then the runs that are good throughout are those whose
steps all meet the condition. -/
theorem run_good_iff
    (hkeep : ∀ s i, Inv s → Cond s i → ∃ o s', step i s = .ok (o, s') ∧ Inv s' ∧ Good ⟨s, i, o, s'⟩)
    (hbreak : ∀ s i o s', Inv s → ¬ Cond s i → step i s = .ok (o, s') → ¬ Good ⟨s, i, o, s'⟩)
    (is : List ι) {s : σ} (hs : Inv s) : AllGood step Good s is ↔ Along step Cond s is := by
  induction is generalizing s with
  | nil => exact ⟨fun _ => trivial, fun _ => ⟨[], s, rfl, by simp⟩⟩
  | cons i is ih =>
      by_cases hcond : Cond s i
      · obtain ⟨o, s', hstep, hs', hgood⟩ := hkeep s i hs hcond
        rw [allGood_cons hstep, ih hs']
        constructor
        · rintro ⟨-, hlater⟩
          refine ⟨hcond, ?_⟩
          intro o₁ s₁ hone
          rw [hstep] at hone
          cases hone
          exact hlater
        · rintro ⟨-, hlater⟩
          exact ⟨hgood, hlater o s' hstep⟩
      · refine iff_of_false ?_ fun h => hcond h.1
        rintro ⟨history, s'', hrun, hall⟩
        obtain ⟨o, s', rest, hstep, -, rfl⟩ := run_cons_ok hrun
        exact hbreak s i o s' hs hcond hstep (List.forall_mem_cons.mp hall).1

/-- The history rule for steps that return when the condition holds: then the run returns too. -/
theorem run_history_of_along {Inv : List (Entry σ ι ο) → σ → Prop}
    (hstep : ∀ past s i, Inv past s → Cond s i →
      ∃ o s', step i s = .ok (o, s') ∧ Inv (past ++ [⟨s, i, o, s'⟩]) s')
    {is : List ι} {s : σ} {past : List (Entry σ ι ο)} (hs : Inv past s)
    (halong : Along step Cond s is) :
    ∃ history s', run step is s = .ok (history, s') ∧ Inv (past ++ history) s' := by
  induction is generalizing s past with
  | nil => exact ⟨[], s, rfl, by rwa [List.append_nil]⟩
  | cons i is ih =>
      obtain ⟨hnow, hlater⟩ := halong
      obtain ⟨o, s₁, hone, hinv⟩ := hstep past s i hs hnow
      obtain ⟨history, s', hrun, hfinal⟩ := ih hinv (hlater o s₁ hone)
      refine ⟨⟨s, i, o, s₁⟩ :: history, s', ?_, by rwa [List.append_assoc] at hfinal⟩
      rw [run, hone, ok_bind]
      simp only [hrun, ok_bind, pure_eq_ok]

/-- The invariant rule for such steps. -/
theorem run_invariant_of_along
    (hstep : ∀ s i, Inv s → Cond s i → ∃ o s', step i s = .ok (o, s') ∧ Inv s')
    {is : List ι} {s : σ} (hs : Inv s) (halong : Along step Cond s is) :
    ∃ history s', run step is s = .ok (history, s') ∧ Inv s' := by
  induction is generalizing s with
  | nil => exact ⟨[], s, rfl, hs⟩
  | cons i is ih =>
      obtain ⟨hnow, hlater⟩ := halong
      obtain ⟨o, s₁, hone, hinv⟩ := hstep s i hs hnow
      obtain ⟨history, s', hrun, hfinal⟩ := ih hinv (hlater o s₁ hone)
      refine ⟨⟨s, i, o, s₁⟩ :: history, s', ?_, hfinal⟩
      rw [run, hone, ok_bind]
      simp only [hrun, ok_bind, pure_eq_ok]

end Exact

/-- Every input is admissible in the abstract state it meets. -/
def Admissible (astep : ι → α → α) (Pre : α → ι → Prop) : α → List ι → Prop
  | _, [] => True
  | x, i :: is => Pre x i ∧ Admissible astep Pre (astep i x) is

instance decidableAdmissible (astep : ι → α → α) (Pre : α → ι → Prop)
    [∀ x i, Decidable (Pre x i)] : ∀ x is, Decidable (Admissible astep Pre x is)
  | _, [] => inferInstanceAs (Decidable True)
  | x, i :: is =>
      have := decidableAdmissible astep Pre (astep i x) is
      inferInstanceAs (Decidable (Pre x i ∧ Admissible astep Pre (astep i x) is))

theorem admissible_of_forall {astep : ι → α → α} {Pre : α → ι → Prop} {is : List ι}
    (h : ∀ i ∈ is, ∀ x, Pre x i) (x : α) : Admissible astep Pre x is := by
  induction is generalizing x with
  | nil => trivial
  | cons i is ih =>
      obtain ⟨hi, his⟩ := List.forall_mem_cons.mp h
      exact ⟨hi x, ih his (astep i x)⟩

section Refinement
variable {step : ι → σ → Res (ο × σ)} {astep : ι → α → α} {Pre : α → ι → Prop}
  {Inv : σ → Prop} (abs : σ → α) {Meets : σ → ι → ο → σ → Prop}

/-- **The simulation rule.** If every admissible step succeeds, keeps the invariant, meets its
contract and follows the abstract machine, then so does every admissible run. -/
theorem run_refines
    (hstep : ∀ s i, Inv s → Pre (abs s) i →
      ∃ o s', step i s = .ok (o, s') ∧ Inv s' ∧ Meets s i o s' ∧ abs s' = astep i (abs s))
    (is : List ι) {s : σ} (hs : Inv s) (hpre : Admissible astep Pre (abs s) is) :
    ∃ history s', run step is s = .ok (history, s') ∧
      history.map Entry.input = is ∧ Inv s' ∧
      abs s' = is.foldl (fun x i => astep i x) (abs s) ∧
      (∀ e ∈ history, Inv e.after ∧ Meets e.before e.input e.output e.after) := by
  induction is generalizing s with
  | nil => exact ⟨[], s, rfl, rfl, hs, rfl, by simp⟩
  | cons i is ih =>
      obtain ⟨hi, his⟩ := hpre
      obtain ⟨o, s₁, hok, hinv, hmeets, habs⟩ := hstep s i hs hi
      obtain ⟨history, s', hrun, hinputs, hinv', habs', hall⟩ := ih hinv (habs ▸ his)
      refine ⟨⟨s, i, o, s₁⟩ :: history, s', ?_, ?_, hinv', ?_, ?_⟩
      · simp only [run, hok, ok_bind, hrun, pure_eq_ok]
      · simp only [List.map_cons, hinputs]
      · rw [habs', List.foldl_cons, habs]
      · intro e he
        rcases List.mem_cons.mp he with rfl | he
        · exact ⟨hinv, hmeets⟩
        · exact hall e he

end Refinement

/-- The simulation rule for runs that return: nothing is asked of the inputs. -/
theorem run_simulates {step : ι → σ → Res (ο × σ)} {astep : ι → α → α} {R : σ → α → Prop}
    (hstep : ∀ s x i o s', R s x → step i s = .ok (o, s') → R s' (astep i x))
    {is : List ι} {s s' : σ} {x : α} {history : List (Entry σ ι ο)} (hs : R s x)
    (hrun : run step is s = .ok (history, s')) : R s' (is.foldl (fun x i => astep i x) x) := by
  induction is generalizing s x history with
  | nil =>
      cases hrun
      exact hs
  | cons i is ih =>
      obtain ⟨o, s₁, rest, hone, hrest, -⟩ := run_cons_ok hrun
      exact ih (hstep s x i o s₁ hs hone) hrest

/-- The simulation rule for steps that always return, where the state stands in a relation to the
abstract one. -/
theorem run_follows {step : ι → σ → Res (ο × σ)} {astep : ι → α → α} (R : σ → α → Prop)
    (hstep : ∀ s x i, R s x → ∃ o s', step i s = .ok (o, s') ∧ R s' (astep i x))
    (is : List ι) {s : σ} {x : α} (hs : R s x) :
    ∃ history s', run step is s = .ok (history, s') ∧ R s' (is.foldl (fun x i => astep i x) x) := by
  obtain ⟨history, s', hrun⟩ := run_total (fun s => ∃ x, R s x)
    (fun s i ⟨x, hs⟩ => by
      obtain ⟨o, s', hone, hs'⟩ := hstep s x i hs
      exact ⟨o, s', hone, astep i x, hs'⟩) is ⟨x, hs⟩
  refine ⟨history, s', hrun, run_simulates ?_ hs hrun⟩
  intro s x i o s' hs hone
  obtain ⟨o₁, s₁, hone₁, hs₁⟩ := hstep s x i hs
  rw [hone] at hone₁
  cases hone₁
  exact hs₁

/-! ## When a run follows the abstract machine -/

section Tracking
variable {step : ι → σ → Res (ο × σ)} {astep : ι → α → α} {Pre : α → ι → Prop} {R : σ → α → Prop}

/-- Every step returns, and in every state of the run the abstract state is represented. -/
def Tracks (step : ι → σ → Res (ο × σ)) (astep : ι → α → α) (R : σ → α → Prop) :
    σ → α → List ι → Prop
  | s, x, [] => R s x
  | s, x, i :: is => R s x ∧ ∃ o s', step i s = .ok (o, s') ∧ Tracks step astep R s' (astep i x) is

theorem Tracks.head {s : σ} {x : α} {is : List ι} (h : Tracks step astep R s x is) : R s x := by
  cases is with
  | nil => exact h
  | cons i is => exact h.1

/-- **The tracking rule.** If an admissible step succeeds and follows the abstract machine, and one
that is not admissible does not, then the runs that follow it throughout are the admissible ones. -/
theorem run_tracks_iff
    (hkeep : ∀ s x i, R s x → Pre x i → ∃ o s', step i s = .ok (o, s') ∧ R s' (astep i x))
    (hbreak : ∀ s x i o s', R s x → ¬ Pre x i → step i s = .ok (o, s') → ¬ R s' (astep i x))
    (is : List ι) {s : σ} {x : α} (hs : R s x) :
    Tracks step astep R s x is ↔ Admissible astep Pre x is := by
  induction is generalizing s x with
  | nil => exact iff_of_true hs trivial
  | cons i is ih =>
      constructor
      · rintro ⟨-, o, s', hstep, hrest⟩
        by_cases hpre : Pre x i
        · exact ⟨hpre, (ih hrest.head).mp hrest⟩
        · exact absurd hrest.head (hbreak s x i o s' hs hpre hstep)
      · rintro ⟨hpre, hrest⟩
        obtain ⟨o, s', hstep, hs'⟩ := hkeep s x i hs hpre
        exact ⟨hs, o, s', hstep, (ih hs').mpr hrest⟩

end Tracking

end Unp.Run
