import Mathlib.Data.List.TakeWhile
import Unp.Lib.Schedule

/-!
# Scanners

A scanner reads a text letter by letter and stops at a letter that it does not allow: it is `exec` of
a step whose actions are the letters. Most of its time it spends in runs, where every letter of a
class leaves it as it was but for its counters. `exists_run` splits a text at the end of the run it
begins with, `reads_run` takes the scanner there, and what follows is a text of its own.
-/

namespace Unp.Scan

open Unp.Schedule

variable {σ α : Type}

/-- A text of letters of this class. -/
def Letters (C : α → Bool) : Type := { w : List α // ∀ a ∈ w, C a = true }

/-- The same, with one letter at least. -/
def Word (C : α → Bool) : Type := { w : List α // w ≠ [] ∧ ∀ a ∈ w, C a = true }

/-- The run of letters of a class that a text begins with, and what follows it. -/
theorem exists_run (C : α → Bool) (text : List α) :
    ∃ (w : Letters C) (r : List α), text = w.1 ++ r ∧ ∀ a ∈ r.head?, C a = false := by
  refine ⟨⟨text.takeWhile C, fun _ ha => List.mem_takeWhile_imp ha⟩, text.dropWhile C,
    List.takeWhile_append_dropWhile.symm, ?_⟩
  intro a ha
  have hstop := List.head?_dropWhile_not C text
  rw [Option.mem_def.mp ha] at hstop
  simpa using hstop

section Scanner
variable {step : α → σ → Option σ} {C : α → Bool} {v v' : σ}

/-- The scanner gets through the text, and ends so. -/
def Reads (step : α → σ → Option σ) (v : σ) (text : List α) (Q : σ → Prop) : Prop :=
  ∃ v', exec step text v = some v' ∧ Q v'

theorem reads_nil {Q : σ → Prop} : Reads step v [] Q ↔ Q v := by simp [Reads]

theorem reads_cons {a : α} {text : List α} {Q : σ → Prop} :
    Reads step v (a :: text) Q ↔ ∃ m, step a v = some m ∧ Reads step m text Q := by
  simp only [Reads, exec_cons_eq_some]
  constructor
  · rintro ⟨v', ⟨m, hone, hrest⟩, hQ⟩
    exact ⟨m, hone, v', hrest, hQ⟩
  · rintro ⟨m, hone, v', hrest, hQ⟩
    exact ⟨v', ⟨m, hone, hrest⟩, hQ⟩

theorem reads_append {xs ys : List α} {Q : σ → Prop} :
    Reads step v (xs ++ ys) Q ↔ ∃ m, exec step xs v = some m ∧ Reads step m ys Q := by
  simp only [Reads, exec_append_eq_some]
  constructor
  · rintro ⟨v', ⟨m, hone, hrest⟩, hQ⟩
    exact ⟨m, hone, v', hrest, hQ⟩
  · rintro ⟨m, hone, v', hrest, hQ⟩
    exact ⟨v', ⟨m, hone, hrest⟩, hQ⟩

theorem reads_cons_of_some {a : α} {m : σ} {text : List α} {Q : σ → Prop}
    (hstep : step a v = some m) : Reads step v (a :: text) Q ↔ Reads step m text Q := by
  rw [reads_cons, hstep]
  exact ⟨fun ⟨_, heq, h⟩ => Option.some.inj heq ▸ h, fun h => ⟨m, rfl, h⟩⟩

theorem not_reads_cons {a : α} {text : List α} {Q : σ → Prop} (hstep : step a v = none) :
    ¬ Reads step v (a :: text) Q := by
  rw [reads_cons, hstep]
  rintro ⟨_, heq, -⟩
  cases heq

/-- In a run it is how many letters there were that counts. -/
theorem exec_stays {after : Nat → σ}
    (hstay : ∀ n a, C a = true → step a (after n) = some (after (n + 1)))
    {w : List α} (hw : ∀ a ∈ w, C a = true) (n : Nat) :
    exec step w (after n) = some (after (n + w.length)) := by
  induction w generalizing n with
  | nil => rfl
  | cons a w ih =>
      obtain ⟨ha, hw⟩ := List.forall_mem_cons.mp hw
      apply exec_cons_eq_some.mpr
      refine ⟨after (n + 1), hstay n a ha, ?_⟩
      rw [ih hw, List.length_cons, Nat.add_right_comm, Nat.add_assoc]

/-- **Reading a run.** A scanner that stays as it is over the letters of a class comes to the end of
a run of them, and goes on with what follows. -/
theorem reads_run (after : Nat → σ)
    (hstay : ∀ n a, C a = true → step a (after n) = some (after (n + 1)))
    (w : Letters C) {r : List α} {Q : σ → Prop} :
    Reads step (after 0) (w.1 ++ r) Q ↔ Reads step (after w.1.length) r Q := by
  rw [reads_append, exec_stays hstay w.2, Nat.zero_add]
  exact ⟨fun ⟨_, heq, h⟩ => Option.some.inj heq ▸ h, fun h => ⟨_, rfl, h⟩⟩

/-- The same where the first letter takes the scanner into the run. -/
theorem reads_word (after : Nat → σ) (hfirst : ∀ a, C a = true → step a v = some (after 1))
    (hstay : ∀ n a, C a = true → step a (after (n + 1)) = some (after (n + 2)))
    (w : Word C) {r : List α} {Q : σ → Prop} :
    Reads step v (w.1 ++ r) Q ↔ Reads step (after w.1.length) r Q := by
  obtain ⟨_ | ⟨a, w⟩, hne, hall⟩ := w
  · exact absurd rfl hne
  · obtain ⟨ha, hw⟩ := List.forall_mem_cons.mp hall
    show Reads step v (a :: (w ++ r)) Q ↔ _
    rw [reads_cons_of_some (hfirst a ha)]
    exact reads_run (fun n => after (n + 1)) hstay ⟨w, hw⟩

/-- A text that has to begin with a letter of the class. -/
theorem exists_word {text : List α} {Q : σ → Prop} (hother : ∀ a, C a = false → step a v = none)
    (hend : ¬ Q v) (hreads : Reads step v text Q) :
    ∃ (w : Word C) (r : List α), text = w.1 ++ r ∧ ∀ a ∈ r.head?, C a = false := by
  obtain ⟨⟨w, hw⟩, r, rfl, hstop⟩ := exists_run C text
  refine ⟨⟨w, ?_, hw⟩, r, rfl, hstop⟩
  rintro rfl
  cases r with
  | nil => exact hend (reads_nil.mp hreads)
  | cons a r => exact not_reads_cons (hother a (hstop a rfl)) hreads

end Scanner

end Unp.Scan
