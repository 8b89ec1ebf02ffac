import Mathlib.Logic.Function.Basic
import Unp.Lib.Run

/-!
# The interest flags of a connection

`read_enabled_` and `write_enabled_` are to tell whether the connection is registered with the
reactor, and they save it a call when nothing would change. Each of them is written before the
reactor is asked, and what the reactor answers is handed to the caller only.

What the reactor answers is an argument of every call.
-/

namespace Unp.Reactor

open Unp.Machine Unp.Run

/-- `READ_EVENT` and `WRITE_EVENT`. -/
inductive Interest where
  | read
  | write
  deriving Repr, DecidableEq

/-- The members of a connection that the calls use, and what the reactor has registered. `enabled`
holds `read_enabled_` and `write_enabled_`. -/
structure ConnectionInterest where
  hasStream : Bool
  enabled : Interest → Bool
  registered : Interest → Bool

namespace ConnectionInterest

def new (hasStream : Bool) : ConnectionInterest := ⟨hasStream, fun _ => false, fun _ => false⟩

/-- `register_handler` and `unregister_handler` of the reactor. A call that fails changes nothing. -/
def ask (succeeds : Bool) (i : Interest) (register : Bool) (c : ConnectionInterest) :
    Int × ConnectionInterest :=
  if succeeds = true then (0, { c with registered := Function.update c.registered i register })
  else (-1, c)

/-- Enabling and disabling: the flag, and then the reactor, which needs the handle of the stream. -/
def setInterest (i : Interest) (enable succeeds : Bool) (c : ConnectionInterest) :
    Res (Int × ConnectionInterest) :=
  if c.enabled i = enable then pure (0, c)
  else if c.hasStream = true then
    pure ({ c with enabled := Function.update c.enabled i enable }.ask succeeds i enable)
  else .error .nullDeref

def enableReading : Bool → ConnectionInterest → Res (Int × ConnectionInterest) :=
  setInterest .read true

def enableWriting : Bool → ConnectionInterest → Res (Int × ConnectionInterest) :=
  setInterest .write true

def disableReading : Bool → ConnectionInterest → Res (Int × ConnectionInterest) :=
  setInterest .read false

def disableWriting : Bool → ConnectionInterest → Res (Int × ConnectionInterest) :=
  setInterest .write false

/-- Closing one half: what disabling returns is not looked at. -/
def closeHalf (i : Interest) (disable : ConnectionInterest → Res (Int × ConnectionInterest))
    (c : ConnectionInterest) : Res (Int × ConnectionInterest) :=
  if c.hasStream = false then pure (-1, c)
  else if c.enabled i = true then do
    let (_, c) ← disable c
    pure (0, c)
  else pure (0, c)

def closeRead (succeeds : Bool) : ConnectionInterest → Res (Int × ConnectionInterest) :=
  closeHalf .read (disableReading succeeds)

def closeWrite (succeeds : Bool) : ConnectionInterest → Res (Int × ConnectionInterest) :=
  closeHalf .write (disableWriting succeeds)

/-! ## Runs -/

inductive Call where
  | enableReading
  | enableWriting
  | disableReading
  | disableWriting
  | closeRead
  | closeWrite
  deriving Repr, DecidableEq

/-- A call, and whether the reactor does what it is asked for. -/
def step (call : Call × Bool) (c : ConnectionInterest) : Res (Int × ConnectionInterest) :=
  match call.1 with
  | .enableReading => c.enableReading call.2
  | .enableWriting => c.enableWriting call.2
  | .disableReading => c.disableReading call.2
  | .disableWriting => c.disableWriting call.2
  | .closeRead => c.closeRead call.2
  | .closeWrite => c.closeWrite call.2

/-- The flags tell the truth. -/
def Truthful (c : ConnectionInterest) : Prop := ∀ i, c.enabled i = c.registered i

/-- What the flag is to become; a connection without a stream has nothing to close. -/
def wants (c : ConnectionInterest) : Call → Option (Interest × Bool)
  | .enableReading => some (.read, true)
  | .enableWriting => some (.write, true)
  | .disableReading => some (.read, false)
  | .disableWriting => some (.write, false)
  | .closeRead => if c.hasStream = true then some (.read, false) else none
  | .closeWrite => if c.hasStream = true then some (.write, false) else none

/-- When the flag is to change there is a stream, and the reactor does what it is asked for. -/
def Obliging (c : ConnectionInterest) (call : Call × Bool) : Prop :=
  ∀ i enable, c.wants call.1 = some (i, enable) → c.enabled i ≠ enable →
    c.hasStream = true ∧ call.2 = true

/-! ## One call -/

section Calls
variable {c c' : ConnectionInterest} {call : Call × Bool} {ret : Int}

theorem new_truthful (hasStream : Bool) : (new hasStream).Truthful := fun _ => rfl

/-- A flag that is to become what it is stays, and so does the registration. -/
theorem setInterest_idle {i : Interest} {enable : Bool} (succeeds : Bool)
    (h : c.enabled i = enable) : c.setInterest i enable succeeds = .ok (0, c) := if_pos h

theorem setInterest_change {i : Interest} {enable : Bool} (succeeds : Bool)
    (h : c.enabled i ≠ enable) (hstream : c.hasStream = true) :
    c.setInterest i enable succeeds =
      .ok ({ c with enabled := Function.update c.enabled i enable }.ask succeeds i enable) := by
  rw [setInterest, if_neg h, if_pos hstream]
  rfl

theorem setInterest_fault {i : Interest} {enable : Bool} (succeeds : Bool)
    (h : c.enabled i ≠ enable) (hstream : c.hasStream ≠ true) :
    c.setInterest i enable succeeds = .error .nullDeref := by
  rw [setInterest, if_neg h, if_neg hstream]

/-- Closing a half is disabling it, but for what is returned. -/
theorem closeHalf_eq {i : Interest} (succeeds : Bool) (hstream : c.hasStream = true) :
    c.closeHalf i (setInterest i false succeeds) =
      c.setInterest i false succeeds >>= fun r => pure (0, r.2) := by
  rw [closeHalf, if_neg (by simp [hstream])]
  split
  · rfl
  · next h => rw [setInterest_idle succeeds (by simpa using h), ok_bind]

/-- Every call wants nothing, or sets a flag. -/
theorem step_cases (call : Call × Bool) (c : ConnectionInterest) :
    (c.wants call.1 = none ∧ step call c = .ok (-1, c)) ∨
      ∃ i enable, c.wants call.1 = some (i, enable) ∧ ∃ f : Int → Int,
        step call c = c.setInterest i enable call.2 >>= fun r => pure (f r.1, r.2) := by
  obtain ⟨call, succeeds⟩ := call
  have hid : ∀ x : Res (Int × ConnectionInterest), x = x >>= fun r => pure (id r.1, r.2) := by
    intro x
    cases x <;> rfl
  cases call with
  | enableReading => exact Or.inr ⟨.read, true, rfl, id, hid _⟩
  | enableWriting => exact Or.inr ⟨.write, true, rfl, id, hid _⟩
  | disableReading => exact Or.inr ⟨.read, false, rfl, id, hid _⟩
  | disableWriting => exact Or.inr ⟨.write, false, rfl, id, hid _⟩
  | closeRead =>
      by_cases hstream : c.hasStream = true
      · exact Or.inr ⟨.read, false, if_pos hstream, fun _ => 0, closeHalf_eq succeeds hstream⟩
      · refine Or.inl ⟨if_neg hstream, ?_⟩
        exact if_pos (by simpa using hstream)
  | closeWrite =>
      by_cases hstream : c.hasStream = true
      · exact Or.inr ⟨.write, false, if_pos hstream, fun _ => 0, closeHalf_eq succeeds hstream⟩
      · refine Or.inl ⟨if_neg hstream, ?_⟩
        exact if_pos (by simpa using hstream)

theorem Truthful.update (hc : c.Truthful) (i : Interest) (enable : Bool) :
    (⟨c.hasStream, Function.update c.enabled i enable, Function.update c.registered i enable⟩ :
      ConnectionInterest).Truthful := by
  intro j
  by_cases heq : j = i
  · subst heq
    simp
  · simp [Function.update_of_ne heq, hc j]

theorem step_obliging (hc : c.Truthful) (hcall : c.Obliging call) :
    ∃ ret c', step call c = .ok (ret, c') ∧ c'.Truthful := by
  rcases step_cases call c with ⟨-, hstep⟩ | ⟨i, enable, hwants, f, hstep⟩
  · exact ⟨-1, c, hstep, hc⟩
  · by_cases hflag : c.enabled i = enable
    · rw [hstep, setInterest_idle _ hflag, ok_bind]
      exact ⟨_, c, rfl, hc⟩
    · obtain ⟨hstream, hsucceeds⟩ := hcall i enable hwants hflag
      rw [hstep, setInterest_change _ hflag hstream, ok_bind, ask, if_pos hsucceeds]
      exact ⟨_, _, rfl, hc.update i enable⟩

/-- The flag changes and the registration does not. -/
theorem step_disobliging (hc : c.Truthful) (hcall : ¬ c.Obliging call)
    (hok : step call c = .ok (ret, c')) : ¬ c'.Truthful := by
  simp only [Obliging, not_forall] at hcall
  obtain ⟨i, enable, hwants, hflag, hnot⟩ := hcall
  rcases step_cases call c with ⟨hnone, -⟩ | ⟨i', enable', hwants', f, hstep⟩
  · rw [hnone] at hwants
    cases hwants
  · rw [hwants] at hwants'
    cases hwants'
    rw [hok] at hstep
    by_cases hstream : c.hasStream = true
    · have hfails : call.2 ≠ true := fun h => hnot ⟨hstream, h⟩
      rw [setInterest_change _ hflag hstream, ok_bind, ask, if_neg hfails] at hstep
      cases hstep
      intro htruth
      have hflag' := htruth i
      dsimp only at hflag'
      rw [Function.update_self, ← hc i] at hflag'
      exact hflag hflag'.symm
    · rw [setInterest_fault _ hflag hstream, error_bind] at hstep
      cases hstep

end Calls

/-- **The flags tell the truth** after every call exactly when the reactor never refuses what a flag
lets through. -/
theorem truthful_iff (hasStream : Bool) (calls : List (Call × Bool)) :
    AllGood step (fun e => e.after.Truthful) (new hasStream) calls ↔
      Along step Obliging (new hasStream) calls := by
  refine run_good_iff ?_ ?_ calls (new_truthful hasStream)
  · intro c call hc hcall
    obtain ⟨ret, c', hok, hc'⟩ := step_obliging hc hcall
    exact ⟨ret, c', hok, hc', hc'⟩
  · intro c call ret c' hc hcall hok
    exact step_disobliging hc hcall hok

/-- A registration that fails: the connection believes that it is writing. -/
theorem untruthful_enableWriting :
    ¬ AllGood step (fun e => e.after.Truthful) (new true) [(.enableWriting, false)] := by
  rintro ⟨history, c, hrun, hall⟩
  cases hrun
  have hflag := hall _ List.mem_cons_self .write
  revert hflag
  decide

end ConnectionInterest

end Unp.Reactor
