import Mathlib.Logic.Function.Basic
import Unp.Http.Codec
import Unp.Lib.Run

/-!
# Pausing a codec

`pause(1)` puts the state of a codec away and `pause(0)` takes it back. The place it is put is a
`static` variable of the function, so all codecs have one place between them, and a second `pause(1)`,
of whatever codec, overwrites what is there.

`OwnCodec` is a codec that has the place for itself and puts away no state while one is put away. A
program with any number of codecs behaves as if all of them were such codecs exactly as long as
every `pause(0)` happens to find the right state.
-/

namespace Unp.Http

open Unp.Machine Unp.Run

/-- The callbacks of `Http1xCodec`. -/
inductive CodecCallback where
  | onMessageBegin
  | onStatus
  | onUrl
  | onReason
  | onHeaderField
  | onHeaderValue
  | onHeadersComplete
  | onBody
  | onChunkHeader
  | onChunkComplete
  | onMessageComplete
  | onParserError
  deriving Repr, DecidableEq

/-- The state a callback sets. -/
def CodecCallback.next (c : CodecCallback) (state : CodecState) : CodecState :=
  match c with
  | .onMessageBegin => .onMessageBegin
  | .onStatus => .onStatus
  | .onUrl => .onUrl
  | .onHeaderField => .onHeaderField
  | .onHeaderValue => .onHeaderValue
  | .onHeadersComplete => .onHeadersComplete
  | .onBody => .onBody
  | .onChunkHeader => .onChunkHeader
  | .onChunkComplete => .onChunkComplete
  | .onMessageComplete => .onMessageComplete
  | .onReason => state
  | .onParserError => state

/-- `http_errno`, as far as pausing looks at it: `HPE_OK`, `HPE_PAUSED`, or an error. -/
inductive ParserErrno where
  | ok
  | paused
  | failed
  deriving Repr, DecidableEq

/-- The members of a codec that pausing uses. -/
structure PausableCodec where
  state : CodecState
  errno : ParserErrno
  deriving Repr, DecidableEq

/-- `HttpParserWrapper::parserPause`. -/
def parserPause (pause : Bool) (errno : ParserErrno) : Int × ParserErrno :=
  if errno ≠ .ok ∧ errno ≠ .paused then (-1, errno)
  else (0, if pause = true then .paused else .ok)

/-- What can happen to a codec: the calls, its callbacks, and an error of its parser. -/
inductive CodecAction where
  | pause
  | unpause
  | callback (c : CodecCallback)
  | parserError
  deriving Repr, DecidableEq

/-- All codecs of a program, and `savedState`. -/
structure Codecs (ι : Type) where
  codecs : ι → PausableCodec
  savedState : CodecState

/-- A static variable without an initialiser is 0, which is `ERROR`. -/
def Codecs.new {ι : Type} : Codecs ι := ⟨fun _ => ⟨.idle, .ok⟩, .error⟩

section Codecs
variable {ι : Type} [DecidableEq ι]

namespace Codecs

/-- `Http1xCodec::pause`. -/
def pause (i : ι) (pause : Bool) (w : Codecs ι) : Int × Codecs ι :=
  let (ret, errno) := parserPause pause (w.codecs i).errno
  if pause = true then
    (ret, ⟨Function.update w.codecs i ⟨.paused, errno⟩, (w.codecs i).state⟩)
  else (ret, { w with codecs := Function.update w.codecs i ⟨w.savedState, errno⟩ })

def step (input : ι × CodecAction) (w : Codecs ι) : Res (Int × Codecs ι) :=
  let (i, action) := input
  match action with
  | .pause => pure (w.pause i true)
  | .unpause => pure (w.pause i false)
  | .callback c => pure (0, { w with
      codecs := Function.update w.codecs i { w.codecs i with state := c.next (w.codecs i).state } })
  | .parserError => pure (0, { w with
      codecs := Function.update w.codecs i { w.codecs i with errno := .failed } })

end Codecs

/-! ## Codecs by themselves -/

/-- A codec that nobody else interferes with: `before` is the state before the earliest `pause(1)`
that has not been undone, and `saved` the one before the last `pause(1)`. -/
structure OwnCodec where
  state : CodecState
  before : Option CodecState
  saved : CodecState
  deriving Repr, DecidableEq

namespace OwnCodec

def new : OwnCodec := ⟨.idle, none, .error⟩

/-- What `pause(0)` has to bring back. When there is nothing to undo this is what the codec would
have if it were alone. -/
def due (c : OwnCodec) : CodecState := c.before.getD c.saved

def act (c : OwnCodec) : CodecAction → OwnCodec
  | .pause => ⟨.paused, some (c.before.getD c.state), c.state⟩
  | .unpause => { c with state := c.due, before := none }
  | .callback cb => { c with state := cb.next c.state }
  | .parserError => c

end OwnCodec

/-- Codecs side by side; `lastFound` is the state in which the last `pause(1)` of all has found its
codec. -/
structure OwnCodecs (ι : Type) where
  codecs : ι → OwnCodec
  lastFound : CodecState

namespace OwnCodecs

def new : OwnCodecs ι := ⟨fun _ => .new, .error⟩

def act (input : ι × CodecAction) (x : OwnCodecs ι) : OwnCodecs ι :=
  ⟨Function.update x.codecs input.1 ((x.codecs input.1).act input.2),
    if input.2 = .pause then (x.codecs input.1).state else x.lastFound⟩

/-- The last `pause(1)` of all codecs has found the state that this one is due. -/
def FindsDue (x : OwnCodecs ι) (input : ι × CodecAction) : Prop :=
  input.2 = .unpause → x.lastFound = (x.codecs input.1).due

instance decidableFindsDue (x : OwnCodecs ι) (input : ι × CodecAction) :
    Decidable (x.FindsDue input) :=
  inferInstanceAs (Decidable (_ → _))

/-- What happens to one codec. -/
def actionsOn (i : ι) (inputs : List (ι × CodecAction)) : List CodecAction :=
  (inputs.filter fun input => input.1 = i).map Prod.snd

/-- A codec goes its own way. -/
theorem codecs_foldl (inputs : List (ι × CodecAction)) (x : OwnCodecs ι) (i : ι) :
    (inputs.foldl (fun x input => act input x) x).codecs i =
      (actionsOn i inputs).foldl OwnCodec.act (x.codecs i) := by
  induction inputs generalizing x with
  | nil => rfl
  | cons input inputs ih =>
      rw [List.foldl_cons, ih]
      by_cases hi : input.1 = i
      · subst hi
        simp [actionsOn, act]
      · simp [actionsOn, act, hi, Function.update_of_ne (Ne.symm hi)]

end OwnCodecs

/-! ## When the codecs do not notice each other -/

/-- Every codec is in the state it would be in by itself, and `savedState` is what the last
`pause(1)` has found. -/
def Agrees (w : Codecs ι) (x : OwnCodecs ι) : Prop :=
  (∀ i, (w.codecs i).state = (x.codecs i).state) ∧ w.savedState = x.lastFound

omit [DecidableEq ι] in
theorem agrees_new : Agrees (Codecs.new : Codecs ι) OwnCodecs.new := ⟨fun _ => rfl, rfl⟩

section Steps
variable {w : Codecs ι} {x : OwnCodecs ι}

/-- One codec changes, and the others stay as they are. -/
theorem agrees_update (hw : Agrees w x) (i : ι) {c : PausableCodec} {o : OwnCodec}
    (hstate : c.state = o.state) (j : ι) :
    (Function.update w.codecs i c j).state = (Function.update x.codecs i o j).state := by
  by_cases hj : j = i
  · subst hj
    simpa using hstate
  · rw [Function.update_of_ne hj, Function.update_of_ne hj]
    exact hw.1 j

theorem step_follows (hw : Agrees w x) {input : ι × CodecAction} (hdue : x.FindsDue input) :
    ∃ ret w', Codecs.step input w = .ok (ret, w') ∧ Agrees w' (x.act input) := by
  obtain ⟨i, action⟩ := input
  cases action with
  | pause => exact ⟨_, _, rfl, agrees_update hw i rfl, hw.1 i⟩
  | unpause =>
      refine ⟨_, _, rfl, agrees_update hw i ?_, hw.2⟩
      show w.savedState = (x.codecs i).due
      rw [hw.2]
      exact hdue rfl
  | callback c =>
      refine ⟨_, _, rfl, agrees_update hw i ?_, hw.2⟩
      show c.next (w.codecs i).state = c.next (x.codecs i).state
      rw [hw.1 i]
  | parserError => exact ⟨_, _, rfl, agrees_update hw i (hw.1 i), hw.2⟩

/-- A `pause(0)` that finds another state leaves its codec in that state. -/
theorem step_breaks (hw : Agrees w x) {input : ι × CodecAction} (hdue : ¬ x.FindsDue input)
    {ret : Int} {w' : Codecs ι} (hstep : Codecs.step input w = .ok (ret, w')) :
    ¬ Agrees w' (x.act input) := by
  obtain ⟨i, action⟩ := input
  simp only [OwnCodecs.FindsDue, Classical.not_imp] at hdue
  obtain ⟨rfl, hother⟩ := hdue
  cases hstep
  rintro ⟨hstates, -⟩
  have hi := hstates i
  simp only [OwnCodecs.act, OwnCodec.act, Function.update_self, Bool.false_eq_true,
    if_false] at hi
  exact hother (hw.2.symm.trans hi)

end Steps

/-- **Pausing codecs are independent** throughout a run exactly when every `pause(0)` comes while the
last `pause(1)` of all codecs has found the state its codec is due. -/
theorem pausing_independent_iff (inputs : List (ι × CodecAction)) :
    (Tracks Codecs.step OwnCodecs.act Agrees Codecs.new OwnCodecs.new inputs ↔
      Admissible OwnCodecs.act OwnCodecs.FindsDue OwnCodecs.new inputs) ∧
    ∀ i, (inputs.foldl (fun x input => OwnCodecs.act input x) OwnCodecs.new).codecs i =
      (OwnCodecs.actionsOn i inputs).foldl OwnCodec.act .new := by
  constructor
  · refine run_tracks_iff ?_ ?_ inputs agrees_new
    · intro w x input hw hdue
      exact step_follows hw hdue
    · intro w x input ret w' hw hdue hstep
      exact step_breaks hw hdue hstep
  · intro i
    exact OwnCodecs.codecs_foldl inputs OwnCodecs.new i

/-- Codec `false` has seen a status line and codec `true` nothing. Both are paused, and then the
first one goes on. -/
theorem paused_codec_gets_other_state :
    ¬ Tracks Codecs.step OwnCodecs.act Agrees Codecs.new OwnCodecs.new
      [(false, .callback .onStatus), (false, .pause), (true, .pause), (false, .unpause)] := by
  rintro ⟨-, _, _, h₁, -, _, _, h₂, -, _, _, h₃, -, _, _, h₄, hstates, -⟩
  cases h₁
  cases h₂
  cases h₃
  cases h₄
  have hfirst := hstates false
  revert hfirst
  decide

end Codecs

end Unp.Http
