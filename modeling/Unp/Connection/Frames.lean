import Unp.Sync.Server

/-!
# Writing frames to a connection

`sendPackage` and `post_handle_input` write a frame with two calls: the length, through
`write<T>`, and the serialised message, through `write(data, len, is_flush)`. Each call takes
`output_mutex_` for itself, so the calls of two senders can come in any order, and only the second
overload respects `BUFFER_HIGH_WATER_MARK`.

The senders are an arbitrary type here. A sender is between its two calls as long as it is in
`pending`.
-/

namespace Unp.Sync

open Unp.Machine Unp.LinkedChain Unp.Run Unp.Reactor

/-- The members of a connection that the `write` overloads use. `write_enabled_` stands for the
registration with the reactor that comes with it. -/
structure ConnectionHandler where
  outputBuffer : Buffer
  writeEnabled : Bool

namespace ConnectionHandler

def enableWriting (c : ConnectionHandler) : ConnectionHandler :=
  if c.writeEnabled = true then c else { c with writeEnabled := true }

/-- The conversion of a signed number to `uint32_t`. -/
def toU32 (n : Int) : Nat := (n % 2 ^ 32).toNat

/-- `write(const char* data, uint64_t len, bool is_flush)`. -/
def write (al : Allocator Addr) (data : Option (List Byte)) (len : Nat) (isFlush : Bool)
    (c : ConnectionHandler) : Res (Nat × ConnectionHandler) :=
  if data = none ∨ len = 0 then pure (toU32 (-1), c)
  else if bufferHighWaterMark ≤ c.outputBuffer.totalLen then pure (0, c)
  else do
    let (bytesWritten, outputBuffer) ← c.outputBuffer.appendData al data len
    let c := { c with outputBuffer }
    let c := if isFlush = true ∧ c.writeEnabled = false then c.enableWriting else c
    pure (toU32 bytesWritten, c)

/-- `write<T>(const T& data, bool is_flush)`. -/
def writeT (al : Allocator Addr) (data : List Byte) (isFlush : Bool) (c : ConnectionHandler) :
    Res (Nat × ConnectionHandler) := do
  let (_, outputBuffer) ← c.outputBuffer.appendT al data
  let c := { c with outputBuffer }
  let c := if isFlush = true ∧ c.writeEnabled = false then c.enableWriting else c
  pure (data.length, c)

/-- Below the mark, a message is appended. -/
theorem write_spec (al : Allocator Addr) {c : ConnectionHandler} {data : List Byte} (isFlush : Bool)
    (hwf : c.outputBuffer.WellFormed) (hdata : data ≠ []) (hlen : data.length < 2 ^ 31)
    (hmark : c.outputBuffer.totalLen < bufferHighWaterMark) :
    ∃ ret c', c.write al (some data) data.length isFlush = .ok (ret, c') ∧
      Buffer.Appended c.outputBuffer c'.outputBuffer data := by
  have hbound : bufferHighWaterMark < 2 ^ 32 := Nat.mod_lt _ (by decide)
  obtain ⟨buf, happend, hspec⟩ := Buffer.appendData_spec al hwf hdata (by omega) (by omega)
  have hargs : ¬ (some data = none ∨ data.length = 0) := by simp [hdata]
  rw [write, if_neg hargs, if_neg (by omega), happend]
  refine ⟨_, _, rfl, ?_⟩
  dsimp only
  split
  · rw [enableWriting]
    split <;> exact hspec
  · exact hspec

theorem write_empty (al : Allocator Addr) (c : ConnectionHandler) (isFlush : Bool) :
    c.write al (some []) ([] : List Byte).length isFlush = .ok (toU32 (-1), c) := by
  rw [write, if_pos (by simp)]
  rfl

/-- A length is always appended. -/
theorem writeT_spec (al : Allocator Addr) {c : ConnectionHandler} {data : List Byte}
    (hwf : c.outputBuffer.WellFormed) (hdata : data ≠ []) (hlen : data.length < 2 ^ 32)
    (htotal : c.outputBuffer.totalLen + data.length < 2 ^ 64) :
    ∃ ret c', c.writeT al data false = .ok (ret, c') ∧
      Buffer.Appended c.outputBuffer c'.outputBuffer data := by
  obtain ⟨buf, happend, hspec⟩ := Buffer.appendT_spec al hwf hdata hlen htotal
  rw [writeT, happend]
  exact ⟨_, _, rfl, hspec⟩

end ConnectionHandler

/-- A serialised message. `SerializeToArray` refuses one of `2 ^ 31` bytes or more. -/
abbrev Payload := { l : List Byte // l.length < 2 ^ 31 }

/-- A connection, and the senders that have written their length. -/
structure Sending (S : Type) where
  connection : ConnectionHandler
  pending : List (S × Payload)

namespace Sending

inductive Input (S : Type) where
  /-- A sender writes the length of its message. -/
  | start (sender : S) (payload : Payload)
  /-- It writes the message. -/
  | finish (sender : S)
  /-- `handle_output` has sent some bytes. -/
  | drain (n : Nat)

variable {S : Type}

/-- The message a sender has still to write. -/
def unsent [DecidableEq S] (s : Sending S) (sender : S) : Option Payload :=
  (s.pending.find? fun q => q.1 = sender).map Prod.snd

/-- One call. A sender that has written a length writes the message next. -/
def step [DecidableEq S] (call : Allocator Addr × Input S) (s : Sending S) : Res (Nat × Sending S) :=
  match call.2 with
  | .start sender payload =>
      if s.unsent sender ≠ none then pure (0, s)
      else do
        let (ret, connection) ←
          s.connection.writeT call.1 (leBytes sizeofLen payload.1.length) false
        pure (ret, ⟨connection, s.pending ++ [(sender, payload)]⟩)
  | .finish sender =>
      match s.unsent sender with
      | none => pure (0, s)
      | some payload => do
          let (ret, connection) ←
            s.connection.write call.1 (some payload.1) payload.1.length true
          pure (ret, ⟨connection, s.pending.filter fun q => q.1 ≠ sender⟩)
  | .drain n => do
      let (_, outputBuffer) ← s.connection.outputBuffer.drain n
      pure (0, { s with connection := { s.connection with outputBuffer } })

/-! ## Appended bytes -/

abbrev Event (S : Type) := Entry (Sending S) (Allocator Addr × Input S) Nat

/-- What stands in the output buffer. -/
def content (s : Sending S) : List Byte := s.connection.outputBuffer.content

/-- The bytes that a call has put behind the others. -/
def appendedBy (e : Event S) : List Byte := e.after.content.drop e.before.content.length

def appended (history : List (Event S)) : List Byte := history.flatMap appendedBy

/-- The lengths of the messages that are still to be written. -/
def lengths (s : Sending S) : List Byte :=
  s.pending.flatMap fun q => leBytes sizeofLen q.2.1.length

/-- A length is written while no other sender is between its two calls, and a message while the
buffer is below the mark. The last bound is that of `total_len_`. -/
def Undisturbed [DecidableEq S] (s : Sending S) (call : Allocator Addr × Input S) : Prop :=
  match call.2 with
  | .start _ _ => s.pending = [] ∧ s.connection.outputBuffer.totalLen + sizeofLen < 2 ^ 64
  | .finish sender => ∀ p ∈ s.unsent sender,
      p.1 = [] ∨ s.connection.outputBuffer.totalLen < bufferHighWaterMark
  | .drain _ => True

instance [DecidableEq S] (s : Sending S) :
    (call : Allocator Addr × Input S) → Decidable (Undisturbed s call)
  | (_, .start _ _) => inferInstanceAs (Decidable (_ ∧ _))
  | (_, .finish sender) => inferInstanceAs (Decidable (∀ p ∈ s.unsent sender, _ ∨ _))
  | (_, .drain _) => inferInstanceAs (Decidable True)

/-! ## Steps -/

theorem appendedBy_append {e : Event S} {src : List Byte}
    (h : e.after.content = e.before.content ++ src) : appendedBy e = src := by
  rw [appendedBy, h, List.drop_left]

theorem appendedBy_less {e : Event S} (h : e.after.content.length ≤ e.before.content.length) :
    appendedBy e = [] :=
  List.drop_eq_nil_of_le h

theorem appended_snoc (past : List (Event S)) (e : Event S) :
    appended (past ++ [e]) = appended past ++ appendedBy e := by
  simp [appended]

/-- What the condition keeps: the appended bytes are frames, and the length of a frame that one
sender has begun. -/
structure Whole (past : List (Event S)) (s : Sending S) : Prop where
  wellFormed : s.connection.outputBuffer.WellFormed
  single : s.pending.length ≤ 1
  frames : ∃ payloads, appended past = encode payloads ++ s.lengths

theorem Whole.same {past : List (Event S)} {s s' : Sending S} {call : Allocator Addr × Input S}
    {ret : Nat} (hs : Whole past s) (hwf : s'.connection.outputBuffer.WellFormed)
    (hpending : s'.pending = s.pending) (hless : s'.content.length ≤ s.content.length) :
    Whole (past ++ [⟨s, call, ret, s'⟩]) s' where
  wellFormed := hwf
  single := hpending ▸ hs.single
  frames := by
    obtain ⟨payloads, hframes⟩ := hs.frames
    refine ⟨payloads, ?_⟩
    rw [appended_snoc, appendedBy_less hless, List.append_nil, hframes, lengths, lengths, hpending]

variable [DecidableEq S]

theorem pending_eq {s : Sending S} {sender : S} {payload : Payload} (hsingle : s.pending.length ≤ 1)
    (hunsent : s.unsent sender = some payload) : s.pending = [(sender, payload)] := by
  obtain ⟨q, hfind, rfl⟩ := Option.map_eq_some_iff.mp hunsent
  have hsender : q.1 = sender := by simpa using List.find?_some hfind
  obtain ⟨q', hq'⟩ := List.length_eq_one_iff.mp
    (Nat.le_antisymm hsingle (List.length_pos_of_mem (List.mem_of_find?_eq_some hfind)))
  have hmem := List.mem_of_find?_eq_some hfind
  rw [hq', List.mem_singleton] at hmem
  rw [hq', ← hmem, ← hsender]

theorem Whole.start {past : List (Event S)} {s : Sending S} (al : Allocator Addr) (sender : S)
    (payload : Payload) (hs : Whole past s) (hfree : s.pending = [])
    (htotal : s.connection.outputBuffer.totalLen + sizeofLen < 2 ^ 64) :
    ∃ ret s', step (al, .start sender payload) s = .ok (ret, s') ∧
      Whole (past ++ [⟨s, (al, .start sender payload), ret, s'⟩]) s' := by
  have hlen := length_leBytes sizeofLen payload.1.length
  have hne : leBytes sizeofLen payload.1.length ≠ [] := by
    intro hnil
    rw [hnil] at hlen
    cases hlen
  obtain ⟨ret, c', hwrite, hspec⟩ := ConnectionHandler.writeT_spec al hs.wellFormed hne
    (by rw [hlen]; decide) (by rwa [hlen])
  have hunsent : s.unsent sender = none := by rw [unsent, hfree]; rfl
  obtain ⟨payloads, hframes⟩ := hs.frames
  refine ⟨ret, ⟨c', s.pending ++ [(sender, payload)]⟩, ?_, hspec.wellFormed, by simp [hfree],
    payloads, ?_⟩
  · simp [step, hunsent, hwrite]
  · rw [appended_snoc, appendedBy_append (e := ⟨s, _, _, ⟨c', _⟩⟩) hspec.content_eq, hframes]
    simp [lengths, hfree]

/-- A message below the mark is appended as a whole, and an empty one is not appended at all. -/
theorem write_unsent (al : Allocator Addr) {c : ConnectionHandler} {payload : Payload}
    (hwf : c.outputBuffer.WellFormed)
    (hcond : payload.1 = [] ∨ c.outputBuffer.totalLen < bufferHighWaterMark) :
    ∃ ret c', c.write al (some payload.1) payload.1.length true = .ok (ret, c') ∧
      c'.outputBuffer.WellFormed ∧
      c'.outputBuffer.content = c.outputBuffer.content ++ payload.1 := by
  by_cases hempty : payload.1 = []
  · rw [hempty, ConnectionHandler.write_empty]
    exact ⟨_, c, rfl, hwf, (List.append_nil _).symm⟩
  · obtain ⟨ret, c', hwrite, hspec⟩ := ConnectionHandler.write_spec al true hwf hempty payload.2
      (hcond.resolve_left hempty)
    exact ⟨ret, c', hwrite, hspec.wellFormed, hspec.content_eq⟩

theorem Whole.finish {past : List (Event S)} {s : Sending S} (al : Allocator Addr) (sender : S)
    (hs : Whole past s) (hcond : ∀ p ∈ s.unsent sender,
      p.1 = [] ∨ s.connection.outputBuffer.totalLen < bufferHighWaterMark) :
    ∃ ret s', step (al, .finish sender) s = .ok (ret, s') ∧
      Whole (past ++ [⟨s, (al, .finish sender), ret, s'⟩]) s' := by
  cases hunsent : s.unsent sender with
  | none =>
      refine ⟨0, s, ?_, hs.same hs.wellFormed rfl (Nat.le_refl _)⟩
      simp [step, hunsent]
  | some payload =>
      obtain ⟨ret, c', hwrite, hwf, hcontent⟩ :=
        write_unsent al hs.wellFormed (hcond payload hunsent)
      have hpending := pending_eq hs.single hunsent
      have hgone : s.pending.filter (fun q => q.1 ≠ sender) = [] := by simp [hpending]
      obtain ⟨payloads, hframes⟩ := hs.frames
      refine ⟨ret, ⟨c', []⟩, ?_, hwf, Nat.zero_le _, payloads ++ [payload.1], ?_⟩
      · simp only [step, hunsent, hwrite, ok_bind, hgone, pure_eq_ok]
      · -- the message completes the frame that its length has begun
        rw [appended_snoc, appendedBy_append (e := ⟨s, _, _, ⟨c', _⟩⟩) hcontent, hframes]
        simp [lengths, hpending, encode, frame]

theorem Whole.drain {past : List (Event S)} {s : Sending S} (al : Allocator Addr) (n : Nat)
    (hs : Whole past s) :
    ∃ ret s', step (al, .drain n) s = .ok (ret, s') ∧
      Whole (past ++ [⟨s, (al, .drain n), ret, s'⟩]) s' := by
  by_cases hn : n = 0 ∨ s.connection.outputBuffer.totalLen < n
  · have hdrain := Buffer.drain_eq (Buffer.remove_refused hn)
    refine ⟨0, s, ?_, hs.same hs.wellFormed rfl (Nat.le_refl _)⟩
    simp only [step, hdrain, ok_bind, pure_eq_ok]
  · obtain ⟨buf, hremove, hcons⟩ := Buffer.remove_spec (n := n) hs.wellFormed (by omega) (by omega)
    have hdrain := Buffer.drain_eq hremove
    refine ⟨0, { s with connection := { s.connection with outputBuffer := buf } }, ?_,
      hs.same hcons.wellFormed rfl ?_⟩
    · simp only [step, hdrain, ok_bind, pure_eq_ok]
    · show buf.content.length ≤ s.connection.outputBuffer.content.length
      rw [hcons.content_eq, List.length_drop]
      exact Nat.sub_le _ _

theorem Whole.step {past : List (Event S)} {s : Sending S} (call : Allocator Addr × Input S)
    (hs : Whole past s) (hcond : Undisturbed s call) :
    ∃ ret s', Sending.step call s = .ok (ret, s') ∧ Whole (past ++ [⟨s, call, ret, s'⟩]) s' := by
  obtain ⟨al, input⟩ := call
  cases input with
  | start sender payload => exact hs.start al sender payload hcond.1 hcond.2
  | finish sender => exact hs.finish al sender hcond
  | drain n => exact hs.drain al n

/-- **Frames are written whole**: in a run in which no sender writes a length while another one is
between its two calls, and every message finds the buffer below the mark, nothing goes wrong and the
appended bytes are complete frames, followed by the length of the frame that is being written. -/
theorem frames_whole (connection : ConnectionHandler)
    (hwf : connection.outputBuffer.WellFormed) (calls : List (Allocator Addr × Input S))
    (hcond : Along step Undisturbed ⟨connection, []⟩ calls) :
    ∃ history s, run step calls ⟨connection, []⟩ = .ok (history, s) ∧
      ∃ payloads, appended history = encode payloads ++ s.lengths := by
  have hnew : Whole ([] : List (Event S)) ⟨connection, []⟩ := ⟨hwf, Nat.zero_le _, [], rfl⟩
  obtain ⟨history, s, hrun, hwhole⟩ :=
    run_history_of_along (fun _ _ call hs hc => hs.step call hc) hnew hcond
  exact ⟨history, s, hrun, hwhole.frames⟩

/-- Two senders with a message of one byte each. -/
def one : Payload := ⟨[1], by decide⟩

def turns (inputs : List (Input Bool)) : List (Allocator Addr × Input Bool) :=
  inputs.map fun input => (.succMax, input)

/-- One after the other. -/
theorem frames_whole_inTurn :
    ∃ history s, run step
        (turns [.start false one, .finish false, .start true one, .finish true])
        ⟨⟨.empty 0, false⟩, []⟩ = .ok (history, s) ∧
      ∃ payloads, appended history = encode payloads ++ s.lengths :=
  frames_whole ⟨.empty 0, false⟩ (Buffer.empty_wellFormed 0) _ (by decide +kernel)

/-- In a concatenation of frames, the number at the front says where the next frame is. -/
theorem encode_next {payloads : List (List Byte)} {bytes : List Byte}
    (h : encode payloads = bytes) (hne : bytes ≠ []) (hlt : bytes.length < 256 ^ sizeofLen) :
    ∃ rest, sizeofLen + leNat (bytes.take sizeofLen) ≤ bytes.length ∧
      encode rest = bytes.drop (sizeofLen + leNat (bytes.take sizeofLen)) := by
  cases payloads with
  | nil => exact absurd h.symm hne
  | cons p rest =>
      subst h
      rw [encode_cons, frame, List.append_assoc] at hlt ⊢
      have hlen := length_leBytes sizeofLen p.length
      simp only [List.length_append, hlen] at hlt ⊢
      have hnum : leNat ((leBytes sizeofLen p.length ++ (p ++ encode rest)).take sizeofLen) =
          p.length := by
        rw [List.take_left' hlen, leNat_leBytes]
        exact Nat.mod_eq_of_lt (by omega)
      refine ⟨rest, by omega, ?_⟩
      rw [hnum, ← List.drop_drop, List.drop_left' hlen, List.drop_left]

/-- The second sender writes its length before the message of the first: no reader can make frames
of the bytes. -/
theorem frames_mixed :
    ∃ r, run step (turns [.start false one, .start true one, .finish false, .finish true])
        ⟨⟨.empty 0, false⟩, []⟩ = .ok r ∧ r.2.pending.length = 0 ∧
      ¬ ∃ payloads, appended r.1 = encode payloads := by
  have hrun : ∃ r, run step (turns [.start false one, .start true one, .finish false, .finish true])
      ⟨⟨.empty 0, false⟩, []⟩ = .ok r ∧ r.2.pending.length = 0 ∧
        appended r.1 = [1, 0, 0, 0, 0, 0, 0, 0, 1, 0, 0, 0, 0, 0, 0, 0, 1, 1] := by
    decide +kernel
  obtain ⟨r, hrun, hpending, happended⟩ := hrun
  refine ⟨r, hrun, hpending, ?_⟩
  rintro ⟨payloads, hframes⟩
  rw [happended] at hframes
  obtain ⟨rest, -, hrest⟩ := encode_next hframes.symm (by simp) (by decide)
  obtain ⟨-, hlong, -⟩ := encode_next hrest (by decide) (by decide)
  exact absurd hlong (by decide)

end Sending

end Unp.Sync
