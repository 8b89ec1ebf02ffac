import Unp.Buffer.Queue
import Unp.Epoll.EventRepo

/-!
# `sock_connection_handler::handle_output`

The reactor calls `handle_output` when the socket takes data. In up to three rounds the front of
`output_buffer_` is made contiguous, offered to the socket, and drained by what the socket took. The
socket can take any part of what it is offered, or fail.

`SendResult` carries the only promise of `send` that matters: it does not take more than it is
offered. What goes over the wire is read off the log of the calls.
-/

namespace Unp.Reactor

open Unp.Machine Unp.LinkedChain

/-- `errno`, as far as `handle_output` looks at it. -/
inductive Errno where
  | econnreset
  | other
  deriving Repr, DecidableEq

/-- What `stream_->send` returns for the bytes it is offered, and `errno` after the call. -/
structure SendResult (offered : List Byte) where
  ret : Int
  errno : Errno
  ret_le : ret ≤ offered.length

/-- The socket: what it answers to the `n`-th `send` of a call of `handle_output`. -/
abbrev Socket := Nat → (offered : List Byte) → SendResult offered

/-- A call of `send`. -/
structure Transmission where
  offered : List Byte
  ret : Int
  errno : Errno
  deriving Repr, DecidableEq

/-- The bytes that the socket took. -/
def Transmission.accepted (tr : Transmission) : List Byte := tr.offered.take tr.ret.toNat

/-- The connection is reset. -/
def Transmission.Reset (tr : Transmission) : Prop := tr.ret ≤ 0 ∧ tr.errno = .econnreset

def accepted (log : List Transmission) : List Byte := log.flatMap Transmission.accepted

/-- The members of a connection that `handle_output` uses. `unregistered` are the events that have
been passed to `reactor_->unregister_handler`. -/
structure SockConnectionHandler where
  handle : Epoll.Handle
  outputBuffer : Buffer
  readEnabled : Bool
  writeEnabled : Bool
  unregistered : List Epoll.EventType

/-- `DEFAULT_SEND_SIZE`. -/
def defaultSendSize : Nat := 4096

namespace SockConnectionHandler

def disableReading (c : SockConnectionHandler) : SockConnectionHandler :=
  if c.readEnabled = false then c
  else { c with readEnabled := false, unregistered := c.unregistered ++ [.read] }

def disableWriting (c : SockConnectionHandler) : SockConnectionHandler :=
  if c.writeEnabled = false then c
  else { c with writeEnabled := false, unregistered := c.unregistered ++ [.write] }

/-- The loop. It returns `some` where the source returns from inside of the loop. The second test of
`bytes_send`, for a negative number, is behind the first and never true. -/
def outputLoop (al : Allocator Addr) (socket : Socket) :
    Nat → SockConnectionHandler → List Transmission →
      Res (Option Int × SockConnectionHandler × List Transmission)
  | 0, c, log => pure (none, c, log)
  | tryTimes + 1, c, log => do
      let pullupSize := if c.outputBuffer.totalLen < defaultSendSize then c.outputBuffer.totalLen
        else defaultSendSize
      let (data, buf) ← c.outputBuffer.pullup al pullupSize
      let offered ← match data with
        | none => .error .nullDeref
        | some p => buf.readAt p pullupSize
      let result := socket log.length offered
      let log := log ++ [⟨offered, result.ret, result.errno⟩]
      let c := { c with outputBuffer := buf }
      if result.ret ≤ 0 then
        if result.errno = .econnreset then pure (some (-1), c.disableReading.disableWriting, log)
        else outputLoop al socket tryTimes c log
      else do
        let (_, buf) ← c.outputBuffer.drain result.ret.toNat
        let c := { c with outputBuffer := buf }
        if c.outputBuffer.totalLen = 0 then pure (none, c, log)
        else outputLoop al socket tryTimes c log

def handleOutput (al : Allocator Addr) (socket : Socket) (handle : Epoll.Handle)
    (c : SockConnectionHandler) : Res (Int × SockConnectionHandler × List Transmission) :=
  if c.outputBuffer.totalLen = 0 then pure (0, c, [])
  else if handle ≠ c.handle ∨ handle = Epoll.invalidHandle then pure (-1, c, [])
  else do
    let (returned, c, log) ← outputLoop al socket 3 c []
    match returned with
    | some ret => pure (ret, c, log)
    | none =>
        let c := if c.outputBuffer.totalLen = 0 then c.disableWriting else c
        pure (0, c, log)

/-! ## One round -/

section Round
variable {c : SockConnectionHandler}

/-- A buffer is empty if its length is 0. -/
theorem totalLen_eq_zero {b : Buffer} (hwf : b.WellFormed) : b.totalLen = 0 ↔ b.content = [] := by
  rw [hwf.total_eq, List.length_eq_zero_iff]

/-- The front of the buffer is offered, and the buffer keeps its bytes. -/
theorem offered_eq (al : Allocator Addr) (hwf : c.outputBuffer.WellFormed)
    (hne : c.outputBuffer.content ≠ []) :
    ∃ p buf, c.outputBuffer.pullup al
        ((if c.outputBuffer.totalLen < defaultSendSize then c.outputBuffer.totalLen
          else defaultSendSize : Nat) : Int) = .ok (some p, buf) ∧
      buf.readAt p (if c.outputBuffer.totalLen < defaultSendSize then c.outputBuffer.totalLen
        else defaultSendSize) = .ok (c.outputBuffer.content.take defaultSendSize) ∧
      buf.WellFormed ∧ buf.content = c.outputBuffer.content := by
  have hpos : c.outputBuffer.totalLen ≠ 0 := fun h => hne ((totalLen_eq_zero hwf).mp h)
  have hlen := hwf.total_eq
  have htake : c.outputBuffer.content.take
      (if c.outputBuffer.totalLen < defaultSendSize then c.outputBuffer.totalLen
        else defaultSendSize) = c.outputBuffer.content.take defaultSendSize := by
    split
    · next hlt =>
        rw [List.take_of_length_le hlen.ge, List.take_of_length_le (hlen ▸ hlt.le)]
    · rfl
  obtain ⟨p, buf, hpull, hlinear⟩ := Buffer.pullup_spec al
    (n := if c.outputBuffer.totalLen < defaultSendSize then c.outputBuffer.totalLen
      else defaultSendSize) hwf
    (by unfold defaultSendSize; split <;> omega) (by unfold defaultSendSize; split <;> omega)
    (by unfold defaultSendSize; split <;> omega)
  exact ⟨p, buf, hpull, by rw [hlinear.read_eq, htake], hlinear.wellFormed, hlinear.content_eq⟩

/-- What the socket has taken is drained. -/
theorem drained_eq {b : Buffer} {k : Nat} (hwf : b.WellFormed) (hpos : 0 < k)
    (hle : k ≤ (b.content.take defaultSendSize).length) :
    ∃ ret b', b.drain k = .ok (ret, b') ∧ b'.WellFormed ∧
      (b.content.take defaultSendSize).take k ++ b'.content = b.content := by
  rw [List.length_take] at hle
  obtain ⟨b', hremove, hcons⟩ := Buffer.remove_spec hwf hpos (by rw [hwf.total_eq]; omega)
  refine ⟨_, b', Buffer.drain_eq hremove, hcons.wellFormed, ?_⟩
  rw [List.take_take, Nat.min_eq_left (by omega), hcons.content_eq, List.take_append_drop]

end Round

/-! ## The loop -/

theorem accepted_cons (tr : Transmission) (log : List Transmission) :
    accepted (tr :: log) = tr.accepted ++ accepted log := by
  simp [accepted]

theorem accepted_failed {tr : Transmission} (hret : tr.ret ≤ 0) : tr.accepted = [] := by
  rw [Transmission.accepted, Int.toNat_of_nonpos hret, List.take_zero]

/-- The interest in events is as before, or dropped because the connection is reset. -/
def Interest (returned : Option Int) (c c' : SockConnectionHandler) (log : List Transmission) :
    Prop :=
  (returned = none ∧ (∀ tr ∈ log, ¬ tr.Reset) ∧ c' = { c with outputBuffer := c'.outputBuffer }) ∨
  (returned = some (-1) ∧ (∃ tr ∈ log, tr.Reset) ∧
    c' = { c with outputBuffer := c'.outputBuffer }.disableReading.disableWriting)

/-- The entry of the log for the `n`-th `send`: the socket was offered the front of what is in the buffer,
and answered what it answers to that. -/
structure Answered (socket : Socket) (n : Nat) (content : List Byte) (tr : Transmission) : Prop where
  offered_eq : tr.offered = content.take defaultSendSize
  ret_eq : tr.ret = (socket n tr.offered).ret
  errno_eq : tr.errno = (socket n tr.offered).errno

/-- The entries of the log, from the `n`-th `send` on, with `content` in the buffer. -/
def Logged (socket : Socket) : Nat → List Byte → List Transmission → Prop
  | _, _, [] => True
  | n, content, tr :: log =>
      Answered socket n content tr ∧ Logged socket (n + 1) (content.drop tr.accepted.length) log

/-- The loop sends the buffer from its front, and keeps what is not sent. -/
structure Sent (returned : Option Int) (c c' : SockConnectionHandler) (log : List Transmission) :
    Prop where
  wellFormed : c'.outputBuffer.WellFormed
  conserved : accepted log ++ c'.outputBuffer.content = c.outputBuffer.content
  interest : Interest returned c c' log

theorem disableWriting_outputBuffer (c : SockConnectionHandler) :
    c.disableWriting.outputBuffer = c.outputBuffer := by
  unfold disableWriting
  split <;> rfl

theorem disableReading_outputBuffer (c : SockConnectionHandler) :
    c.disableReading.outputBuffer = c.outputBuffer := by
  unfold disableReading
  split <;> rfl

/-- A round after which the loop goes on. -/
theorem Sent.cons {returned : Option Int} {c c₁ c' : SockConnectionHandler} {tr : Transmission}
    {log : List Transmission} (hreset : ¬ tr.Reset)
    (hsame : c₁ = { c with outputBuffer := c₁.outputBuffer })
    (hround : tr.accepted ++ c₁.outputBuffer.content = c.outputBuffer.content)
    (hrest : Sent returned c₁ c' log) : Sent returned c c' (tr :: log) where
  wellFormed := hrest.wellFormed
  conserved := by rw [accepted_cons, List.append_assoc, hrest.conserved, hround]
  interest := by
    have hbuffer : ∀ buf, { c₁ with outputBuffer := buf } = { c with outputBuffer := buf } := by
      intro buf
      rw [hsame]
    rcases hrest.interest with ⟨hret, hnone, heq⟩ | ⟨hret, ⟨tr', hmem, hreset'⟩, heq⟩
    · exact Or.inl ⟨hret, List.forall_mem_cons.mpr ⟨hreset, hnone⟩, hbuffer _ ▸ heq⟩
    · exact Or.inr ⟨hret, ⟨tr', List.mem_cons_of_mem _ hmem, hreset'⟩, hbuffer _ ▸ heq⟩

/-- One round: the connection is reset, or what the socket took is gone from the buffer. -/
theorem outputLoop_round (al : Allocator Addr) (socket : Socket) (tryTimes : Nat)
    {c : SockConnectionHandler} (hwf : c.outputBuffer.WellFormed)
    (hne : c.outputBuffer.content ≠ []) (log : List Transmission) :
    ∃ (tr : Transmission) (buf : Buffer), Answered socket log.length c.outputBuffer.content tr ∧
      buf.WellFormed ∧ tr.accepted ++ buf.content = c.outputBuffer.content ∧
      ((tr.Reset ∧ outputLoop al socket (tryTimes + 1) c log = .ok (some (-1),
          { c with outputBuffer := buf }.disableReading.disableWriting, log ++ [tr])) ∨
        (¬ tr.Reset ∧ buf.content = [] ∧ outputLoop al socket (tryTimes + 1) c log =
          .ok (none, { c with outputBuffer := buf }, log ++ [tr])) ∨
        (¬ tr.Reset ∧ buf.content ≠ [] ∧ outputLoop al socket (tryTimes + 1) c log =
          outputLoop al socket tryTimes { c with outputBuffer := buf } (log ++ [tr]))) := by
  obtain ⟨p, buf, hpull, hread, hwf₁, hcontent⟩ := offered_eq al hwf hne
  obtain ⟨result, hresult⟩ : ∃ result, socket log.length
      (c.outputBuffer.content.take defaultSendSize) = result := ⟨_, rfl⟩
  have hle := result.ret_le
  rw [outputLoop]
  simp only [hpull, hread, ok_bind, hresult]
  refine ⟨⟨c.outputBuffer.content.take defaultSendSize, result.ret, result.errno⟩, ?_⟩
  have hanswered : Answered socket log.length c.outputBuffer.content
      ⟨c.outputBuffer.content.take defaultSendSize, result.ret, result.errno⟩ :=
    ⟨rfl, by rw [hresult], by rw [hresult]⟩
  by_cases hret : result.ret ≤ 0
  · -- nothing was sent; only a reset ends the loop
    refine ⟨buf, hanswered, hwf₁, ?_, ?_⟩
    · rw [accepted_failed hret, List.nil_append, hcontent]
    · rw [if_pos hret]
      by_cases hreset : result.errno = .econnreset
      · exact Or.inl ⟨⟨hret, hreset⟩, if_pos hreset⟩
      · exact Or.inr (Or.inr ⟨fun h => hreset h.2, by rwa [hcontent], if_neg hreset⟩)
  · obtain ⟨ret, buf₂, hdrain, hwf₂, hcut⟩ := drained_eq (k := result.ret.toNat) hwf₁ (by omega)
      (by rw [hcontent]; omega)
    rw [hcontent] at hcut
    refine ⟨buf₂, hanswered, hwf₂, hcut, Or.inr ?_⟩
    rw [if_neg hret]
    simp only [hdrain, ok_bind]
    by_cases hempty : buf₂.totalLen = 0
    · exact Or.inl ⟨fun h => hret h.1, (totalLen_eq_zero hwf₂).mp hempty, if_pos hempty⟩
    · exact Or.inr ⟨fun h => hret h.1, fun h => hempty ((totalLen_eq_zero hwf₂).mpr h),
        if_neg hempty⟩

/-- **The loop**: by induction on the rounds that are left. -/
theorem outputLoop_sent (al : Allocator Addr) (socket : Socket) (tryTimes : Nat)
    {c : SockConnectionHandler} (hwf : c.outputBuffer.WellFormed)
    (hne : c.outputBuffer.content ≠ []) (log : List Transmission) :
    ∃ returned c' new, outputLoop al socket tryTimes c log = .ok (returned, c', log ++ new) ∧
      new.length ≤ tryTimes ∧ (tryTimes ≠ 0 → new ≠ []) ∧
      Logged socket log.length c.outputBuffer.content new ∧ Sent returned c c' new := by
  induction tryTimes generalizing c log with
  | zero =>
      refine ⟨none, c, [], by rw [List.append_nil]; rfl, Nat.le_refl _, by simp, trivial, hwf, rfl, ?_⟩
      exact Or.inl ⟨rfl, by simp, rfl⟩
  | succ tryTimes ih =>
      obtain ⟨tr, buf, hanswered, hwf', hcut,
        ⟨hreset, hloop⟩ | ⟨hreset, -, hloop⟩ | ⟨hreset, hne', hloop⟩⟩ :=
        outputLoop_round al socket tryTimes hwf hne log
      · refine ⟨_, _, [tr], hloop, by simp, by simp, ⟨hanswered, trivial⟩, ?_, ?_, ?_⟩
        · rwa [disableWriting_outputBuffer, disableReading_outputBuffer]
        · rw [disableWriting_outputBuffer, disableReading_outputBuffer]
          simpa [accepted] using hcut
        · rw [Interest, disableWriting_outputBuffer, disableReading_outputBuffer]
          exact Or.inr ⟨rfl, ⟨tr, List.mem_singleton.mpr rfl, hreset⟩, rfl⟩
      · refine ⟨_, _, [tr], hloop, by simp, by simp, ⟨hanswered, trivial⟩, hwf', ?_, ?_⟩
        · simpa [accepted] using hcut
        · exact Or.inl ⟨rfl, by simpa using hreset, rfl⟩
      · obtain ⟨returned, c', new, hrest, hlen, -, hlogged, hsent⟩ :=
          ih (c := { c with outputBuffer := buf }) hwf' hne' (log ++ [tr])
        have hleft : c.outputBuffer.content.drop tr.accepted.length = buf.content := by
          rw [← hcut, List.drop_left]
        refine ⟨returned, c', tr :: new, ?_, Nat.succ_le_succ hlen, by simp, ⟨hanswered, ?_⟩,
          hsent.cons hreset rfl hcut⟩
        · rw [hloop, hrest, List.append_assoc]
          rfl
        · rw [hleft]
          rwa [List.length_append, List.length_singleton] at hlogged

/-! ## The whole call -/

theorem disableWriting_writeEnabled (c : SockConnectionHandler) :
    c.disableWriting.writeEnabled = false := by
  unfold disableWriting
  split
  · assumption
  · rfl

/-- `unregister_handler` is called for `WRITE_EVENT` unless the interest is gone already. -/
theorem disableWriting_unregistered (c : SockConnectionHandler) :
    c.disableWriting.unregistered =
      c.unregistered ++ if c.writeEnabled = true then [.write] else [] := by
  unfold disableWriting
  cases c.writeEnabled <;> simp

theorem disableReading_writeEnabled (c : SockConnectionHandler) :
    c.disableReading.writeEnabled = c.writeEnabled := by
  unfold disableReading
  split <;> rfl

theorem disableReading_unregistered (c : SockConnectionHandler) :
    c.disableReading.unregistered =
      c.unregistered ++ if c.readEnabled = true then [.read] else [] := by
  unfold disableReading
  cases c.readEnabled <;> simp

/-- `WRITE` interest goes exactly when the buffer is empty or the connection reset: the flag says so,
and the reactor is told if it did not know. -/
structure WriteInterest (c c' : SockConnectionHandler) (log : List Transmission) : Prop where
  flag : c'.writeEnabled = false ↔
    c.writeEnabled = false ∨ c'.outputBuffer.content = [] ∨ ∃ tr ∈ log, tr.Reset
  told : ∃ calls, c'.unregistered = c.unregistered ++ calls ∧ (.write ∈ calls ↔
    c.writeEnabled = true ∧ (c'.outputBuffer.content = [] ∨ ∃ tr ∈ log, tr.Reset))

section WriteInterest
variable {c c' : SockConnectionHandler} {log : List Transmission} {buf : Buffer}

theorem writeInterest_kept (hne : buf.content ≠ []) (hnone : ∀ tr ∈ log, ¬ tr.Reset) :
    WriteInterest c { c with outputBuffer := buf } log := by
  have hcause : ¬ (buf.content = [] ∨ ∃ tr ∈ log, tr.Reset) := by
    rintro (hempty | ⟨tr, hmem, hreset⟩)
    · exact hne hempty
    · exact hnone tr hmem hreset
  exact ⟨by simp [hcause], [], by simp, by simp [hcause]⟩

theorem writeInterest_dropped {calls : List Epoll.EventType}
    (hcause : c'.outputBuffer.content = [] ∨ ∃ tr ∈ log, tr.Reset)
    (hflag : c'.writeEnabled = false) (htold : c'.unregistered = c.unregistered ++ calls)
    (hcalls : .write ∈ calls ↔ c.writeEnabled = true) : WriteInterest c c' log :=
  ⟨by simp [hflag, hcause], calls, htold, by simp [hcalls, hcause]⟩

theorem writeInterest_empty (hempty : buf.content = []) :
    WriteInterest c { c with outputBuffer := buf }.disableWriting log := by
  refine writeInterest_dropped ?_ (disableWriting_writeEnabled _) (disableWriting_unregistered _) ?_
  · rw [disableWriting_outputBuffer]
    exact Or.inl hempty
  · cases hflag : c.writeEnabled <;> simp

theorem writeInterest_reset (hreset : ∃ tr ∈ log, tr.Reset) :
    WriteInterest c { c with outputBuffer := buf }.disableReading.disableWriting log := by
  have htold := disableWriting_unregistered { c with outputBuffer := buf }.disableReading
  rw [disableReading_unregistered, disableReading_writeEnabled, List.append_assoc] at htold
  refine writeInterest_dropped (Or.inr hreset) (disableWriting_writeEnabled _) htold ?_
  cases c.readEnabled <;> cases c.writeEnabled <;> simp

end WriteInterest

/-- **Output is conserved**: what the socket takes, followed by what is left in the buffer, is what
was in the buffer. The socket is asked three times at most, and at least once if the descriptor is that
of the connection; each time it is offered the front of what is left. `WRITE` interest goes exactly when
the buffer is empty or the connection reset. -/
theorem handleOutput_conserves (al : Allocator Addr) (socket : Socket) (handle : Epoll.Handle)
    (c : SockConnectionHandler) (hwf : c.outputBuffer.WellFormed)
    (hne : c.outputBuffer.content ≠ []) :
    ∃ ret c' log, c.handleOutput al socket handle = .ok (ret, c', log) ∧
      accepted log ++ c'.outputBuffer.content = c.outputBuffer.content ∧ log.length ≤ 3 ∧
      (handle = c.handle → handle ≠ Epoll.invalidHandle → log ≠ []) ∧
      Logged socket 0 c.outputBuffer.content log ∧
      c'.outputBuffer.WellFormed ∧ WriteInterest c c' log := by
  have hlen : c.outputBuffer.totalLen ≠ 0 := fun h => hne ((totalLen_eq_zero hwf).mp h)
  rw [handleOutput, if_neg hlen]
  split
  · next hnone =>
    -- no descriptor: the socket is not asked
    have hkept : WriteInterest c { c with outputBuffer := c.outputBuffer } [] :=
      writeInterest_kept hne (by simp)
    have hidle : handle = c.handle → handle ≠ Epoll.invalidHandle → ([] : List Transmission) ≠ [] :=
      fun hsame hvalid => absurd hnone (by simp [hsame, hsame ▸ hvalid])
    exact ⟨-1, c, [], rfl, rfl, Nat.zero_le _, hidle, trivial, hwf, hkept⟩
  · obtain ⟨returned, c', log, hloop, htimes, hasked, hlogged, hsent⟩ :=
      outputLoop_sent al socket 3 hwf hne []
    have hasked : log ≠ [] := hasked (by decide)
    rw [List.nil_append] at hloop
    rw [hloop, ok_bind]
    rcases hsent.interest with ⟨rfl, hnone, heq⟩ | ⟨rfl, hreset, heq⟩
    · by_cases hempty : c'.outputBuffer.totalLen = 0
      · have hcontent := (totalLen_eq_zero hsent.wellFormed).mp hempty
        refine ⟨0, c'.disableWriting, log, by simp only [if_pos hempty]; rfl, ?_, htimes,
          fun _ _ => hasked, hlogged, ?_, ?_⟩
        · rw [disableWriting_outputBuffer]
          exact hsent.conserved
        · rw [disableWriting_outputBuffer]
          exact hsent.wellFormed
        · rw [heq]
          exact writeInterest_empty hcontent
      · have hcontent : c'.outputBuffer.content ≠ [] :=
          fun h => hempty ((totalLen_eq_zero hsent.wellFormed).mpr h)
        refine ⟨0, c', log, by simp only [if_neg hempty]; rfl, hsent.conserved, htimes,
          fun _ _ => hasked, hlogged, hsent.wellFormed, ?_⟩
        rw [heq]
        exact writeInterest_kept hcontent hnone
    · refine ⟨-1, c', log, rfl, hsent.conserved, htimes, fun _ _ => hasked, hlogged,
        hsent.wellFormed, ?_⟩
      rw [heq]
      exact writeInterest_reset hreset

/-- A socket that takes one byte at a time, and fails at the second `send`. -/
def slowSocket : Socket := fun n offered =>
  if n = 1 then ⟨-1, .other, by omega⟩ else ⟨min 1 offered.length, .other, by omega⟩

theorem handleOutput_conserves_slow :
    ∃ b : Buffer, b.content = [1, 2, 3] ∧ ∃ ret c' log,
      handleOutput .succMax slowSocket 5 ⟨5, b, true, true, []⟩ = .ok (ret, c', log) ∧
        accepted log ++ c'.outputBuffer.content = [1, 2, 3] ∧ log.length ≤ 3 ∧ log ≠ [] ∧
        Logged slowSocket 0 [1, 2, 3] log ∧ c'.outputBuffer.WellFormed ∧
        WriteInterest ⟨5, b, true, true, []⟩ c' log := by
  have hne : ([1, 2, 3] : List Byte) ≠ [] := by simp
  obtain ⟨b, -, happ⟩ := Buffer.appendData_spec .succMax (Buffer.empty_wellFormed 0) hne (by simp)
    (by simp [Buffer.empty])
  have hcontent : b.content = [1, 2, 3] := happ.content_eq
  obtain ⟨ret, c', log, hret, hconserved, htimes, hasked, hlogged, hrest⟩ :=
    handleOutput_conserves .succMax slowSocket 5 ⟨5, b, true, true, []⟩ happ.wellFormed
      (by simp [hcontent])
  exact ⟨b, hcontent, ret, c', log, hret, hconserved.trans hcontent, htimes, hasked rfl (by decide),
    hcontent ▸ hlogged, hrest⟩

end SockConnectionHandler

end Unp.Reactor
