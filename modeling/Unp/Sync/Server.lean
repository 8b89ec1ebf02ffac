import Unp.Lib.Run
import Unp.Proto.Framing

/-!
# `SyncServerHandler`: the receiving loop of the server

`handle_input` appends what one read delivered and then decodes as long as the buffer holds more
than a length. The state that survives between two reads is the decoder and the buffer, and the
cut between two reads can fall anywhere in the stream.

The invariant `Pending` ties this state to the stream: what is in the buffer, followed by what has
not arrived yet, is the stream of the messages still to be delivered, less the length the decoder
may already have taken.
-/

namespace Unp.Sync

open Unp.Machine Unp.LinkedChain Unp.Run Unp.Reactor Unp.Reactor.Decoder

/-- The members of a handler that its `handle_input` uses. -/
structure Handler (M : Type) where
  decoder : Decoder M
  inputBuffer : Buffer

def Handler.new {M : Type} (self : Addr) : Handler M := ⟨Decoder.new, Buffer.empty self⟩

/-- What one successful `read` delivers: `read_len` is a positive `int`. -/
abbrev Chunk := { l : List Byte // l ≠ [] ∧ l.length < 2 ^ 31 }

/-- `BUFFER_HIGH_WATER_MARK`, an `unsigned int`. -/
def bufferHighWaterMark : Nat := u32 (100 * maximumChainSize)

/-- `sock_connection_handler::handle_input` when the socket has `chunk` to read. -/
def sockHandleInput (al : Allocator Addr) (buf : Buffer) (chunk : List Byte) :
    Res (Int × Buffer) :=
  if bufferHighWaterMark ≤ buf.totalLen then pure (0, buf)
  else do
    let (appended, buf) ← buf.appendData al (some chunk) chunk.length
    if appended ≠ chunk.length then pure (-1, buf) else pure (0, buf)

section Code
variable {M : Type} (parse : List Byte → Option M)

/-- The loop of `SyncServerHandler::handle_input`. The list holds the messages handed to the
command dispatch, in order. -/
def serverLoop (al : Allocator Addr) (decodeFuel : Nat) :
    Nat → Handler M → Res ((Int × List M) × Handler M)
  | 0, _ => .error .outOfFuel
  | fuel + 1, h =>
      if sizeofLen < h.inputBuffer.totalLen then do
        let (lenParsed, decoder, buf) ← h.decoder.decode parse al decodeFuel h.inputBuffer
        if lenParsed ≤ 0 ∧ decoder.isError then pure ((-1, []), ⟨decoder, buf⟩)
        else do
          let mes := if decoder.isCompleted then decoder.getMess.toList else []
          if lenParsed = 0 then pure ((0, mes), ⟨decoder, buf⟩)
          else do
            let ((ret, rest), h) ← serverLoop al decodeFuel fuel ⟨decoder, buf⟩
            pure ((ret, mes ++ rest), h)
      else pure ((0, []), h)

/-- `SyncServerHandler::handle_input`, for a read that delivers `chunk`. -/
def serverHandleInput (fuel : Nat) (read : Allocator Addr × Chunk) (h : Handler M) :
    Res ((Int × List M) × Handler M) := do
  let (ret, buf) ← sockHandleInput read.1 h.inputBuffer read.2.1
  if ret < 0 then pure ((ret, []), { h with inputBuffer := buf })
  else serverLoop parse read.1 fuel fuel { h with inputBuffer := buf }

end Code

/-! ## The invariant -/

/-- A message and its serialised form. -/
abbrev Message (M : Type) := List Byte × M

/-- `ParseFromArray` accepts the payload and it is long enough that a length and a payload can not
hide in the 8 bytes the loop leaves alone. -/
structure Valid {M : Type} (parse : List Byte → Option M) (msg : Message M) : Prop where
  parses : Parses parse msg.1 msg.2
  long : 9 ≤ msg.1.length

/-- The frames of a list of messages. -/
def wire {M : Type} (msgs : List (Message M)) : List Byte := encode (msgs.map Prod.fst)

@[simp] theorem wire_nil {M : Type} : wire ([] : List (Message M)) = [] := rfl

@[simp] theorem wire_cons {M : Type} (msg : Message M) (msgs : List (Message M)) :
    wire (msg :: msgs) = frame msg.1 ++ wire msgs := by
  simp [wire]

/-- The handler waits for `msgs`, with `fut` still to arrive. -/
inductive Pending {M : Type} (h : Handler M) (fut : List Byte) : List (Message M) → Prop
  | between {msgs} (awaiting : Awaiting h.decoder)
      (stream : h.inputBuffer.content ++ fut = wire msgs) : Pending h fut msgs
  | inside {msg msgs} (expecting : Expecting h.decoder msg.1.length)
      (stream : h.inputBuffer.content ++ fut = msg.1 ++ wire msgs) : Pending h fut (msg :: msgs)

/-- `Pending`, and the loop has nothing left to do. -/
inductive Settled {M : Type} (h : Handler M) (fut : List Byte) : List (Message M) → Prop
  | between {msgs} (awaiting : Awaiting h.decoder)
      (stream : h.inputBuffer.content ++ fut = wire msgs)
      (few : h.inputBuffer.totalLen ≤ 8) : Settled h fut msgs
  | inside {msg msgs} (expecting : Expecting h.decoder msg.1.length)
      (stream : h.inputBuffer.content ++ fut = msg.1 ++ wire msgs)
      (short : h.inputBuffer.totalLen < msg.1.length) : Settled h fut (msg :: msgs)

section Server
variable {M : Type} {parse : List Byte → Option M}

theorem isCompleted_of_expecting {d : Decoder M} {n : Nat} (h : Expecting d n) :
    d.isCompleted = false ∧ d.isError = false := by
  simp [isCompleted, isError, h.state_eq]

theorem isCompleted_of_delivers {d : Decoder M} {m : M} (h : Delivers d m) :
    d.isCompleted = true ∧ d.isError = false ∧ d.getMess.toList = [m] := by
  simp [isCompleted, isError, getMess, h.state_eq, h.mesPtr_eq]

/-- One round of the loop that takes a message. -/
theorem serverLoop_taken {al : Allocator Addr} {dfuel fuel : Nat} {h : Handler M}
    {d : Decoder M} {buf : Buffer} {fut tail : List Byte} {m : M} {k : Nat}
    (hlong : 8 < h.inputBuffer.totalLen) (hk : 0 < k)
    (hrun : h.decoder.decode parse al dfuel h.inputBuffer = .ok ((k : Int), d, buf))
    (htaken : Taken d buf h.inputBuffer fut tail m k) :
    serverLoop parse al dfuel (fuel + 1) h = (do
      let ((ret, rest), h) ← serverLoop parse al dfuel fuel ⟨d, buf⟩
      pure ((ret, m :: rest), h)) := by
  obtain ⟨hcomp, herr, hmes⟩ := isCompleted_of_delivers htaken.delivers
  have hne : ¬ (k : Int) = 0 := by omega
  have hguard : ¬ ((k : Int) ≤ 0 ∧ d.isError = true) := by simp [herr]
  have hlong' : sizeofLen < h.inputBuffer.totalLen := hlong
  simp only [serverLoop, if_pos hlong', hrun, ok_bind, if_neg hguard, if_pos hcomp, hmes,
    if_neg hne, List.singleton_append]

/-- The loop delivers some messages, in order, and settles before the others. -/
def LoopDelivers (parse : List Byte → Option M) (al : Allocator Addr) (dfuel fuel : Nat)
    (h : Handler M) (fut : List Byte) (msgs : List (Message M)) : Prop :=
  ∃ done msgs' h', serverLoop parse al dfuel fuel h = .ok ((0, done.map Prod.snd), h') ∧
    msgs = done ++ msgs' ∧ h'.inputBuffer.WellFormed ∧ Settled h' fut msgs'

section Rounds
variable {al : Allocator Addr} {dfuel fuel : Nat} {h : Handler M} {fut : List Byte}
  {msgs : List (Message M)}

/-- A round that takes a message, and the rounds after it. -/
theorem LoopDelivers.taken {d : Decoder M} {buf : Buffer} {tail p : List Byte} {m : M} {k : Nat}
    (hlong : 8 < h.inputBuffer.totalLen) (hk : 0 < k)
    (hrun : h.decoder.decode parse al dfuel h.inputBuffer = .ok ((k : Int), d, buf))
    (htaken : Taken d buf h.inputBuffer fut tail m k)
    (hrest : LoopDelivers parse al dfuel fuel ⟨d, buf⟩ fut msgs) :
    LoopDelivers parse al dfuel (fuel + 1) h fut ((p, m) :: msgs) := by
  obtain ⟨done, msgs', h', hloop, rfl, hwf, hset⟩ := hrest
  refine ⟨(p, m) :: done, msgs', h', ?_, rfl, hwf, hset⟩
  rw [serverLoop_taken hlong hk hrun htaken, hloop]
  rfl

/-- A round that takes the length only, and the rounds after it. -/
theorem LoopDelivers.begun {d : Decoder M} {buf : Buffer} {n : Nat}
    (hlong : 8 < h.inputBuffer.totalLen)
    (hrun : h.decoder.decode parse al dfuel h.inputBuffer = .ok (8, d, buf))
    (hexp : Expecting d n) (hrest : LoopDelivers parse al dfuel fuel ⟨d, buf⟩ fut msgs) :
    LoopDelivers parse al dfuel (fuel + 1) h fut msgs := by
  obtain ⟨done, msgs', h', hloop, hsplit, hwf, hset⟩ := hrest
  refine ⟨done, msgs', h', ?_, hsplit, hwf, hset⟩
  obtain ⟨hcomp, herr⟩ := isCompleted_of_expecting hexp
  have hlong' : sizeofLen < h.inputBuffer.totalLen := hlong
  have hguard : ¬ ((8 : Int) ≤ 0 ∧ d.isError = true) := by simp
  have hne : ¬ (8 : Int) = 0 := by decide
  simp only [serverLoop, if_pos hlong', hrun, ok_bind, if_neg hguard, hcomp, Bool.false_eq_true,
    if_false, if_neg hne, hloop, List.nil_append, pure_eq_ok]

/-- The decoder takes nothing, and a result of 0 ends the loop. -/
theorem LoopDelivers.waits {p : List Byte} {m : M} (hwf : h.inputBuffer.WellFormed)
    (hlong : 8 < h.inputBuffer.totalLen)
    (hrun : h.decoder.decode parse al dfuel h.inputBuffer = .ok (0, h.decoder, h.inputBuffer))
    (hexp : Expecting h.decoder p.length)
    (hstream : h.inputBuffer.content ++ fut = p ++ wire msgs)
    (hshort : h.inputBuffer.totalLen < p.length) :
    LoopDelivers parse al dfuel (fuel + 1) h fut ((p, m) :: msgs) := by
  refine ⟨[], (p, m) :: msgs, h, ?_, rfl, hwf, .inside hexp hstream hshort⟩
  obtain ⟨hcomp, herr⟩ := isCompleted_of_expecting hexp
  have hlong' : sizeofLen < h.inputBuffer.totalLen := hlong
  have hguard : ¬ ((0 : Int) ≤ 0 ∧ h.decoder.isError = true) := by simp [herr]
  simp only [serverLoop, if_pos hlong', hrun, ok_bind, if_neg hguard, hcomp, Bool.false_eq_true,
    if_false, pure_eq_ok, List.map_nil, if_true]

/-- Not more than a length is there. -/
theorem LoopDelivers.stops (hwf : h.inputBuffer.WellFormed)
    (hvalid : ∀ msg ∈ msgs, Valid parse msg) (hpend : Pending h fut msgs)
    (hfew : ¬ 8 < h.inputBuffer.totalLen) : LoopDelivers parse al dfuel (fuel + 1) h fut msgs := by
  have hstop : ¬ sizeofLen < h.inputBuffer.totalLen := hfew
  refine ⟨[], msgs, h, ?_, rfl, hwf, ?_⟩
  · simp only [serverLoop, if_neg hstop, pure_eq_ok, List.map_nil]
  · cases hpend with
    | between hawait hstream => exact .between hawait hstream (by omega)
    | @inside msg msgs hexp hstream =>
        have := (hvalid msg (by simp)).long
        exact .inside hexp hstream (by omega)

end Rounds

/-- **The loop**: it delivers the messages that are complete, in order, and settles. -/
theorem serverLoop_spec (al : Allocator Addr) (dfuel fuel : Nat) {h : Handler M}
    {fut : List Byte} {msgs : List (Message M)} (hwf : h.inputBuffer.WellFormed)
    (hvalid : ∀ msg ∈ msgs, Valid parse msg) (hpend : Pending h fut msgs)
    (hfuel : h.inputBuffer.totalLen < fuel) :
    LoopDelivers parse al (dfuel + 3) fuel h fut msgs := by
  induction fuel generalizing h msgs with
  | zero => omega
  | succ fuel ih =>
      by_cases hlong : 8 < h.inputBuffer.totalLen
      · cases hpend with
        | between hawait hstream =>
            cases msgs with
            | nil =>
                -- no message is left, so there is no byte left either
                have hnil := (List.append_eq_nil_iff.mp hstream).1
                rw [hwf.total_eq, hnil] at hlong
                simp at hlong
            | cons msg msgs =>
                obtain ⟨p, m⟩ := msg
                obtain ⟨hmsg, hmsgs⟩ := List.forall_mem_cons.mp hvalid
                rw [wire_cons] at hstream
                rcases decode_between al dfuel hwf hmsg.parses hawait hstream hlong with
                  ⟨d', buf', hrun, hbegun⟩ | ⟨d', buf', hrun, htaken⟩
                · -- the length is taken, the next round finds the payload incomplete
                  have htotal := hbegun.total_eq
                  apply LoopDelivers.begun hlong hrun hbegun.expecting
                  exact ih hbegun.wellFormed hvalid (.inside hbegun.expecting hbegun.stream)
                    (by simp only []; omega)
                · -- the whole frame is there
                  have htotal := htaken.total_eq
                  apply LoopDelivers.taken hlong (by omega) hrun htaken
                  exact ih htaken.wellFormed hmsgs
                    (.between htaken.delivers.awaiting htaken.stream) (by simp only []; omega)
        | @inside msg msgs hexp hstream =>
            obtain ⟨p, m⟩ := msg
            obtain ⟨hmsg, hmsgs⟩ := List.forall_mem_cons.mp hvalid
            have hpos := hmsg.parses.pos
            by_cases hshort : h.inputBuffer.totalLen < p.length
            · have hrun := decode_waits al (dfuel + 2) hwf hmsg.parses hexp (by omega) hshort
              exact .waits hwf hlong hrun hexp hstream hshort
            · -- the payload has become complete
              obtain ⟨d', buf', hrun, htaken⟩ := decode_inside al (dfuel + 1) hwf hmsg.parses hexp
                hstream (by simp only []; omega)
              have htotal := htaken.total_eq
              apply LoopDelivers.taken hlong hmsg.parses.pos hrun htaken
              exact ih htaken.wellFormed hmsgs
                (.between htaken.delivers.awaiting htaken.stream) (by simp only []; omega)
      · exact .stops hwf hvalid hpend hlong

/-! ## Reads -/

/-- The bytes a list of reads delivers. -/
def arriving (reads : List (Allocator Addr × Chunk)) : List Byte :=
  reads.flatMap fun read => read.2.1

@[simp] theorem arriving_cons (read : Allocator Addr × Chunk)
    (reads : List (Allocator Addr × Chunk)) :
    arriving (read :: reads) = read.2.1 ++ arriving reads := by
  simp [arriving]

theorem Settled.total_lt {h : Handler M} {fut : List Byte} {msgs : List (Message M)}
    (hset : Settled h fut msgs) (hvalid : ∀ msg ∈ msgs, Valid parse msg) :
    h.inputBuffer.totalLen < 2 ^ 31 := by
  cases hset with
  | between _ _ few => exact Nat.lt_of_le_of_lt few (by decide)
  | @inside msg msgs _ _ short =>
      exact Nat.lt_trans short (hvalid msg (by simp)).parses.lt

/-- A read moves its bytes from the part of the stream that is to come into the buffer. -/
theorem sockHandleInput_spec (al : Allocator Addr) {buf : Buffer} (chunk : Chunk)
    (hwf : buf.WellFormed) (hlt : buf.totalLen < 2 ^ 31) :
    ∃ buf', sockHandleInput al buf chunk.1 = .ok (0, buf') ∧ buf'.WellFormed ∧
      buf'.content = buf.content ++ chunk.1 ∧
      buf'.totalLen = buf.totalLen + chunk.1.length := by
  have hlen := chunk.2.2
  obtain ⟨buf', hrun, happ⟩ :=
    Buffer.appendData_spec al hwf chunk.2.1 (by omega) (by omega)
  have hmark : ¬ bufferHighWaterMark ≤ buf.totalLen := by
    have : bufferHighWaterMark = 4294967196 := by decide
    omega
  refine ⟨buf', ?_, happ.wellFormed, happ.content_eq, ?_⟩
  · simp only [sockHandleInput, if_neg hmark, hrun, ok_bind, ne_eq, not_true_eq_false, if_false,
      pure_eq_ok]
  · rw [happ.wellFormed.total_eq, happ.content_eq, List.length_append, hwf.total_eq]

theorem Settled.receive {h : Handler M} {fut : List Byte} {msgs : List (Message M)}
    {chunk : List Byte} {buf : Buffer} (hset : Settled h (chunk ++ fut) msgs)
    (hcontent : buf.content = h.inputBuffer.content ++ chunk) :
    Pending { h with inputBuffer := buf } fut msgs := by
  cases hset with
  | between hawait hstream _ =>
      exact .between hawait (by simp only [hcontent, List.append_assoc]; exact hstream)
  | inside hexp hstream _ =>
      exact .inside hexp (by simp only [hcontent, List.append_assoc]; exact hstream)

/-- One call of `handle_input`. -/
theorem serverHandleInput_spec (fuel : Nat) (read : Allocator Addr × Chunk) {h : Handler M}
    {fut : List Byte} {msgs : List (Message M)} (hwf : h.inputBuffer.WellFormed)
    (hvalid : ∀ msg ∈ msgs, Valid parse msg) (hset : Settled h (read.2.1 ++ fut) msgs)
    (hfuel : h.inputBuffer.totalLen + read.2.1.length < fuel) (hfuel3 : 3 ≤ fuel) :
    ∃ done msgs' h', serverHandleInput parse fuel read h = .ok ((0, done.map Prod.snd), h') ∧
      msgs = done ++ msgs' ∧ h'.inputBuffer.WellFormed ∧ Settled h' fut msgs' := by
  obtain ⟨buf', hsock, hwf', hcontent, htotal⟩ :=
    sockHandleInput_spec read.1 read.2 hwf (hset.total_lt hvalid)
  obtain ⟨dfuel, rfl⟩ : ∃ dfuel, fuel = dfuel + 3 := ⟨fuel - 3, by omega⟩
  obtain ⟨done, msgs', h', hloop, hrest⟩ :=
    serverLoop_spec read.1 dfuel (dfuel + 3) (h := { h with inputBuffer := buf' }) hwf' hvalid
      (hset.receive hcontent) (by simp only [htotal]; exact hfuel)
  refine ⟨done, msgs', h', ?_, hrest⟩
  have hret : ¬ (0 : Int) < 0 := by decide
  simp only [serverHandleInput, hsock, ok_bind, if_neg hret]
  exact hloop

theorem Settled.length_le {h : Handler M} {fut : List Byte} {msgs : List (Message M)}
    (hset : Settled h fut msgs) (hwf : h.inputBuffer.WellFormed) :
    h.inputBuffer.totalLen + fut.length ≤ (wire msgs).length := by
  cases hset with
  | between _ stream _ =>
      rw [← stream, List.length_append, hwf.total_eq]
  | inside _ stream _ =>
      have := congrArg List.length stream
      rw [List.length_append, List.length_append] at this
      rw [wire_cons, List.length_append, length_frame, hwf.total_eq]
      omega

/-- Any number of reads, with `fut` still to arrive behind them: the messages delivered are a first
part of the list, and the handler is settled for the others. -/
theorem server_run (fuel : Nat) (reads : List (Allocator Addr × Chunk)) {h : Handler M}
    {fut : List Byte} {msgs : List (Message M)} (hwf : h.inputBuffer.WellFormed)
    (hvalid : ∀ msg ∈ msgs, Valid parse msg) (hset : Settled h (arriving reads ++ fut) msgs)
    (hfuel : (wire msgs).length + 3 ≤ fuel) :
    ∃ history h' done msgs', run (serverHandleInput parse fuel) reads h = .ok (history, h') ∧
      (∀ e ∈ history, e.output.1 = 0) ∧
      history.flatMap (fun e => e.output.2) = done.map Prod.snd ∧ msgs = done ++ msgs' ∧
      h'.inputBuffer.WellFormed ∧ Settled h' fut msgs' := by
  induction reads generalizing h msgs with
  | nil => exact ⟨[], h, [], msgs, rfl, by simp, rfl, rfl, hwf, hset⟩
  | cons read reads ih =>
      rw [arriving_cons, List.append_assoc] at hset
      have hlen := hset.length_le hwf
      rw [List.length_append] at hlen
      obtain ⟨done₁, msgs₁, h₁, hstep, hsplit₁, hwf₁, hset₁⟩ :=
        serverHandleInput_spec fuel read hwf hvalid hset (by omega) (by omega)
      have hfuel₁ : (wire msgs₁).length + 3 ≤ fuel := by
        have : (wire msgs).length = (wire done₁).length + (wire msgs₁).length := by
          rw [hsplit₁]
          simp [wire, encode]
        omega
      obtain ⟨history, h', done, msgs', hrun, hrets, hdone, hsplit, hwf', hset'⟩ :=
        ih hwf₁ (fun msg hmsg => hvalid msg (by rw [hsplit₁]; simp [hmsg])) hset₁ hfuel₁
      refine ⟨⟨h, read, (0, done₁.map Prod.snd), h₁⟩ :: history, h', done₁ ++ done, msgs', ?_, ?_,
        ?_, ?_, hwf', hset'⟩
      · simp only [run, hstep, ok_bind, hrun, pure_eq_ok]
      · intro e he
        rcases List.mem_cons.mp he with rfl | he
        · rfl
        · exact hrets e he
      · rw [List.flatMap_cons, hdone, List.map_append]
      · rw [hsplit₁, hsplit, List.append_assoc]

/-- A settled handler that expects nothing more has delivered everything. -/
theorem Settled.done {h : Handler M} {msgs : List (Message M)} (hset : Settled h [] msgs)
    (hwf : h.inputBuffer.WellFormed) (hvalid : ∀ msg ∈ msgs, Valid parse msg) :
    msgs = [] ∧ h.inputBuffer.totalLen = 0 := by
  cases hset with
  | between _ stream few =>
      rw [List.append_nil] at stream
      cases msgs with
      | nil =>
          refine ⟨rfl, ?_⟩
          rw [hwf.total_eq, stream]
          rfl
      | cons msg msgs =>
          -- a frame alone is longer than what the loop leaves in the buffer
          have hlong := (hvalid msg (by simp)).long
          rw [hwf.total_eq, stream, wire_cons, List.length_append, length_frame] at few
          omega
  | inside _ stream short =>
      rw [List.append_nil] at stream
      rw [hwf.total_eq, stream, List.length_append] at short
      omega

/-- **Round trip.** However the stream of frames is cut into reads, the server delivers exactly
the messages that were sent, in order, and ends with an empty buffer. -/
theorem server_delivers_all (self : Addr) (fuel : Nat) (msgs : List (Message M))
    (reads : List (Allocator Addr × Chunk)) (hvalid : ∀ msg ∈ msgs, Valid parse msg)
    (hsplit : arriving reads = wire msgs) (hfuel : (wire msgs).length + 3 ≤ fuel) :
    ∃ history h, run (serverHandleInput parse fuel) reads (Handler.new self) = .ok (history, h) ∧
      (∀ e ∈ history, e.output.1 = 0) ∧
      history.flatMap (fun e => e.output.2) = msgs.map Prod.snd ∧
      h.inputBuffer.content = [] ∧ h.inputBuffer.totalLen = 0 := by
  have hset : Settled (Handler.new self : Handler M) (arriving reads ++ []) msgs := by
    refine .between (Or.inl rfl) ?_ (Nat.zero_le _)
    rw [List.append_nil, hsplit]
    rfl
  obtain ⟨history, h, done, msgs', hrun, hrets, hdone, hparts, hwf, hset'⟩ :=
    server_run fuel reads (Buffer.empty_wellFormed self) hvalid hset hfuel
  obtain ⟨hnil, htotal⟩ := hset'.done hwf fun msg hmsg => hvalid msg (by rw [hparts]; simp [hmsg])
  rw [hnil, List.append_nil] at hparts
  refine ⟨history, h, hrun, hrets, by rw [hdone, hparts], ?_, htotal⟩
  exact List.length_eq_zero_iff.mp (hwf.total_eq ▸ htotal)

end Server

/-! ## Two packages -/

/-- The shortest `SyncPackage` with a command: `len: 0`, a header whose other fields are zero,
`contentLen: 0` and an empty `content`. -/
def emptyPackage (command : Byte) : List Byte :=
  [8, 0, 18, 8, 8, 0, 16, command, 24, 0, 32, 0, 24, 0, 34, 0]

/-- Protobuf, as far as the packages with the commands `ClientHello` and `ReportState` are concerned. -/
def parseEmptyPackage (bytes : List Byte) : Option Byte :=
  if bytes = emptyPackage 0 then some 0
  else if bytes = emptyPackage 3 then some 3
  else none

def twoPackages : List (Message Byte) := [(emptyPackage 0, 0), (emptyPackage 3, 3)]

theorem twoPackages_valid : ∀ msg ∈ twoPackages, Valid parseEmptyPackage msg := by
  intro msg hmsg
  rw [twoPackages, List.mem_cons, List.mem_singleton] at hmsg
  rcases hmsg with rfl | rfl
  · exact ⟨⟨by decide, by decide, by decide⟩, by decide⟩
  · exact ⟨⟨by decide, by decide, by decide⟩, by decide⟩

/-- Their frames in three reads. The first one ends in the length of the first frame, the second one in
the payload of the second. -/
def twoPackageReads : List (Allocator Addr × Chunk) :=
  [(.succMax, ⟨(wire twoPackages).take 3, by decide⟩),
    (.succMax, ⟨((wire twoPackages).drop 3).take 30, by decide⟩),
    (.succMax, ⟨(wire twoPackages).drop 33, by decide⟩)]

theorem server_delivers_all_twoPackages :
    (∀ msg ∈ twoPackages, Valid parseEmptyPackage msg) ∧
    arriving twoPackageReads = wire twoPackages ∧
    ∃ history h, run (serverHandleInput parseEmptyPackage 51) twoPackageReads (Handler.new 0) =
        .ok (history, h) ∧
      (∀ e ∈ history, e.output.1 = 0) ∧
      history.flatMap (fun e => e.output.2) = twoPackages.map Prod.snd ∧
      h.inputBuffer.content = [] ∧ h.inputBuffer.totalLen = 0 := by
  have hsplit : arriving twoPackageReads = wire twoPackages := by decide
  exact ⟨twoPackages_valid, hsplit,
    server_delivers_all 0 51 _ _ twoPackages_valid hsplit (by decide)⟩

end Unp.Sync
