import Unp.Sync.Server

/-!
# `ServerMonitorHandler`: the receiving loop of the client

The client drives the same decoder over the same stream, with a loop of its own: a result of 0 ends
the connection, and the decoder is reset after every call. The reset throws away a length that was
taken out of the buffer while its payload had not arrived, so the loop only works when no read ends
inside a payload.

`completed`, `remaining` and `unfinished` say where a number of received bytes leaves the stream:
the messages whose last byte is among them, the others, and how many bytes follow the last complete
frame.
-/

namespace Unp.Sync

open Unp.Machine Unp.LinkedChain Unp.Run Unp.Reactor Unp.Reactor.Decoder

section Code
variable {M : Type} (parse : List Byte → Option M)

/-- The loop of `ServerMonitorHandler::handle_input`. The list holds the messages it looks at, in
order. -/
def clientLoop (al : Allocator Addr) (decodeFuel : Nat) :
    Nat → Handler M → Res ((Int × List M) × Handler M)
  | 0, _ => .error .outOfFuel
  | fuel + 1, h =>
      if sizeofLen < h.inputBuffer.totalLen then do
        let (lenParsed, decoder, buf) ← h.decoder.decode parse al decodeFuel h.inputBuffer
        if lenParsed ≤ 0 then pure ((-1, []), ⟨decoder, buf⟩)
        else do
          let mes := decoder.getMess.toList
          let ((ret, rest), h) ← clientLoop al decodeFuel fuel ⟨decoder.reset, buf⟩
          pure ((ret, mes ++ rest), h)
      else pure ((0, []), h)

/-- `ServerMonitorHandler::handle_input`, for a read that delivers `chunk`. -/
def clientHandleInput (fuel : Nat) (read : Allocator Addr × Chunk) (h : Handler M) :
    Res ((Int × List M) × Handler M) := do
  let (ret, buf) ← sockHandleInput read.1 h.inputBuffer read.2.1
  if ret < 0 then pure ((-1, []), { h with inputBuffer := buf })
  else clientLoop parse read.1 fuel fuel { h with inputBuffer := buf }

end Code

/-! ## Where the received bytes end -/

section Stream
variable {M : Type}

def completed : List (Message M) → Nat → List (Message M)
  | [], _ => []
  | msg :: msgs, n =>
      if 8 + msg.1.length ≤ n then msg :: completed msgs (n - (8 + msg.1.length)) else []

def remaining : List (Message M) → Nat → List (Message M)
  | [], _ => []
  | msg :: msgs, n =>
      if 8 + msg.1.length ≤ n then remaining msgs (n - (8 + msg.1.length)) else msg :: msgs

def unfinished : List (Message M) → Nat → Nat
  | [], n => n
  | msg :: msgs, n =>
      if 8 + msg.1.length ≤ n then unfinished msgs (n - (8 + msg.1.length)) else n

theorem completed_append_remaining (msgs : List (Message M)) (n : Nat) :
    completed msgs n ++ remaining msgs n = msgs := by
  induction msgs generalizing n with
  | nil => rfl
  | cons msg msgs ih =>
      rw [completed, remaining]
      split
      · rw [List.cons_append, ih]
      · rfl

/-- Receiving in two steps is receiving at once. -/
theorem unfinished_add (msgs : List (Message M)) (n j : Nat) :
    unfinished (remaining msgs n) (unfinished msgs n + j) = unfinished msgs (n + j) := by
  induction msgs generalizing n with
  | nil => rfl
  | cons msg msgs ih =>
      rw [remaining, unfinished]
      by_cases h : 8 + msg.1.length ≤ n
      · rw [if_pos h, if_pos h, ih, unfinished, if_pos (by omega)]
        congr 1
        omega
      · rw [if_neg h, if_neg h]

theorem completed_add (msgs : List (Message M)) (n j : Nat) :
    completed msgs n ++ completed (remaining msgs n) (unfinished msgs n + j) =
      completed msgs (n + j) := by
  induction msgs generalizing n with
  | nil => rfl
  | cons msg msgs ih =>
      rw [remaining, unfinished, completed]
      by_cases h : 8 + msg.1.length ≤ n
      · rw [if_pos h, if_pos h, if_pos h, List.cons_append, ih, completed, if_pos (by omega)]
        congr 2
        omega
      · rw [if_neg h, if_neg h, if_neg h, List.nil_append]

end Stream

/-! ## The loop -/

/-- The client between two messages, waiting for `msgs` with `fut` still to arrive. -/
structure Waiting {M : Type} (h : Handler M) (fut : List Byte) (msgs : List (Message M)) :
    Prop where
  decoder_eq : h.decoder = Decoder.new
  wellFormed : h.inputBuffer.WellFormed
  stream : h.inputBuffer.content ++ fut = wire msgs

section Client
variable {M : Type} {parse : List Byte → Option M}

/-- When the received bytes end close behind a frame, the loop takes all complete frames. -/
theorem clientLoop_spec (al : Allocator Addr) (dfuel fuel : Nat) {h : Handler M}
    {fut : List Byte} {msgs : List (Message M)} (hwait : Waiting h fut msgs)
    (hparses : ∀ msg ∈ msgs, Parses parse msg.1 msg.2)
    (hclose : unfinished msgs h.inputBuffer.totalLen ≤ 8)
    (hfuel : h.inputBuffer.totalLen < fuel) :
    ∃ h', clientLoop parse al (dfuel + 3) fuel h =
        .ok ((0, (completed msgs h.inputBuffer.totalLen).map Prod.snd), h') ∧
      Waiting h' fut (remaining msgs h.inputBuffer.totalLen) ∧
      h'.inputBuffer.totalLen = unfinished msgs h.inputBuffer.totalLen := by
  induction fuel generalizing h msgs with
  | zero => omega
  | succ fuel ih =>
      have hwf := hwait.wellFormed
      have hstream := hwait.stream
      by_cases hlong : 8 < h.inputBuffer.totalLen
      · have hlong' : sizeofLen < h.inputBuffer.totalLen := hlong
        cases msgs with
        | nil =>
            -- without a message there is no byte either
            have hnil := (List.append_eq_nil_iff.mp hstream).1
            rw [hwf.total_eq, hnil] at hlong
            simp at hlong
        | cons msg msgs =>
            have hp := hparses msg (by simp)
            rw [wire_cons] at hstream
            rcases decode_between al dfuel hwf hp (Or.inl hwait.decoder_eq) hstream hlong with
              ⟨d', buf', hrun, hbegun⟩ | ⟨d', buf', hrun, htaken⟩
            · -- a frame that has begun but not arrived would leave more than 8 bytes
              have htotal := hbegun.total_eq
              have hshort := hbegun.short
              rw [unfinished, if_neg (by omega)] at hclose
              omega
            · -- a frame is taken, and the rest still ends close behind a frame
              have htotal := htaken.total_eq
              have hfits : 8 + msg.1.length ≤ h.inputBuffer.totalLen := by omega
              have hrest : h.inputBuffer.totalLen - (8 + msg.1.length) = buf'.totalLen := by omega
              rw [unfinished, if_pos hfits, hrest] at hclose
              obtain ⟨h', hloop, hwait', hleft⟩ := ih (h := ⟨d'.reset, buf'⟩)
                ⟨rfl, htaken.wellFormed, htaken.stream⟩
                (fun msg hmsg => hparses msg (List.mem_cons_of_mem _ hmsg)) hclose
                (by simp only []; omega)
              have hpos : ¬ ((8 + msg.1.length : Nat) : Int) ≤ 0 := by omega
              have hmes : d'.getMess.toList = [msg.2] :=
                (isCompleted_of_delivers htaken.delivers).2.2
              rw [completed, remaining, unfinished, if_pos hfits, if_pos hfits, if_pos hfits, hrest]
              refine ⟨h', ?_, hwait', hleft⟩
              simp only [clientLoop, if_pos hlong', hrun, ok_bind, if_neg hpos, hloop, hmes,
                List.singleton_append, pure_eq_ok, List.map_cons]
      · -- at most a length is left, which is less than any frame
        have hstop : ¬ sizeofLen < h.inputBuffer.totalLen := hlong
        have hnone : completed msgs h.inputBuffer.totalLen = [] ∧
            remaining msgs h.inputBuffer.totalLen = msgs ∧
            unfinished msgs h.inputBuffer.totalLen = h.inputBuffer.totalLen := by
          cases msgs with
          | nil => exact ⟨rfl, rfl, rfl⟩
          | cons msg msgs =>
              have hpos := (hparses msg (by simp)).pos
              have hnot : ¬ 8 + msg.1.length ≤ h.inputBuffer.totalLen := by omega
              exact ⟨if_neg hnot, if_neg hnot, if_neg hnot⟩
        rw [hnone.1, hnone.2.1, hnone.2.2]
        refine ⟨h, ?_, hwait, rfl⟩
        simp only [clientLoop, if_neg hstop, pure_eq_ok, List.map_nil]

/-! ## Reads -/

/-- One call of `handle_input`. -/
theorem clientHandleInput_spec (fuel : Nat) (read : Allocator Addr × Chunk) {h : Handler M}
    {fut : List Byte} {msgs : List (Message M)} (hwait : Waiting h (read.2.1 ++ fut) msgs)
    (hparses : ∀ msg ∈ msgs, Parses parse msg.1 msg.2) (hfew : h.inputBuffer.totalLen ≤ 8)
    (hclose : unfinished msgs (h.inputBuffer.totalLen + read.2.1.length) ≤ 8)
    (hfuel : h.inputBuffer.totalLen + read.2.1.length < fuel) (hfuel3 : 3 ≤ fuel) :
    ∃ h', clientHandleInput parse fuel read h = .ok ((0, (completed msgs
        (h.inputBuffer.totalLen + read.2.1.length)).map Prod.snd), h') ∧
      Waiting h' fut (remaining msgs (h.inputBuffer.totalLen + read.2.1.length)) ∧
      h'.inputBuffer.totalLen = unfinished msgs (h.inputBuffer.totalLen + read.2.1.length) := by
  obtain ⟨buf', hsock, hwf', hcontent, htotal⟩ :=
    sockHandleInput_spec read.1 read.2 hwait.wellFormed (by omega)
  obtain ⟨dfuel, rfl⟩ : ∃ dfuel, fuel = dfuel + 3 := ⟨fuel - 3, by omega⟩
  have hwait' : Waiting { h with inputBuffer := buf' } fut msgs :=
    ⟨hwait.decoder_eq, hwf', by
      simp only [hcontent, List.append_assoc]
      exact hwait.stream⟩
  obtain ⟨h', hloop, hrest⟩ := clientLoop_spec read.1 dfuel (dfuel + 3) hwait' hparses
    (by simp only [htotal]; exact hclose) (by simp only [htotal]; exact hfuel)
  simp only [htotal] at hloop hrest
  refine ⟨h', ?_, hrest⟩
  have hret : ¬ (0 : Int) < 0 := by decide
  simp only [clientHandleInput, hsock, ok_bind, if_neg hret]
  exact hloop

/-- No read ends more than a length behind a frame. -/
def ReadsClose (msgs : List (Message M)) (n : Nat) : List (Allocator Addr × Chunk) → Prop
  | [] => True
  | read :: reads =>
      unfinished msgs (n + read.2.1.length) ≤ 8 ∧ ReadsClose msgs (n + read.2.1.length) reads

/-- The condition can be read from any point of the stream on. -/
theorem ReadsClose.advance {msgs : List (Message M)} {n k : Nat}
    {reads : List (Allocator Addr × Chunk)} (h : ReadsClose msgs (n + k) reads) :
    ReadsClose (remaining msgs n) (unfinished msgs n + k) reads := by
  induction reads generalizing k with
  | nil => trivial
  | cons read reads ih =>
      obtain ⟨hread, hreads⟩ := h
      rw [Nat.add_assoc] at hread hreads
      refine ⟨?_, ?_⟩
      · rw [Nat.add_assoc, unfinished_add]
        exact hread
      · rw [Nat.add_assoc]
        exact ih hreads

theorem wire_remaining_le (msgs : List (Message M)) (n : Nat) :
    (wire (remaining msgs n)).length ≤ (wire msgs).length := by
  have h := completed_append_remaining msgs n
  have : (wire msgs).length = (wire (completed msgs n)).length +
      (wire (remaining msgs n)).length := by
    conv => lhs; rw [← h]
    simp [wire, encode]
  omega

/-- Any number of reads that all end close behind a frame. -/
theorem client_run (fuel : Nat) (reads : List (Allocator Addr × Chunk)) {h : Handler M}
    {fut : List Byte} {msgs : List (Message M)} (hwait : Waiting h (arriving reads ++ fut) msgs)
    (hparses : ∀ msg ∈ msgs, Parses parse msg.1 msg.2) (hfew : h.inputBuffer.totalLen ≤ 8)
    (hclose : ReadsClose msgs h.inputBuffer.totalLen reads)
    (hnone : completed msgs h.inputBuffer.totalLen = [])
    (hfuel : (wire msgs).length + 3 ≤ fuel) :
    ∃ history h', run (clientHandleInput parse fuel) reads h = .ok (history, h') ∧
      (∀ e ∈ history, e.output.1 = 0) ∧
      history.flatMap (fun e => e.output.2) =
        (completed msgs (h.inputBuffer.totalLen + (arriving reads).length)).map Prod.snd := by
  induction reads generalizing h msgs with
  | nil => exact ⟨[], h, rfl, by simp, by simp [arriving, hnone]⟩
  | cons read reads ih =>
      obtain ⟨hread, hreads⟩ := hclose
      rw [arriving_cons, List.append_assoc] at hwait
      have hlen : h.inputBuffer.totalLen + (read.2.1.length + (arriving reads ++ fut).length) =
          (wire msgs).length := by
        have hlength := congrArg List.length hwait.stream
        rw [List.length_append, List.length_append] at hlength
        rw [hwait.wellFormed.total_eq]
        exact hlength
      obtain ⟨h₁, hstep, hwait₁, htotal₁⟩ :=
        clientHandleInput_spec fuel read hwait hparses hfew hread (by omega) (by omega)
      obtain ⟨n, hn⟩ : ∃ n, n = h.inputBuffer.totalLen + read.2.1.length := ⟨_, rfl⟩
      rw [← hn] at hread hreads hstep hwait₁ htotal₁
      have hwire := wire_remaining_le msgs n
      -- what is left of the first read is less than a frame, so that the next one starts anew
      obtain ⟨history, h', hrun, hrets, hdone⟩ := ih hwait₁
        (fun msg hmsg => hparses msg (by
          rw [← completed_append_remaining msgs n]
          exact List.mem_append_right _ hmsg))
        (by omega) (by rw [htotal₁]; exact hreads.advance (k := 0)) (by
          have := completed_add msgs n 0
          rw [Nat.add_zero, Nat.add_zero] at this
          rw [htotal₁]
          exact List.append_right_eq_self.mp this) (by omega)
      refine ⟨⟨h, read, (0, (completed msgs n).map Prod.snd), h₁⟩ :: history, h', ?_, ?_, ?_⟩
      · simp only [run, hstep, ok_bind, hrun, pure_eq_ok]
      · intro e he
        rcases List.mem_cons.mp he with rfl | he
        · rfl
        · exact hrets e he
      · rw [List.flatMap_cons, hdone, ← List.map_append, htotal₁, completed_add, arriving_cons,
          List.length_append, ← Nat.add_assoc, ← hn]

/-- After these reads every message whose last byte has arrived has been processed, in order, and no
call has closed the connection. -/
def ProcessesAll (parse : List Byte → Option M) (self : Addr) (fuel : Nat)
    (msgs : List (Message M)) (reads : List (Allocator Addr × Chunk)) : Prop :=
  ∃ history h', run (clientHandleInput parse fuel) reads (Handler.new self) = .ok (history, h') ∧
    (∀ e ∈ history, e.output.1 = 0) ∧
    history.flatMap (fun e => e.output.2) =
      (completed msgs (arriving reads).length).map Prod.snd

theorem ReadsClose.take {msgs : List (Message M)} {n : Nat}
    {reads : List (Allocator Addr × Chunk)} (h : ReadsClose msgs n reads) (k : Nat) :
    ReadsClose msgs n (reads.take k) := by
  induction reads generalizing n k with
  | nil => rw [List.take_nil]; trivial
  | cons read reads ih =>
      cases k with
      | zero => trivial
      | succ k => exact ⟨h.1, ih h.2 k⟩

/-- **When every read ends at most 8 bytes behind a frame**, the client processes every message as
soon as its last byte has arrived and never closes the connection. -/
theorem client_processes_when_reads_close (self : Addr) (fuel : Nat) (msgs : List (Message M))
    (reads : List (Allocator Addr × Chunk)) (fut : List Byte)
    (hparses : ∀ msg ∈ msgs, Parses parse msg.1 msg.2)
    (hsplit : arriving reads ++ fut = wire msgs) (hfuel : (wire msgs).length + 3 ≤ fuel)
    (hclose : ReadsClose msgs 0 reads) (k : Nat) :
    ProcessesAll parse self fuel msgs (reads.take k) := by
  have hparts : arriving (reads.take k) ++ (arriving (reads.drop k) ++ fut) = wire msgs := by
    rw [← hsplit, ← List.append_assoc, arriving, arriving, ← List.flatMap_append,
      List.take_append_drop]
    rfl
  have hwait : Waiting (Handler.new self : Handler M)
      (arriving (reads.take k) ++ (arriving (reads.drop k) ++ fut)) msgs :=
    ⟨rfl, Buffer.empty_wellFormed self, hparts⟩
  have hnone : completed msgs 0 = [] := by
    cases msgs with
    | nil => rfl
    | cons msg msgs => exact if_neg (by omega)
  have hrun := client_run fuel (reads.take k) hwait hparses (Nat.zero_le _)
    (hclose.take k) hnone hfuel
  have htotal : (Handler.new self : Handler M).inputBuffer.totalLen = 0 := rfl
  rw [htotal, Nat.zero_add] at hrun
  exact hrun

end Client

/-! ## A hello from the server -/

/-- The answer to a hello: type `Server`, command `ServerHello`. -/
def serverHello : List Byte := [8, 0, 18, 8, 8, 1, 16, 1, 24, 0, 32, 0, 24, 0, 34, 0]

/-- Protobuf, as far as this one package is concerned. -/
def parseServerHello (bytes : List Byte) : Option (List Byte) :=
  if bytes = serverHello then some bytes else none

theorem serverHello_parses : ∀ msg ∈ [(serverHello, serverHello)],
    Parses parseServerHello msg.1 msg.2 := by
  intro msg hmsg
  rw [List.mem_singleton] at hmsg
  rw [hmsg]
  exact ⟨by decide, by decide, by decide⟩

/-- The frame, cut in its length: the first read leaves 5 bytes. -/
def readsCutInLength : List (Allocator Addr × Chunk) :=
  [(.succMax, ⟨(frame serverHello).take 5, by decide⟩),
    (.succMax, ⟨(frame serverHello).drop 5, by decide⟩)]

theorem client_processes_serverHello :
    arriving readsCutInLength ++ [] = wire [(serverHello, serverHello)] ∧
    ReadsClose [(serverHello, serverHello)] 0 readsCutInLength ∧
    ProcessesAll parseServerHello 0 27 [(serverHello, serverHello)] (readsCutInLength.take 2) := by
  have hsplit : arriving readsCutInLength ++ [] = wire [(serverHello, serverHello)] := by decide
  have hclose : ReadsClose [(serverHello, serverHello)] 0 readsCutInLength :=
    ⟨by decide, by decide, trivial⟩
  exact ⟨hsplit, hclose, client_processes_when_reads_close 0 27 _ _ [] serverHello_parses hsplit
    (by decide) hclose 2⟩

/-- The frame, cut in its payload: the first read delivers the length and 4 bytes more. -/
def readsCutInPayload : List (Allocator Addr × Chunk) :=
  [(.succMax, ⟨(frame serverHello).take 12, by decide⟩),
    (.succMax, ⟨(frame serverHello).drop 12, by decide⟩)]

/-- **A package cut in its payload is lost**: all of its bytes have arrived and nothing has been
processed. -/
theorem client_loses_cut_package :
    arriving readsCutInPayload = wire [(serverHello, serverHello)] ∧
    ¬ ProcessesAll parseServerHello 0 27 [(serverHello, serverHello)] readsCutInPayload := by
  refine ⟨by decide, ?_⟩
  rintro ⟨history, h, hrun, -, hdone⟩
  have hnone : (run (clientHandleInput parseServerHello 27) readsCutInPayload (Handler.new 0)).map
      (fun r => r.1.flatMap fun e => e.output.2) = .ok [] := by decide +kernel
  rw [hrun] at hnone
  have hempty : history.flatMap (fun e => e.output.2) = [] := Except.ok.inj hnone
  rw [hempty] at hdone
  exact absurd hdone (by decide)

end Unp.Sync
