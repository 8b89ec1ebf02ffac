import Unp.Sync.Server

/-!
# The input of an HTTP client

`HttpHandler` and `downloader::Handler` hand the first chain of their buffer to the codec and drain
it, until the buffer is empty. What the parser reports has to come through: `onIngress` returns 0
when there is an error, and the handler asks `hasError`, a flag that only `onParserError` sets. Nobody
calls `onParserError`, so the handler goes on to its `assert` with a result of 0.

`http_parser` is a parameter: a state machine that consumes bytes, calls back and may end in an
error. Of what the callbacks do the handlers see whether one of them wants to close.
-/

namespace Unp.Http

open Unp.Machine Unp.LinkedChain Unp.Run Unp.Reactor
open Unp.Sync (Chunk sockHandleInput bufferHighWaterMark)

/-- `http_parser`: `error`, `http_parser_execute` with the number of bytes it has consumed and
whether a callback has asked to close, and `http_parser_pause`. -/
structure Parser (P : Type) where
  error : P → Nat
  execute : List Byte → P → Nat × Bool × P
  pause : P → P

/-- The parser consumes all of its input or sets an error. -/
structure Parser.Regular {P : Type} (parser : Parser P) : Prop where
  consumes : ∀ bytes p, parser.error p = 0 → parser.error (parser.execute bytes p).2.2 = 0 →
    (parser.execute bytes p).1 = bytes.length

/-- The members that `handle_input` uses. `hasError` is the codec's, and `shouldClose` is
`should_close_` of `HttpHandler` and `isShouldClose_` of `downloader::Handler`. -/
structure ClientHandler (P : Type) where
  inputBuffer : Buffer
  parser : P
  hasError : Bool
  shouldClose : Bool

/-- What a call of `read` finds: bytes, `EAGAIN`, or an error or the end of the stream. -/
inductive Incoming where
  | data (al : Allocator Addr) (chunk : Chunk)
  | again
  | closed

/-- `sock_connection_handler::handle_input`. -/
def sockRead (incoming : Incoming) (buf : Buffer) : Res (Int × Buffer) :=
  match incoming with
  | .data al chunk => sockHandleInput al buf chunk.1
  | .again => pure (0, buf)
  | .closed => pure (if bufferHighWaterMark ≤ buf.totalLen then 0 else -1, buf)

namespace ClientHandler
variable {P : Type} (parser : Parser P)

def new (self : Addr) (p : P) : ClientHandler P := ⟨Buffer.empty self, p, false, false⟩

/-- `Http1xCodec::onIngress`. -/
def onIngress (bytes : List Byte) (h : ClientHandler P) : Nat × ClientHandler P :=
  if parser.error h.parser ≠ 0 then (0, h)
  else
    let (bytesParsed, closes, p) := parser.execute bytes h.parser
    let h := { h with parser := p, shouldClose := h.shouldClose || closes }
    (if parser.error p ≠ 0 then 0 else bytesParsed, h)

/-- `parserPause(1)`: an error other than the pause itself stays. -/
def pause (h : ClientHandler P) : ClientHandler P :=
  if parser.error h.parser ≠ 0 then h else { h with parser := parser.pause h.parser }

/-- The loop over the chains; the result says whether it has ended with an error. -/
def ingressLoop : Nat → ClientHandler P → Res (Bool × ClientHandler P)
  | 0, _ => .error .outOfFuel
  | fuel + 1, h =>
      if h.inputBuffer.totalLen = 0 then pure (false, h)
      else do
        let a ← h.inputBuffer.front
        let c ← h.inputBuffer.getChain a
        let firstChain ← c.copyOf
        let data ← readMem firstChain.buffer firstChain.misalign firstChain.size
        let (bytesRead, h) := h.onIngress parser data
        if h.hasError = true then pure (true, h.pause parser)
        else if bytesRead ≠ firstChain.size then .error .assertion
        else do
          let (_, buf) ← h.inputBuffer.drain firstChain.size
          ingressLoop fuel { h with inputBuffer := buf }

/-- -1 when a callback has asked to close. -/
def closeResult (h : ClientHandler P) : Int := if h.shouldClose = true then -1 else 0

/-- Both `handle_input`s; `whenEmpty` is what they return when nothing has arrived. -/
def handleInput (whenEmpty : ClientHandler P → Int) (incoming : Incoming) (h : ClientHandler P) :
    Res (Int × ClientHandler P) := do
  let (ret, buf) ← sockRead incoming h.inputBuffer
  let h := { h with inputBuffer := buf }
  if ret < 0 then pure (-1, h)
  else if buf.totalLen = 0 then pure (whenEmpty h, h)
  else do
    let (failed, h) ← ingressLoop parser (buf.chains.length + 1) h
    pure (if failed = true then -1 else h.closeResult, h)

/-- `HttpHandler::handle_input`. -/
def httpHandlerInput : Incoming → ClientHandler P → Res (Int × ClientHandler P) :=
  handleInput parser fun _ => 0

/-- `downloader::Handler::handle_input`. -/
def downloadHandlerInput : Incoming → ClientHandler P → Res (Int × ClientHandler P) :=
  handleInput parser closeResult

/-! ## One call -/

/-- Between two calls: the buffer is empty and there has been no error. -/
structure Idle (h : ClientHandler P) : Prop where
  wellFormed : h.inputBuffer.WellFormed
  total_eq : h.inputBuffer.totalLen = 0
  error_eq : parser.error h.parser = 0
  hasError_eq : h.hasError = false

/-- What the parser makes of the bytes that have arrived. -/
def parsed (incoming : Incoming) (p : P) : P :=
  match incoming with
  | .data _ chunk => (parser.execute chunk.1 p).2.2
  | _ => p

variable {parser} {h : ClientHandler P}

theorem new_idle (self : Addr) {p : P} (hp : parser.error p = 0) : Idle parser (new self p) :=
  ⟨Buffer.empty_wellFormed self, rfl, hp, rfl⟩

/-- Bytes that arrive are the only chain of the buffer. -/
theorem sockRead_data (hidle : Idle parser h) (al : Allocator Addr) (chunk : Chunk) :
    ∃ buf a c, sockRead (.data al chunk) h.inputBuffer = .ok (0, buf) ∧ buf.WellFormed ∧
      buf.totalLen = chunk.1.length ∧ buf.chains = [(a, c)] ∧ c.data = chunk.1 := by
  have hlen := chunk.2.2
  have h0 := hidle.total_eq
  obtain ⟨buf, hrun, happ⟩ := Buffer.appendData_spec al hidle.wellFormed chunk.2.1
    (by omega) (by omega)
  have hempty : h.inputBuffer.content = [] := by
    rw [Buffer.content, hidle.wellFormed.chains_eq_nil h0]
    rfl
  have hcontent : buf.content = chunk.1 := by rw [happ.content_eq, hempty, List.nil_append]
  obtain ⟨a, c, hchains, hdata⟩ :=
    Buffer.appendData_first al hidle.wellFormed h0 chunk.2.1 hrun hcontent
  have hmark : ¬ bufferHighWaterMark ≤ h.inputBuffer.totalLen := by
    have : bufferHighWaterMark = 4294967196 := by decide
    omega
  refine ⟨buf, a, c, ?_, happ.wellFormed, by rw [happ.wellFormed.total_eq, hcontent], hchains, hdata⟩
  simp only [sockRead, sockHandleInput, if_neg hmark, hrun, ok_bind, ne_eq, not_true_eq_false,
    if_false, pure_eq_ok]

variable (parser) in
theorem onIngress_frame (bytes : List Byte) (h : ClientHandler P) :
    (h.onIngress parser bytes).2.hasError = h.hasError ∧
      (h.onIngress parser bytes).2.inputBuffer = h.inputBuffer := by
  unfold onIngress
  split <;> exact ⟨rfl, rfl⟩

variable (parser) in
/-- The first round of the loop: the chain goes to the parser as it is. -/
theorem ingressLoop_first (fuel : Nat) {a : Addr} {c : BufferChain} {bytes : List Byte}
    (hwf : h.inputBuffer.WellFormed) (hne : bytes ≠ [])
    (hchains : h.inputBuffer.chains = [(a, c)]) (hdata : c.data = bytes)
    (hnoError : h.hasError = false) :
    ∃ buf, buf.WellFormed ∧ buf.totalLen = 0 ∧
      ingressLoop parser (fuel + 2) h =
        if (h.onIngress parser bytes).1 = bytes.length then
          .ok (false, { (h.onIngress parser bytes).2 with inputBuffer := buf })
        else .error .assertion := by
  have hgood := hwf.first_good hchains
  have hlen : c.data.length = bytes.length := by rw [hdata]
  have hpos : 0 < bytes.length := List.length_pos_of_ne_nil hne
  have htotal : h.inputBuffer.totalLen = bytes.length := by
    rw [hwf.total_eq, Buffer.content, hchains]
    simp [hdata]
  obtain ⟨buf, hremove, hconsumed⟩ := Buffer.remove_spec hwf hpos (Nat.le_of_eq htotal.symm)
  have hbuf : buf.totalLen = 0 := by
    rw [hconsumed.wellFormed.total_eq, hconsumed.content_eq, List.length_drop, ← hwf.total_eq,
      htotal, Nat.sub_self]
  refine ⟨buf, hconsumed.wellFormed, hbuf, ?_⟩
  obtain ⟨firstChain, hcopy, hsize, hread⟩ := hgood.ok.copyOf_reads
  rw [hlen] at hsize
  rw [hdata] at hread
  obtain ⟨hflag, hbuffer⟩ := onIngress_frame parser bytes h
  have hfront : h.inputBuffer.front = .ok a := by simp [Buffer.front, hchains]
  rw [ingressLoop, if_neg (by omega)]
  simp only [hfront, Buffer.getChain_cons hchains, hcopy, hsize, hread, ok_bind, hflag, hnoError,
    hbuffer, Buffer.drain_eq hremove, Bool.false_eq_true, if_false]
  by_cases hall : (h.onIngress parser bytes).1 = bytes.length
  · rw [if_neg (by simpa using hall), if_pos hall, ingressLoop]
    simp only [hbuf, if_true, pure_eq_ok]
  · rw [if_pos (by simpa using hall), if_neg hall]

/-- A call that finds nothing to parse. -/
theorem handleInput_nothing (whenEmpty : ClientHandler P → Int) (hidle : Idle parser h)
    (incoming : Incoming) (hnone : ∀ al chunk, incoming ≠ .data al chunk) :
    ∃ ret, handleInput parser whenEmpty incoming h = .ok (ret, h) := by
  cases incoming with
  | data al chunk => exact absurd rfl (hnone al chunk)
  | again =>
      refine ⟨whenEmpty h, ?_⟩
      simp [handleInput, sockRead, hidle.total_eq]
  | closed =>
      refine ⟨-1, ?_⟩
      have hmark : ¬ bufferHighWaterMark ≤ 0 := by decide
      simp [handleInput, sockRead, hidle.total_eq, hmark]

/-- A call that finds bytes gives them to the parser, and asserts that the parser has taken all. -/
theorem handleInput_data (whenEmpty : ClientHandler P → Int) (hidle : Idle parser h)
    (al : Allocator Addr) (chunk : Chunk) :
    ∃ buf, buf.WellFormed ∧ buf.totalLen = 0 ∧
      handleInput parser whenEmpty (.data al chunk) h =
        if (h.onIngress parser chunk.1).1 = chunk.1.length then
          .ok ((h.onIngress parser chunk.1).2.closeResult,
            { (h.onIngress parser chunk.1).2 with inputBuffer := buf })
        else .error .assertion := by
  obtain ⟨arrived, a, c, hread, hwf, htotal, hchains, hdata⟩ := sockRead_data hidle al chunk
  have hpos : 0 < chunk.1.length := List.length_pos_of_ne_nil chunk.2.1
  obtain ⟨buf, hbufwf, hbuf, hloop⟩ := ingressLoop_first parser 0
    (h := { h with inputBuffer := arrived }) hwf chunk.2.1 hchains hdata hidle.hasError_eq
  -- what the parser does has nothing to do with the buffer
  have hsame : ({ h with inputBuffer := arrived } : ClientHandler P).onIngress parser chunk.1 =
      ((h.onIngress parser chunk.1).1,
        { (h.onIngress parser chunk.1).2 with inputBuffer := arrived }) := by
    unfold onIngress
    split <;> rfl
  rw [hsame] at hloop
  refine ⟨buf, hbufwf, hbuf, ?_⟩
  rw [handleInput, hread, ok_bind]
  dsimp only
  rw [if_neg (by decide), if_neg (by omega), hchains]
  show (ingressLoop parser 2 _ >>= _) = _
  rw [hloop]
  split
  · rfl
  · rfl

theorem onIngress_clean (hidle : Idle parser h) (bytes : List Byte) :
    (h.onIngress parser bytes).2.parser = (parser.execute bytes h.parser).2.2 ∧
      (h.onIngress parser bytes).1 =
        if parser.error (parser.execute bytes h.parser).2.2 ≠ 0 then 0
        else (parser.execute bytes h.parser).1 := by
  rw [onIngress, if_neg (by simp [hidle.error_eq])]
  exact ⟨rfl, rfl⟩

/-- **No error**: the call returns and the handler is idle again. -/
theorem handleInput_clean (hparser : parser.Regular) (whenEmpty : ClientHandler P → Int)
    (hidle : Idle parser h) {incoming : Incoming}
    (hclean : parser.error (parsed parser incoming h.parser) = 0) :
    ∃ ret h', handleInput parser whenEmpty incoming h = .ok (ret, h') ∧ Idle parser h' ∧
      h'.parser = parsed parser incoming h.parser := by
  cases incoming with
  | data al chunk =>
      obtain ⟨buf, hwf, htotal, hcall⟩ := handleInput_data whenEmpty hidle al chunk
      obtain ⟨hp, hbytes⟩ := onIngress_clean hidle chunk.1
      have hclean' : parser.error (parser.execute chunk.1 h.parser).2.2 = 0 := hclean
      rw [if_neg (by simp [hclean']), hparser.consumes _ _ hidle.error_eq hclean'] at hbytes
      rw [if_pos hbytes] at hcall
      refine ⟨_, _, hcall, ⟨hwf, htotal, ?_, ?_⟩, hp⟩
      · show parser.error (h.onIngress parser chunk.1).2.parser = 0
        rw [hp]
        exact hclean'
      · exact (onIngress_frame parser chunk.1 h).1.trans hidle.hasError_eq
  | again =>
      obtain ⟨ret, hcall⟩ := handleInput_nothing whenEmpty hidle .again (by simp)
      exact ⟨ret, h, hcall, hidle, rfl⟩
  | closed =>
      obtain ⟨ret, hcall⟩ := handleInput_nothing whenEmpty hidle .closed (by simp)
      exact ⟨ret, h, hcall, hidle, rfl⟩

/-- **An error** fails the `assert`. -/
theorem handleInput_asserts (whenEmpty : ClientHandler P → Int) (hidle : Idle parser h)
    {incoming : Incoming} (herror : parser.error (parsed parser incoming h.parser) ≠ 0) :
    handleInput parser whenEmpty incoming h = .error .assertion := by
  cases incoming with
  | data al chunk =>
      obtain ⟨buf, -, -, hcall⟩ := handleInput_data whenEmpty hidle al chunk
      obtain ⟨-, hbytes⟩ := onIngress_clean hidle chunk.1
      have hpos := List.length_pos_of_ne_nil chunk.2.1
      have herror' : parser.error (parser.execute chunk.1 h.parser).2.2 ≠ 0 := herror
      rw [if_pos herror'] at hbytes
      rw [hcall, if_neg (by omega)]
  | again => exact absurd hidle.error_eq herror
  | closed => exact absurd hidle.error_eq herror

/-! ## Runs -/

/-- As soon as the parser has reported an error the call returns -1. -/
def Reports (parser : Parser P) (e : Entry (ClientHandler P) Incoming Int) : Prop :=
  parser.error e.after.parser ≠ 0 → e.output = -1

/-- The parser, fed with what arrives, reports no error. -/
def Accepted (parser : Parser P) : P → List Incoming → Prop :=
  Admissible (parsed parser) fun p incoming => parser.error (parsed parser incoming p) = 0

theorem survives_iff_of_idle (hparser : parser.Regular) (whenEmpty : ClientHandler P → Int)
    (incomings : List Incoming) (hidle : Idle parser h) :
    AllGood (handleInput parser whenEmpty) (Reports parser) h incomings ↔
      Accepted parser h.parser incomings := by
  induction incomings generalizing h with
  | nil => exact iff_of_true ⟨[], h, rfl, by simp⟩ trivial
  | cons incoming incomings ih =>
      by_cases hclean : parser.error (parsed parser incoming h.parser) = 0
      · obtain ⟨ret, h', hcall, hidle', hp⟩ := handleInput_clean hparser whenEmpty hidle hclean
        rw [allGood_cons hcall, ih hidle', hp]
        have hreports : Reports parser ⟨h, incoming, ret, h'⟩ := fun herror =>
          absurd hidle'.error_eq herror
        exact and_congr (iff_of_true hreports hclean) Iff.rfl
      · refine iff_of_false ?_ fun hall => hclean hall.1
        rintro ⟨history, h', hrun, -⟩
        obtain ⟨ret, h₁, rest, hcall, -⟩ := run_cons_ok hrun
        rw [handleInput_asserts whenEmpty hidle hclean] at hcall
        cases hcall

end ClientHandler

/-- **A client survives** what a peer sends, in whatever chunks, exactly as long as the parser
accepts it. -/
theorem client_survives_iff {P : Type} (parser : Parser P) (hparser : parser.Regular) (self : Addr)
    (p : P) (hp : parser.error p = 0) (incomings : List Incoming) :
    (AllGood (ClientHandler.httpHandlerInput parser) (ClientHandler.Reports parser)
        (ClientHandler.new self p) incomings ↔ ClientHandler.Accepted parser p incomings) ∧
      (AllGood (ClientHandler.downloadHandlerInput parser) (ClientHandler.Reports parser)
        (ClientHandler.new self p) incomings ↔ ClientHandler.Accepted parser p incomings) :=
  ⟨ClientHandler.survives_iff_of_idle hparser _ incomings (ClientHandler.new_idle self hp),
    ClientHandler.survives_iff_of_idle hparser _ incomings (ClientHandler.new_idle self hp)⟩

/-! The first states of `http_parser` for a response: the position in `"HTTP/"`, and the error. -/

/-- `HPE_INVALID_CONSTANT` for the first byte, `HPE_STRICT` for the others. -/
def scanVersion : List Byte → Nat → Nat × Nat → Nat × Bool × (Nat × Nat)
  | [], consumed, p => (consumed, false, p)
  | b :: bytes, consumed, p =>
      if [72, 84, 84, 80, 47][p.1]? = some b then scanVersion bytes (consumed + 1) (p.1 + 1, 0)
      else (consumed, false, (p.1, if p.1 = 0 then 28 else 30))

def versionParser : Parser (Nat × Nat) where
  error p := p.2
  execute bytes p := scanVersion bytes 0 p
  pause p := (p.1, 31)

theorem scanVersion_consumes (bytes : List Byte) (consumed : Nat) (p : Nat × Nat)
    (hok : (scanVersion bytes consumed p).2.2.2 = 0) :
    (scanVersion bytes consumed p).1 = consumed + bytes.length := by
  induction bytes generalizing consumed p with
  | nil => rfl
  | cons b bytes ih =>
      rw [scanVersion] at hok ⊢
      split
      · next hb =>
          rw [if_pos hb] at hok
          rw [ih _ _ hok, List.length_cons]
          omega
      · next hb =>
          rw [if_neg hb] at hok
          split at hok <;> cases hok

theorem versionParser_regular : versionParser.Regular where
  consumes bytes p _ hok := by
    have hall := scanVersion_consumes bytes 0 p hok
    rwa [Nat.zero_add] at hall

def arrives (bytes : List Byte) (hne : bytes ≠ [] ∧ bytes.length < 2 ^ 31) : Incoming :=
  .data Allocator.succMax ⟨bytes, hne⟩

/-- `"HT"`, and then `"TP/"`. -/
theorem client_survives_version :
    versionParser.Regular ∧ versionParser.error (0, 0) = 0 ∧
      AllGood (ClientHandler.httpHandlerInput versionParser) (ClientHandler.Reports versionParser)
        (ClientHandler.new 1 (0, 0))
        [arrives [72, 84] (by decide), arrives [84, 80, 47] (by decide)] ∧
      AllGood (ClientHandler.downloadHandlerInput versionParser)
        (ClientHandler.Reports versionParser) (ClientHandler.new 1 (0, 0))
        [arrives [72, 84] (by decide), arrives [84, 80, 47] (by decide)] := by
  have haccepted : ClientHandler.Accepted versionParser (0, 0)
      [arrives [72, 84] (by decide), arrives [84, 80, 47] (by decide)] :=
    ⟨by decide, by decide, trivial⟩
  have hsurvives := client_survives_iff versionParser versionParser_regular 1 (0, 0) rfl
    [arrives [72, 84] (by decide), arrives [84, 80, 47] (by decide)]
  exact ⟨versionParser_regular, rfl, hsurvives.1.mpr haccepted, hsurvives.2.mpr haccepted⟩

/-- One byte that no response begins with. -/
theorem client_asserts_badByte :
    ClientHandler.httpHandlerInput versionParser (arrives [88] (by decide))
        (ClientHandler.new 1 (0, 0)) = .error .assertion ∧
      ClientHandler.downloadHandlerInput versionParser (arrives [88] (by decide))
        (ClientHandler.new 1 (0, 0)) = .error .assertion := by
  have hidle : ClientHandler.Idle versionParser (ClientHandler.new 1 (0, 0)) :=
    ClientHandler.new_idle 1 rfl
  exact ⟨ClientHandler.handleInput_asserts _ hidle (by decide),
    ClientHandler.handleInput_asserts _ hidle (by decide)⟩

end Unp.Http
