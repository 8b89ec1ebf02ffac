import Unp.Connection.Frames
import Unp.Connection.Output
import Unp.Sync.FileTransfer

/-!
# From the files of the client to the files of the server

    file ──handle_input──▶ package ──write, write──▶ output buffer ──handle_output──▶ socket
         ──handle_input──▶ input buffer ──decode──▶ package ──handle_deposite_file──▶ file

The whole way of a file. The thread that reads the files (`sync`), the reactor of the client, which
sends what is in the output buffer, and the server go on in any order. In particular the reactor may
come in between the two calls of `write` that make a frame, and a read of the server can end anywhere.

Protobuf is a pair of functions here, of which it is assumed that the server parses what the client
serialises (`Carries`).

`Flowing` is the invariant: the packages that are on their way are the pieces of the files between
what the server has and what has been read (`Ahead`), and the bytes on their way are their frames.
-/

namespace Unp.Sync

open Unp.Machine Unp.LinkedChain Unp.Run Unp.Reactor

/-! ## The reading thread -/

namespace SyncFileConnectionHandler

/-- `handle_input` up to the first `write` of `post_handle_input`: the package and `buffer_len`. -/
def prepare (al : Allocator Addr) (chunk : List Byte) (h : SyncFileConnectionHandler) :
    Res (Option (SyncPackage × Nat) × SyncFileConnectionHandler) :=
  if bufferHighWaterMark ≤ h.inputBuffer.totalLen then pure (none, h)
  else do
    let (ret, h) ← h.read al chunk
    if ret < 0 then pure (none, h)
    else
      let bufferLen := h.inputBuffer.totalLen
      if bufferLen = 0 then pure (none, h)
      else do
        let (data, buf) ← h.inputBuffer.pullup al (i64 bufferLen)
        let package ← match data with
          | none => .error .nullDeref
          | some data =>
              getDepositeFilePackage (h.fileName ++ [0]) h.fileLen h.bytesSent
                (subU64 (u64 (h.bytesSent + bufferLen)) 1) buf data
        pure (some (package, bufferLen), { h with inputBuffer := buf })

/-- The rest of `post_handle_input`, behind the second `write`. -/
def afterWrites (bufferLen : Nat) (bytesWritten : Int) (h : SyncFileConnectionHandler) :
    Res (Int × SyncFileConnectionHandler) :=
  if bytesWritten ≤ 0 then pure (-1, h)
  else do
    let (_, buf) ← h.inputBuffer.drain (u32 bufferLen)
    pure (0, { h with inputBuffer := buf, bytesSent := u64 (h.bytesSent + bufferLen) })

/-- The two parts are the whole. -/
theorem handleInput_eq (al : Allocator Addr) (chunk : List Byte) (bytesWritten : Int)
    (h : SyncFileConnectionHandler) :
    (h.handleInput al chunk bytesWritten).map (fun r => r.2) = (do
      let (out, h) ← h.prepare al chunk
      match out with
      | none => pure (none, h)
      | some (package, bufferLen) => do
          let (_, h) ← h.afterWrites bufferLen bytesWritten
          pure (some package, h)) := by
  unfold handleInput prepare
  split
  · rfl
  · cases hread : h.read al chunk with
    | error e => rfl
    | ok r =>
        obtain ⟨ret, h₁⟩ := r
        simp only [ok_bind]
        split
        · rfl
        · unfold postHandleInput
          dsimp only
          split
          · rfl
          · cases hpull : h₁.inputBuffer.pullup al (i64 h₁.inputBuffer.totalLen) with
            | error e => rfl
            | ok d =>
                obtain ⟨data, buf⟩ := d
                simp only [ok_bind]
                cases data with
                | none => rfl
                | some data =>
                    simp only []
                    cases hpackage : getDepositeFilePackage (h₁.fileName ++ [0]) h₁.fileLen
                        h₁.bytesSent (subU64 (u64 (h₁.bytesSent + h₁.inputBuffer.totalLen)) 1) buf
                        data with
                    | error e => rfl
                    | ok package =>
                        simp only [ok_bind, pure_eq_ok, afterWrites]
                        split
                        · rfl
                        · cases hdrain : buf.drain (u32 h₁.inputBuffer.totalLen) with
                          | error e => rfl
                          | ok b => rfl

theorem afterWrites_pos (bufferLen : Nat) {n : Int} (hn : 0 < n) (h : SyncFileConnectionHandler) :
    h.afterWrites bufferLen n = h.afterWrites bufferLen 1 := by
  rw [afterWrites, afterWrites, if_neg (Int.not_le.mpr hn), if_neg (by decide)]

end SyncFileConnectionHandler

/-! ## The system -/

inductive Command where
  | clientHello
  | serverHello
  | depositeFile
  | reportState
  deriving Repr, DecidableEq

/-- A package with its command. -/
abbrev Packet := Command × SyncPackage

/-- What the server does with the packages of one call of `handle_input`. The answer to a client's
hello is left out. -/
def dispatch : List Packet → SyncServerHandler → Res SyncServerHandler
  | [], s => .ok s
  | (command, mes) :: packets, s => do
      let s ← if command = .depositeFile then s.handleDepositeFile mes else pure s
      dispatch packets s

/-- A file whose reader is between the two calls of `write`. -/
structure Writing (F : Type) where
  which : F
  /-- Where the next read begins. -/
  offset : Nat
  handler : SyncFileConnectionHandler
  package : SyncPackage
  bufferLen : Nat

structure Pipeline (F : Type) where
  readings : F → Reading
  writing : Option (Writing F)
  connection : SockConnectionHandler
  /-- What the socket of the client has taken and that of the server has not delivered. -/
  inFlight : List Byte
  receiver : Handler Packet
  deposits : SyncServerHandler

/-- A call of one of the `write` overloads. -/
def throughWrite (write : ConnectionHandler → Res (Nat × ConnectionHandler))
    (c : SockConnectionHandler) : Res (Nat × SockConnectionHandler) := do
  let (ret, w) ← write ⟨c.outputBuffer, c.writeEnabled⟩
  pure (ret, { c with outputBuffer := w.outputBuffer, writeEnabled := w.writeEnabled })

namespace Pipeline

inductive Input (F : Type) where
  /-- The reading thread reads a file and writes the length of the package. -/
  | prepare (al : Allocator Addr) (which : F) (size : Nat)
  /-- It writes the package. -/
  | finish (al : Allocator Addr)
  /-- The reactor of the client calls `handle_output`. -/
  | output (al : Allocator Addr) (socket : Socket)
  /-- The server reads up to `n` bytes. -/
  | receive (al : Allocator Addr) (n : Nat)

section Code
variable {F : Type} [DecidableEq F] (file : F → File) (serialize : SyncPackage → Payload)
  (parse : List Byte → Option Packet)

def new (self : F → Addr) (handle : Epoll.Handle) (out input : Addr) (path : List (List Byte)) :
    Pipeline F where
  readings f := .start (self f) (file f)
  writing := none
  connection := ⟨handle, .empty out, true, false, []⟩
  inFlight := []
  receiver := .new input
  deposits := .new path

/-- The reading thread does one thing after the other; the reactor calls `handle_output` as long as it
has the interest in `WRITE` events. -/
def step (input : Input F) (s : Pipeline F) : Res (Unit × Pipeline F) :=
  match input with
  | .prepare al which size =>
      match s.writing with
      | some _ => pure ((), s)
      | none => do
          let reading := s.readings which
          let piece := nextPiece (file which) reading.offset size
          let offset := reading.offset + piece.length
          let (out, handler) ← reading.handler.prepare al piece
          match out with
          | none =>
              pure ((), { s with readings := Function.update s.readings which ⟨offset, handler⟩ })
          | some (package, bufferLen) => do
              let (_, connection) ← throughWrite
                (fun c => c.writeT al (leBytes sizeofLen (serialize package).1.length) false)
                s.connection
              pure ((), { s with
                connection, writing := some ⟨which, offset, handler, package, bufferLen⟩ })
  | .finish al =>
      match s.writing with
      | none => pure ((), s)
      | some w => do
          let payload := (serialize w.package).1
          let (ret, connection) ← throughWrite
            (fun c => c.write al (some payload) payload.length true) s.connection
          let (_, handler) ← w.handler.afterWrites w.bufferLen (i32 ((sizeofLen + ret : Nat) : Int))
          pure ((), { s with
            connection, writing := none
            readings := Function.update s.readings w.which ⟨w.offset, handler⟩ })
  | .output al socket =>
      if s.connection.writeEnabled then do
        let (_, connection, log) ← s.connection.handleOutput al socket s.connection.handle
        pure ((), { s with connection, inFlight := s.inFlight ++ accepted log })
      else pure ((), s)
  | .receive al n =>
      if h : s.inFlight.take n ≠ [] ∧ (s.inFlight.take n).length < 2 ^ 31 then do
        let fuel := s.receiver.inputBuffer.totalLen + (s.inFlight.take n).length + 3
        let ((_, packets), receiver) ←
          serverHandleInput parse fuel (al, ⟨s.inFlight.take n, h⟩) s.receiver
        let deposits ← dispatch packets s.deposits
        pure ((), { s with receiver, deposits, inFlight := s.inFlight.drop n })
      else pure ((), s)

/-- A package finds the output buffer below the mark. -/
def Below (s : Pipeline F) : Input F → Prop
  | .finish _ => s.writing.isSome → s.connection.outputBuffer.totalLen < bufferHighWaterMark
  | _ => True

instance (s : Pipeline F) : (input : Input F) → Decidable (Below s input)
  | .finish _ => inferInstanceAs (Decidable (_ → _))
  | .prepare _ _ _ | .output _ _ | .receive _ _ => inferInstanceAs (Decidable True)

end Code

end Pipeline

/-! ## The two calls of `write` -/

section Writes
variable {c : SockConnectionHandler}

/-- The length is appended, and the interest in `WRITE` events stays as it is. -/
theorem throughWrite_length (al : Allocator Addr) (payload : Payload)
    (hwf : c.outputBuffer.WellFormed) (htotal : c.outputBuffer.totalLen + sizeofLen < 2 ^ 64) :
    ∃ buf, throughWrite (fun w => w.writeT al (leBytes sizeofLen payload.1.length) false) c =
        .ok (sizeofLen, { c with outputBuffer := buf }) ∧
      Buffer.Appended c.outputBuffer buf (leBytes sizeofLen payload.1.length) := by
  have hlen := length_leBytes sizeofLen payload.1.length
  have hne : leBytes sizeofLen payload.1.length ≠ [] := by
    intro hnil
    rw [hnil] at hlen
    cases hlen
  obtain ⟨buf, happend, hspec⟩ := Buffer.appendT_spec al hwf hne (by rw [hlen]; decide)
    (by rwa [hlen])
  refine ⟨buf, ?_, hspec⟩
  simp only [throughWrite, ConnectionHandler.writeT, happend, ok_bind, pure_eq_ok,
    Bool.false_eq_true, false_and, if_false, hlen]

/-- The package is appended, and from now on the reactor calls `handle_output`. -/
theorem throughWrite_payload (al : Allocator Addr) {payload : List Byte}
    (hwf : c.outputBuffer.WellFormed) (hpayload : payload ≠ []) (hlen : payload.length < 2 ^ 31)
    (hmark : c.outputBuffer.totalLen < bufferHighWaterMark) :
    ∃ buf, throughWrite (fun w => w.write al (some payload) payload.length true) c =
        .ok (payload.length, { c with outputBuffer := buf, writeEnabled := true }) ∧
      Buffer.Appended c.outputBuffer buf payload := by
  have hbound : bufferHighWaterMark < 2 ^ 32 := Nat.mod_lt _ (by decide)
  obtain ⟨buf, happend, hspec⟩ := Buffer.appendData_spec al hwf hpayload (by omega) (by omega)
  have hargs : ¬ (some payload = none ∨ payload.length = 0) := by simp [hpayload]
  have hret : ConnectionHandler.toU32 (payload.length : Int) = payload.length := by
    unfold ConnectionHandler.toU32
    omega
  refine ⟨buf, ?_, hspec⟩
  simp only [throughWrite, ConnectionHandler.write, if_neg hargs, if_neg (Nat.not_le.mpr hmark),
    happend, ok_bind, pure_eq_ok, hret]
  cases hw : c.writeEnabled <;> simp [ConnectionHandler.enableWriting]

end Writes

/-- A reset connection is not read from any more. -/
theorem readEnabled_reset (c : SockConnectionHandler) :
    c.disableReading.disableWriting.readEnabled = false := by
  have hread : c.disableReading.readEnabled = false := by
    unfold SockConnectionHandler.disableReading
    split
    · assumption
    · rfl
  rw [SockConnectionHandler.disableWriting]
  split <;> exact hread

/-- What `handle_output` does to the connection, as far as the bytes and the interest go: as long as
the connection is not reset, the interest stays while there is something to send. -/
theorem handleOutput_sends (al : Allocator Addr) (socket : Socket) (c : SockConnectionHandler)
    (hwf : c.outputBuffer.WellFormed) :
    ∃ ret c' log, c.handleOutput al socket c.handle = .ok (ret, c', log) ∧
      c'.outputBuffer.WellFormed ∧
      accepted log ++ c'.outputBuffer.content = c.outputBuffer.content ∧
      (c'.readEnabled = true → c'.outputBuffer.content ≠ [] →
        c.readEnabled = true ∧ c'.writeEnabled = c.writeEnabled) := by
  rw [SockConnectionHandler.handleOutput]
  by_cases hempty : c.outputBuffer.totalLen = 0
  · rw [if_pos hempty]
    exact ⟨0, c, [], rfl, hwf, rfl, fun hread _ => ⟨hread, rfl⟩⟩
  · rw [if_neg hempty]
    split
    · exact ⟨-1, c, [], rfl, hwf, rfl, fun hread _ => ⟨hread, rfl⟩⟩
    · have hne : c.outputBuffer.content ≠ [] :=
        fun h => hempty ((SockConnectionHandler.totalLen_eq_zero hwf).mpr h)
      obtain ⟨returned, c', log, hloop, -, -, -, hsent⟩ :=
        SockConnectionHandler.outputLoop_sent al socket 3 hwf hne []
      rw [List.nil_append] at hloop
      rw [hloop, ok_bind]
      rcases hsent.interest with ⟨rfl, -, heq⟩ | ⟨rfl, -, heq⟩
      · by_cases hdone : c'.outputBuffer.totalLen = 0
        · have hcontent := (SockConnectionHandler.totalLen_eq_zero hsent.wellFormed).mp hdone
          refine ⟨0, c'.disableWriting, log, by simp only [if_pos hdone]; rfl, ?_, ?_, ?_⟩
          · rw [SockConnectionHandler.disableWriting_outputBuffer]
            exact hsent.wellFormed
          · rw [SockConnectionHandler.disableWriting_outputBuffer]
            exact hsent.conserved
          · rw [SockConnectionHandler.disableWriting_outputBuffer]
            exact fun _ h => absurd hcontent h
        · refine ⟨0, c', log, by simp only [if_neg hdone]; rfl, hsent.wellFormed, hsent.conserved, ?_⟩
          rw [heq]
          exact fun hread _ => ⟨hread, rfl⟩
      · refine ⟨-1, c', log, rfl, hsent.wellFormed, hsent.conserved, ?_⟩
        rw [heq]
        intro hread
        rw [readEnabled_reset] at hread
        cases hread

/-! ## The pieces on their way -/

section Pieces
variable {F : Type} [DecidableEq F] (file : F → File)

/-- The package for what the next read of a file delivers. -/
def nextPackage (f : F) (offset size : Nat) : SyncPackage :=
  pieceAt (file f).name (file f).contents.length offset (nextPiece (file f) offset size)

/-- How far a file has been read when a piece has been read. -/
def advance (reached : F → Nat) (f : F) (size : Nat) : F → Nat :=
  Function.update reached f (reached f + (nextPiece (file f) (reached f) size).length)

/-- The packages lead from what the server has got to what has been read. -/
inductive Ahead : (F → Nat) → List SyncPackage → (F → Nat) → Prop
  | nil {reached : F → Nat} : Ahead reached [] reached
  | cons {got reached : F → Nat} {packages : List SyncPackage} (f : F) (size : Nat)
      (hpiece : nextPiece (file f) (got f) size ≠ [])
      (hrest : Ahead (advance file got f size) packages reached) :
      Ahead got (nextPackage file f (got f) size :: packages) reached

variable {file} {got reached : F → Nat} {packages : List SyncPackage}

theorem Ahead.snoc (h : Ahead file got packages reached) (f : F) (size : Nat)
    (hpiece : nextPiece (file f) (reached f) size ≠ []) :
    Ahead file got (packages ++ [nextPackage file f (reached f) size])
      (advance file reached f size) := by
  induction h with
  | nil => exact .cons f size hpiece .nil
  | cons g size' hpiece' _ ih => exact .cons g size' hpiece' (ih hpiece)

theorem Ahead.le (h : Ahead file got packages reached) (f : F) : got f ≤ reached f := by
  induction h with
  | nil => exact Nat.le_refl _
  | @cons got reached packages g size _ _ ih =>
      refine Nat.le_trans ?_ ih
      rw [advance, Function.update_apply]
      split
      · next heq =>
          rw [heq]
          exact Nat.le_add_right _ _
      · exact Nat.le_refl _

/-- What is on its way are pieces of the files. -/
theorem Ahead.mem (h : Ahead file got packages reached) {p : SyncPackage} (hp : p ∈ packages) :
    ∃ f offset size, nextPiece (file f) offset size ≠ [] ∧ p = nextPackage file f offset size := by
  induction h with
  | nil => cases hp
  | @cons got reached packages g size hpiece _ ih =>
      rcases List.mem_cons.mp hp with rfl | hp
      · exact ⟨g, got g, size, hpiece, rfl⟩
      · exact ih hp

/-- **Packages arrive**: the first ones bring the server forward, and the others lead on from there. -/
theorem Ahead.deliver (hnames : Function.Injective fun f => (file f).name)
    {done rest : List SyncPackage}
    (h : Ahead file got (done ++ rest) reached) {s : SyncServerHandler}
    (hs : ∀ f, Delivered (file f) (got f) s) :
    ∃ s' got', dispatch (done.map fun p => (.depositeFile, p)) s = .ok s' ∧
      (∀ f, Delivered (file f) (got' f) s') ∧ Ahead file got' rest reached := by
  induction done generalizing got s with
  | nil => exact ⟨s, got, rfl, hs, h⟩
  | cons p done ih =>
      rw [List.cons_append] at h
      cases h with
      | cons f size hpiece hrest =>
          obtain ⟨s₁, hone, hapart, hnext⟩ := (hs f).next size hpiece
          have hs₁ : ∀ g, Delivered (file g) (advance file got f size g) s₁ := by
            intro g
            by_cases heq : g = f
            · subst heq
              rw [advance, Function.update_self]
              exact hnext
            · rw [advance, Function.update_of_ne heq]
              exact (hs g).apart hapart fun hname => heq (hnames hname)
          obtain ⟨s', got', hlater, hs', hahead⟩ := ih hrest hs₁
          refine ⟨s', got', ?_, hs', hahead⟩
          rw [List.map_cons, dispatch, if_pos rfl]
          show (s.handleDepositeFile (pieceAt _ _ _ _) >>= _) = _
          rw [hone, ok_bind]
          exact hlater

end Pieces

/-- More messages behind those that a settled handler waits for. -/
theorem Settled.extend {M : Type} {h : Handler M} {fut : List Byte} {msgs : List (Message M)}
    (hset : Settled h fut msgs) (msg : Message M) :
    Settled h (fut ++ frame msg.1) (msgs ++ [msg]) := by
  have hwire : wire (msgs ++ [msg]) = wire msgs ++ frame msg.1 := by simp [wire, encode]
  cases hset with
  | between hawait hstream hfew =>
      exact .between hawait (by rw [← List.append_assoc, hstream, hwire]) hfew
  | @inside first msgs hexp hstream hshort =>
      refine .inside hexp ?_ hshort
      rw [← List.append_assoc, hstream, List.append_assoc]
      simp [wire, encode]

/-! ## The invariant -/

namespace Pipeline

section Flow
variable {F : Type} [DecidableEq F] {file : F → File} {serialize : SyncPackage → Payload}
  {parse : List Byte → Option Packet} {s : Pipeline F}

/-- A package as it goes over the connection. -/
def message (serialize : SyncPackage → Payload) (p : SyncPackage) : Message Packet :=
  ((serialize p).1, (.depositeFile, p))

variable (file serialize parse) in
/-- The server parses what the client serialises, for the packages of these files; and they are of a
sensible length. -/
structure Carries : Prop where
  valid : ∀ f offset size, nextPiece (file f) offset size ≠ [] →
    Valid parse (message serialize (nextPackage file f offset size))
  short : ∀ f offset size, nextPiece (file f) offset size ≠ [] →
    (serialize (nextPackage file f offset size)).1.length + sizeofLen < 2 ^ 31

/-- How far the files have been read. -/
def reached (s : Pipeline F) : F → Nat :=
  match s.writing with
  | none => fun f => (s.readings f).offset
  | some w => Function.update (fun f => (s.readings f).offset) w.which w.offset

/-- The second part of a frame whose length has been written. -/
def unsent (serialize : SyncPackage → Payload) (s : Pipeline F) : List Byte :=
  match s.writing with
  | none => []
  | some w => (serialize w.package).1

/-- Everything between the client's `write` and the server's decoder. -/
def underWay (serialize : SyncPackage → Payload) (s : Pipeline F) : List Byte :=
  s.inFlight ++ s.connection.outputBuffer.content ++ s.unsent serialize

variable (file) in
/-- The reader of a file whose package is being written. When the package is written, it goes on behind
the piece. -/
structure Writing.Ok (w : Writing F) : Prop where
  package : ∃ offset size, nextPiece (file w.which) offset size ≠ [] ∧
    w.package = nextPackage file w.which offset size
  finishes : ∀ n : Int, 0 < n → ∃ handler, w.handler.afterWrites w.bufferLen n = .ok (0, handler) ∧
    Reading.Ok (file w.which) ⟨w.offset, handler⟩

variable (file serialize) in
structure Flowing (s : Pipeline F) : Prop where
  readings : ∀ f, (s.readings f).Ok (file f)
  writing : ∀ w ∈ s.writing, Writing.Ok file w
  output : s.connection.outputBuffer.WellFormed
  receiver : s.receiver.inputBuffer.WellFormed
  /-- A buffer below the mark takes a package, and any buffer a length. -/
  bound : s.connection.outputBuffer.totalLen + (if s.writing = none then sizeofLen else 0) ≤
    bufferHighWaterMark + 2 ^ 31
  /-- What is to be sent is sent, unless the connection is reset. -/
  interest : s.connection.readEnabled = true → s.writing = none →
    s.connection.outputBuffer.content ≠ [] → s.connection.writeEnabled = true
  stream : ∃ got packages, (∀ f, Delivered (file f) (got f) s.deposits) ∧
    Ahead file got packages s.reached ∧
    Settled s.receiver (s.underWay serialize) (packages.map (message serialize))

theorem valid_of_ahead {got reached : F → Nat} {packages : List SyncPackage}
    (hcarries : Carries file serialize parse) (h : Ahead file got packages reached) :
    ∀ msg ∈ packages.map (message serialize), Valid parse msg := by
  intro msg hmsg
  obtain ⟨p, hp, rfl⟩ := List.mem_map.mp hmsg
  obtain ⟨f, offset, size, hpiece, rfl⟩ := h.mem hp
  exact hcarries.valid f offset size hpiece

omit [DecidableEq F] in
/-- **The reading thread reads a file**: at the end of the file there is nothing to do, else it has a
package and will go on behind the piece. -/
theorem prepare_spec {f : F} {r : Reading} (hr : r.Ok (file f)) (al : Allocator Addr) (size : Nat) :
    (nextPiece (file f) r.offset size = [] ∧
      r.handler.prepare al (nextPiece (file f) r.offset size) = .ok (none, r.handler)) ∨
    ∃ bufferLen handler, nextPiece (file f) r.offset size ≠ [] ∧
      r.handler.prepare al (nextPiece (file f) r.offset size) =
        .ok (some (nextPackage file f r.offset size, bufferLen), handler) ∧
      Writing.Ok file ⟨f, r.offset + (nextPiece (file f) r.offset size).length, handler,
        nextPackage file f r.offset size, bufferLen⟩ := by
  obtain ⟨ret, package, handler, hret, hok, hpackage⟩ := hr.handleInput al size (by decide : (0 : Int) < 1)
  have hsplit := SyncFileConnectionHandler.handleInput_eq al (nextPiece (file f) r.offset size) 1 r.handler
  rw [hret] at hsplit
  obtain ⟨⟨out, handler₁⟩, hprepare, hrest⟩ := bind_eq_ok hsplit.symm
  rcases hpackage with ⟨hpiece, rfl⟩ | ⟨hpiece, rfl⟩
  · refine Or.inl ⟨hpiece, ?_⟩
    have hsame : handler = r.handler := by
      rw [hpiece, SyncFileConnectionHandler.handleInput_eof al 1
        (by rw [hr.wellFormed.total_eq, hr.empty]; rfl)] at hret
      cases hret
      rfl
    cases out with
    | none =>
        cases hrest
        rw [hprepare, hsame]
    | some out =>
        obtain ⟨⟨ret', handler'⟩, -, hend⟩ := bind_eq_ok hrest
        cases hend
  · refine Or.inr ?_
    cases out with
    | none => cases hrest
    | some out =>
        obtain ⟨package, bufferLen⟩ := out
        obtain ⟨⟨ret', handler'⟩, hafter, hend⟩ := bind_eq_ok hrest
        cases hend
        have hzero : ret' = 0 := by
          rw [SyncFileConnectionHandler.afterWrites, if_neg (by decide)] at hafter
          obtain ⟨b, -, hafter⟩ := bind_eq_ok hafter
          cases hafter
          rfl
        refine ⟨bufferLen, handler₁, hpiece, hprepare, ⟨r.offset, size, hpiece, rfl⟩, ?_⟩
        intro n hn
        refine ⟨handler, ?_, hok⟩
        rw [SyncFileConnectionHandler.afterWrites_pos _ hn, hafter, hzero]

theorem Flowing.prepare (hs : Flowing file serialize s) (al : Allocator Addr) (f : F) (size : Nat) :
    ∃ s', step file serialize parse (.prepare al f size) s = .ok ((), s') ∧
      Flowing file serialize s' := by
  obtain ⟨hreadings, hwriting, houtput, hreceiver, hbound, hinterest, hstream⟩ := hs
  cases hw : s.writing with
  | some w =>
      refine ⟨s, ?_, hreadings, hwriting, houtput, hreceiver, hbound, hinterest, hstream⟩
      simp only [step, hw, pure_eq_ok]
  | none =>
      rw [if_pos hw] at hbound
      obtain ⟨got, packages, hdelivered, hahead, hsettled⟩ := hstream
      rw [underWay, unsent, hw, List.append_nil] at hsettled
      rw [reached, hw] at hahead
      rcases prepare_spec (hreadings f) al size with
        ⟨hpiece, hprepare⟩ | ⟨bufferLen, handler, hpiece, hprepare, hok⟩
      · -- the end of the file
        have hsame : Function.update s.readings f
            ⟨(s.readings f).offset + (nextPiece (file f) (s.readings f).offset size).length,
              (s.readings f).handler⟩ = s.readings := by
          rw [hpiece, List.length_nil, Nat.add_zero]
          exact Function.update_eq_self f s.readings
        refine ⟨s, ?_, hreadings, hwriting, houtput, hreceiver, by rwa [if_pos hw], hinterest, got,
          packages, hdelivered, by rwa [reached, hw], by rwa [underWay, unsent, hw, List.append_nil]⟩
        simp only [step, hw, hprepare, ok_bind, pure_eq_ok, hsame]
        rw [← hw]
      · have hlt : bufferHighWaterMark < 2 ^ 32 := Nat.mod_lt _ (by decide)
        obtain ⟨buf, hwrite, hspec⟩ := throughWrite_length al
          (serialize (nextPackage file f (s.readings f).offset size)) houtput (by omega)
        have htotal : buf.totalLen = s.connection.outputBuffer.totalLen + sizeofLen := by
          rw [hspec.wellFormed.total_eq, hspec.content_eq, List.length_append, houtput.total_eq,
            length_leBytes]
        refine ⟨{ s with
            connection := { s.connection with outputBuffer := buf }
            writing := some ⟨f, (s.readings f).offset +
              (nextPiece (file f) (s.readings f).offset size).length, handler,
              nextPackage file f (s.readings f).offset size, bufferLen⟩ },
          ?_, hreadings, ?_, hspec.wellFormed, hreceiver, ?_, nofun, got, _, hdelivered,
          hahead.snoc f size hpiece, ?_⟩
        · simp only [step, hw, hprepare, ok_bind, hwrite, pure_eq_ok]
        · intro w hmem
          cases hmem
          exact hok
        · show buf.totalLen + 0 ≤ _
          omega
        · -- the length is there, and the package belongs to it
          rw [List.map_append]
          have hmore := hsettled.extend (message serialize
            (nextPackage file f (s.readings f).offset size))
          rw [frame] at hmore
          simp only [underWay, unsent, hspec.content_eq, message, List.append_assoc] at hmore ⊢
          exact hmore

theorem Flowing.finish (hcarries : Carries file serialize parse) (hs : Flowing file serialize s)
    (al : Allocator Addr) (hbelow : Below s (.finish al)) :
    ∃ s', step file serialize parse (.finish al) s = .ok ((), s') ∧ Flowing file serialize s' := by
  obtain ⟨hreadings, hwriting, houtput, hreceiver, hbound, hinterest, hstream⟩ := hs
  cases hw : s.writing with
  | none =>
      refine ⟨s, ?_, hreadings, hwriting, houtput, hreceiver, hbound, hinterest, hstream⟩
      simp only [step, hw, pure_eq_ok]
  | some w =>
      obtain ⟨⟨offset, size, hpiece, hpackage⟩, hfinishes⟩ := hwriting w hw
      have hmark : s.connection.outputBuffer.totalLen < bufferHighWaterMark :=
        hbelow (by rw [hw]; rfl)
      have hshort := hcarries.short w.which offset size hpiece
      have hlong := (hcarries.valid w.which offset size hpiece).parses.pos
      rw [← hpackage] at hshort
      rw [message, ← hpackage] at hlong
      obtain ⟨buf, hwrite, hspec⟩ := throughWrite_payload al houtput (List.ne_nil_of_length_pos hlong)
        (serialize w.package).2 hmark
      have hpos : 0 < i32 ((sizeofLen + (serialize w.package).1.length : Nat) : Int) := by
        unfold i32 sizeofLen at *
        omega
      obtain ⟨handler, hafter, hok⟩ := hfinishes _ hpos
      have htotal : buf.totalLen =
          s.connection.outputBuffer.totalLen + (serialize w.package).1.length := by
        rw [hspec.wellFormed.total_eq, hspec.content_eq, List.length_append, houtput.total_eq]
      obtain ⟨got, packages, hdelivered, hahead, hsettled⟩ := hstream
      refine ⟨{ s with
          connection := { s.connection with outputBuffer := buf, writeEnabled := true }
          writing := none
          readings := Function.update s.readings w.which ⟨w.offset, handler⟩ },
        ?_, update_ok hreadings hok, nofun, hspec.wellFormed, hreceiver, ?_, fun _ _ _ => rfl, got,
        packages, hdelivered, ?_, ?_⟩
      · simp only [step, hw, hwrite, hafter, ok_bind, pure_eq_ok]
      · show buf.totalLen + sizeofLen ≤ _
        omega
      · rw [reached, hw] at hahead
        have hsame : (fun f => (Function.update s.readings w.which ⟨w.offset, handler⟩ f).offset) =
            Function.update (fun f => (s.readings f).offset) w.which w.offset := by
          funext f
          rw [Function.update_apply, Function.update_apply]
          split <;> rfl
        show Ahead file got packages fun f =>
          (Function.update s.readings w.which ⟨w.offset, handler⟩ f).offset
        rwa [hsame]
      · rw [underWay, unsent, hw] at hsettled
        simpa only [underWay, unsent, hspec.content_eq, List.append_assoc, List.append_nil] using hsettled

theorem Flowing.sends (hs : Flowing file serialize s) (al : Allocator Addr) (socket : Socket) :
    ∃ s', step file serialize parse (.output al socket) s = .ok ((), s') ∧
      Flowing file serialize s' := by
  obtain ⟨hreadings, hwriting, houtput, hreceiver, hbound, hinterest, hstream⟩ := hs
  by_cases hw : s.connection.writeEnabled = true
  · obtain ⟨ret, c', log, hret, hwf, hconserved, hkeeps⟩ :=
      handleOutput_sends al socket s.connection houtput
    refine ⟨{ s with connection := c', inFlight := s.inFlight ++ accepted log }, ?_, hreadings,
      hwriting, hwf, hreceiver, ?_, ?_, ?_⟩
    · simp only [step, if_pos hw, hret, ok_bind, pure_eq_ok]
    · have hlen := congrArg List.length hconserved
      rw [List.length_append, ← hwf.total_eq, ← houtput.total_eq] at hlen
      exact Nat.le_trans (Nat.add_le_add_right (by show c'.outputBuffer.totalLen ≤ _; omega) _) hbound
    · intro hread _ hne
      rw [(hkeeps hread hne).2]
      exact hw
    · obtain ⟨got, packages, hdelivered, hahead, hsettled⟩ := hstream
      refine ⟨got, packages, hdelivered, hahead, ?_⟩
      rw [underWay, ← hconserved, ← List.append_assoc] at hsettled
      exact hsettled
  · refine ⟨s, ?_, hreadings, hwriting, houtput, hreceiver, hbound, hinterest, hstream⟩
    simp only [step, if_neg hw, pure_eq_ok]

theorem Flowing.receive (hnames : Function.Injective fun f => (file f).name)
    (hcarries : Carries file serialize parse) (hs : Flowing file serialize s) (al : Allocator Addr)
    (n : Nat) :
    ∃ s', step file serialize parse (.receive al n) s = .ok ((), s') ∧ Flowing file serialize s' := by
  obtain ⟨hreadings, hwriting, houtput, hreceiver, hbound, hinterest, hstream⟩ := hs
  by_cases hchunk : s.inFlight.take n ≠ [] ∧ (s.inFlight.take n).length < 2 ^ 31
  · obtain ⟨got, packages, hdelivered, hahead, hsettled⟩ := hstream
    have hcut : s.underWay serialize = s.inFlight.take n ++
        (s.inFlight.drop n ++ s.connection.outputBuffer.content ++ s.unsent serialize) := by
      rw [underWay, ← List.append_assoc, ← List.append_assoc, List.take_append_drop]
    rw [hcut] at hsettled
    obtain ⟨done, rest, receiver, hinput, hparts, hwf, hsettled'⟩ :=
      serverHandleInput_spec (s.receiver.inputBuffer.totalLen + (s.inFlight.take n).length + 3)
        (al, ⟨s.inFlight.take n, hchunk⟩) hreceiver (valid_of_ahead hcarries hahead)
        hsettled (Nat.lt_add_of_pos_right (by decide)) (Nat.le_add_left 3 _)
    obtain ⟨done', rest', rfl, rfl, rfl⟩ := List.map_eq_append_iff.mp hparts
    obtain ⟨deposits, got', hdispatch, hdelivered', hahead'⟩ := hahead.deliver hnames hdelivered
    have hpackets : (done'.map (message serialize)).map Prod.snd =
        done'.map fun p => (Command.depositeFile, p) := by
      rw [List.map_map]
      rfl
    rw [hpackets] at hinput
    refine ⟨{ s with receiver, deposits, inFlight := s.inFlight.drop n }, ?_, hreadings, hwriting,
      houtput, hwf, hbound, hinterest, got', rest', hdelivered', hahead', hsettled'⟩
    simp only [step, dif_pos hchunk, hinput, ok_bind, hdispatch, pure_eq_ok]
  · refine ⟨s, ?_, hreadings, hwriting, houtput, hreceiver, hbound, hinterest, hstream⟩
    simp only [step, dif_neg hchunk, pure_eq_ok]

theorem Flowing.step (hnames : Function.Injective fun f => (file f).name)
    (hcarries : Carries file serialize parse) (hs : Flowing file serialize s) (input : Input F)
    (hbelow : Below s input) :
    ∃ s', Pipeline.step file serialize parse input s = .ok ((), s') ∧ Flowing file serialize s' := by
  cases input with
  | prepare al f size => exact hs.prepare al f size
  | finish al => exact hs.finish hcarries al hbelow
  | output al socket => exact hs.sends al socket
  | receive al n => exact hs.receive hnames hcarries al n

theorem flowing_new (self : F → Addr) (handle : Epoll.Handle) (out input : Addr)
    (path : List (List Byte)) : Flowing file serialize (.new file self handle out input path) where
  readings f := Reading.start_ok (self f) (file f)
  writing := nofun
  output := Buffer.empty_wellFormed out
  receiver := Buffer.empty_wellFormed input
  bound := by
    show 0 + sizeofLen ≤ bufferHighWaterMark + 2 ^ 31
    unfold sizeofLen
    omega
  interest _ _ h := absurd rfl h
  stream := ⟨fun _ => 0, [], fun f => delivered_new (file f) path, .nil,
    .between (Or.inl rfl) rfl (Nat.zero_le _)⟩

/-- **The files arrive.** Whatever the files are, in whatever order the threads of the client and the
server go on, however the socket takes the bytes and wherever the reads of the server end: as long as no
package finds the output buffer full, nothing goes wrong. The server has of each file exactly the first
`k` bytes, and the whole file in one closed writer when it has all of them; when nothing is under way, it
has what the client has read. And what stands in the output buffer will be asked for by the reactor,
unless the connection has been reset. -/
theorem files_arrive (hnames : Function.Injective fun f => (file f).name)
    (hcarries : Carries file serialize parse) (self : F → Addr) (handle : Epoll.Handle)
    (out input : Addr) (path : List (List Byte)) (inputs : List (Input F))
    (hbelow : Along (Pipeline.step file serialize parse) Below (.new file self handle out input path)
      inputs) :
    ∃ history s, run (Pipeline.step file serialize parse) inputs
        (.new file self handle out input path) = .ok (history, s) ∧
      (∀ f, ∃ k ≤ s.reached f, Delivered (file f) k s.deposits ∧
        (s.underWay serialize = [] → k = s.reached f)) ∧
      (s.connection.readEnabled = true → s.writing = none →
        s.connection.outputBuffer.content ≠ [] → s.connection.writeEnabled = true) := by
  obtain ⟨history, s, hrun, hs⟩ := run_invariant_of_along
    (fun s input hs hc => ⟨(), Flowing.step hnames hcarries hs input hc⟩)
    (flowing_new self handle out input path) hbelow
  refine ⟨history, s, hrun, ?_, hs.interest⟩
  obtain ⟨got, packages, hdelivered, hahead, hsettled⟩ := hs.stream
  intro f
  refine ⟨got f, hahead.le f, hdelivered f, ?_⟩
  intro hnothing
  rw [hnothing] at hsettled
  obtain ⟨hnone, -⟩ := hsettled.done hs.receiver (valid_of_ahead hcarries hahead)
  rw [List.map_eq_nil_iff.mp hnone] at hahead
  cases hahead
  rfl

end Flow

/-! ## Two small files -/

def smallName (f : Bool) : List Byte := if f then [98] else [97]

def smallContents (f : Bool) : List Byte := if f then [4] else [1]

theorem smallName_cString (f : Bool) : 0 ∉ smallName f := by
  cases f <;> decide

theorem smallContents_ne_nil (f : Bool) : smallContents f ≠ [] := by
  cases f <;> decide

theorem length_smallContents_lt (f : Bool) : (smallContents f).length < 2 ^ 63 := by
  cases f <;> decide

def smallFiles (f : Bool) : File :=
  ⟨smallName f, smallContents f, smallName_cString f, smallContents_ne_nil f,
    length_smallContents_lt f⟩

/-- A field with a length in front, for less than 128 bytes. -/
def lengthDelimited (tag : Byte) (bytes : List Byte) : List Byte :=
  tag :: UInt8.ofNat bytes.length :: bytes

/-- The wire format of a package whose numbers are less than 128. `len` does not count itself. -/
def smallWire (p : SyncPackage) : List Byte :=
  let number (n : Int) : Byte := UInt8.ofNat n.toNat
  let h := p.depositeFileHeader
  let fields := lengthDelimited 0x12 ([0x08, 0, 0x10, 2, 0x18, 0, 0x20, 1] ++
      lengthDelimited 0x2a (lengthDelimited 0x0a h.fileName ++ [0x10, number h.fileLen] ++
        [0x18, number h.curSeqStart] ++ [0x20, number h.curSeqEnd])) ++
    [0x18, number p.contentLen] ++ lengthDelimited 0x22 p.content
  [0x08, UInt8.ofNat fields.length] ++ fields

/-- Protobuf, as far as the packages of the two files are concerned. -/
def smallSerialize (p : SyncPackage) : Payload :=
  if h : (smallWire p).length < 2 ^ 31 then ⟨smallWire p, h⟩ else ⟨[], by decide⟩

def smallParse (bytes : List Byte) : Option Packet :=
  if bytes = smallWire (nextPackage smallFiles false 0 1) then
    some (.depositeFile, nextPackage smallFiles false 0 1)
  else if bytes = smallWire (nextPackage smallFiles true 0 1) then
    some (.depositeFile, nextPackage smallFiles true 0 1)
  else none

/-- There is one piece of each file. -/
theorem smallFiles_piece (f : Bool) {offset size : Nat}
    (h : nextPiece (smallFiles f) offset size ≠ []) :
    nextPackage smallFiles f offset size = nextPackage smallFiles f 0 1 := by
  have hone : (smallFiles f).contents.length = 1 := by cases f <;> rfl
  have hlen := List.length_pos_of_ne_nil h
  rw [nextPiece, List.length_take, List.length_drop, hone] at hlen
  obtain rfl : offset = 0 := by omega
  have hpiece : nextPiece (smallFiles f) 0 size = nextPiece (smallFiles f) 0 1 := by
    rw [nextPiece, nextPiece, List.drop_zero, List.take_of_length_le (by omega),
      List.take_of_length_le (by rw [hone]; decide)]
  rw [nextPackage, nextPackage, hpiece]

theorem smallFiles_carried : Carries smallFiles smallSerialize smallParse where
  valid f offset size h := by
    rw [smallFiles_piece f h]
    cases f
    · exact ⟨⟨by decide, by decide, by decide⟩, by decide⟩
    · exact ⟨⟨by decide, by decide, by decide⟩, by decide⟩
  short f offset size h := by
    rw [smallFiles_piece f h]
    cases f <;> decide

/-- The length of the first frame is sent before its package is written. -/
def smallInputs : List (Input Bool) :=
  [.prepare .succMax false 1, .finish .succMax, .prepare .succMax true 4096,
    .output .succMax fun _ offered => ⟨min 9 offered.length, .other, by omega⟩,
    .finish .succMax, .receive .succMax 20,
    .output .succMax fun _ offered => ⟨offered.length, .other, by omega⟩, .receive .succMax 4096]

theorem files_arrive_small :
    Along (Pipeline.step smallFiles smallSerialize smallParse) Below
        (.new smallFiles (fun _ => 0) 5 0 0 []) smallInputs ∧
      ∃ history s, run (Pipeline.step smallFiles smallSerialize smallParse) smallInputs
          (.new smallFiles (fun _ => 0) 5 0 0 []) = .ok (history, s) ∧
        ∀ f, ∃ k ≤ s.reached f, Delivered (smallFiles f) k s.deposits ∧
          (s.underWay smallSerialize = [] → k = s.reached f) := by
  have hnames : Function.Injective fun f => (smallFiles f).name := by
    intro f g hname
    cases f <;> cases g <;> simp [smallFiles, smallName] at hname ⊢
  have hbelow : Along (Pipeline.step smallFiles smallSerialize smallParse) Below
      (.new smallFiles (fun _ => 0) 5 0 0 []) smallInputs := by
    decide +kernel
  obtain ⟨history, s, hrun, hall, -⟩ :=
    files_arrive hnames smallFiles_carried (fun _ => 0) 5 0 0 [] smallInputs hbelow
  exact ⟨hbelow, history, s, hrun, hall⟩

end Pipeline

end Unp.Sync
