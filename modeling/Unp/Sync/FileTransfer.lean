import Mathlib.Data.List.AList
import Mathlib.Logic.Function.Basic
import Unp.Sync.Server
import Unp.Util.StringPiece

/-!
# Depositing files

The client reads every file piece by piece and sends each piece in a package that says where in the
file it belongs: `curSeqStart` is the number of the first byte and `curSeqEnd` that of the last one.
The server keeps a writer for every file it has not got completely, and closes it when it sees the
number of the last byte.

Files are read in any order and in pieces of any size. `Delivered` says what the server has of a file
when the client has read a certain part of it.
-/

namespace Unp.Sync

open Unp.Machine Unp.LinkedChain Unp.Run Unp.Reactor
open Unp.Util (cString cString_of_notMem)

/-- The conversion of `uint64_t` to `int64_t`. -/
def i64 (n : Nat) : Int := if n < 2 ^ 63 then n else (n : Int) - 2 ^ 64

/-- The fields of a package that the server looks at. -/
structure DepositeFileHeader where
  fileName : List Byte
  fileLen : Int
  curSeqStart : Int
  curSeqEnd : Int
  deriving Repr, DecidableEq

structure SyncPackage where
  depositeFileHeader : DepositeFileHeader
  contentLen : Int
  content : List Byte
  deriving Repr, DecidableEq

/-- `fileName` is the memory from the pointer on, and `data` points into `buf`. -/
def getDepositeFilePackage (fileName : List Byte) (fileLen seqStart seqEnd : Nat) (buf : Buffer)
    (data : DataPtr) : Res SyncPackage := do
  let contentLen := i64 (u64 (subU64 seqEnd seqStart + 1))
  let content ← buf.readAt data (u64OfInt contentLen)
  pure ⟨⟨cString fileName, i64 fileLen, i64 seqStart, i64 seqEnd⟩, contentLen, content⟩

/-! ## The client -/

structure SyncFileConnectionHandler where
  inputBuffer : Buffer
  fileName : List Byte
  fileLen : Nat
  bytesSent : Nat

/-- `recv_buf_size`. -/
def recvBufSize : Nat := 4096

namespace SyncFileConnectionHandler

/-- `post_handle_input`: the result is the return value, the package, and the handler.
`bytesWritten` is what the two `write` calls of the connection return. -/
def postHandleInput (al : Allocator Addr) (bytesWritten : Int) (h : SyncFileConnectionHandler) :
    Res (Int × Option SyncPackage × SyncFileConnectionHandler) :=
  let bufferLen := h.inputBuffer.totalLen
  if bufferLen = 0 then pure (0, none, h)
  else do
    let (data, buf) ← h.inputBuffer.pullup al (i64 bufferLen)
    let seqStart := h.bytesSent
    let seqEnd := subU64 (u64 (seqStart + bufferLen)) 1
    let package ← match data with
      | none => .error .nullDeref
      | some data => getDepositeFilePackage (h.fileName ++ [0]) h.fileLen seqStart seqEnd buf data
    let h := { h with inputBuffer := buf }
    if bytesWritten ≤ 0 then pure (-1, some package, h)
    else do
      let (_, buf) ← h.inputBuffer.drain (u32 bufferLen)
      pure (0, some package,
        { h with inputBuffer := buf, bytesSent := u64 (h.bytesSent + bufferLen) })

/-- `FileStream::read` into the buffer, when the file delivers `chunk`. -/
def read (al : Allocator Addr) (chunk : List Byte) (h : SyncFileConnectionHandler) :
    Res (Int × SyncFileConnectionHandler) :=
  if chunk.length = 0 then pure (0, h)
  else do
    let (appended, inputBuffer) ← h.inputBuffer.appendData al (some chunk) chunk.length
    let h := { h with inputBuffer }
    if appended ≠ chunk.length then pure (-1, h) else pure (chunk.length, h)

/-- `FileConnectionHandler::handle_input`. -/
def handleInput (al : Allocator Addr) (chunk : List Byte) (bytesWritten : Int)
    (h : SyncFileConnectionHandler) :
    Res (Int × Option SyncPackage × SyncFileConnectionHandler) :=
  if bufferHighWaterMark ≤ h.inputBuffer.totalLen then pure (0, none, h)
  else do
    let (ret, h) ← h.read al chunk
    if ret < 0 then pure (-1, none, h)
    else do
      let (r, package, h) ← h.postHandleInput al bytesWritten
      pure (if 0 < ret then r else -1, package, h)

end SyncFileConnectionHandler

/-! ## The server -/

/-- A `FileWriter`, and the bytes it has been given. -/
structure FileWriter where
  fileName : List (List Byte)
  received : List Byte
  bytesWritten : Nat
  deriving DecidableEq

def FileWriter.new (fileName : List (List Byte)) : FileWriter := ⟨fileName, [], 0⟩

def FileWriter.write (data : List Byte) (w : FileWriter) : FileWriter :=
  { w with received := w.received ++ data, bytesWritten := u64 (w.bytesWritten + data.length) }

/-- `closed` are the writers that have been closed, in order. A path is the list of what has been
appended to it. -/
structure SyncServerHandler where
  fileWriters : AList fun _ : List Byte => FileWriter
  syncBasePath : List (List Byte)
  closed : List (List Byte × FileWriter)

namespace SyncServerHandler

def new (path : List (List Byte)) : SyncServerHandler := ⟨∅, path, []⟩

/-- `write_file`. Appending to `sync_base_path_` changes it. -/
def writeFile (fileName data : List Byte) (size : Nat) (s : SyncServerHandler) :
    Res SyncServerHandler := do
  let bytes ← readMem data 0 size
  match s.fileWriters.lookup fileName with
  | none =>
      let fullPath := s.syncBasePath ++ [fileName]
      pure { s with
        fileWriters := s.fileWriters.insert fileName ((FileWriter.new fullPath).write bytes)
        syncBasePath := fullPath }
  | some w => pure { s with fileWriters := s.fileWriters.insert fileName (w.write bytes) }

/-- `handle_deposite_file`. -/
def handleDepositeFile (mes : SyncPackage) (s : SyncServerHandler) : Res SyncServerHandler := do
  let header := mes.depositeFileHeader
  let s ←
    if header.curSeqEnd ≤ header.fileLen - 1 then
      s.writeFile (cString (header.fileName ++ [0])) mes.content
        (u64OfInt (header.curSeqEnd - header.curSeqStart + 1))
    else pure s
  if header.curSeqEnd = header.fileLen - 1 then
    match s.fileWriters.lookup header.fileName with
    | none => .error .assertion
    | some w => pure { s with
        fileWriters := s.fileWriters.erase header.fileName
        closed := s.closed ++ [(header.fileName, w)] }
  else pure s

end SyncServerHandler

/-! ## One piece -/

theorem i64_of_lt {n : Nat} (h : n < 2 ^ 63) : i64 n = n := if_pos h

/-- The package for a piece of a file. -/
def pieceAt (fileName : List Byte) (fileLen offset : Nat) (piece : List Byte) : SyncPackage :=
  ⟨⟨fileName, fileLen, offset, offset + piece.length - 1⟩, piece.length, piece⟩

namespace SyncFileConnectionHandler
variable {h : SyncFileConnectionHandler} {piece : List Byte}

theorem getDepositeFilePackage_eq {fileName : List Byte} {fileLen offset : Nat} {buf : Buffer}
    {data : DataPtr} (hname : 0 ∉ fileName) (hpiece : piece ≠ [])
    (hle : offset + piece.length ≤ fileLen) (hlt : fileLen < 2 ^ 63)
    (hread : buf.readAt data piece.length = .ok piece) :
    getDepositeFilePackage (fileName ++ [0]) fileLen offset
        (subU64 (u64 (offset + piece.length)) 1) buf data =
      .ok (pieceAt fileName fileLen offset piece) := by
  have hpos := List.length_pos_of_ne_nil hpiece
  have hend : subU64 (u64 (offset + piece.length)) 1 = offset + piece.length - 1 := by
    unfold subU64 u64
    omega
  have hlen : u64 (subU64 (offset + piece.length - 1) offset + 1) = piece.length := by
    unfold subU64 u64
    omega
  have hcast : ((offset + piece.length - 1 : Nat) : Int) = offset + piece.length - 1 := by omega
  rw [getDepositeFilePackage, hend, hlen, i64_of_lt (by omega), i64_of_lt hlt,
    i64_of_lt (by omega), i64_of_lt (by omega), u64OfInt_natCast (by omega), hread, ok_bind,
    cString_of_notMem hname, hcast]
  rfl

/-- **One call of `post_handle_input`** sends what is in the buffer and empties it. -/
theorem postHandleInput_spec (al : Allocator Addr) {bytesWritten : Int}
    (hwf : h.inputBuffer.WellFormed) (hcontent : h.inputBuffer.content = piece)
    (hpiece : piece ≠ []) (hshort : piece.length < 2 ^ 32) (hname : 0 ∉ h.fileName)
    (hle : h.bytesSent + piece.length ≤ h.fileLen) (hlt : h.fileLen < 2 ^ 63)
    (hwritten : 0 < bytesWritten) :
    ∃ buf, h.postHandleInput al bytesWritten =
        .ok (0, some (pieceAt h.fileName h.fileLen h.bytesSent piece),
          { h with inputBuffer := buf, bytesSent := h.bytesSent + piece.length }) ∧
      buf.WellFormed ∧ buf.content = [] := by
  have hpos := List.length_pos_of_ne_nil hpiece
  have htotal : h.inputBuffer.totalLen = piece.length := by rw [hwf.total_eq, hcontent]
  obtain ⟨data, buf, hpull, hlinear⟩ :=
    Buffer.pullup_spec al hwf hpos htotal.ge hshort
  have hread := hlinear.read_eq
  rw [hcontent, List.take_length] at hread
  have htotal₁ : buf.totalLen = piece.length := by
    rw [hlinear.wellFormed.total_eq, hlinear.content_eq, hcontent]
  obtain ⟨buf', hremove, hcons⟩ := Buffer.remove_spec hlinear.wellFormed hpos htotal₁.ge
  have hne : piece.length ≠ 0 := by omega
  have hsum : u64 (h.bytesSent + piece.length) = h.bytesSent + piece.length :=
    Nat.mod_eq_of_lt (by omega)
  have hpackage := getDepositeFilePackage_eq hname hpiece hle hlt hread
  rw [hsum] at hpackage
  refine ⟨buf', ?_, hcons.wellFormed, ?_⟩
  · simp only [postHandleInput, htotal, if_neg hne, i64_of_lt (show piece.length < 2 ^ 63 by omega),
      hpull, ok_bind, hsum, hpackage, if_neg (Int.not_le.mpr hwritten), u32_of_lt hshort,
      Buffer.drain_eq hremove, pure_eq_ok]
  · rw [hcons.content_eq, hlinear.content_eq, hcontent, List.drop_length]

/-- At the end of the file nothing is sent. -/
theorem handleInput_eof (al : Allocator Addr) (bytesWritten : Int)
    (hempty : h.inputBuffer.totalLen = 0) :
    h.handleInput al [] bytesWritten = .ok (-1, none, h) := by
  have hmark : ¬ bufferHighWaterMark ≤ 0 := by decide
  simp only [handleInput, hempty, if_neg hmark, read, List.length_nil, if_true, pure_eq_ok, ok_bind,
    Int.lt_irrefl, if_false, postHandleInput]

/-- **One read**: the piece that was read goes into a package. -/
theorem handleInput_spec (al : Allocator Addr) {bytesWritten : Int}
    (hwf : h.inputBuffer.WellFormed) (hempty : h.inputBuffer.content = [])
    (hpiece : piece ≠ []) (hshort : piece.length ≤ recvBufSize) (hname : 0 ∉ h.fileName)
    (hle : h.bytesSent + piece.length ≤ h.fileLen) (hlt : h.fileLen < 2 ^ 63)
    (hwritten : 0 < bytesWritten) :
    ∃ buf, h.handleInput al piece bytesWritten =
        .ok (0, some (pieceAt h.fileName h.fileLen h.bytesSent piece),
          { h with inputBuffer := buf, bytesSent := h.bytesSent + piece.length }) ∧
      buf.WellFormed ∧ buf.content = [] := by
  have hpos := List.length_pos_of_ne_nil hpiece
  unfold recvBufSize at hshort
  have htotal : h.inputBuffer.totalLen = 0 := by rw [hwf.total_eq, hempty]; rfl
  have hmark : ¬ bufferHighWaterMark ≤ h.inputBuffer.totalLen := by
    rw [htotal]
    decide
  obtain ⟨buf₁, happend, happended⟩ := Buffer.appendData_spec al hwf hpiece (by omega) (by omega)
  have hcontent : buf₁.content = piece := by rw [happended.content_eq, hempty, List.nil_append]
  obtain ⟨buf, hpost, hspec⟩ := postHandleInput_spec (h := { h with inputBuffer := buf₁ }) al
    happended.wellFormed hcontent hpiece (by omega) hname hle hlt hwritten
  refine ⟨buf, ?_, hspec⟩
  have hne : piece.length ≠ 0 := by omega
  simp only [handleInput, if_neg hmark, read, if_neg hne, happend, ok_bind, ne_eq,
    not_true_eq_false, if_false, pure_eq_ok, if_neg (show ¬ (piece.length : Int) < 0 by omega),
    hpost, if_pos (show (0 : Int) < piece.length by omega)]

end SyncFileConnectionHandler

/-! ## Packages at the server -/

/-- A writer has been given these bytes and has counted them. -/
structure FileWriter.Has (w : FileWriter) (bytes : List Byte) : Prop where
  received_eq : w.received = bytes
  bytesWritten_eq : w.bytesWritten = bytes.length

theorem FileWriter.Has.write {w : FileWriter} {bytes data : List Byte} (hw : w.Has bytes)
    (hlt : (bytes ++ data).length < 2 ^ 64) : (w.write data).Has (bytes ++ data) where
  received_eq := by rw [FileWriter.write, hw.received_eq]
  bytesWritten_eq := by
    rw [FileWriter.write, hw.bytesWritten_eq, ← List.length_append]
    exact Nat.mod_eq_of_lt hlt

theorem FileWriter.new_has (path : List (List Byte)) : (FileWriter.new path).Has [] := ⟨rfl, rfl⟩

namespace SyncServerHandler
variable {s : SyncServerHandler} {fileName bytes data : List Byte}

/-- The server has these bytes of a file that is not complete; a writer is there as soon as there is
a byte. -/
def Holding (s : SyncServerHandler) (fileName bytes : List Byte) : Prop :=
  (bytes = [] ∧ s.fileWriters.lookup fileName = none) ∨
  (bytes ≠ [] ∧ ∃ w, s.fileWriters.lookup fileName = some w ∧ w.Has bytes)

/-- The writers of a file that have been closed. -/
def closedWriters (s : SyncServerHandler) (fileName : List Byte) : List FileWriter :=
  (s.closed.filter fun p => p.1 = fileName).map Prod.snd

theorem writeFile_spec (data : List Byte) (hbytes : s.Holding fileName bytes)
    (hlt : (bytes ++ data).length < 2 ^ 64) :
    ∃ w path, s.writeFile fileName data data.length = .ok { s with
        fileWriters := s.fileWriters.insert fileName w, syncBasePath := path } ∧
      w.Has (bytes ++ data) := by
  have hread : readMem data 0 data.length = .ok data := by
    rw [readMem, if_pos (by omega), slice, List.drop_zero, List.take_length]
  rcases hbytes with ⟨rfl, hnone⟩ | ⟨-, w, hsome, hw⟩
  · refine ⟨(FileWriter.new (s.syncBasePath ++ [fileName])).write data,
      s.syncBasePath ++ [fileName], ?_, (FileWriter.new_has _).write hlt⟩
    simp only [writeFile, hread, ok_bind, hnone, pure_eq_ok]
  · refine ⟨w.write data, s.syncBasePath, ?_, hw.write hlt⟩
    simp only [writeFile, hread, ok_bind, hsome, pure_eq_ok]

/-- What the other files see of a package. -/
structure Apart (fileName : List Byte) (s s' : SyncServerHandler) : Prop where
  lookup_eq : ∀ other, other ≠ fileName →
    s'.fileWriters.lookup other = s.fileWriters.lookup other
  closedWriters_eq : ∀ other, other ≠ fileName → s'.closedWriters other = s.closedWriters other

/-- A piece goes to the writer of its file; behind the last one the writer is closed. -/
theorem handleDepositeFile_eq {fileLen offset : Nat} (hname : 0 ∉ fileName) (hdata : data ≠ [])
    (hbytes : s.Holding fileName bytes) (hoffset : bytes.length = offset)
    (hle : offset + data.length ≤ fileLen) (hlen : fileLen < 2 ^ 63) :
    ∃ w path, w.Has (bytes ++ data) ∧
      s.handleDepositeFile (pieceAt fileName fileLen offset data) =
        .ok (if offset + data.length = fileLen then
          ⟨(s.fileWriters.insert fileName w).erase fileName, path, s.closed ++ [(fileName, w)]⟩
        else ⟨s.fileWriters.insert fileName w, path, s.closed⟩) := by
  have hpos := List.length_pos_of_ne_nil hdata
  obtain ⟨w, path, hwrite, hw⟩ := writeFile_spec data hbytes
    (by rw [List.length_append]; omega)
  -- the fields of the package stay folded, since the tests are decided on them
  obtain ⟨mes, hmes⟩ : ∃ mes, pieceAt fileName fileLen offset data = mes := ⟨_, rfl⟩
  have hend : mes.depositeFileHeader.curSeqEnd = (offset : Int) + data.length - 1 := by rw [← hmes]; rfl
  have hfileLen : mes.depositeFileHeader.fileLen = fileLen := by rw [← hmes]; rfl
  have hname' : mes.depositeFileHeader.fileName = fileName := by rw [← hmes]; rfl
  have hwrite' : s.writeFile (cString (mes.depositeFileHeader.fileName ++ [0])) mes.content
      (u64OfInt (mes.depositeFileHeader.curSeqEnd - mes.depositeFileHeader.curSeqStart + 1)) =
        s.writeFile fileName data data.length := by
    have hsize : (offset : Int) + data.length - 1 - offset + 1 = data.length := by omega
    rw [hname', cString_of_notMem hname, hend, ← hmes]
    show s.writeFile fileName data (u64OfInt ((offset : Int) + data.length - 1 - offset + 1)) = _
    rw [hsize, u64OfInt_natCast (by omega)]
  refine ⟨w, path, hw, ?_⟩
  rw [hmes, handleDepositeFile, if_pos (by rw [hend, hfileLen]; omega), hwrite', hwrite, ok_bind]
  beta_reduce
  by_cases heq : offset + data.length = fileLen
  · rw [if_pos heq, if_pos (by rw [hend, hfileLen]; omega), hname', AList.lookup_insert]
    rfl
  · rw [if_neg heq, if_neg (by rw [hend, hfileLen]; omega)]
    rfl

/-- A piece before the end of the file. -/
theorem handleDepositeFile_piece {fileLen offset : Nat} (hname : 0 ∉ fileName) (hdata : data ≠ [])
    (hbytes : s.Holding fileName bytes) (hoffset : bytes.length = offset)
    (hlt : offset + data.length < fileLen) (hlen : fileLen < 2 ^ 63) :
    ∃ s', s.handleDepositeFile (pieceAt fileName fileLen offset data) = .ok s' ∧
      Apart fileName s s' ∧ s'.Holding fileName (bytes ++ data) ∧
      s'.closedWriters fileName = s.closedWriters fileName := by
  obtain ⟨w, path, hw, heq⟩ :=
    handleDepositeFile_eq hname hdata hbytes hoffset hlt.le hlen
  rw [if_neg hlt.ne] at heq
  refine ⟨_, heq, ⟨fun other hother => AList.lookup_insert_ne hother, fun _ _ => rfl⟩, ?_, rfl⟩
  exact Or.inr ⟨by simp [hdata], w, AList.lookup_insert _, hw⟩

/-- The last piece of a file. -/
theorem handleDepositeFile_last {fileLen offset : Nat} (hname : 0 ∉ fileName) (hdata : data ≠ [])
    (hbytes : s.Holding fileName bytes) (hoffset : bytes.length = offset)
    (hlast : offset + data.length = fileLen) (hlen : fileLen < 2 ^ 63) :
    ∃ s' w, s.handleDepositeFile (pieceAt fileName fileLen offset data) = .ok s' ∧
      Apart fileName s s' ∧ s'.fileWriters.lookup fileName = none ∧ w.Has (bytes ++ data) ∧
      s'.closedWriters fileName = s.closedWriters fileName ++ [w] := by
  obtain ⟨w, path, hw, heq⟩ :=
    handleDepositeFile_eq hname hdata hbytes hoffset hlast.le hlen
  rw [if_pos hlast] at heq
  refine ⟨_, w, heq, ⟨fun other hother => ?_, fun other hother => ?_⟩, AList.lookup_erase _ _, hw,
    ?_⟩
  · exact (AList.lookup_erase_ne hother).trans (AList.lookup_insert_ne hother)
  · simp [closedWriters, Ne.symm hother]
  · simp [closedWriters]

end SyncServerHandler

/-! ## Files and runs -/

/-- A file: its name is a C string, and it is not empty. -/
structure File where
  name : List Byte
  contents : List Byte
  name_cString : 0 ∉ name
  nonempty : contents ≠ []
  length_lt : contents.length < 2 ^ 63

/-- A file that is being read: how far, and the handler that does it. -/
structure Reading where
  offset : Nat
  handler : SyncFileConnectionHandler

def Reading.start (self : Addr) (file : File) : Reading :=
  ⟨0, Buffer.empty self, file.name, file.contents.length, 0⟩

section Transfer
variable {F : Type} [DecidableEq F] (file : F → File)

/-- One read: which file, how much of it, and what the connection answers to the `write` calls. All
writes are accepted. -/
structure Read (F : Type) where
  al : Allocator Addr
  which : F
  size : Nat
  bytesWritten : { n : Int // 0 < n }

/-- What the next read of a file delivers. -/
def nextPiece (file : File) (offset size : Nat) : List Byte :=
  (file.contents.drop offset).take (min size recvBufSize)

/-- A read, and the package that comes out of it. -/
def readStep (read : Read F) (readings : F → Reading) :
    Res (Option SyncPackage × (F → Reading)) := do
  let reading := readings read.which
  let piece := nextPiece (file read.which) reading.offset read.size
  let (_, package, handler) ← reading.handler.handleInput read.al piece read.bytesWritten.1
  pure (package,
    Function.update readings read.which ⟨reading.offset + piece.length, handler⟩)

/-- The server gets the packages in order. -/
def serve : List SyncPackage → SyncServerHandler → Res SyncServerHandler
  | [], s => .ok s
  | mes :: packages, s => do
      let s ← s.handleDepositeFile mes
      serve packages s

/-- What the server has of a file of which `sent` bytes have been read: the bytes so far, in an open
writer, and once they are all there, one closed writer with the whole file. -/
structure Delivered (file : File) (sent : Nat) (s : SyncServerHandler) : Prop where
  sent_le : sent ≤ file.contents.length
  partly : sent < file.contents.length →
    s.Holding file.name (file.contents.take sent) ∧ s.closedWriters file.name = []
  wholly : sent = file.contents.length →
    s.fileWriters.lookup file.name = none ∧
      ∃ w, s.closedWriters file.name = [w] ∧ w.Has file.contents

/-- Between two reads, everything that has been read is sent. -/
structure Reading.Ok (file : File) (r : Reading) : Prop where
  wellFormed : r.handler.inputBuffer.WellFormed
  empty : r.handler.inputBuffer.content = []
  fileName_eq : r.handler.fileName = file.name
  fileLen_eq : r.handler.fileLen = file.contents.length
  bytesSent_eq : r.handler.bytesSent = r.offset
  offset_le : r.offset ≤ file.contents.length

theorem Reading.start_ok (self : Addr) (file : File) : (Reading.start self file).Ok file where
  wellFormed := Buffer.empty_wellFormed self
  empty := rfl
  fileName_eq := rfl
  fileLen_eq := rfl
  bytesSent_eq := rfl
  offset_le := Nat.zero_le _

theorem nextPiece_le (file : File) (offset size : Nat) (hoffset : offset ≤ file.contents.length) :
    (nextPiece file offset size).length ≤ recvBufSize ∧
      offset + (nextPiece file offset size).length ≤ file.contents.length := by
  rw [nextPiece, List.length_take, List.length_drop]
  omega

/-- The bytes before a piece and the piece are the bytes before the next one. -/
theorem take_append_nextPiece (file : File) (offset size : Nat) :
    file.contents.take offset ++ nextPiece file offset size =
      file.contents.take (offset + (nextPiece file offset size).length) := by
  rw [List.take_add, nextPiece, List.length_take, ← List.take_eq_take_min]

/-- Nothing of a file is there before it is read. -/
theorem delivered_new (file : File) (path : List (List Byte)) :
    Delivered file 0 (.new path) where
  sent_le := Nat.zero_le _
  partly _ := ⟨Or.inl ⟨rfl, rfl⟩, rfl⟩
  wholly h := absurd (List.length_eq_zero_iff.mp h.symm) file.nonempty

/-- **A package** brings its own file forward. -/
theorem Delivered.next {file : File} {offset : Nat} {s : SyncServerHandler}
    (hs : Delivered file offset s) (size : Nat) (hpiece : nextPiece file offset size ≠ []) :
    ∃ s', s.handleDepositeFile (pieceAt file.name file.contents.length offset
          (nextPiece file offset size)) = .ok s' ∧
      SyncServerHandler.Apart file.name s s' ∧
      Delivered file (offset + (nextPiece file offset size).length) s' := by
  obtain ⟨-, hle⟩ := nextPiece_le file offset size hs.sent_le
  have hpos := List.length_pos_of_ne_nil hpiece
  obtain ⟨hholding, hnone⟩ := hs.partly (by omega)
  have hoffset : (file.contents.take offset).length = offset := by
    rw [List.length_take]
    exact Nat.min_eq_left hs.sent_le
  rcases Nat.lt_or_eq_of_le hle with hlt | hlast
  · obtain ⟨s', hret, hapart, hholding', hclosed⟩ := SyncServerHandler.handleDepositeFile_piece
      file.name_cString hpiece hholding hoffset hlt file.length_lt
    rw [take_append_nextPiece] at hholding'
    exact ⟨s', hret, hapart, hle, fun _ => ⟨hholding', hclosed.trans hnone⟩,
      fun heq => absurd heq (Nat.ne_of_lt hlt)⟩
  · obtain ⟨s', w, hret, hapart, hlookup, hw, hclosed⟩ := SyncServerHandler.handleDepositeFile_last
      file.name_cString hpiece hholding hoffset hlast file.length_lt
    rw [take_append_nextPiece, hlast, List.take_length] at hw
    rw [hnone, List.nil_append] at hclosed
    exact ⟨s', hret, hapart, hle, fun hlt => absurd hlast (Nat.ne_of_lt hlt),
      fun _ => ⟨hlookup, w, hclosed, hw⟩⟩

/-- It leaves the other files alone. -/
theorem Delivered.apart {file : File} {sent : Nat} {s s' : SyncServerHandler} {fileName : List Byte}
    (hs : Delivered file sent s) (hapart : SyncServerHandler.Apart fileName s s')
    (hname : file.name ≠ fileName) : Delivered file sent s' where
  sent_le := hs.sent_le
  partly hlt := by
    rw [SyncServerHandler.Holding, hapart.lookup_eq _ hname, hapart.closedWriters_eq _ hname]
    exact hs.partly hlt
  wholly heq := by
    rw [hapart.lookup_eq _ hname, hapart.closedWriters_eq _ hname]
    exact hs.wholly heq

/-- **A read** sends the piece that was read, if there is one. -/
theorem Reading.Ok.handleInput {file : File} {r : Reading} (hr : r.Ok file) (al : Allocator Addr)
    (size : Nat) {bytesWritten : Int} (hwritten : 0 < bytesWritten) :
    ∃ ret package handler,
      r.handler.handleInput al (nextPiece file r.offset size) bytesWritten =
        .ok (ret, package, handler) ∧
      Reading.Ok file ⟨r.offset + (nextPiece file r.offset size).length, handler⟩ ∧
      ((nextPiece file r.offset size = [] ∧ package = none) ∨
        (nextPiece file r.offset size ≠ [] ∧ package = some (pieceAt file.name
          file.contents.length r.offset (nextPiece file r.offset size)))) := by
  obtain ⟨hshort, hle⟩ := nextPiece_le file r.offset size hr.offset_le
  have htotal : r.handler.inputBuffer.totalLen = 0 := by
    rw [hr.wellFormed.total_eq, hr.empty]
    rfl
  by_cases hpiece : nextPiece file r.offset size = []
  · rw [hpiece]
    exact ⟨_, _, _, SyncFileConnectionHandler.handleInput_eof al bytesWritten htotal, hr,
      Or.inl ⟨rfl, rfl⟩⟩
  · obtain ⟨buf, hret, hwf, hempty⟩ := SyncFileConnectionHandler.handleInput_spec al hr.wellFormed
      hr.empty hpiece hshort (by rw [hr.fileName_eq]; exact file.name_cString)
      (by rw [hr.bytesSent_eq, hr.fileLen_eq]; exact hle)
      (by rw [hr.fileLen_eq]; exact file.length_lt) hwritten
    refine ⟨_, _, _, hret, ⟨hwf, hempty, hr.fileName_eq, hr.fileLen_eq, ?_, hle⟩,
      Or.inr ⟨hpiece, ?_⟩⟩
    · show r.handler.bytesSent + _ = r.offset + _
      rw [hr.bytesSent_eq]
    · rw [hr.fileName_eq, hr.fileLen_eq, hr.bytesSent_eq]

theorem serve_snoc (packages : List SyncPackage) (mes : SyncPackage) {s s' : SyncServerHandler}
    (hserve : serve packages s = .ok s') :
    serve (packages ++ [mes]) s = s'.handleDepositeFile mes := by
  induction packages generalizing s with
  | nil =>
      cases hserve
      rw [List.nil_append, serve]
      cases s'.handleDepositeFile mes <;> rfl
  | cons mes' packages ih =>
      obtain ⟨s₁, hone, hrest⟩ := bind_eq_ok hserve
      rw [List.cons_append, serve, hone, ok_bind]
      exact ih hrest

abbrev Event (F : Type) := Entry (F → Reading) (Read F) (Option SyncPackage)

/-- The packages of a run, in order. -/
def packages (history : List (Event F)) : List SyncPackage := history.filterMap Entry.output

/-- What a run keeps: the server has of each file what has been read of it. -/
structure Transferred (path : List (List Byte)) (past : List (Event F)) (readings : F → Reading) :
    Prop where
  ok : ∀ f, (readings f).Ok (file f)
  delivered : ∃ s, serve (packages past) (.new path) = .ok s ∧
    ∀ f, Delivered (file f) (readings f).offset s

variable {file} {path : List (List Byte)} {past : List (Event F)} {readings readings' : F → Reading}

theorem readStep_ok (hr : ∀ f, (readings f).Ok (file f)) (read : Read F) :
    ∃ package handler, readStep file read readings = .ok (package,
        Function.update readings read.which ⟨(readings read.which).offset +
          (nextPiece (file read.which) (readings read.which).offset read.size).length, handler⟩) ∧
      Reading.Ok (file read.which) ⟨(readings read.which).offset +
        (nextPiece (file read.which) (readings read.which).offset read.size).length, handler⟩ ∧
      ((nextPiece (file read.which) (readings read.which).offset read.size = [] ∧
          package = none) ∨
        (nextPiece (file read.which) (readings read.which).offset read.size ≠ [] ∧
          package = some (pieceAt (file read.which).name (file read.which).contents.length
            (readings read.which).offset
            (nextPiece (file read.which) (readings read.which).offset read.size)))) := by
  obtain ⟨ret, package, handler, hret, hok, hpackage⟩ :=
    (hr read.which).handleInput read.al read.size read.bytesWritten.2
  refine ⟨package, handler, ?_, hok, hpackage⟩
  simp only [readStep, hret, ok_bind, pure_eq_ok]

theorem update_ok (hr : ∀ f, (readings f).Ok (file f)) {f : F} {r : Reading} (hok : r.Ok (file f)) :
    ∀ g, (Function.update readings f r g).Ok (file g) := by
  intro g
  by_cases heq : g = f
  · subst heq
    rwa [Function.update_self]
  · rw [Function.update_of_ne heq]
    exact hr g

/-- **One read keeps the server in step.** -/
theorem Transferred.step (hnames : Function.Injective fun f => (file f).name) {read : Read F}
    {package : Option SyncPackage} (hs : Transferred file path past readings)
    (hstep : readStep file read readings = .ok (package, readings')) :
    Transferred file path (past ++ [⟨readings, read, package, readings'⟩]) readings' := by
  obtain ⟨package', handler, hret, hok, hpackage⟩ := readStep_ok hs.ok read
  cases hret.symm.trans hstep
  refine ⟨update_ok hs.ok hok, ?_⟩
  obtain ⟨s, hserve, hall⟩ := hs.delivered
  rcases hpackage with ⟨hpiece, rfl⟩ | ⟨hpiece, rfl⟩
  · refine ⟨s, ?_, fun g => ?_⟩
    · simpa [packages] using hserve
    · by_cases heq : g = read.which
      · subst heq
        rw [Function.update_self, hpiece]
        exact hall read.which
      · rw [Function.update_of_ne heq]
        exact hall g
  · obtain ⟨s', hmes, hapart, hnext⟩ := (hall read.which).next read.size hpiece
    refine ⟨s', ?_, fun g => ?_⟩
    · rw [packages, List.filterMap_append]
      exact (serve_snoc _ _ hserve).trans hmes
    · by_cases heq : g = read.which
      · subst heq
        rw [Function.update_self]
        exact hnext
      · rw [Function.update_of_ne heq]
        exact (hall g).apart hapart fun hname => heq (hnames hname)

/-- **The transfer preserves the files**: whatever the files are, in whatever pieces and whatever
order they are read, the server has of each file exactly the bytes that have been read, in an open
writer; when the last byte is there, the writer is closed and taken out of the map, and it has
counted as many bytes as the file has. -/
theorem transfer_preserves_files (file : F → File)
    (hnames : Function.Injective fun f => (file f).name) (self : F → Addr)
    (path : List (List Byte)) (reads : List (Read F)) :
    ∃ history readings,
      run (readStep file) reads (fun f => .start (self f) (file f)) = .ok (history, readings) ∧
      ∃ s, serve (packages history) (.new path) = .ok s ∧
        ∀ f, Delivered (file f) (readings f).offset s := by
  have hstart : ∀ f, (Reading.start (self f) (file f)).Ok (file f) :=
    fun f => Reading.start_ok (self f) (file f)
  have hstep : ∀ readings read, (∀ f, (readings f).Ok (file f)) → ∃ package readings',
      readStep file read readings = .ok (package, readings') ∧ ∀ f, (readings' f).Ok (file f) := by
    intro readings read hr
    obtain ⟨package, handler, hret, hok, -⟩ := readStep_ok hr read
    exact ⟨package, _, hret, update_ok hr hok⟩
  obtain ⟨history, readings, hrun⟩ := run_total _ hstep reads hstart
  have hnew : Transferred file path [] fun f => .start (self f) (file f) :=
    ⟨hstart, _, rfl, fun f => delivered_new (file f) path⟩
  have htransferred := run_history (Transferred file path) (fun _ _ => True) (fun _ _ => True)
    (fun _ _ _ _ _ hs _ hstep => ⟨hs.step hnames hstep, trivial⟩) hnew hrun fun _ _ => trivial
  exact ⟨history, readings, hrun, htransferred.1.delivered⟩

end Transfer

/-- Two files. -/
def twoFiles : Bool → File
  | false => ⟨[97], [1, 2, 3], by decide, by decide, by decide⟩
  | true => ⟨[98], [4], by decide, by decide, by decide⟩

theorem twoFiles_injective : Function.Injective fun f => (twoFiles f).name := by
  intro f g hname
  cases f <;> cases g <;> simp [twoFiles] at hname ⊢

/-- The first file is read in two pieces, the second one in between. -/
def threeReads : List (Read Bool) :=
  [⟨.succMax, false, 2, 1, by decide⟩, ⟨.succMax, true, 4096, 1, by decide⟩,
    ⟨.succMax, false, 1, 1, by decide⟩]

theorem transfer_preserves_twoFiles :
    (Function.Injective fun f => (twoFiles f).name) ∧ ∃ history readings,
      run (readStep twoFiles) threeReads (fun f => .start 0 (twoFiles f)) =
        .ok (history, readings) ∧
      ∃ s, serve (packages history) (.new []) = .ok s ∧
        ∀ f, Delivered (twoFiles f) (readings f).offset s :=
  ⟨twoFiles_injective,
    transfer_preserves_files twoFiles twoFiles_injective (fun _ => 0) [] threeReads⟩

end Unp.Sync
