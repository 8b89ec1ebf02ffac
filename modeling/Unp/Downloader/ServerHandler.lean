import Unp.Sync.Server

/-!
# `DownloaderServerHandler`: messages without frames

A message of the downloader begins with its own length. `decode` parses the first four bytes on their
own to find it, and then whatever there is of the rest, as soon as it arrives; what has been parsed is
merged into `currentMess_`. Nothing of a message stays in the buffer, so between two reads
`bytesParsed_` is all that tells where the stream stands.

This works as long as no read ends one to four bytes into a message: `pullup` has no four bytes to give
then, or there is nothing behind them.

Protobuf is a parameter. A `ParsePartial` that comes upon the end of its bytes is no failure.
-/

namespace Unp.Downloader

open Unp.Machine Unp.LinkedChain Unp.Run Unp.Reactor
open Unp.Sync (Chunk sockHandleInput sockHandleInput_spec arriving arriving_cons)

/-! ## The code -/

/-- The operations of `Mess_WL` that are used here. -/
structure Protobuf (M : Type) where
  clear : M
  parsePartialFromArray : List Byte → M
  mergeFrom : M → M → M
  hasLen : M → Bool
  len : M → Int

structure ServerHandler (M : Type) where
  bytesParsed : Int
  currentMess : M
  inputBuffer : Buffer

/-- A call of `dispatchMessage`, and how much was left in the buffer then. -/
structure Dispatch (M : Type) where
  mess : M
  left : Nat
  deriving Repr, DecidableEq

namespace ServerHandler
variable {M : Type} (pb : Protobuf M)

def new (self : Addr) : ServerHandler M := ⟨0, pb.clear, Buffer.empty self⟩

/-- The bytes that `ParsePartialFromArray(data, size)` looks at. -/
def bytesAt (buf : Buffer) (data : Option DataPtr) (size : Int) : Res (List Byte) :=
  if size = 0 then pure []
  else if size < 0 then .error .outOfBounds
  else match data with
    | none => .error .nullDeref
    | some p => buf.readAt p size.toNat

/-- The first part of `decode`: how many bytes of the message are still to come, unless its length
cannot be read. -/
def decodeLen (al : Allocator Addr) (h : ServerHandler M) : Res (Option Nat × ServerHandler M) :=
  if h.bytesParsed = 0 then do
    let (data, buf) ← h.inputBuffer.pullup al 4
    let bytes ← bytesAt buf data 4
    let currentMess := pb.parsePartialFromArray bytes
    let (_, buf) ← buf.drain 4
    let h := ⟨4, currentMess, buf⟩
    if pb.hasLen currentMess = false then pure (none, h)
    else pure (some (u32 (u64OfInt (pb.len currentMess - 4))), h)
  else do
    let bytesRemainToParse ← checkedI32 (pb.len h.currentMess - h.bytesParsed)
    pure (some (u32 (u64OfInt bytesRemainToParse)), h)

/-- The second part: as much of the message as there is. -/
def decodeRest (al : Allocator Addr) (bytesRemainToParse : Nat) (h : ServerHandler M) :
    Res (Int × ServerHandler M) :=
  if h.inputBuffer.totalLen = 0 then .error .assertion
  else do
    let bytesGoingToParse := i32 (min bytesRemainToParse h.inputBuffer.totalLen : Nat)
    let (d, buf) ← h.inputBuffer.pullup al bytesGoingToParse
    let bytes ← bytesAt buf d bytesGoingToParse
    let tm := pb.parsePartialFromArray bytes
    let (_, buf) ← buf.drain (u32 (u64OfInt bytesGoingToParse))
    let bytesParsed ← checkedI32 (h.bytesParsed + bytesGoingToParse)
    let currentMess := pb.mergeFrom h.currentMess tm
    if bytesParsed ≠ pb.len currentMess then pure (-1, ⟨bytesParsed, currentMess, buf⟩)
    else pure (0, ⟨0, currentMess, buf⟩)

/-- `decode`. -/
def decode (al : Allocator Addr) (h : ServerHandler M) : Res (Int × ServerHandler M) := do
  let (bytesRemainToParse, h) ← h.decodeLen pb al
  match bytesRemainToParse with
  | none => pure (-1, h)
  | some bytesRemainToParse => h.decodeRest pb al bytesRemainToParse

/-- The loop of `handle_input`. -/
def decodeLoop (al : Allocator Addr) : Nat → ServerHandler M → Res (List (Dispatch M) × ServerHandler M)
  | 0, _ => .error .outOfFuel
  | fuel + 1, h =>
      if 0 < h.inputBuffer.totalLen then do
        let (ret, h) ← h.decode pb al
        if 0 ≤ ret then do
          let (rest, h') ← decodeLoop al fuel { h with currentMess := pb.clear }
          pure (⟨h.currentMess, h.inputBuffer.totalLen⟩ :: rest, h')
        else pure ([], h)
      else pure ([], h)

/-- `handle_input`, for a read that delivers some bytes. -/
def handleInput (fuel : Nat) (read : Allocator Addr × Chunk) (h : ServerHandler M) :
    Res ((Int × List (Dispatch M)) × ServerHandler M) := do
  let (ret, inputBuffer) ← sockHandleInput read.1 h.inputBuffer read.2.1
  let h := { h with inputBuffer }
  if ret < 0 then pure ((-1, []), h)
  else if h.inputBuffer.totalLen = 0 then pure ((0, []), h)
  else do
    let (dispatched, h) ← decodeLoop pb read.1 fuel h
    pure ((0, dispatched), h)

end ServerHandler

/-! ## The stream -/

section Stream
variable {M : Type} (pb : Protobuf M)

/-- A message whose length can be read from its first four bytes. -/
structure Readable (p : List Byte) : Prop where
  long : 5 ≤ p.length
  lt : p.length < 2 ^ 31
  hasLen : pb.hasLen (pb.parsePartialFromArray (p.take 4)) = true
  len_eq : pb.len (pb.parsePartialFromArray (p.take 4)) = p.length

/-- Merging the part of a message between two places does not change its length. -/
def KeepsLen (p : List Byte) (i j : Nat) : Prop :=
  ∀ m, pb.len m = p.length →
    pb.len (pb.mergeFrom m (pb.parsePartialFromArray (slice p i (j - i)))) = p.length

/-- A read that takes the stream from the place `k` to the place `n`, both counted from the beginning
of the first message: it does not stop in the first four bytes of a message, and none of the parts it
brings changes a length. -/
def Smooth : List (List Byte) → Nat → Nat → Prop
  | [], _, _ => True
  | p :: ps, k, n =>
      k = n ∨ 4 < n ∧ KeepsLen pb p (max k 4) (min n p.length) ∧
        (p.length ≤ n → Smooth ps 0 (n - p.length))

/-- The messages that are not complete at a place, and the place in the first of them. -/
def ahead : List (List Byte) → Nat → List (List Byte) × Nat
  | [], n => ([], n)
  | p :: ps, n => if p.length ≤ n then ahead ps (n - p.length) else (p :: ps, n)

/-- One read after the other. -/
def SmoothReads : List (List Byte) → Nat → List (Allocator Addr × Chunk) → Prop
  | _, _, [] => True
  | msgs, k, read :: reads =>
      Smooth pb msgs k (k + read.2.1.length) ∧
        SmoothReads (ahead msgs (k + read.2.1.length)).1 (ahead msgs (k + read.2.1.length)).2 reads

/-- Out of `n` bytes each of the messages has been dispatched after exactly its own bytes; `k` bytes
are left over. -/
inductive Dispatched : Nat → List (List Byte) → List (Dispatch M) → Nat → Prop
  | nil {k} : Dispatched k [] [] k
  | cons {p ps mess left ds k} : pb.len mess = p.length → Dispatched left ps ds k →
      Dispatched (p.length + left) (p :: ps) (⟨mess, left⟩ :: ds) k

/-- A history in which every call dispatches the messages that its read completes, and `bytesParsed_`
is the place in the message to be completed next. -/
inductive Frames : List (List Byte) → Nat →
    List (Entry (ServerHandler M) (Allocator Addr × Chunk) (Int × List (Dispatch M))) → Prop
  | nil {msgs k} : Frames msgs k []
  | cons {done rest} {k k' : Nat} {e history} : e.before.bytesParsed = (k : Int) → e.output.1 = 0 →
      Dispatched pb (k + e.input.2.1.length) done e.output.2 k' →
      (k' = 0 ∨ ∃ p ps, rest = p :: ps ∧ k' < p.length) →
      e.after.bytesParsed = (k' : Int) → e.after.inputBuffer.totalLen = 0 → Frames rest k' history →
      Frames (done ++ rest) k (e :: history)

end Stream

/-! ## One call of `decode` -/

section Decode
variable {M : Type} {pb : Protobuf M}

/-- Between two calls of `decode`: `k` bytes of the first message have been taken. -/
structure Standing (pb : Protobuf M) (h : ServerHandler M) (msgs : List (List Byte)) (k : Nat) :
    Prop where
  wellFormed : h.inputBuffer.WellFormed
  bytesParsed_eq : h.bytesParsed = k
  inside : 0 < k → ∃ p ps, msgs = p :: ps ∧ 4 ≤ k ∧ k < p.length ∧ pb.len h.currentMess = p.length

/-- The beginning of what is in the buffer, when the stream is known. -/
theorem take_content {content fut l tail : List Byte} {n : Nat}
    (hstream : content ++ fut = l ++ tail) (hcontent : n ≤ content.length) (hl : n ≤ l.length) :
    content.take n = l.take n := by
  have hleft : (content ++ fut).take n = content.take n := List.take_append_of_le_length hcontent
  rw [← hleft, hstream, List.take_append_of_le_length hl]

theorem drop_content {content fut l tail : List Byte} {n : Nat}
    (hstream : content ++ fut = l ++ tail) (hcontent : n ≤ content.length) (hl : n ≤ l.length) :
    content.drop n ++ fut = l.drop n ++ tail := by
  rw [← List.drop_append_of_le_length hcontent, hstream, List.drop_append_of_le_length hl]

/-- Taking some bytes out of the buffer. -/
theorem pull_drain (al : Allocator Addr) {buf : Buffer} {n : Nat} (hwf : buf.WellFormed)
    (hpos : 0 < n) (hle : n ≤ buf.totalLen) (hlt : n < 2 ^ 31) :
    ∃ p buf₁ ret buf₂, buf.pullup al n = .ok (some p, buf₁) ∧
      ServerHandler.bytesAt buf₁ (some p) n = .ok (buf.content.take n) ∧
      buf₁.drain n = .ok (ret, buf₂) ∧ buf₂.WellFormed ∧ buf₂.content = buf.content.drop n := by
  obtain ⟨p, buf₁, hpull, hlin⟩ := Buffer.pullup_spec al hwf hpos hle (by omega)
  have hle₁ : n ≤ buf₁.totalLen := by
    rw [hlin.wellFormed.total_eq, hlin.content_eq, ← hwf.total_eq]
    exact hle
  obtain ⟨buf₂, hremove, hcons⟩ := Buffer.remove_spec hlin.wellFormed hpos hle₁
  refine ⟨p, buf₁, n, buf₂, hpull, ?_, Buffer.drain_eq hremove, hcons.wellFormed, ?_⟩
  · have hne : ¬ (n : Int) = 0 := by omega
    have hneg : ¬ (n : Int) < 0 := by omega
    rw [ServerHandler.bytesAt, if_neg hne, if_neg hneg]
    exact hlin.read_eq
  · rw [hcons.content_eq, hlin.content_eq]

/-- The length is taken: four bytes are gone. -/
theorem decodeLen_new (al : Allocator Addr) {h : ServerHandler M} {p tail fut : List Byte}
    (hwf : h.inputBuffer.WellFormed) (hzero : h.bytesParsed = 0) (hp : Readable pb p)
    (hstream : h.inputBuffer.content ++ fut = p ++ tail) (hlong : 4 ≤ h.inputBuffer.totalLen) :
    ∃ h', h.decodeLen pb al = .ok (some (p.length - 4), h') ∧ h'.inputBuffer.WellFormed ∧
      h'.bytesParsed = (4 : Nat) ∧ pb.len h'.currentMess = p.length ∧
      h'.inputBuffer.content = h.inputBuffer.content.drop 4 := by
  have hlt := hp.lt
  have hge := hp.long
  obtain ⟨q, buf₁, ret, buf₂, hpull, hbytes, hdrain, hwf₂, hcontent⟩ :=
    pull_drain al hwf (n := 4) (by decide) hlong (by decide)
  rw [take_content hstream (by rw [← hwf.total_eq]; exact hlong) (by omega)] at hbytes
  have hword : u32 (u64OfInt (pb.len (pb.parsePartialFromArray (p.take 4)) - 4)) =
      p.length - 4 := by
    have hcast : (p.length : Int) - 4 = ((p.length - 4 : Nat) : Int) := by omega
    rw [hp.len_eq, hcast, u64OfInt_natCast (by omega), u32_of_lt (by omega)]
  refine ⟨⟨4, pb.parsePartialFromArray (p.take 4), buf₂⟩, ?_, hwf₂, rfl, hp.len_eq, hcontent⟩
  have hpull' : h.inputBuffer.pullup al 4 = .ok (some q, buf₁) := hpull
  have hbytes' : ServerHandler.bytesAt buf₁ (some q) 4 = .ok (p.take 4) := hbytes
  simp only [ServerHandler.decodeLen, if_pos hzero, hpull', ok_bind, hbytes', hdrain, hp.hasLen,
    Bool.true_eq_false, if_false, hword, pure_eq_ok]

/-- The length has been taken before. -/
theorem decodeLen_inside (al : Allocator Addr) {h : ServerHandler M} {p : List Byte} {k : Nat}
    (hbytes : h.bytesParsed = k) (hpos : 0 < k) (hk : k < p.length) (hlt : p.length < 2 ^ 31)
    (hlen : pb.len h.currentMess = p.length) :
    h.decodeLen pb al = .ok (some (p.length - k), h) := by
  have hne : ¬ h.bytesParsed = 0 := by omega
  have hcast : pb.len h.currentMess - h.bytesParsed = ((p.length - k : Nat) : Int) := by omega
  rw [ServerHandler.decodeLen, if_neg hne, hcast, checkedI32_ok (by omega) (by omega), ok_bind,
    u64OfInt_natCast (by omega), u32_of_lt (by omega)]
  rfl

/-- What is left when the bytes from the place `k` in the message `p` on have been taken, up to its
end or to the place `n`, where there are no more. -/
structure Taken (pb : Protobuf M) (p : List Byte) (k n : Nat) (h : ServerHandler M) (ret : Int)
    (h' : ServerHandler M) : Prop where
  wellFormed : h'.inputBuffer.WellFormed
  len_eq : pb.len h'.currentMess = p.length
  content_eq : h'.inputBuffer.content = h.inputBuffer.content.drop (p.length - k)
  whole : p.length ≤ n → ret = 0 ∧ h'.bytesParsed = 0
  part : n < p.length → ret = -1 ∧ h'.bytesParsed = n

/-- What there is of the rest is taken: up to the end of the message, or everything. -/
theorem decodeRest_spec (al : Allocator Addr) {h : ServerHandler M} {p tail fut : List Byte}
    {k n : Nat} (hwf : h.inputBuffer.WellFormed) (hbytes : h.bytesParsed = k) (hk : k < p.length)
    (hlt : p.length < 2 ^ 31) (hlen : pb.len h.currentMess = p.length)
    (hstream : h.inputBuffer.content ++ fut = p.drop k ++ tail)
    (hn : k + h.inputBuffer.totalLen = n) (hkn : k < n)
    (hkeeps : KeepsLen pb p k (min n p.length)) :
    ∃ ret h', h.decodeRest pb al (p.length - k) = .ok (ret, h') ∧ Taken pb p k n h ret h' := by
  have hne : ¬ h.inputBuffer.totalLen = 0 := by omega
  generalize hgoing : min (p.length - k) h.inputBuffer.totalLen = going
  have hcast : i32 (going : Nat) = going := by
    rw [i32]
    omega
  obtain ⟨q, buf₁, ret, buf₂, hpull, hread, hdrain, hwf₂, hcontent⟩ :=
    pull_drain al hwf (n := going) (by omega) (by omega) (by omega)
  have htotal := hwf.total_eq
  -- the bytes that are parsed are those of the message
  have hpart : h.inputBuffer.content.take going = slice p k (min n p.length - k) := by
    have hsame : going = min n p.length - k := by omega
    rw [take_content hstream (by omega) (by rw [List.length_drop]; omega), slice, hsame]
  rw [hpart] at hread
  have hmerged := hkeeps h.currentMess hlen
  have hword : u32 (u64OfInt (going : Int)) = going := by
    rw [u64OfInt_natCast (by omega), u32_of_lt (by omega)]
  have hsum : checkedI32 (h.bytesParsed + (going : Int)) = .ok ((k + going : Nat) : Int) := by
    rw [hbytes, ← Int.natCast_add]
    exact checkedI32_ok (by omega) (by omega)
  have hdrop : h.inputBuffer.content.drop going =
      h.inputBuffer.content.drop (p.length - k) := by
    by_cases hle : p.length ≤ n
    · have hsame : going = p.length - k := by omega
      rw [hsame]
    · rw [List.drop_eq_nil_of_le (by omega), List.drop_eq_nil_of_le (by omega)]
  rw [hdrop] at hcontent
  have hrun : h.decodeRest pb al (p.length - k) =
      if ((k + going : Nat) : Int) ≠ p.length then
        .ok (-1, ⟨(k + going : Nat), pb.mergeFrom h.currentMess
          (pb.parsePartialFromArray (slice p k (min n p.length - k))), buf₂⟩)
      else .ok (0, ⟨0, pb.mergeFrom h.currentMess
          (pb.parsePartialFromArray (slice p k (min n p.length - k))), buf₂⟩) := by
    simp only [ServerHandler.decodeRest, if_neg hne, hgoing, hcast, hpull, ok_bind, hread, hword,
      hdrain, hsum, hmerged, pure_eq_ok]
  rw [hrun]
  by_cases hle : p.length ≤ n
  · rw [if_neg (by omega)]
    exact ⟨_, _, rfl, hwf₂, hmerged, hcontent, fun _ => ⟨rfl, rfl⟩, fun hless => by omega⟩
  · rw [if_pos (by omega)]
    refine ⟨_, _, rfl, hwf₂, hmerged, hcontent, fun hge => absurd hge hle, fun _ => ⟨rfl, ?_⟩⟩
    show ((k + going : Nat) : Int) = n
    omega

namespace Taken
variable {h h' : ServerHandler M} {p : List Byte} {k n : Nat} {ret : Int}

theorem totalLen_eq (htaken : Taken pb p k n h ret h') (hwf : h.inputBuffer.WellFormed) :
    h'.inputBuffer.totalLen = h.inputBuffer.totalLen - (p.length - k) := by
  rw [htaken.wellFormed.total_eq, htaken.content_eq, List.length_drop, ← hwf.total_eq]

/-- Behind a message comes the next one. -/
theorem stream_eq (htaken : Taken pb p k n h ret h') {tail fut : List Byte}
    (hstream : h.inputBuffer.content ++ fut = p.drop k ++ tail)
    (hle : p.length - k ≤ h.inputBuffer.content.length) : h'.inputBuffer.content ++ fut = tail := by
  rw [htaken.content_eq, drop_content hstream hle (by rw [List.length_drop]),
    List.drop_eq_nil_of_le (by rw [List.length_drop]), List.nil_append]

theorem standing_next (htaken : Taken pb p k n h ret h') (hle : p.length ≤ n)
    (ps : List (List Byte)) : Standing pb { h' with currentMess := pb.clear } ps 0 :=
  ⟨htaken.wellFormed, (htaken.whole hle).2, fun h0 => absurd h0 (Nat.lt_irrefl 0)⟩

theorem standing_inside (htaken : Taken pb p k n h ret h') (hless : n < p.length) (hlong : 4 < n)
    (ps : List (List Byte)) : Standing pb h' (p :: ps) n :=
  ⟨htaken.wellFormed, (htaken.part hless).2, fun _ =>
    ⟨p, ps, rfl, Nat.le_of_lt hlong, hless, htaken.len_eq⟩⟩

end Taken

/-- **One call of `decode`**, with more than the length there. -/
theorem decode_spec (al : Allocator Addr) {h : ServerHandler M} {p : List Byte}
    {ps : List (List Byte)} {tail fut : List Byte} {k n : Nat}
    (hstanding : Standing pb h (p :: ps) k) (hp : Readable pb p)
    (hstream : h.inputBuffer.content ++ fut = p.drop k ++ tail)
    (hn : k + h.inputBuffer.totalLen = n) (hkn : k < n) (hlong : 4 < n)
    (hkeeps : KeepsLen pb p (max k 4) (min n p.length)) :
    ∃ ret h', h.decode pb al = .ok (ret, h') ∧ Taken pb p k n h ret h' := by
  have hwf := hstanding.wellFormed
  have hge := hp.long
  rcases Nat.eq_zero_or_pos k with rfl | hpos
  · -- from the beginning
    rw [List.drop_zero] at hstream
    obtain ⟨h₁, hfirst, hwf₁, hbytes₁, hlen₁, hcontent₁⟩ :=
      decodeLen_new al hwf hstanding.bytesParsed_eq hp hstream (by omega)
    have htotal := hwf.total_eq
    have hstream₁ : h₁.inputBuffer.content ++ fut = p.drop 4 ++ tail := by
      rw [hcontent₁]
      exact drop_content hstream (by omega) (by omega)
    have htotal₁ : 4 + h₁.inputBuffer.totalLen = n := by
      rw [hwf₁.total_eq, hcontent₁, List.length_drop]
      omega
    obtain ⟨ret, h', hrest, htaken⟩ :=
      decodeRest_spec al hwf₁ hbytes₁ (by omega) hp.lt hlen₁ hstream₁ htotal₁ hlong hkeeps
    refine ⟨ret, h', ?_, htaken.wellFormed, htaken.len_eq, ?_, htaken.whole, htaken.part⟩
    · rw [ServerHandler.decode, hfirst, ok_bind]
      exact hrest
    · rw [htaken.content_eq, hcontent₁, List.drop_drop]
      congr 1
      omega
  · obtain ⟨p', ps', heq, hfour, hk, hlen⟩ := hstanding.inside hpos
    cases heq
    rw [Nat.max_eq_left hfour] at hkeeps
    obtain ⟨ret, h', hrest, htaken⟩ :=
      decodeRest_spec al hwf hstanding.bytesParsed_eq hk hp.lt hlen hstream hn hkn hkeeps
    refine ⟨ret, h', ?_, htaken⟩
    rw [ServerHandler.decode, decodeLen_inside al hstanding.bytesParsed_eq hpos hk hp.lt hlen,
      ok_bind]
    exact hrest

/-- With less than the length there, the null pointer is parsed. -/
theorem decode_short (al : Allocator Addr) {h : ServerHandler M} (hzero : h.bytesParsed = 0)
    (hshort : h.inputBuffer.totalLen < 4) : h.decode pb al = .error .nullDeref := by
  have hpull : h.inputBuffer.pullup al 4 = .ok (none, h.inputBuffer) :=
    Buffer.pullup_refused al (n := 4) (by decide) (.inr hshort)
  have hnone : ServerHandler.bytesAt h.inputBuffer none 4 = .error .nullDeref := rfl
  simp only [ServerHandler.decode, ServerHandler.decodeLen, if_pos hzero, hpull, ok_bind, hnone,
    error_bind]

/-- With the length there and nothing else, the assertion fails. -/
theorem decode_length_only (al : Allocator Addr) {h : ServerHandler M} {p tail fut : List Byte}
    (hwf : h.inputBuffer.WellFormed) (hzero : h.bytesParsed = 0) (hp : Readable pb p)
    (hstream : h.inputBuffer.content ++ fut = p ++ tail) (hfour : h.inputBuffer.totalLen = 4) :
    h.decode pb al = .error .assertion := by
  obtain ⟨h₁, hlen, hwf₁, -, -, hcontent⟩ :=
    decodeLen_new al hwf hzero hp hstream (Nat.le_of_eq hfour.symm)
  have hnone : h₁.inputBuffer.totalLen = 0 := by
    rw [hwf₁.total_eq, hcontent, List.length_drop, ← hwf.total_eq, hfour]
  rw [ServerHandler.decode, hlen, ok_bind]
  dsimp only
  rw [ServerHandler.decodeRest, if_pos hnone]

/-! ## A whole read -/

theorem Dispatched.total_eq {n k : Nat} {done : List (List Byte)} {ds : List (Dispatch M)}
    (h : Dispatched pb n done ds k) : n = done.flatten.length + k := by
  induction h with
  | nil => simp
  | cons _ _ ih =>
      rw [List.flatten_cons, List.length_append, Nat.add_assoc, ← ih]

/-- The stream behind a place. -/
theorem drop_flatten {done rest : List (List Byte)} {k n : Nat} (hn : n = done.flatten.length + k) :
    (done ++ rest).flatten.drop n = rest.flatten.drop k := by
  rw [List.flatten_append, hn, ← List.drop_drop, List.drop_left]

theorem Standing.lt_length {h : ServerHandler M} {p : List Byte} {ps : List (List Byte)} {k : Nat}
    (hstanding : Standing pb h (p :: ps) k) (hp : Readable pb p) : k < p.length := by
  rcases Nat.eq_zero_or_pos k with rfl | hpos
  · exact Nat.lt_of_lt_of_le (by decide) hp.long
  · obtain ⟨p', ps', heq, -, hk, -⟩ := hstanding.inside hpos
    cases heq
    exact hk

/-- The place is one in the first message. -/
theorem Standing.ahead_eq {h : ServerHandler M} {msgs : List (List Byte)} {k : Nat}
    (hstanding : Standing pb h msgs k) (hread : ∀ p ∈ msgs, Readable pb p) :
    ahead msgs k = (msgs, k) := by
  cases msgs with
  | nil => rfl
  | cons p ps =>
      have hk := hstanding.lt_length (hread p List.mem_cons_self)
      rw [ahead, if_neg (Nat.not_le.mpr hk)]

/-- What the loop does with the bytes up to the place `n`. -/
structure Decoded (pb : Protobuf M) (msgs : List (List Byte)) (n : Nat) (ds : List (Dispatch M))
    (h : ServerHandler M) (done rest : List (List Byte)) (k : Nat) : Prop where
  split : msgs = done ++ rest
  dispatched : Dispatched pb n done ds k
  ahead_eq : ahead msgs n = (rest, k)
  standing : Standing pb h rest k
  total_eq : h.inputBuffer.totalLen = 0

/-- **The loop** dispatches every message that is complete, and takes what there is of the next. -/
theorem decodeLoop_spec (al : Allocator Addr) (fuel : Nat) {h : ServerHandler M}
    {msgs : List (List Byte)} {fut : List Byte} {k n : Nat} (hread : ∀ p ∈ msgs, Readable pb p)
    (hstanding : Standing pb h msgs k)
    (hstream : h.inputBuffer.content ++ fut = msgs.flatten.drop k)
    (hn : k + h.inputBuffer.totalLen = n) (hsmooth : Smooth pb msgs k n)
    (hfuel : h.inputBuffer.totalLen < fuel) :
    ∃ ds h', ServerHandler.decodeLoop pb al fuel h = .ok (ds, h') ∧
      ∃ done rest k', Decoded pb msgs n ds h' done rest k' := by
  induction fuel generalizing h msgs k n with
  | zero => omega
  | succ fuel ih =>
      have hwf := hstanding.wellFormed
      rw [ServerHandler.decodeLoop]
      by_cases hpos : 0 < h.inputBuffer.totalLen
      · rw [if_pos hpos]
        cases msgs with
        | nil =>
            -- the stream has come to its end
            rw [List.flatten_nil, List.drop_nil, List.append_eq_nil_iff] at hstream
            rw [hwf.total_eq, hstream.1] at hpos
            exact absurd hpos (Nat.lt_irrefl 0)
        | cons p ps =>
            obtain ⟨hp, hps⟩ := List.forall_mem_cons.mp hread
            have hk := hstanding.lt_length hp
            rw [Smooth] at hsmooth
            obtain ⟨hlong, hkeeps, hnext⟩ := hsmooth.resolve_left (by omega)
            rw [List.flatten_cons, List.drop_append_of_le_length (Nat.le_of_lt hk)] at hstream
            obtain ⟨ret, h₁, hdecode, htaken⟩ :=
              decode_spec al hstanding hp hstream hn (by omega) hlong hkeeps
            have htotal := hwf.total_eq
            have htotal₁ := htaken.totalLen_eq hwf
            rw [hdecode, ok_bind]
            dsimp only
            by_cases hle : p.length ≤ n
            · -- the message is complete
              have hstanding₁ := htaken.standing_next hle ps
              have hstream₁ : h₁.inputBuffer.content ++ fut = ps.flatten.drop 0 :=
                htaken.stream_eq hstream (by omega)
              obtain ⟨ds, h', hloop, done, rest, k', hdecoded⟩ :=
                ih hps hstanding₁ hstream₁ (by dsimp only; omega) (hnext hle) (by dsimp only; omega)
              obtain rfl := (htaken.whole hle).1
              refine ⟨_, h', by rw [if_pos (Int.le_refl 0), hloop]; rfl, p :: done, rest, k', ?_⟩
              have hleft : n = p.length + h₁.inputBuffer.totalLen := by omega
              have hleft' : n - p.length = h₁.inputBuffer.totalLen := by omega
              refine ⟨congrArg (p :: ·) hdecoded.split, ?_, ?_, hdecoded.standing,
                hdecoded.total_eq⟩
              · have hdispatched := hdecoded.dispatched
                rw [hleft'] at hdispatched
                rw [hleft]
                exact .cons htaken.len_eq hdispatched
              · rw [ahead, if_pos hle]
                exact hdecoded.ahead_eq
            · -- all there is has been taken
              have hless := Nat.not_le.mp hle
              obtain rfl := (htaken.part hless).1
              rw [if_neg (by decide)]
              refine ⟨[], h₁, rfl, [], p :: ps, n, rfl, .nil, ?_,
                htaken.standing_inside hless hlong ps, by omega⟩
              rw [ahead, if_neg hle]
      · rw [if_neg hpos]
        obtain rfl : n = k := by omega
        exact ⟨[], h, rfl, [], msgs, n, rfl, .nil, hstanding.ahead_eq hread, hstanding, by omega⟩

/-- **One call of `handle_input`**, when nothing is left of the reads before. -/
theorem handleInput_spec (fuel : Nat) (read : Allocator Addr × Chunk) {h : ServerHandler M}
    {msgs : List (List Byte)} {fut : List Byte} {k : Nat} (hread : ∀ p ∈ msgs, Readable pb p)
    (hstanding : Standing pb h msgs k) (hempty : h.inputBuffer.totalLen = 0)
    (hstream : read.2.1 ++ fut = msgs.flatten.drop k)
    (hsmooth : Smooth pb msgs k (k + read.2.1.length)) (hfuel : read.2.1.length < fuel) :
    ∃ ds h', ServerHandler.handleInput pb fuel read h = .ok ((0, ds), h') ∧
      ∃ done rest k', Decoded pb msgs (k + read.2.1.length) ds h' done rest k' := by
  have hwf := hstanding.wellFormed
  obtain ⟨buf, hsock, hwf', hcontent, htotal⟩ :=
    sockHandleInput_spec read.1 read.2 hwf (by rw [hempty]; decide)
  have hnil : h.inputBuffer.content = [] := by
    rw [← List.length_eq_zero_iff, ← hwf.total_eq]
    exact hempty
  rw [hnil, List.nil_append] at hcontent
  rw [hempty, Nat.zero_add] at htotal
  have hne : ¬ buf.totalLen = 0 := by
    rw [htotal]
    exact fun h0 => read.2.2.1 (List.length_eq_zero_iff.mp h0)
  have hstanding' : Standing pb { h with inputBuffer := buf } msgs k :=
    ⟨hwf', hstanding.bytesParsed_eq, hstanding.inside⟩
  have hstream' : buf.content ++ fut = msgs.flatten.drop k := by
    rw [hcontent]
    exact hstream
  obtain ⟨ds, h', hloop, hdecoded⟩ := decodeLoop_spec read.1 fuel hread hstanding' hstream'
    (by rw [htotal]) hsmooth (by rw [htotal]; exact hfuel)
  refine ⟨ds, h', ?_, hdecoded⟩
  rw [ServerHandler.handleInput, hsock, ok_bind]
  dsimp only
  rw [if_neg (by decide), if_neg hne, hloop]
  rfl

/-! ## All reads -/

theorem frames_of_standing (fuel : Nat) (reads : List (Allocator Addr × Chunk))
    {h : ServerHandler M} {msgs : List (List Byte)} {k : Nat} (hread : ∀ p ∈ msgs, Readable pb p)
    (hstanding : Standing pb h msgs k) (hempty : h.inputBuffer.totalLen = 0)
    (hstream : arriving reads = msgs.flatten.drop k) (hsmooth : SmoothReads pb msgs k reads)
    (hfuel : ∀ read ∈ reads, read.2.1.length < fuel) :
    ∃ history h', run (ServerHandler.handleInput pb fuel) reads h = .ok (history, h') ∧
      Frames pb msgs k history := by
  induction reads generalizing h msgs k with
  | nil => exact ⟨[], h, rfl, .nil⟩
  | cons read reads ih =>
      rw [arriving_cons] at hstream
      obtain ⟨hfirst, hlater⟩ := hsmooth
      obtain ⟨hfuel₁, hfuel'⟩ := List.forall_mem_cons.mp hfuel
      obtain ⟨ds, h₁, hcall, done, rest, k', hdecoded⟩ :=
        handleInput_spec fuel read hread hstanding hempty hstream hfirst hfuel₁
      obtain rfl := hdecoded.split
      have htotal := hdecoded.dispatched.total_eq
      rw [hdecoded.ahead_eq] at hlater
      have hstream₁ : arriving reads = rest.flatten.drop k' := by
        rw [← drop_flatten htotal, ← List.drop_drop, ← hstream, List.drop_left]
      obtain ⟨history, h', hrun, hframes⟩ :=
        ih (fun p hp => hread p (List.mem_append_right _ hp)) hdecoded.standing hdecoded.total_eq
          hstream₁ hlater hfuel'
      refine ⟨⟨h, read, (0, ds), h₁⟩ :: history, h', ?_, ?_⟩
      · simp only [run, hcall, ok_bind, hrun, pure_eq_ok]
      · refine .cons hstanding.bytesParsed_eq rfl hdecoded.dispatched ?_
          hdecoded.standing.bytesParsed_eq hdecoded.total_eq hframes
        rcases Nat.eq_zero_or_pos k' with h0 | hpos
        · exact .inl h0
        · obtain ⟨p, ps, heq, -, hlt, -⟩ := hdecoded.standing.inside hpos
          exact .inr ⟨p, ps, heq, hlt⟩

end Decode

namespace ServerHandler
variable {M : Type}

/-- **Framing.** However the messages are cut, as long as every read is smooth: no call goes wrong,
and every call dispatches the messages that it completes. -/
theorem handleInput_frames (pb : Protobuf M) (self : Addr) {fuel : Nat} {msgs : List (List Byte)}
    {reads : List (Allocator Addr × Chunk)} (hread : ∀ p ∈ msgs, Readable pb p)
    (hsplit : arriving reads = msgs.flatten) (hsmooth : SmoothReads pb msgs 0 reads)
    (hfuel : ∀ read ∈ reads, read.2.1.length < fuel) :
    ∃ history h, run (handleInput pb fuel) reads (new pb self) = .ok (history, h) ∧
      Frames pb msgs 0 history := by
  have hnew : Standing pb (new pb self) msgs 0 :=
    ⟨Buffer.empty_wellFormed self, rfl, fun h0 => absurd h0 (Nat.lt_irrefl 0)⟩
  exact frames_of_standing fuel reads hread hnew rfl hsplit hsmooth hfuel

/-- The request to pause the download 1 of `ab`: the fields in their order, each behind its tag. -/
def pauseMess : List Byte := [8, 10, 16, 1, 24, 1, 34, 2, 97, 98]

/-- Protobuf, as far as these messages and their parts are concerned. -/
def pauseProtobuf : Protobuf (Option Nat) where
  clear := none
  parsePartialFromArray bytes :=
    match bytes with
    | 8 :: n :: _ => some n.toNat
    | _ => none
  mergeFrom m tm := tm.or m
  hasLen m := m.isSome
  len m := m.getD 0

/-- The message in two reads, cut behind `n` bytes. -/
def pauseReads (n : Nat) (hn : 0 < n ∧ n < 10) : List (Allocator Addr × Chunk) :=
  [(.succMax, ⟨pauseMess.take n, by
      rw [Ne, List.take_eq_nil_iff, List.length_take]
      exact ⟨fun h => h.elim (Nat.ne_of_gt hn.1) (by decide),
        Nat.lt_of_le_of_lt (Nat.min_le_right _ _) (by decide)⟩⟩),
    (.succMax, ⟨pauseMess.drop n, by
      rw [Ne, List.drop_eq_nil_iff, List.length_drop]
      exact ⟨Nat.not_le.mpr hn.2, Nat.lt_of_le_of_lt (Nat.sub_le _ _) (by decide)⟩⟩)]

/-- The requests to pause the download 1 of `ab` and the download 2 of `cd`. -/
def twoPauses : List (List Byte) := [pauseMess, [8, 10, 16, 1, 24, 2, 34, 2, 99, 100]]

theorem twoPauses_readable : ∀ p ∈ twoPauses, Readable pauseProtobuf p := by
  intro p hp
  rw [twoPauses, List.mem_cons, List.mem_singleton] at hp
  rcases hp with rfl | rfl
  · exact ⟨by decide, by decide, by decide, by decide⟩
  · exact ⟨by decide, by decide, by decide, by decide⟩

/-- They come in three reads; the second one ends the first message and begins the second one. -/
def twoPauseReads : List (Allocator Addr × Chunk) :=
  [(.succMax, ⟨twoPauses.flatten.take 6, by decide⟩),
    (.succMax, ⟨(twoPauses.flatten.drop 6).take 11, by decide⟩),
    (.succMax, ⟨twoPauses.flatten.drop 17, by decide⟩)]

theorem handleInput_frames_twoPauses : ∃ history h,
    run (handleInput pauseProtobuf 12) twoPauseReads (new pauseProtobuf 0) = .ok (history, h) ∧
      Frames pauseProtobuf twoPauses 0 history := by
  apply handleInput_frames pauseProtobuf 0 twoPauses_readable (by decide)
  · refine ⟨.inr ⟨by decide, fun m hm => hm, fun hle => absurd hle (by decide)⟩, ?_,
      .inr ⟨by decide, fun m hm => hm, fun _ => trivial⟩, trivial⟩
    -- the second read goes from byte 6 of the first message to byte 7 of the second one
    exact .inr ⟨by decide, fun m hm => hm, fun _ =>
      .inr ⟨by decide, fun m hm => hm, fun hle => absurd hle (by decide)⟩⟩
  · decide

/-- Cut behind the length the message finds nothing to go on with; cut before, not even the length. -/
theorem handleInput_cut : (∀ p ∈ [pauseMess], Readable pauseProtobuf p) ∧
    arriving (pauseReads 4 (by decide)) = [pauseMess].flatten ∧
    run (handleInput pauseProtobuf 9) (pauseReads 4 (by decide)) (new pauseProtobuf 0) =
      .error .assertion ∧
    run (handleInput pauseProtobuf 9) (pauseReads 3 (by decide)) (new pauseProtobuf 0) =
      .error .nullDeref := by
  refine ⟨?_, by decide, by decide +kernel, by decide +kernel⟩
  exact fun p hp => twoPauses_readable p (List.mem_singleton.mp hp ▸ List.mem_cons_self)

end ServerHandler

end Unp.Downloader
