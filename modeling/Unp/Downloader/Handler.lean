import Unp.Lib.Decimal
import Unp.Util.StringPiece

/-!
# `downloader::Handler`: the callbacks of one connection

A connection asks for a range of the file. What comes back goes through four callbacks: the status,
the end of the headers, the body in pieces, and the end of the message. `onHeadersComplete` compares
`Content-Range` with what was asked for and finds the size of the file there; `onBody` reports every
piece to the download, once there is a file to write to.

The callbacks return numbers that `Http1xCodec` drops. What is written to files is left out.
-/

namespace Unp.Downloader

open Unp.Machine Unp.Decimal
open Unp.Util (Byte ascii)

/-! ## Header values -/

/-- `std::string(begin + from, begin + to)`; a range that goes backwards is none. -/
def substring (text : List Byte) (start stop : Nat) : Res (List Byte) :=
  if stop < start ∨ text.length < stop then .error .outOfBounds
  else pure ((text.take stop).drop start)

/-- `std::find(begin + from, end, c)`, as a position. -/
def find (c : Byte) (start : Nat) (text : List Byte) : Nat :=
  start + (text.drop start).findIdx fun b => b = c

/-- `parseContentRangeHeader`: the range, and the size of the file. -/
def parseContentRangeHeader (headerValue : List Byte) : Res ((Nat × Nat) × Nat) := do
  let it := find 115 0 headerValue + 1
  let endIt := find 45 it headerValue
  let startText ← substring headerValue it endIt
  let start ← stoull startText
  let it := endIt + 1
  let endIt := find 47 0 headerValue
  let endText ← substring headerValue it endIt
  let stop ← stoull endText
  -- the text behind the slash; there is none without a slash
  let fileSize ← stoull (headerValue.drop (endIt + 1))
  pure ((start, stop), fileSize)

/-- The header value for a range of a file. -/
def contentRange (start stop fileSize : Nat) : List Byte :=
  ascii "bytes " ++ toText start ++ 45 :: (toText stop ++ 47 :: toText fileSize)

theorem find_eq {c : Byte} {start : Nat} {text l r : List Byte}
    (hdrop : text.drop start = l ++ c :: r) (hl : c ∉ l) : find c start text = start + l.length := by
  rw [find, hdrop]
  clear hdrop
  congr 1
  induction l with
  | nil => simp [List.findIdx_cons]
  | cons b l ih =>
      rw [List.mem_cons, not_or] at hl
      rw [List.cons_append, List.findIdx_cons, decide_eq_false (Ne.symm hl.1), List.length_cons]
      exact congrArg (· + 1) (ih hl.2)

theorem substring_eq (before after : List Byte) {text middle : List Byte} {start stop : Nat}
    (htext : text = before ++ middle ++ after) (hstart : start = before.length)
    (hstop : stop = before.length + middle.length) : substring text start stop = .ok middle := by
  subst htext hstart hstop
  rw [substring, if_neg (by simp)]
  simp [List.take_append]

/-- The value that a server sends is read as it was meant, if the size of the file fits. -/
theorem parseContentRangeHeader_contentRange {start stop fileSize : Nat} (hstart : start < 2 ^ 64)
    (hstop : stop < 2 ^ 64) :
    parseContentRangeHeader (contentRange start stop fileSize) =
      if 2 ^ 64 ≤ fileSize then .error .exception else .ok ((start, stop), fileSize) := by
  have hbytes : ascii "bytes " = [98, 121, 116, 101, 115, 32] := by decide
  have hdash := notMem_toText (c := 45) rfl
  have hslash := notMem_toText (c := 47) rfl
  generalize htext : contentRange start stop fileSize = text
  have hs : text = [98, 121, 116, 101] ++ 115 :: ([32] ++ toText start ++
      45 :: (toText stop ++ 47 :: toText fileSize)) := by
    rw [← htext, contentRange, hbytes]
    rfl
  -- the three positions
  have hfind₁ : find 115 0 text = 0 + [98, 121, 116, 101].length :=
    find_eq ((List.drop_zero ..).trans hs) (by decide)
  have hdrop : text.drop 5 = ([32] ++ toText start) ++ 45 :: (toText stop ++ 47 :: toText fileSize) := by
    rw [hs]
    rfl
  have hfind₂ : find 45 5 text = 5 + ([32] ++ toText start).length :=
    find_eq hdrop (by simpa using hdash start)
  have hwhole : text.drop 0 = ([98, 121, 116, 101, 115, 32] ++ toText start ++ [45] ++ toText stop) ++
      47 :: toText fileSize := by
    rw [hs]
    simp
  have hfind₃ : find 47 0 text = 0 +
      ([98, 121, 116, 101, 115, 32] ++ toText start ++ [45] ++ toText stop).length :=
    find_eq hwhole (by simp [hslash])
  -- the three texts
  have hsub₁ : substring text 5 (5 + ([32] ++ toText start).length) = .ok ([32] ++ toText start) :=
    substring_eq [98, 121, 116, 101, 115] (45 :: (toText stop ++ 47 :: toText fileSize))
      (by rw [hs]; simp) rfl rfl
  have hsub₂ : substring text (5 + ([32] ++ toText start).length + 1) (0 +
      ([98, 121, 116, 101, 115, 32] ++ toText start ++ [45] ++ toText stop).length) =
      .ok (toText stop) :=
    substring_eq ([98, 121, 116, 101, 115, 32] ++ toText start ++ [45]) (47 :: toText fileSize)
      (by rw [hs]; simp) (by simp; omega) (by simp; omega)
  have hrest : text.drop (0 + ([98, 121, 116, 101, 115, 32] ++ toText start ++ [45] ++
      toText stop).length + 1) = toText fileSize := by
    rw [Nat.zero_add, ← List.drop_drop]
    rw [List.drop_zero] at hwhole
    rw [hwhole, List.drop_left]
    rfl
  have hread₁ : stoull ([32] ++ toText start) = .ok start := by
    have hblank : ∀ b ∈ [(32 : Byte)], isBlank b = true := by
      intro b hb
      rw [List.mem_singleton.mp hb]
      rfl
    rw [stoull_append_toText [32] start hblank, if_neg (Nat.not_le.mpr hstart)]
  have hread₂ : stoull (toText stop) = .ok stop := by
    rw [stoull_toText, if_neg (Nat.not_le.mpr hstop)]
  rw [parseContentRangeHeader, hfind₁]
  simp only [List.length_cons, List.length_nil, Nat.reduceAdd] at hfind₂ hfind₃ hsub₁ hsub₂ hrest ⊢
  simp only [ hfind₂, hfind₃, hsub₁, hsub₂, hrest, hread₁, hread₂, ok_bind, stoull_toText fileSize]
  split
  · rfl
  · rfl

/-- Whatever the three numbers are, they come back. -/
theorem parseContentRangeHeader_roundTrip (a b size : UInt64) :
    parseContentRangeHeader (contentRange a.toNat b.toNat size.toNat) =
      .ok ((a.toNat, b.toNat), size.toNat) := by
  rw [parseContentRangeHeader_contentRange a.toNat_lt b.toNat_lt]
  exact if_neg (Nat.not_le.mpr size.toNat_lt)

example : parseContentRangeHeader (ascii "bytes 0-99/18446744073709551615") =
    .ok ((0, 99), 18446744073709551615) := by decide +kernel

/-- `retriveFileNameFromContentDisposition`: the name between the quotes, with the range behind it. -/
def retriveFileNameFromContentDisposition (rangeBegin rangeEnd : Nat) (cd : List Byte) :
    Res (List Byte) :=
  let it := find 61 0 cd
  if it = cd.length then pure (ascii "unp.unp")
  else do
    let first ← readAt cd (it + 1)
    let start := if first = 34 ∨ first = 39 then it + 2 else it + 1
    let stop := if cd.getLast? = some 34 ∨ cd.getLast? = some 39 then cd.length - 1 else cd.length
    let fileName ← substring cd start stop
    pure (fileName ++ ascii "_" ++ toText rangeBegin ++ ascii "_" ++ toText rangeEnd ++ ascii "_")

/-! ## The handler -/

inductive HandlerStatus where
  | idle
  | requestSent
  | received302
  | newLocationGot
  | recv302WithoutNewLocation
  | received200
  | chunkEncoding
  | notRespondingToRange
  | rangeNotMatch
  | rangeMatch
  | partiallyDataGot
  | noContentDisposition
  deriving Repr, DecidableEq

/-- `request` is the range in the header of the request, and `hasWriter` says that there is a
`FileWriter`. -/
structure Handler where
  url : List Byte
  request : Nat × Nat
  rangeBegin : Nat
  rangeEnd : Nat
  fileSize : Nat
  bytesDownloaded : Nat
  isShouldClose : Bool
  status : HandlerStatus
  fileName : List Byte
  hasWriter : Bool
  deriving Repr, DecidableEq

/-- The headers of an answer that the handler looks at. -/
structure ResponseHeaders where
  location : Option (List Byte)
  contentDisposition : Option (List Byte)
  transferEncoding : Option (List Byte)
  contentRange : Option (List Byte)
  deriving Repr, DecidableEq

/-- The callbacks of the codec. -/
inductive Event where
  | onStatus (status : Nat)
  | onHeadersComplete (headers : ResponseHeaders)
  | onBody (size : Nat)
  | onMessageComplete
  deriving Repr, DecidableEq

namespace Handler

/-- A handler after `open`. -/
def opened (url : List Byte) (begin_ end_ : Nat) : Handler where
  url := url
  request := (begin_, end_)
  rangeBegin := begin_
  rangeEnd := end_
  fileSize := 0
  bytesDownloaded := 0
  isShouldClose := false
  status := .requestSent
  fileName := []
  hasWriter := false

def onStatus (status : Nat) (h : Handler) : Handler :=
  if status = 302 then { h with status := .received302 }
  else if status = 200 ∨ status = 206 then { h with status := .received200 }
  else h

/-- The part of `onHeadersComplete` that checks the range. -/
def matchRange (headers : ResponseHeaders) (h : Handler) : Res Handler :=
  if headers.transferEncoding = some (ascii "chunked") then
    pure { h with status := .chunkEncoding }
  else match headers.contentRange with
    | none => pure { h with status := .notRespondingToRange }
    | some headerValue => do
        let (range, fileSize) ← parseContentRangeHeader headerValue
        let h := { h with fileSize }
        if range.1 ≠ h.rangeBegin then pure { h with status := .rangeNotMatch }
        else pure { h with rangeEnd := range.2, status := .rangeMatch }

def onHeadersComplete (headers : ResponseHeaders) (h : Handler) : Res Handler :=
  if h.status = .received302 then
    match headers.location with
    | none => pure { h with isShouldClose := true, status := .recv302WithoutNewLocation }
    | some url => pure { h with url, status := .newLocationGot, isShouldClose := true }
  else if h.status = .received200 then do
    let h := if headers.contentDisposition = none then { h with status := .noContentDisposition }
      else h
    let fileName ← retriveFileNameFromContentDisposition h.rangeBegin h.rangeEnd
      (headers.contentDisposition.getD [])
    { h with fileName, hasWriter := true }.matchRange headers
  else pure h

/-- `onBody`; the number is what the download is told. -/
def onBody (size : Nat) (h : Handler) : Option Nat × Handler :=
  if h.status = .rangeNotMatch then (none, { h with isShouldClose := true })
  else
    let h := { h with bytesDownloaded := u64 (h.bytesDownloaded + size) }
    if h.hasWriter = false then (none, h)
    else if h.status = .rangeMatch then
      (some size, { h with fileName := h.fileName ++ toText h.fileSize })
    else (some size, h)

def onMessageComplete (h : Handler) : Handler := { h with isShouldClose := true }

def handle (event : Event) (h : Handler) : Res (Option Nat × Handler) :=
  match event with
  | .onStatus status => pure (none, h.onStatus status)
  | .onHeadersComplete headers => do
      let h ← h.onHeadersComplete headers
      pure (none, h)
  | .onBody size => pure (h.onBody size)
  | .onMessageComplete => pure (none, h.onMessageComplete)

/-- Callbacks one after the other, and the number of bytes reported. -/
def feed : List Event → Handler → Res (Nat × Handler)
  | [], h => pure (0, h)
  | event :: events, h => do
      let (told, h) ← h.handle event
      let (rest, h) ← feed events h
      pure (told.getD 0 + rest, h)

theorem matchRange_request {headers : ResponseHeaders} {h h' : Handler}
    (hok : h.matchRange headers = .ok h') : h'.request = h.request := by
  rw [matchRange] at hok
  split at hok
  · cases hok
    rfl
  · split at hok
    · cases hok
      rfl
    · obtain ⟨⟨range, fileSize⟩, -, hok⟩ := bind_eq_ok hok
      dsimp only at hok
      split at hok
      all_goals
        cases hok
        rfl

theorem onHeadersComplete_request {headers : ResponseHeaders} {h h' : Handler}
    (hok : h.onHeadersComplete headers = .ok h') : h'.request = h.request := by
  rw [onHeadersComplete] at hok
  split at hok
  · split at hok
    all_goals
      cases hok
      rfl
  · split at hok
    · dsimp only at hok
      obtain ⟨fileName, -, hok⟩ := bind_eq_ok hok
      rw [matchRange_request hok]
      dsimp only
      split
      all_goals rfl
    · cases hok
      rfl

/-- No callback changes the request. -/
theorem handle_request {event : Event} {h h' : Handler} {report : Option Nat}
    (hok : h.handle event = .ok (report, h')) : h'.request = h.request := by
  cases event with
  | onStatus status =>
      cases hok
      rw [onStatus]
      split
      · rfl
      · split
        all_goals rfl
  | onHeadersComplete headers =>
      obtain ⟨h₁, hheaders, hret⟩ := bind_eq_ok hok
      cases hret
      exact onHeadersComplete_request hheaders
  | onBody size =>
      rw [handle, pure_eq_ok, onBody] at hok
      split at hok
      · cases hok
        rfl
      · dsimp only at hok
        split at hok
        · cases hok
          rfl
        · split at hok
          all_goals
            cases hok
            rfl
  | onMessageComplete =>
      cases hok
      rfl

/-- The first callback, and the others. -/
theorem feed_cons_eq_ok {event : Event} {events : List Event} {h h' : Handler} {n : Nat} :
    feed (event :: events) h = .ok (n, h') ↔
      ∃ report h₁ m, h.handle event = .ok (report, h₁) ∧ feed events h₁ = .ok (m, h') ∧
        n = report.getD 0 + m := by
  constructor
  · intro hfeed
    rw [feed] at hfeed
    obtain ⟨⟨report, h₁⟩, hhandle, hfeed⟩ := bind_eq_ok hfeed
    obtain ⟨⟨m, h₂⟩, hrest, hfeed⟩ := bind_eq_ok hfeed
    cases hfeed
    exact ⟨report, h₁, m, hhandle, hrest, rfl⟩
  · rintro ⟨report, h₁, m, hhandle, hrest, rfl⟩
    rw [feed, hhandle, ok_bind]
    dsimp only
    rw [hrest, ok_bind]
    rfl

theorem feed_request {events : List Event} {h h' : Handler} {n : Nat}
    (hfeed : feed events h = .ok (n, h')) : h'.request = h.request := by
  induction events generalizing h n with
  | nil =>
      cases hfeed
      rfl
  | cons event events ih =>
      obtain ⟨report, h₁, m, hhandle, hfeed, -⟩ := feed_cons_eq_ok.mp hfeed
      rw [ih hfeed, handle_request hhandle]

end Handler

end Unp.Downloader
