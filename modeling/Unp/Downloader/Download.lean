import Unp.Downloader.Handler

/-!
# `downloader::Download`

A download asks for the first 1001 bytes. The answer tells the size of the file, and the rest is
asked for over a few connections at once. `bytesRemained_` counts down with every piece that a
connection reports; the first answer overwrites it with the size of the file, so that in the end it
is what the first answer brought.

`start` runs the reactor until all connections are done. What happens meanwhile is a schedule:
callbacks of the open connections, in whatever order. One round of the world around a download is
what the calls of `connect` before `start` return, and the schedule.
-/

namespace Unp.Downloader

open Unp.Machine
open Unp.Util (Byte)

/-- The calls of `DownloadStateCallback`. -/
inductive TaskCall where
  | taskUpdated (id : Int)
  | taskCompleted (id : Int)
  | taskFailed (id : Int) (mes : String)
  deriving Repr, DecidableEq

/-- `connections` are all connections the download has opened; one that has been closed stays where
it is. -/
structure Download where
  id : Int
  url : List Byte
  hasCallback : Bool
  size : Nat
  bytesRemained : Nat
  retryTimes : Int
  failedRanges : List (Nat × Nat)
  connections : List Handler
  calls : List TaskCall
  deriving Repr, DecidableEq

/-- What the world does in one round: whether the first, second, ... call of `connect` succeeds, and
the callbacks with the numbers of their connections. -/
structure Round where
  connects : Nat → Bool
  schedule : List (Nat × Event)

namespace Download

def connectNum : Nat := 4

def currentBegin : Nat := 0

def currentEnd : Nat := 1000

/-- The constructor, for a valid url. -/
def new (id : Int) (url : List Byte) (hasCallback : Bool) : Download where
  id := id
  url := url
  hasCallback := hasCallback
  size := 0
  bytesRemained := 0
  retryTimes := 3
  failedRanges := []
  connections := []
  calls := []

def downloadUpdateCallback (bytesDone : Nat) (d : Download) : Res Download :=
  if d.hasCallback = true then
    pure { d with
      bytesRemained := subU64 d.bytesRemained (u64 bytesDone)
      calls := d.calls ++ [.taskUpdated d.id] }
  else .error .nullDeref

/-- `connect`: the number of the new connection, if there is one. -/
def connect (begin_ end_ : Nat) (succeeds : Bool) (d : Download) : Option Nat × Download :=
  if succeeds = true then
    (some d.connections.length, { d with connections := d.connections ++ [.opened d.url begin_ end_] })
  else (none, d)

/-- What a handler has told the download. -/
def told (report : Option Nat) (d : Download) : Res Download :=
  match report with
  | none => pure d
  | some size => d.downloadUpdateCallback size

/-- A callback of one connection. -/
def deliver (d : Download) (call : Nat × Event) : Res Download := do
  let h ← readAt d.connections call.1
  let (report, h) ← h.handle call.2
  told report { d with connections := d.connections.set call.1 h }

/-- `clientPtr_->start()`. -/
def start (schedule : List (Nat × Event)) (d : Download) : Res Download :=
  schedule.foldlM deliver d

/-- The loop of `downloadRemain` that opens connections, `n` more of them. -/
def connectLoop (connects : Nat → Bool) : Nat → Nat → Nat → Download → (Nat × Nat) × Download
  | 0, start, remain, d => ((start, remain), d)
  | n + 1, start, remain, d =>
      let share := remain / connectNum
      let (connection, d) :=
        d.connect start (subU64 (u64 (start + share)) 1) (connects (connectNum - (n + 1)))
      match connection with
      | none =>
          connectLoop connects n start remain
            { d with failedRanges := d.failedRanges ++ [(start, subU64 (u64 (start + remain)) 1)] }
      | some _ => connectLoop connects n (u64 (start + share)) (remain - share) d

/-- One more connection for what is left over. -/
def connectRest (succeeds : Bool) (start remain : Nat) (d : Download) : Download :=
  if 0 < remain then
    let (connection, d) := d.connect start (subU64 (u64 (start + remain)) 1) succeeds
    match connection with
    | none => { d with failedRanges := d.failedRanges ++ [(start, subU64 (u64 (start + remain)) 1)] }
    | some _ => d
  else d

/-- `downloadRemain`. It takes a round of the world, and returns those that are left. -/
def downloadRemain (remain start : Nat) (rounds : List Round) (d : Download) :
    Res (Int × Download × List Round) :=
  if remain = 0 then pure (0, d, rounds)
  else match rounds with
    | [] => .error .outOfFuel
    | round :: rounds =>
        if remain < connectNum then
          let (connection, d) :=
            d.connect start (subU64 (u64 (start + remain)) 1) (round.connects 0)
          do
            let d ← d.start round.schedule
            match connection with
            | none => .error .nullDeref
            | some _ => pure (0, d, rounds)
        else do
          let ((start, remain), d) := connectLoop round.connects connectNum start remain d
          let d ← (d.connectRest (round.connects connectNum) start remain).start round.schedule
          pure (0, d, rounds)

/-- What `downloadEX` does with the answer to the first request. `again` is the recursive call. -/
def evaluate (again : Download → Res (Int × Download × List Round)) (h : Handler)
    (rounds : List Round) (d : Download) : Res (Int × Download × List Round) :=
  if h.status = .newLocationGot then again { d with url := h.url }
  else if h.status = .rangeMatch then
    let bytesShouldDownloaded := u64 (subU64 h.rangeEnd h.rangeBegin + 1)
    if h.fileSize = bytesShouldDownloaded then pure (0, d, rounds)
    else if h.bytesDownloaded = bytesShouldDownloaded then do
      let (ret, d, rounds) ← d.downloadRemain (subU64 h.fileSize h.bytesDownloaded)
        (u64 (h.rangeEnd + 1)) rounds
      pure (if ret < 0 then -1 else 0, d, rounds)
    else if 0 ≤ d.retryTimes then do
      let (succeed, d, rounds) ← again { d with retryTimes := d.retryTimes - 1 }
      pure (succeed, { d with retryTimes := d.retryTimes + 1 }, rounds)
    else pure (-1, d, rounds)
  else if h.status = .notRespondingToRange then pure (1, d, rounds)
  else pure (-1, d, rounds)

/-- `downloadEX`. Without a round `start` does not return. -/
def downloadEX : List Round → Download → Res (Int × Download × List Round)
  | [], d => if d.url = [] then pure (-1, d, []) else .error .outOfFuel
  | round :: rounds, d =>
      if d.url = [] then pure (-1, d, round :: rounds)
      else
        let (connection, d) := d.connect currentBegin currentEnd (round.connects 0)
        do
          let d ← d.start round.schedule
          match connection with
          | none => pure (-1, d, rounds)
          | some k => do
              let h ← readAt d.connections k
              evaluate (downloadEX rounds) h rounds
                { d with size := h.fileSize, bytesRemained := h.fileSize }

/-- `download`. -/
def download (rounds : List Round) (d : Download) : Res (Int × Download) := do
  let (succeed, d, _) ← downloadEX rounds d
  if 0 ≤ succeed ∧ d.hasCallback = true ∧ d.bytesRemained = 1001 then
    pure (0, { d with calls := d.calls ++ [.taskCompleted d.id] })
  else if d.hasCallback = true then
    pure (-1, { d with calls := d.calls ++ [.taskFailed d.id "connect failed"] })
  else pure (0, d)

end Download

end Unp.Downloader
