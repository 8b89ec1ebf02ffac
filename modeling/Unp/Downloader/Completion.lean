import Unp.Downloader.Requests
import Unp.Downloader.Start

/-!
# Completed downloads

A server has a file of `fileSize` bytes and answers every request for some of them. When the last byte
has arrived the download is to be reported as completed. It is if `bytesRemained_` is 1001 then: the
file has at least that many bytes, the first answer has told its size, and nobody has reported bytes
that were not asked for. Such reports can come from requests for an empty range, which
`downloadRemain` makes for files of 1005, 1006 and 1007 bytes.
-/

namespace Unp.Downloader

open Unp.Machine
open Unp.Util (Byte ascii)

/-! ## Answers -/

/-- What a server may choose: headers, and how the bytes are cut. -/
structure Answer where
  location : Option (List Byte)
  contentDisposition : Option (List Byte)
  transferEncoding : Option (List Byte)
  pieces : List Nat
  deriving Repr, DecidableEq

namespace Answer

/-- The number of bytes in a range of the file. -/
def bytesIn (fileSize : Nat) (range : Nat × Nat) : Nat := min range.2 (fileSize - 1) + 1 - range.1

/-- The callbacks that an answer with status 206 leads to. -/
def events (fileSize : Nat) (range : Nat × Nat) (a : Answer) : List Event :=
  .onStatus 206 ::
    .onHeadersComplete ⟨a.location, a.contentDisposition, a.transferEncoding,
      some (contentRange range.1 (min range.2 (fileSize - 1)) fileSize)⟩ ::
    (a.pieces.map .onBody ++ [.onMessageComplete])

def IsChunked (a : Answer) : Prop := a.transferEncoding = some (ascii "chunked")

instance decidableIsChunked (a : Answer) : Decidable a.IsChunked :=
  inferInstanceAs (Decidable (_ = _))

end Answer

/-- The callbacks are those of an answer to the request. -/
def Answers (fileSize : Nat) (range : Nat × Nat) (a : Answer) (events : List Event) : Prop :=
  events = a.events fileSize range ∧ a.pieces.sum = Answer.bytesIn fileSize range

/-- What an answer leaves behind in the handler. -/
structure Answered (fileSize : Nat) (range : Nat × Nat) (a : Answer) (h : Handler) : Prop where
  rangeBegin_eq : h.rangeBegin = range.1
  bytesDownloaded_eq : h.bytesDownloaded = Answer.bytesIn fileSize range
  matched : ¬ a.IsChunked → fileSize < 2 ^ 64 ∧ h.status = .rangeMatch ∧ h.fileSize = fileSize ∧
    h.rangeEnd = min range.2 (fileSize - 1)
  chunked : a.IsChunked → h.status = .chunkEncoding ∧ h.fileSize = 0

/-- Two handlers that differ in what a piece of the body changes only. -/
structure SameAnswer (h h' : Handler) : Prop where
  rangeBegin_eq : h'.rangeBegin = h.rangeBegin
  rangeEnd_eq : h'.rangeEnd = h.rangeEnd
  fileSize_eq : h'.fileSize = h.fileSize
  status_eq : h'.status = h.status
  hasWriter_eq : h'.hasWriter = h.hasWriter

section Feed
variable {h h' : Handler} {n : Nat}

theorem onBody_reports (size : Nat) (hwriter : h.hasWriter = true)
    (hstatus : h.status ≠ .rangeNotMatch) (hlt : h.bytesDownloaded + size < 2 ^ 64) :
    ∃ h', h.onBody size = (some size, h') ∧ h'.bytesDownloaded = h.bytesDownloaded + size ∧
      SameAnswer h h' := by
  rw [Handler.onBody, if_neg hstatus]
  dsimp only
  rw [if_neg (by simp [hwriter]), u64_of_lt hlt]
  split
  · exact ⟨_, rfl, rfl, ⟨rfl, rfl, rfl, rfl, rfl⟩⟩
  · exact ⟨_, rfl, rfl, ⟨rfl, rfl, rfl, rfl, rfl⟩⟩

/-- The body of an answer, and its end. -/
theorem feed_body (pieces : List Nat) (hwriter : h.hasWriter = true)
    (hstatus : h.status ≠ .rangeNotMatch) (hlt : h.bytesDownloaded + pieces.sum < 2 ^ 64) :
    ∃ h', Handler.feed (pieces.map .onBody ++ [.onMessageComplete]) h = .ok (pieces.sum, h') ∧
      h'.bytesDownloaded = h.bytesDownloaded + pieces.sum ∧ SameAnswer h h' := by
  induction pieces generalizing h with
  | nil => exact ⟨h.onMessageComplete, rfl, rfl, ⟨rfl, rfl, rfl, rfl, rfl⟩⟩
  | cons size pieces ih =>
      rw [List.sum_cons] at hlt ⊢
      obtain ⟨h₁, hbody, hbytes, hsame⟩ := onBody_reports size hwriter hstatus (by omega)
      obtain ⟨h', hfeed, hbytes', hsame'⟩ := ih (h := h₁) (by rw [hsame.hasWriter_eq, hwriter])
        (by rw [hsame.status_eq]; exact hstatus) (by omega)
      refine ⟨h', ?_, by omega, ?_⟩
      · rw [List.map_cons, List.cons_append]
        exact Handler.feed_cons_eq_ok.mpr
          ⟨some size, h₁, pieces.sum, congrArg Except.ok hbody, hfeed, rfl⟩
      · exact ⟨hsame'.rangeBegin_eq.trans hsame.rangeBegin_eq,
          hsame'.rangeEnd_eq.trans hsame.rangeEnd_eq, hsame'.fileSize_eq.trans hsame.fileSize_eq,
          hsame'.status_eq.trans hsame.status_eq, hsame'.hasWriter_eq.trans hsame.hasWriter_eq⟩

/-- The headers of an answer, when `Content-Disposition` can be read. -/
theorem onHeadersComplete_answer {fileSize : Nat} {range : Nat × Nat} {a : Answer}
    (hbegin : range.1 < 2 ^ 64) (hend : range.2 < 2 ^ 64) (hstatus : h.status = .received200)
    (hrange : h.rangeBegin = range.1)
    (hok : h.onHeadersComplete ⟨a.location, a.contentDisposition, a.transferEncoding,
      some (contentRange range.1 (min range.2 (fileSize - 1)) fileSize)⟩ = .ok h') :
    h'.rangeBegin = range.1 ∧ h'.bytesDownloaded = h.bytesDownloaded ∧ h'.hasWriter = true ∧
      (¬ a.IsChunked → fileSize < 2 ^ 64 ∧ h'.status = .rangeMatch ∧ h'.fileSize = fileSize ∧
        h'.rangeEnd = min range.2 (fileSize - 1)) ∧
      (a.IsChunked → h'.status = .chunkEncoding ∧ h'.fileSize = h.fileSize) := by
  rw [Handler.onHeadersComplete, if_neg (by simp [hstatus]), if_pos hstatus] at hok
  dsimp only at hok
  obtain ⟨fileName, -, hok⟩ := bind_eq_ok hok
  unfold Handler.matchRange at hok
  dsimp only at hok
  by_cases hchunked : a.transferEncoding = some (ascii "chunked")
  · rw [if_pos hchunked] at hok
    cases hok
    split
    all_goals exact ⟨hrange, rfl, rfl, fun hnot => absurd hchunked hnot, fun _ => ⟨rfl, rfl⟩⟩
  · rw [if_neg hchunked, parseContentRangeHeader_contentRange hbegin (by omega)] at hok
    by_cases hfits : 2 ^ 64 ≤ fileSize
    · rw [if_pos hfits] at hok
      cases hok
    · rw [if_neg hfits, ok_bind] at hok
      dsimp only at hok
      split at hok
      all_goals
        rw [if_neg (by simpa using hrange.symm)] at hok
        cases hok
        exact ⟨hrange, rfl, rfl, fun _ => ⟨Nat.not_le.mp hfits, rfl, rfl, rfl⟩,
          fun h => absurd h hchunked⟩

/-- **An answer** reports all its bytes. -/
theorem feed_answer {fileSize : Nat} {range : Nat × Nat} {a : Answer} {events : List Event}
    {url : List Byte} (hbegin : range.1 < 2 ^ 64) (hend : range.2 + 1 < 2 ^ 64)
    (hanswers : Answers fileSize range a events)
    (hfeed : Handler.feed events (.opened url range.1 range.2) = .ok (n, h)) :
    n = Answer.bytesIn fileSize range ∧ Answered fileSize range a h := by
  obtain ⟨rfl, hsum⟩ := hanswers
  obtain ⟨_, _, _, hstatus, hfeed₁, rfl⟩ := Handler.feed_cons_eq_ok.mp hfeed
  cases hstatus
  obtain ⟨_, h₂, m, hheaders, hfeed₂, rfl⟩ := Handler.feed_cons_eq_ok.mp hfeed₁
  obtain ⟨_, hheaders, hret⟩ := bind_eq_ok hheaders
  cases hret
  obtain ⟨hrange, hbytes, hwriter, hmatched, hchunked⟩ :=
    onHeadersComplete_answer hbegin (by omega) rfl rfl hheaders
  have hzero : h₂.bytesDownloaded = 0 := hbytes
  have hstatus : h₂.status ≠ .rangeNotMatch := by
    by_cases hc : a.IsChunked
    · rw [(hchunked hc).1]
      decide
    · rw [(hmatched hc).2.1]
      decide
  have hbytesIn : Answer.bytesIn fileSize range < 2 ^ 64 := by
    rw [Answer.bytesIn]
    omega
  obtain ⟨h', hbody, hbytes', hsame⟩ := feed_body a.pieces hwriter hstatus (by omega)
  rw [hbody] at hfeed₂
  cases hfeed₂
  refine ⟨by simp [hsum], ?_, ?_, ?_, ?_⟩
  · rw [hsame.rangeBegin_eq, hrange]
  · rw [hbytes', hzero, Nat.zero_add, hsum]
  · intro hc
    rw [hsame.status_eq, hsame.fileSize_eq, hsame.rangeEnd_eq]
    exact hmatched hc
  · intro hc
    rw [hsame.status_eq, hsame.fileSize_eq]
    exact hchunked hc

end Feed

/-! ## What a download is told -/

/-- The number of bytes that a handler reports. -/
def reported (events : List Event) (h : Handler) : Nat :=
  match h.feed events with
  | .ok (n, _) => n
  | .error _ => 0

theorem reported_of_feed {events : List Event} {h h' : Handler} {n : Nat}
    (hfeed : h.feed events = .ok (n, h')) : reported events h = n := by
  rw [reported, hfeed]

/-- The bytes that are reported for empty ranges. -/
def unasked (fileSize : Nat) (url : List Byte) (schedule : List (Nat × Event)) : Nat :=
  (((remainRequests (fileSize - 1001) 1001).zipIdx 1).map fun (range, k) =>
    if range.2 < range.1 then reported (eventsOf k schedule) (.opened url range.1 range.2) else 0).sum

theorem unasked_of_le {fileSize : Nat} (hle : fileSize ≤ 1001) (url : List Byte)
    (schedule : List (Nat × Event)) : unasked fileSize url schedule = 0 := by
  rw [unasked, Nat.sub_eq_zero_of_le hle]
  rfl

/-- A connection for missing bytes reports what it was asked for. For an empty range the server may
send what it likes. -/
theorem feed_remainRequest {fileSize n : Nat} {range : Nat × Nat} {url : List Byte}
    {events : List Event} {h : Handler} (hsize : 1001 < fileSize) (hlt : fileSize < 2 ^ 64)
    (hmem : range ∈ remainRequests (fileSize - 1001) 1001)
    (hanswered : range.1 ≤ range.2 → range.1 < fileSize → ∃ a, Answers fileSize range a events)
    (hfeed : Handler.feed events (.opened url range.1 range.2) = .ok (n, h)) :
    n = rangeSize range + if range.2 < range.1 then
      reported events (.opened url range.1 range.2) else 0 := by
  obtain ⟨hle, hend⟩ := mem_remainRequests (by decide) hmem
  split
  · next hempty =>
      rw [reported_of_feed hfeed, rangeSize]
      omega
  · next hsome =>
      obtain ⟨a, ha⟩ := hanswered (by omega) (by omega)
      rw [(feed_answer (by omega) (by omega) ha hfeed).1, Answer.bytesIn, rangeSize]
      omega

/-- A sum over numbered things. -/
theorem sum_range_eq_zipIdx {α : Type} (l : List α) (f : α × Nat → Nat) (g : Nat → Nat)
    (hg : ∀ k a, l[k]? = some a → g (k + 1) = f (a, k + 1)) :
    ∑ k ∈ Finset.range l.length, g (k + 1) = ((l.zipIdx 1).map f).sum := by
  induction l using List.reverseRecOn with
  | nil => rfl
  | append_singleton l a ih =>
      rw [List.length_append, List.length_singleton, Finset.sum_range_succ, List.zipIdx_append,
        List.map_append, List.sum_append, hg l.length a (by simp), ih]
      · simp [Nat.add_comm]
      · intro k b hk
        refine hg k b ?_
        rw [List.getElem?_append_left (List.getElem?_eq_some_iff.mp hk).1, hk]

/-! ## Runs -/

/-- The server answers every request for some bytes of the file, and every `connect` succeeds. -/
structure Served (fileSize : Nat) (probe : Answer) (first second : Round) (d : Download) : Prop where
  connects_first : ∀ i, first.connects i = true
  connects_second : ∀ i, second.connects i = true
  probed : Answers fileSize (0, 1000) probe (eventsOf 0 first.schedule)
  quiet : eventsOf 0 second.schedule = []
  answered : ∀ k h, 0 < k → d.connections[k]? = some h → h.request.1 ≤ h.request.2 →
    h.request.1 < fileSize → ∃ a, Answers fileSize h.request a (eventsOf k second.schedule)

/-- All bytes of the file have arrived, each at a connection that has asked for it. -/
def Received (fileSize : Nat) (d : Download) : Prop :=
  ∀ i < fileSize, ∃ h ∈ d.connections, h.request.1 ≤ i ∧ i ≤ h.request.2 ∧
    i < h.request.1 + h.bytesDownloaded

/-- The download is reported as finished, and not as failed. -/
def Completes (id : Int) (result : Res (Int × Download)) : Prop :=
  ∃ d, result = .ok (0, d) ∧ d.calls.count (.taskCompleted id) = 1 ∧
    ∀ id' mes, .taskFailed id' mes ∉ d.calls

namespace Download
variable {id : Int} {url : List Byte} {hasCallback : Bool} {rounds left : List Round} {d d' : Download}
  {succeed : Int} {fileSize : Nat} {probe : Answer} {first second : Round} {h : Handler}

/-- What counts at the end. -/
theorem completes_iff (hrun : downloadEX rounds (new id url true) = .ok (succeed, d', left))
    (hsame : SameTask (new id url true) d') :
    Completes id (download rounds (new id url true)) ↔ 0 ≤ succeed ∧ d'.bytesRemained = 1001 := by
  obtain ⟨hid, -, hcallback, -, n, hcalls⟩ := hsame
  have hcallback' : d'.hasCallback = true := hcallback
  rw [download, hrun, ok_bind]
  dsimp only
  constructor
  · rintro ⟨d'', hret, hcount, hfailed⟩
    split at hret
    · next hdone => exact ⟨hdone.1, hdone.2.2⟩
    · cases hret
  · rintro ⟨hsucceed, hremained⟩
    rw [if_pos ⟨hsucceed, hcallback', hremained⟩]
    refine ⟨_, rfl, ?_, ?_⟩
    · simp [hcalls, hid, new, List.count_replicate]
    · simp [hcalls, new, List.mem_replicate]

/-- **The first round.** -/
theorem first_round (hurl : url ≠ []) (hconnects : ∀ i, first.connects i = true)
    (hprobed : Answers fileSize (0, 1000) probe (eventsOf 0 first.schedule))
    (hrun : downloadEX (first :: rounds) (new id url hasCallback) = .ok (succeed, d', left)) :
    ∃ d h, SameTask (new id url hasCallback) d ∧ hasCallback = true ∧ d.connections = [h] ∧
      d.bytesRemained = h.fileSize ∧ Answered fileSize (0, 1000) probe h ∧
      evaluate (downloadEX rounds) h rounds d = .ok (succeed, d', left) := by
  rw [downloadEX, if_neg (show (new id url hasCallback).url ≠ [] from hurl), hconnects, connect_true]
    at hrun
  obtain ⟨d, hstart, hrun⟩ := bind_eq_ok hrun
  obtain ⟨h, hread, hrun⟩ := bind_eq_ok hrun
  obtain ⟨reports, hstarted⟩ := start_ok hstart
  obtain ⟨h', hget, hfeed⟩ := hstarted.fed 0 (.opened url 0 1000) rfl
  obtain rfl : h = h' := Option.some.inj ((readAt_eq_ok hread).symm.trans hget)
  obtain ⟨hreports, hanswered⟩ := feed_answer (by decide) (by decide) hprobed hfeed
  obtain ⟨hid, hurl', hcallback, hretry, hcalls⟩ := hstarted.sameTask
  refine ⟨{ d with size := h.fileSize, bytesRemained := h.fileSize }, h,
    ⟨hid, hurl', hcallback, hretry, hcalls⟩, ?_, ?_, rfl, hanswered, hrun⟩
  · -- a piece has been reported, so there is somebody to report to
    have hpos : 0 < reports 0 := by
      rw [hreports, Answer.bytesIn]
      omega
    cases hasCallback
    · exact absurd (hstarted.silent rfl 0 (Nat.zero_lt_succ 0)) (Nat.pos_iff_ne_zero.mp hpos)
    · rfl
  · have hlength : d.connections.length = 1 := hstarted.length_eq
    obtain ⟨h₀, hh₀⟩ := List.length_eq_one_iff.mp hlength
    rw [hh₀] at hget
    cases hget
    exact hh₀

/-- The first answer, if it was as asked for. -/
theorem evaluate_matched {again : Download → Res (Int × Download × List Round)}
    (hanswered : Answered fileSize (0, 1000) probe h) (hchunked : ¬ probe.IsChunked)
    (hsize : 0 < fileSize) :
    evaluate again h rounds d =
      if fileSize ≤ 1001 then .ok (0, d, rounds)
      else (do
        let (ret, d, rounds) ← d.downloadRemain (fileSize - 1001) 1001 rounds
        pure (if ret < 0 then -1 else 0, d, rounds)) := by
  obtain ⟨hlt, hstatus, hfile, hend⟩ := hanswered.matched hchunked
  have hshould : u64 (subU64 h.rangeEnd h.rangeBegin + 1) = min 1000 (fileSize - 1) + 1 := by
    rw [hend, hanswered.rangeBegin_eq, subU64, u64]
    dsimp only
    omega
  rw [evaluate, if_neg (by simp [hstatus]), if_pos hstatus, hshould, hfile]
  dsimp only
  split
  · rw [if_pos (by omega)]
    rfl
  · next hne =>
      have hbytes : h.bytesDownloaded = 1001 := by
        rw [hanswered.bytesDownloaded_eq, Answer.bytesIn]
        dsimp only
        omega
      have hstart : u64 (h.rangeEnd + 1) = 1001 := by
        rw [hend, u64]
        dsimp only
        omega
      have hall : h.bytesDownloaded = min 1000 (fileSize - 1) + 1 := by omega
      rw [if_pos hall, if_neg (show ¬ fileSize ≤ 1001 by omega), hbytes, hstart,
        subU64_of_le (by omega) hlt]

/-- **The second round**: everything that is missing is reported, and so is what was not asked for. -/
theorem second_round (hconnections : d.connections = [h]) (hsize : 1001 < fileSize)
    (hlt : fileSize < 2 ^ 64) (hurl : d.url = url)
    (hquiet : eventsOf 0 second.schedule = [])
    (hanswered : ∀ k g, 0 < k → d'.connections[k]? = some g → g.request.1 ≤ g.request.2 →
      g.request.1 < fileSize → ∃ a, Answers fileSize g.request a (eventsOf k second.schedule))
    (hstart : (d.openAll (remainRequests (fileSize - 1001) 1001)).start second.schedule = .ok d') :
    SameTask d d' ∧ CountsDown d d' (fileSize - 1001 + unasked fileSize url second.schedule) := by
  obtain ⟨reports, hstarted⟩ := start_ok hstart
  have hopened : (d.openAll (remainRequests (fileSize - 1001) 1001)).connections =
      h :: (remainRequests (fileSize - 1001) 1001).map fun range => .opened url range.1 range.2 := by
    rw [openAll, hconnections, hurl]
    rfl
  have hbytes := hstarted.bytes
  have hfed := hstarted.fed
  rw [hopened] at hbytes hfed
  rw [List.length_cons, List.length_map, Finset.sum_range_succ'] at hbytes
  -- the first connection is done
  have hfirst : reports 0 = 0 := by
    obtain ⟨h', -, hfeed⟩ := hfed 0 h rfl
    rw [hquiet] at hfeed
    exact (Prod.mk.inj (Except.ok.inj hfeed)).1.symm
  have hothers : ∀ k range, (remainRequests (fileSize - 1001) 1001)[k]? = some range →
      reports (k + 1) = rangeSize range + if range.2 < range.1 then
        reported (eventsOf (k + 1) second.schedule) (.opened url range.1 range.2) else 0 := by
    intro k range hrange
    obtain ⟨h', hget, hfeed⟩ := hfed (k + 1) (.opened url range.1 range.2) (by simp [hrange])
    have hrequest : h'.request = range := Handler.feed_request hfeed
    apply feed_remainRequest hsize hlt (List.mem_of_getElem? hrange) _ hfeed
    rw [← hrequest]
    exact hanswered (k + 1) h' (Nat.succ_pos k) hget
  have hsum : ∑ k ∈ Finset.range (remainRequests (fileSize - 1001) 1001).length, reports (k + 1) =
      fileSize - 1001 + unasked fileSize url second.schedule := by
    rw [sum_range_eq_zipIdx (remainRequests (fileSize - 1001) 1001)
      (fun p => rangeSize p.1 + if p.1.2 < p.1.1 then
        reported (eventsOf p.2 second.schedule) (.opened url p.1.1 p.1.2) else 0) reports hothers,
      List.sum_map_add, ← Function.comp_def rangeSize Prod.fst, ← List.map_map, List.zipIdx_map_fst,
      sum_remainRequests (by decide)]
    rfl
  have hsame : SameTask d (d.openAll (remainRequests (fileSize - 1001) 1001)) :=
    ⟨rfl, rfl, rfl, rfl, 0, (List.append_nil _).symm⟩
  rw [hsum, hfirst, Nat.add_zero] at hbytes
  exact ⟨hsame.trans hstarted.sameTask, hbytes.bytes_eq, hbytes.lt⟩

end Download

/-- **Finished downloads are reported as finished** exactly if the file has 1001 bytes at least, the
first answer is not chunked, and nothing is reported for empty ranges. -/
theorem download_completes_iff {id : Int} {url : List Byte} {hasCallback : Bool} {first second : Round}
    {rounds left : List Round} {succeed : Int} {d : Download} {fileSize : Nat} {probe : Answer}
    (hsize : 1 ≤ fileSize)
    (hrun : Download.downloadEX (first :: second :: rounds) (.new id url hasCallback) =
      .ok (succeed, d, left))
    (hserved : Served fileSize probe first second d) (hreceived : Received fileSize d) :
    Completes id (Download.download (first :: second :: rounds) (.new id url hasCallback)) ↔
      1001 ≤ fileSize ∧ ¬ probe.IsChunked ∧ unasked fileSize url second.schedule % 2 ^ 64 = 0 := by
  have hurl : url ≠ [] := by
    rintro rfl
    cases hrun
    obtain ⟨h, hmem, -⟩ := hreceived 0 hsize
    cases hmem
  obtain ⟨d₁, h, hsame, rfl, hconnections, hremained, hprobe, hevaluate⟩ :=
    Download.first_round hurl hserved.connects_first hserved.probed hrun
  by_cases hchunked : probe.IsChunked
  · -- a chunked answer is not followed by other requests, and is no success
    rw [Download.evaluate, if_neg (by simp [hprobe.chunked hchunked]),
      if_neg (by simp [hprobe.chunked hchunked]), if_neg (by simp [hprobe.chunked hchunked])]
      at hevaluate
    cases hevaluate
    rw [Download.completes_iff hrun hsame]
    exact ⟨fun hdone => absurd hdone.1 (by decide), fun hcond => absurd hchunked hcond.2.1⟩
  · rw [Download.evaluate_matched hprobe hchunked hsize] at hevaluate
    have hmatched := hprobe.matched hchunked
    split at hevaluate
    · next hle =>
        cases hevaluate
        rw [Download.completes_iff hrun hsame, hremained, hmatched.2.2.1, unasked_of_le hle]
        constructor
        · rintro ⟨-, hfile⟩
          exact ⟨Nat.le_of_eq hfile.symm, hchunked, rfl⟩
        · rintro ⟨hge, -, -⟩
          exact ⟨Int.le_refl 0, Nat.le_antisymm hle hge⟩
    · next hgt =>
        rw [Download.downloadRemain_eq (by omega) hserved.connects_second (by omega)]
          at hevaluate
        obtain ⟨⟨ret, d₂, left₂⟩, hsecond, hevaluate⟩ := bind_eq_ok hevaluate
        obtain ⟨d₃, hstart, hsecond⟩ := bind_eq_ok hsecond
        cases hsecond
        cases hevaluate
        have hurl₁ : d₁.url = url := hsame.url_eq
        obtain ⟨hsame₂, hbytes⟩ := Download.second_round hconnections (by omega) hmatched.1 hurl₁
          hserved.quiet hserved.answered hstart
        rw [Download.completes_iff hrun (hsame.trans hsame₂)]
        have hlt := hbytes.lt (by rw [hremained, hmatched.2.2.1]; exact hmatched.1)
        have hcount := hbytes.bytes_eq
        rw [hremained, hmatched.2.2.1] at hcount
        constructor
        · rintro ⟨-, hdone⟩
          exact ⟨by omega, hchunked, by omega⟩
        · rintro ⟨-, -, hsilent⟩
          exact ⟨Int.le_refl 0, by omega⟩

/-! ## Two runs -/

/-- A server that sends no more headers than it has to. -/
def plain (pieces : List Nat) : Answer := ⟨none, none, none, pieces⟩

/-- A round in which one connection gets its answer. -/
def answering (fileSize k : Nat) (range : Nat × Nat) (a : Answer) : Round :=
  ⟨fun _ => true, (a.events fileSize range).map fun event => (k, event)⟩

/-- A connection that has got its answer. -/
def answeredHandler (fileSize : Nat) (range : Nat × Nat) (pieces : List Nat) (fileName : String) :
    Handler where
  url := [104]
  request := range
  rangeBegin := range.1
  rangeEnd := min range.2 (fileSize - 1)
  fileSize := fileSize
  bytesDownloaded := pieces.sum
  isShouldClose := true
  status := .rangeMatch
  fileName := ascii fileName
  hasWriter := true

/-- The download when everything has been answered. -/
def answeredDownload (fileSize bytesRemained : Nat) (connections : List Handler) (updates : Nat) :
    Download where
  id := 7
  url := [104]
  hasCallback := true
  size := fileSize
  bytesRemained := bytesRemained
  retryTimes := 3
  failedRanges := []
  connections := connections
  calls := List.replicate updates (.taskUpdated 7)

/-- A run, without the rounds that are left. -/
theorem exists_left {rounds : List Round} {d d' : Download} {succeed : Int}
    (hmap : (Download.downloadEX rounds d).map (fun result => (result.1, result.2.1)) =
      .ok (succeed, d')) : ∃ left, Download.downloadEX rounds d = .ok (succeed, d', left) := by
  cases hrun : Download.downloadEX rounds d with
  | error e =>
      rw [hrun] at hmap
      cases hmap
  | ok result =>
      rw [hrun] at hmap
      cases hmap
      exact ⟨result.2.2, rfl⟩

theorem download_completes_1002 :
    Completes 7 (Download.download [answering 1002 0 (0, 1000) (plain [1000, 1]),
      answering 1002 1 (1001, 1001) (plain [1])] (.new 7 [104] true)) := by
  obtain ⟨left, hrun⟩ : ∃ left, Download.downloadEX [answering 1002 0 (0, 1000) (plain [1000, 1]),
      answering 1002 1 (1001, 1001) (plain [1])] (.new 7 [104] true) =
      .ok (0, answeredDownload 1002 1001
        [answeredHandler 1002 (0, 1000) [1000, 1] "unp.unp10021002",
          answeredHandler 1002 (1001, 1001) [1] "unp.unp1002"] 3, left) :=
    exists_left (by decide +kernel)
  have hserved : Served 1002 (plain [1000, 1]) (answering 1002 0 (0, 1000) (plain [1000, 1]))
      (answering 1002 1 (1001, 1001) (plain [1])) (answeredDownload 1002 1001
        [answeredHandler 1002 (0, 1000) [1000, 1] "unp.unp10021002",
          answeredHandler 1002 (1001, 1001) [1] "unp.unp1002"] 3) := by
    refine ⟨fun _ => rfl, fun _ => rfl, ⟨rfl, rfl⟩, rfl, ?_⟩
    intro k h hpos hget _ _
    match k, hpos with
    | 1, _ =>
        cases hget
        exact ⟨plain [1], rfl, rfl⟩
    | k + 2, _ => cases hget
  refine (download_completes_iff (by decide) hrun hserved ?_).mpr ⟨by decide, by decide, rfl⟩
  intro i hi
  by_cases hle : i ≤ 1000
  · exact ⟨_, List.mem_cons_self, Nat.zero_le i, hle, Nat.lt_of_le_of_lt hle (by decide)⟩
  · exact ⟨_, List.mem_cons_of_mem _ List.mem_cons_self, Nat.not_le.mp hle, Nat.lt_succ_iff.mp hi, hi⟩

/-- A file of one byte arrives, and the download is reported as failed. -/
theorem one_byte_download_fails :
    ∃ d d', Download.downloadEX [answering 1 0 (0, 1000) (plain [1]), ⟨fun _ => true, []⟩]
        (.new 7 [104] true) = .ok (0, d, [⟨fun _ => true, []⟩]) ∧
      Served 1 (plain [1]) (answering 1 0 (0, 1000) (plain [1])) ⟨fun _ => true, []⟩ d ∧
      Received 1 d ∧
      Download.download [answering 1 0 (0, 1000) (plain [1]), ⟨fun _ => true, []⟩]
        (.new 7 [104] true) = .ok (-1, d') ∧
      .taskFailed 7 "connect failed" ∈ d'.calls ∧ .taskCompleted 7 ∉ d'.calls := by
  refine ⟨answeredDownload 1 1 [answeredHandler 1 (0, 1000) [1] "unp.unp1"] 1, _, rfl, ?_, ?_, rfl,
    ?_, ?_⟩
  · refine ⟨fun _ => rfl, fun _ => rfl, ⟨rfl, rfl⟩, rfl, ?_⟩
    intro k h hpos hget _ _
    match k, hpos with
    | k + 1, _ => cases hget
  · intro i hi
    obtain rfl : i = 0 := by omega
    exact ⟨_, List.mem_cons_self, Nat.le_refl 0, Nat.zero_le 1000, Nat.zero_lt_one⟩
  · decide
  · decide

end Unp.Downloader
