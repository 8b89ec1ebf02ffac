import Unp.Lib.Machine
import Unp.Lib.Run
import Unp.Lib.Schedule
import Unp.Lib.Scan
import Unp.Lib.Monitor
import Unp.Lib.LinkedChain
import Unp.Lib.Slots
import Unp.Lib.OrderedSet
import Unp.Lib.Border
import Unp.Lib.FirstWins
import Unp.Lib.PriorityQueue
import Unp.Lib.Calendar
import Unp.Lib.EraseWalk
import Unp.Lib.Decimal
import Unp.Lib.Ranges
import Unp.Buffer.Chain
import Unp.Buffer.Basic
import Unp.Buffer.Invariant
import Unp.Buffer.Iter
import Unp.Buffer.Append
import Unp.Buffer.Remove
import Unp.Buffer.Pullup
import Unp.Buffer.Queue
import Unp.Buffer.Forward
import Unp.Buffer.Copy
import Unp.Buffer.Slice
import Unp.Buffer.Prefix
import Unp.Buffer.CopyOut
import Unp.Buffer.Search
import Unp.Buffer.SearchQuery
import Unp.Buffer.SearchAligned
import Unp.Buffer.Line
import Unp.Buffer.ChainValue
import Unp.Buffer.Refused
import Unp.Buffer.Printf
import Unp.Buffer.Room
import Unp.Buffer.ChainAppend
import Unp.Proto.Decoder
import Unp.Proto.Framing
import Unp.Proto.Termination
import Unp.Connection.Output
import Unp.Connection.Frames
import Unp.Connection.Interest
import Unp.Net.HandleSet
import Unp.Net.NextHandle
import Unp.Net.InetAddr
import Unp.Epoll.EventRepo
import Unp.Epoll.Bound
import Unp.Epoll.Epoller
import Unp.Epoll.Reactor
import Unp.Epoll.Consistency
import Unp.Epoll.Undo
import Unp.Epoll.RepoRuns
import Unp.Epoll.Dispatch
import Unp.Epoll.Timeouts
import Unp.Poll.Reactor
import Unp.Poll.Dispatch
import Unp.Select.Table
import Unp.Select.Lookup
import Unp.Select.TimeoutHandlers
import Unp.Select.Reactor
import Unp.Timer.Wheel
import Unp.Timer.Run
import Unp.Timer.Walk
import Unp.Timer.Cascade
import Unp.Timer.Moves
import Unp.Timer.Linked
import Unp.Timer.Overdue
import Unp.Timer.Count
import Unp.Timer.Registry
import Unp.Timer.AtMostOnce
import Unp.Timer.Rounding
import Unp.Timer.SlotInBucket
import Unp.Timer.Cancel
import Unp.Thread.Pool
import Unp.Thread.Moves
import Unp.Thread.Safety
import Unp.Thread.Account
import Unp.Thread.Wakeups
import Unp.Thread.Progress
import Unp.Thread.Stop
import Unp.Sync.Server
import Unp.Sync.Rejected
import Unp.Sync.Client
import Unp.Sync.FileTransfer
import Unp.Sync.Pipeline
import Unp.Sync.DirMonitor
import Unp.Sync.BasePath
import Unp.Sync.FailedScan
import Unp.Util.StringPiece
import Unp.Util.Kmp
import Unp.Util.PieceOrder
import Unp.Util.Date
import Unp.Http.CommonHeaders
import Unp.Http.Message
import Unp.Http.CommonNames
import Unp.Http.ParseUrl
import Unp.Http.UrlGrammar
import Unp.Http.UrlHost
import Unp.Http.UrlFields
import Unp.Http.UrlBounds
import Unp.Http.UrlParser
import Unp.Http.UrlReset
import Unp.Http.Headers
import Unp.Http.Dump
import Unp.Http.NameCase
import Unp.Http.Codec
import Unp.Http.Client
import Unp.Http.Pause
import Unp.Http.Cookies
import Unp.Downloader.Handler
import Unp.Downloader.Download
import Unp.Downloader.Start
import Unp.Downloader.Requests
import Unp.Downloader.Completion
import Unp.Downloader.Tiling
import Unp.Downloader.DivideRanges
import Unp.Downloader.ServerHandler
