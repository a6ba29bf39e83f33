import RedisOps.Lib.Bytes
import RedisOps.Lib.Bits
import RedisOps.Lib.Int64
import RedisOps.Lib.Text
import RedisOps.Lib.Utf8
import RedisOps.Lib.Decimal
import RedisOps.Lib.Search
import RedisOps.Lib.Prog
import RedisOps.Lib.Protocol
import RedisOps.Lib.Par
import RedisOps.Lib.Slots
import RedisOps.Lib.Threads
import RedisOps.Lib.Steps
import RedisOps.Lib.Cells
import RedisOps.Lib.Digits
import RedisOps.Lib.Fields
import RedisOps.Lib.StableSort
import RedisOps.Lib.Istream
import RedisOps.Lib.Find
import RedisOps.Lib.Paths
import RedisOps.Lib.Linear
import RedisOps.Lib.Isolation
import RedisOps.Lib.Outline
import RedisOps.Lib.Wire
import RedisOps.Lib.Window
import RedisOps.Lib.Descriptors
import RedisOps.Lib.Registry
import RedisOps.Lib.Broadcast
import RedisOps.Lib.Http
import RedisOps.Proto.Response
import RedisOps.Proto.Decoder
import RedisOps.Proto.Request
import RedisOps.Proto.Grammar
import RedisOps.Proto.Worker
import RedisOps.Proto.Client
import RedisOps.Proto.Link
import RedisOps.Proto.Rounds
import RedisOps.ZSet.Basic
import RedisOps.ZSet.Invariant
import RedisOps.ZSet.Query
import RedisOps.Store.Basic
import RedisOps.Store.Op
import RedisOps.Store.Expiry
import RedisOps.Store.Lists
import RedisOps.Store.ListSpec
import RedisOps.Store.Bits
import RedisOps.Store.Cells
import RedisOps.Handler.Dispatch
import RedisOps.Handler.Atomic
import RedisOps.Handler.Alike
import RedisOps.Handler.Expiry
import RedisOps.Handler.JobQueue
import RedisOps.Handler.JobStatus
import RedisOps.Handler.JobProgress
import RedisOps.Handler.Session
import RedisOps.Handler.JobPayload
import RedisOps.Handler.JobLog
import RedisOps.Handler.Summary
import RedisOps.Handler.Sandbox
import RedisOps.Handler.TimeSeries
import RedisOps.Handler.Refusal
import RedisOps.Handler.Deque
import RedisOps.Handler.BitField
import RedisOps.Handler.BitRace
import RedisOps.Handler.Ttl
import RedisOps.Handler.LogOrder
import RedisOps.Handler.PointRange
import RedisOps.Handler.MetricQuery
import RedisOps.Handler.Linear
import RedisOps.Handler.Footprint
import RedisOps.Handler.Workers
import RedisOps.Handler.Remote
import RedisOps.Handler.Report
import RedisOps.BTree.Page
import RedisOps.BTree.Bounds
import RedisOps.BTree.Accessors
import RedisOps.BTree.Leaf
import RedisOps.BTree.LeafBytes
import RedisOps.BTree.LeafRecord
import RedisOps.BTree.Tree
import RedisOps.BTree.Insert
import RedisOps.BTree.Delete
import RedisOps.BTree.Scan
import RedisOps.BTree.Subtree
import RedisOps.BTree.Split
import RedisOps.BTree.Cascade
import RedisOps.BTree.Wal
import RedisOps.BTree.WalCodec
import RedisOps.BTree.Calls
import RedisOps.BTree.Log
import RedisOps.BTree.TxIds
import RedisOps.BTree.Storage
import RedisOps.BTree.Race
import RedisOps.BTree.Failure
import RedisOps.BTree.Pool
import RedisOps.BTree.Coherence
import RedisOps.BTree.Lru
import RedisOps.BTree.Evict
import RedisOps.Tsdb.Series
import RedisOps.Tsdb.Query
import RedisOps.Tsdb.Retention
import RedisOps.Tsdb.Failure
import RedisOps.Streams
import RedisOps.StreamMap
import RedisOps.PubSub
import RedisOps.Logs
import RedisOps.FileWatcher
import RedisOps.Sandbox
import RedisOps.Supervisor.Process
import RedisOps.Supervisor.Alone
import RedisOps.Supervisor.Reaper
import RedisOps.Supervisor.Locks
import RedisOps.Supervisor.Roles
import RedisOps.Supervisor.Account
import RedisOps.Supervisor.Restart
import RedisOps.Ipc.Message
import RedisOps.Ipc.Reply
import RedisOps.Ipc.Channel
import RedisOps.Ipc.Delivery
import RedisOps.Ipc.Queue
import RedisOps.Ipc.Untrusted
import RedisOps.Resource.Usage
import RedisOps.Resource.Manager
import RedisOps.Resource.Monitor
import RedisOps.Metrics.Labels
import RedisOps.Metrics.Exporter
import RedisOps.Metrics.Server
import RedisOps.Snapshot.Meta
import RedisOps.Snapshot.Archive
import RedisOps.Snapshot.Shelf
import RedisOps.Security
import RedisOps.Security.Manager
import RedisOps.Netns.Namespace
import RedisOps.Netns.Host
import RedisOps.Netns.Addresses
import RedisOps.Server
import RedisOps.HttpApi
