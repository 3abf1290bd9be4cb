import DistKv.Lib.BlockHeap
import DistKv.Lib.StableInsert
import DistKv.Lib.FirstMatch
import DistKv.Lib.Transition
import DistKv.Lib.History
import DistKv.Lib.CommonOrder
import DistKv.Lib.Decimal
import DistKv.Lib.CString
import DistKv.Lib.CStdio
import DistKv.Tob.Queue
import DistKv.Tob.QueueSpec
import DistKv.Tob.Middleware
import DistKv.Tob.Protocol
import DistKv.Tob.Tags
import DistKv.Tob.Accounts
import DistKv.Tob.Ledger
import DistKv.Tob.Delivery
import DistKv.Tob.Order
import DistKv.Tob.Agreement
import DistKv.Tob.SharedFile
import DistKv.Tob.Stopped
import DistKv.Tob.Quiescence
import DistKv.Tob.Uid
import DistKv.Memcache.HashMap
import DistKv.Memcache.Server
import DistKv.Memcache.LastWrite
import DistKv.Memcache.Log
import DistKv.Memcache.LogLines
import DistKv.Memcache.Recovery
import DistKv.Memcache.RecoveredValues
import DistKv.Tob.QueueRuns
import DistKv.Lib.WorkQueue
import DistKv.Memcache.ThreadQueue
import DistKv.Memcache.ConnPool
import DistKv.Lib.LogicalClock
import DistKv.Tob.LamportClock
import DistKv.Lib.CStdlib
import DistKv.Tob.Wire
import DistKv.Tob.Broadcast
import DistKv.Memcache.HandleClient
import DistKv.Memcache.ParseBody
import DistKv.Memcache.Client
import DistKv.Memcache.SetRoundTrip
import DistKv.Memcache.Replies
import DistKv.Memcache.Fetch
import DistKv.Memcache.Segments
import DistKv.Memcache.StoredNodes
import DistKv.Memcache.HeaderErrno
import DistKv.Lib.Pieces
import DistKv.Tob.Transfer
import DistKv.Memcache.DeleteNode
import DistKv.Tob.HeadAcks
import DistKv.Memcache.NodeSizes
import DistKv.Lib.ChainSort
import DistKv.Tob.OrderQueue
import DistKv.Memcache.Bounds
import DistKv.Lib.Horner
import DistKv.Memcache.HashBytes
import DistKv.Lib.PassLoop
import DistKv.AddressLoop
import DistKv.Lib.Format
import DistKv.Tob.HandleClient
import DistKv.Tob.Control
import DistKv.Tob.ClientApp
import DistKv.Tob.Bounds
import DistKv.Memcache.ClientBuffers
import DistKv.Lib.Ranking
import DistKv.Tob.Termination
import DistKv.Tob.Progress
import DistKv.Tob.Lost
import DistKv.Tob.FileContents
import DistKv.Lib.Linearizable
import DistKv.Memcache.HashThreads
import DistKv.Memcache.HashLedger
import DistKv.Memcache.HashAtomic
import DistKv.Memcache.HashLog
import DistKv.Memcache.Pipeline
import DistKv.Memcache.ClientsServed
import DistKv.Memcache.TornLines
import DistKv.Memcache.Torn
import DistKv.Tob.WireRefinement
import DistKv.Tob.WireHandled
