import ByoRedis.Lib.AvlTree
import ByoRedis.Lib.AvlTreeOps
import ByoRedis.Lib.Buckets
import ByoRedis.Lib.ByteBuf
import ByoRedis.Lib.CNumber
import ByoRedis.Lib.CString
import ByoRedis.Lib.Double
import ByoRedis.Lib.Framing
import ByoRedis.Lib.NodeList
import ByoRedis.Lib.Rounding
import ByoRedis.Lib.Run
import ByoRedis.Lib.Strtod
import ByoRedis.Container.Common
import ByoRedis.Container.HashTable
import ByoRedis.Container.HashTableInv
import ByoRedis.Container.HashTableLoad
import ByoRedis.Container.HashTableCursor
import ByoRedis.Container.HashTableForeach
import ByoRedis.Container.HashTableRefine
import ByoRedis.Container.HashTableCost
import ByoRedis.Container.Heap
import ByoRedis.Container.HeapInv
import ByoRedis.Container.HeapOrder
import ByoRedis.Container.HeapQueue
import ByoRedis.Container.List
import ByoRedis.Container.Lru
import ByoRedis.Container.LruRecency
import ByoRedis.Container.ThreadPool
import ByoRedis.Container.ThreadPoolWake
import ByoRedis.Container.Avl
import ByoRedis.Container.AvlRepr
import ByoRedis.Container.AvlOps
import ByoRedis.Container.AvlExact
import ByoRedis.Container.AvlCost
import ByoRedis.Container.Zset
import ByoRedis.Container.ZsetPaired
import ByoRedis.Container.ZsetTree
import ByoRedis.Container.ZsetClear
import ByoRedis.Container.ZsetInv
import ByoRedis.Container.ZsetRefine
import ByoRedis.Container.ZsetQuery
import ByoRedis.Server.Buffer
import ByoRedis.Server.Request
import ByoRedis.Server.Response
import ByoRedis.Server.Conn
import ByoRedis.Server.Db
import ByoRedis.Server.EventLoop
import ByoRedis.Server.Frame
import ByoRedis.Server.Message
import ByoRedis.Server.RequestCodec
import ByoRedis.Server.Store
import ByoRedis.Server.Timers
import ByoRedis.Server.DbInv
import ByoRedis.Server.DbSim
import ByoRedis.Server.Keyspace
import ByoRedis.Server.Destruction
import ByoRedis.Server.FloatArg
import ByoRedis.Server.IntArg
import ByoRedis.Server.Zquery
import ByoRedis.Server.ConnInv
import ByoRedis.Server.Pipeline
import ByoRedis.Server.EventLoopInv
import ByoRedis.Server.EventLoopRun
import ByoRedis.Server.PollTimeout
import ByoRedis.Server.TimerProgress
import ByoRedis.Server.Log
import ByoRedis.Server.LogInv
import ByoRedis.Server.Service
import ByoRedis.Server.Locality
import ByoRedis.Server.Linear
import ByoRedis.Server.Expiry
import ByoRedis.Server.Paging
import ByoRedis.Server.Drain
import ByoRedis.Server.Reorder
import ByoRedis.Server.Resources
import ByoRedis.Client.Request
import ByoRedis.Client.RequestBuffer
import ByoRedis.Client.Response
import ByoRedis.Client.ResponseFrame
import ByoRedis.Client.Decode
import ByoRedis.Client.Io
import ByoRedis.Client.Exchange
import ByoRedis.Client.Lines
import ByoRedis.Client.Session
import ByoRedis.Client.Sequence
