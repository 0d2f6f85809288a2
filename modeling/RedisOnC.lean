import RedisOnC.Lib.WhileLoop
import RedisOnC.Lib.LittleEndian
import RedisOnC.Lib.TreeContext
import RedisOnC.Lib.AvlTree
import RedisOnC.Avl.Basic
import RedisOnC.Avl.Rep
import RedisOnC.Avl.Fix
import RedisOnC.Avl.Del
import RedisOnC.Hashtable.Basic
import RedisOnC.Lib.Buckets
import RedisOnC.Hashtable.Invariant
import RedisOnC.Hashtable.Refine
import RedisOnC.Lib.TreeSearch
import RedisOnC.Lib.ByteOrder
import RedisOnC.Zset.Basic
import RedisOnC.Zset.Order
import RedisOnC.Zset.Invariant
import RedisOnC.Zset.Ops
import RedisOnC.Zset.Refine
import RedisOnC.Protocol.Serial
import RedisOnC.Server.Strings
import RedisOnC.Server.Basic
import RedisOnC.Server.Models
import RedisOnC.Server.Commands
import RedisOnC.Server.LastWrite
import RedisOnC.Server.Keyspace
import RedisOnC.Lib.Buffer
import RedisOnC.Protocol.Parse
import RedisOnC.Lib.Outcome
import RedisOnC.Conn.Basic
import RedisOnC.Conn.Served
import RedisOnC.Conn.Stream
import RedisOnC.Conn.RecvSafety
import RedisOnC.Conn.Stranded
import RedisOnC.Conn.Framing
import RedisOnC.Protocol.Request
import RedisOnC.Protocol.Response
import RedisOnC.Protocol.Grammar
import RedisOnC.Protocol.Decoder
import RedisOnC.Protocol.Counts
import RedisOnC.Client.ReadRes
import RedisOnC.Server.Content
import RedisOnC.Server.Ownership
import RedisOnC.Lib.Ring
import RedisOnC.Loop.Basic
import RedisOnC.Loop.Invariant
import RedisOnC.Loop.Timers
import RedisOnC.Avl.Offset
import RedisOnC.Zset.Query
import RedisOnC.Server.Window
import RedisOnC.Server.Query
import RedisOnC.Avl.WellFormed
import RedisOnC.Hashtable.Migration
import RedisOnC.Server.Limits
import RedisOnC.Server.Numbers
import RedisOnC.Avl.Terminates
import RedisOnC.Server.Values
import RedisOnC.Client.Delivered
import RedisOnC.Lib.Lockstep
import RedisOnC.Lib.Sequential
import RedisOnC.Conn.Record
import RedisOnC.Conn.Exchange
import RedisOnC.Loop.History
import RedisOnC.Loop.Linearizable
import RedisOnC.Client.Session
import RedisOnC.Server.Dispose
import RedisOnC.Lib.Chain
import RedisOnC.Hashtable.Linked
import RedisOnC.Hashtable.Simulation
import RedisOnC.Hashtable.LinkedRefine
import RedisOnC.Lib.Rounds
import RedisOnC.Hashtable.Cost
import RedisOnC.Loop.Turns
import RedisOnC.Avl.Container
import RedisOnC.Avl.ContainerTests
import RedisOnC.Avl.Cost
import RedisOnC.Zset.Cost
