import AnarchoRedis.Base.Runs
import AnarchoRedis.Base.Bytes
import AnarchoRedis.Base.Decimal
import AnarchoRedis.Base.Stream
import AnarchoRedis.Base.SortedMap
import AnarchoRedis.Base.BigEndian
import AnarchoRedis.Base.Mutex
import AnarchoRedis.Base.Critical
import AnarchoRedis.Base.Iterators
import AnarchoRedis.Base.Buffered
import AnarchoRedis.Protocol.Commands
import AnarchoRedis.Protocol.Message
import AnarchoRedis.Protocol.Coder
import AnarchoRedis.Protocol.Wire
import AnarchoRedis.Protocol.Relay
import AnarchoRedis.Protocol.Resp
import AnarchoRedis.Protocol.Sound
import AnarchoRedis.Protocol.Ends
import AnarchoRedis.Protocol.Size
import AnarchoRedis.Protocol.Trace
import AnarchoRedis.Protocol.Unique
import AnarchoRedis.Protocol.Elements
import AnarchoRedis.Protocol.Chunk
import AnarchoRedis.Protocol.Bulk
import AnarchoRedis.Protocol.Body
import AnarchoRedis.Protocol.Cmd
import AnarchoRedis.Protocol.Delivery
import AnarchoRedis.Protocol.Keys
import AnarchoRedis.Protocol.Reuse
import AnarchoRedis.Protocol.Proxy
import AnarchoRedis.Protocol.Conn
import AnarchoRedis.Protocol.Locks
import AnarchoRedis.Protocol.Raw
import AnarchoRedis.Protocol.Sending
import AnarchoRedis.Replication.System
import AnarchoRedis.Replication.Steps
import AnarchoRedis.Replication.Stream
import AnarchoRedis.Replication.Subscribers
import AnarchoRedis.Replication.Offset
import AnarchoRedis.Replication.Handshake
import AnarchoRedis.Replication.Dispatch
import AnarchoRedis.Replication.Acks
import AnarchoRedis.Replication.Signal
import AnarchoRedis.Replication.Greeting
import AnarchoRedis.Txn.System
import AnarchoRedis.Txn.Steps
import AnarchoRedis.Txn.Guards
import AnarchoRedis.Txn.Durability
import AnarchoRedis.Txn.Exclusion
import AnarchoRedis.Txn.Reads
import AnarchoRedis.Txn.Database
import AnarchoRedis.Txn.Orphans
import AnarchoRedis.Txn.Subscriptions
import AnarchoRedis.Txn.Coded
import AnarchoRedis.Txn.Loose
import AnarchoRedis.Txn.Order
import AnarchoRedis.Txn.Progress
import AnarchoRedis.Localstate.Keylocker
import AnarchoRedis.Localstate.Await
import AnarchoRedis.Localstate.Expiry
import AnarchoRedis.Kafka.Log
import AnarchoRedis.Kafka.Consumer
import AnarchoRedis.Raft.Store
import AnarchoRedis.Raft.StoreLogs
import AnarchoRedis.Raft.DeleteRange
import AnarchoRedis.Raft.Exact
import AnarchoRedis.Raft.Stable
import AnarchoRedis.Raft.Index
import AnarchoRedis.Raft.Refinement
import AnarchoRedis.Raft.Gapless
import AnarchoRedis.Server.Serve
import AnarchoRedis.Server.Clients
