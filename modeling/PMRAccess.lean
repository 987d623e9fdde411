import PMRAccess.Lib.Run
import PMRAccess.Lib.Bytes
import PMRAccess.Lib.Fifo
import PMRAccess.Lib.Extent
import PMRAccess.Lib.Wire
import PMRAccess.Lib.Ring
import PMRAccess.Lib.Endian
import PMRAccess.Lib.Overlay
import PMRAccess.Lib.Slots
import PMRAccess.Lib.Cas
import PMRAccess.Lib.Objects
import PMRAccess.Lib.Linear
import PMRAccess.Lib.Progress
import PMRAccess.Request
import PMRAccess.Generator
import PMRAccess.Database
import PMRAccess.Atomic
import PMRAccess.Backend
import PMRAccess.Bitset
import PMRAccess.Blindset
import PMRAccess.Uring
import PMRAccess.Pmr.State
import PMRAccess.Pmr.Step
import PMRAccess.Pmr.History
import PMRAccess.Pmr.Proof.Moves
import PMRAccess.Pmr.Proof.Own
import PMRAccess.Pmr.Proof.Sync
import PMRAccess.Pmr.Proof.Data
import PMRAccess.Pmr.Proof.Index
import PMRAccess.Pmr.Proof.Flush
import PMRAccess.Pmr.Proof.FailedWrite
import PMRAccess.Pmr.Proof.Refine
import PMRAccess.Pmr.Proof.Delete
import PMRAccess.Pmr.Proof.Log
import PMRAccess.Pmr.Proof.Durable
import PMRAccess.Pmr.Proof.Replies
import PMRAccess.Pmr.Proof.Linear
import PMRAccess.Pmr.Proof.Progress
import PMRAccess.Pmr.Proof.UringRun
import PMRAccess.Group.Batch
import PMRAccess.Puts
import PMRAccess.Group.State
import PMRAccess.Group.Ringlog
import PMRAccess.Group.Step
import PMRAccess.Group.History
import PMRAccess.Group.Proof.Moves
import PMRAccess.Group.Proof.Queue
import PMRAccess.Group.Proof.Held
import PMRAccess.Group.Proof.Commit
import PMRAccess.Group.Proof.Reads
import PMRAccess.Group.Proof.Replies
import PMRAccess.Group.Proof.Linear
import PMRAccess.Group.Proof.Progress
import PMRAccess.Rdma.Post
import PMRAccess.Rdma.Handshake
import PMRAccess.Rdma.Proof.Message
import PMRAccess.Rdma.Proof.Turn
import PMRAccess.Rdma.Proof.StopAndWait
import PMRAccess.Rdma.Verbs
import PMRAccess.Rdma.Certificate
import PMRAccess.Rdma.Release
import PMRAccess.Pmem.Step
import PMRAccess.Serve
import PMRAccess.Rdma.Connect
import PMRAccess.Pmem.Listen
import PMRAccess.Pmem.Proof.Replies
import PMRAccess.Pmem.Proof.Linear
import PMRAccess.Pmem.Proof.Ring
import PMRAccess.Rdma.Posted
import PMRAccess.Rdma.Cas
import PMRAccess.Rdma.ClientBuf
import PMRAccess.Roundtrip
import PMRAccess.Lib.Gf2
import PMRAccess.Leveldb.WriteBatch
import PMRAccess.Leveldb.Log
import PMRAccess.Leveldb.Crc32c
import PMRAccess.Lib.Linked
import PMRAccess.Leveldb.SkipList
import PMRAccess.Leveldb.Proof.SkipList
import PMRAccess.Leveldb.MemTable
import PMRAccess.Leveldb.Db
import PMRAccess.Leveldb.Proof.Db
import PMRAccess.Leveldb.Recover
import PMRAccess.Leveldb.Proof.Recover
