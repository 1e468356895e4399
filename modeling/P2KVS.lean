import P2KVS.Foundation.Transition
import P2KVS.Foundation.History
import P2KVS.Foundation.Channel
import P2KVS.Foundation.Capacity
import P2KVS.Foundation.Sorted
import P2KVS.Foundation.Merging
import P2KVS.Foundation.BigEndian
import P2KVS.Foundation.Storage
import P2KVS.Foundation.Intrusive
import P2KVS.Foundation.Loop
import P2KVS.Foundation.LittleEndian
import P2KVS.Foundation.Crc
import P2KVS.Store.Key
import P2KVS.Merge.Iterator
import P2KVS.Merge.Faithful
import P2KVS.Merge.Refinement
import P2KVS.Merge.Shared
import P2KVS.Merge.Failures
import P2KVS.Store.Instance
import P2KVS.Ycsb.Worker
import P2KVS.Ycsb.Ledger
import P2KVS.Ycsb.Order
import P2KVS.Ycsb.Dispatch
import P2KVS.Ycsb.Writes
import P2KVS.Ycsb.Reads
import P2KVS.Ycsb.Scans
import P2KVS.Ycsb.Coverage
import P2KVS.Ycsb.Idle
import P2KVS.Ycsb.SingleScan
import P2KVS.Ycsb.KeyBuffer
import P2KVS.Ycsb.Capacity
import P2KVS.Ycsb.Tally
import P2KVS.Ycsb.BatchSize
import P2KVS.Ycsb.Kinds
import P2KVS.Ycsb.Trace
import P2KVS.RocksDB.GroupCommit
import P2KVS.RocksDB.WriteThread
import P2KVS.RocksDB.Queue.View
import P2KVS.RocksDB.Queue.Places
import P2KVS.RocksDB.Queue.Linking
import P2KVS.RocksDB.Queue.Closing
import P2KVS.RocksDB.Queue.Insertion
import P2KVS.RocksDB.Queue.Exit
import P2KVS.RocksDB.Queue.Release
import P2KVS.RocksDB.Queue.Safety
import P2KVS.RocksDB.Queue.Progress
import P2KVS.RocksDB.Queue.Completion
import P2KVS.RocksDB.AwaitState.Protocol
import P2KVS.RocksDB.AwaitState.Wakeup
import P2KVS.RocksDB.AwaitState.Goals
import P2KVS.RocksDB.Queue.Turns
import P2KVS.RocksDB.WriteImpl
import P2KVS.RocksDB.Account.Ledger
import P2KVS.RocksDB.Account.Members
import P2KVS.RocksDB.Account.Books
import P2KVS.RocksDB.Durability
import P2KVS.RocksDB.Refinement.Relation
import P2KVS.RocksDB.Refinement.Frames
import P2KVS.RocksDB.Refinement.Simulation
import P2KVS.RocksDB.SequenceNumbers
import P2KVS.Wal.CrcTables
import P2KVS.Wal.Crc32c
import P2KVS.Wal.LogWriter
import P2KVS.Wal.LogReader
import P2KVS.Wal.LogRoundTrip
import P2KVS.Wal.LogRecovery
import P2KVS.WriteTest.Worker
import P2KVS.WriteTest.EndToEnd
import P2KVS.WriteTest.Batching
import P2KVS.Report
import P2KVS.ReadTest.Worker
import P2KVS.ReadTest.Dispatch
import P2KVS.ReadTest.LevelDB
import P2KVS.ReadTest.KeyBuffer
import P2KVS.ReadTest.Location
import P2KVS.ScanTest.System
import P2KVS.ScanTest.Handshake
import P2KVS.ScanTest.Rounds
import P2KVS.ScanTest.Agreement
import P2KVS.ScanTest.VectorMerge
import P2KVS.ScanTest.Continuity
import P2KVS.ScanTest.Refill
