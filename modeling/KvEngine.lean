import KvEngine.Lib.Comparison
import KvEngine.Lib.SortedEntries
import KvEngine.Lib.Vector
import KvEngine.Lib.Simulation
import KvEngine.Status
import KvEngine.Slice
import KvEngine.BTree.Store
import KvEngine.BTree.Tree
import KvEngine.BTree.Verify
import KvEngine.BTree.Iterator
import KvEngine.Lib.Footprint
import KvEngine.Lib.Shape
import KvEngine.BTree.Represent
import KvEngine.BTree.Replace
import KvEngine.BTree.Insert
import KvEngine.BTree.Separators
import KvEngine.BTree.Siblings
import KvEngine.BTree.Rebalance
import KvEngine.BTree.Erase
import KvEngine.BTree.Invariant
import KvEngine.BTree.Lookup
import KvEngine.BTree.Refinement
import KvEngine.BTree.Scan
import KvEngine.BTree.VerifyRun
import KvEngine.BTree.Structure
import KvEngine.Lib.LittleEndian
import KvEngine.Lib.Framing
import KvEngine.Wal.Record
import KvEngine.Wal.Disk
import KvEngine.Wal.Log
import KvEngine.Wal.Decode
import KvEngine.Wal.Writing
import KvEngine.Wal.Append
import KvEngine.Wal.Segments
import KvEngine.Lib.Crc32
import KvEngine.Wal.Truncate
import KvEngine.Engine.KVEngine
import KvEngine.Engine.Reopen
import KvEngine.Wal.Damage
import KvEngine.Wal.Ledger
import KvEngine.Engine.Calls
import KvEngine.Engine.Durability
import KvEngine.Lib.LastWriter
import KvEngine.Engine.Agreement
import KvEngine.Wal.Settled
import KvEngine.Engine.Stored
import KvEngine.Engine.Faults
import KvEngine.BTree.Verified
import KvEngine.Lib.LinkedList
import KvEngine.MemTable.SkipList
import KvEngine.MemTable.MemTable
import KvEngine.MemTable.Levels
import KvEngine.MemTable.Reference
import KvEngine.MemTable.Size
import KvEngine.Lib.Extremes
import KvEngine.MemTable.Usage
import KvEngine.MemTable.Cursors
import KvEngine.Lib.FrontCoding
import KvEngine.SSTable.Format
import KvEngine.SSTable.Builder
import KvEngine.SSTable.Reader
import KvEngine.Lib.Rounds
import KvEngine.SSTable.Parsing
import KvEngine.SSTable.Footer
import KvEngine.SSTable.Checksum
import KvEngine.SSTable.Filling
import KvEngine.SSTable.Layout
import KvEngine.SSTable.Block
import KvEngine.SSTable.Inside
import KvEngine.SSTable.Index
import KvEngine.SSTable.Accepting
import KvEngine.SSTable.Metadata
import KvEngine.SSTable.Table
import KvEngine.SSTable.TableLookup
import KvEngine.SSTable.TableScan
import KvEngine.Lib.Bits
import KvEngine.SSTable.Filter
import KvEngine.Flush.FlushManager
import KvEngine.Flush.Handing
import KvEngine.Lib.Slots
import KvEngine.Lib.Steps
import KvEngine.Flush.Workers
import KvEngine.Flush.Places
import KvEngine.Flush.Waiting
import KvEngine.Flush.Stopping
import KvEngine.Flush.FlushScheduler
import KvEngine.Lib.Decimal
import KvEngine.Lib.Search
import KvEngine.Api.ContentLength
import KvEngine.Api.Request
import KvEngine.Lib.Escapes
import KvEngine.Api.Percent
import KvEngine.Api.Json
import KvEngine.Api.HandleRequest
import KvEngine.Api.Chunks
import KvEngine.Engine.Reached
import KvEngine.Api.RangeQuery
import KvEngine.Api.RangeScan
import KvEngine.Api.Response
import KvEngine.Engine.Refusal
import KvEngine.Api.Server
import KvEngine.Api.Concurrent
import KvEngine.Api.Restart
import KvEngine.Wal.FileNames
import KvEngine.Wal.Copies
import KvEngine.Wal.FileSizes
import KvEngine.Wal.Limits
import KvEngine.BTree.Counters
import KvEngine.BTree.Seek
import KvEngine.Cli.CLI
import KvEngine.Cli.Quoting
import KvEngine.Cli.Session
import KvEngine.Cli.Typing
import KvEngine.Engine.Progress
import KvEngine.Engine.Replay
import KvEngine.Wal.Accounts
