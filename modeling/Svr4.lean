import Svr4.Runs
import Svr4.ResourceMap
import Svr4.LinkedCells
import Svr4.SpanMap
import Svr4.Flock.Records
import Svr4.Flock.Adjust
import Svr4.Flock.Flckadj
import Svr4.Flock.Outcome
import Svr4.Flock.Transitions
import Svr4.Flock.Exclusion
import Svr4.WaitGraph
import Svr4.Flock.Deadlock
import Svr4.Futex.Machine
import Svr4.Futex.Scheduling
import Svr4.Futex.Waits
import Svr4.Futex.Teardown
import Svr4.Futex.Reasons
import Svr4.Futex.OneReason
import Svr4.Futex.Endings
import Svr4.Dyadic
import Svr4.Kma.Allocator
import Svr4.Kma.Bitmap
import Svr4.Kma.Moves
import Svr4.Kma.Steps
import Svr4.Kma.Books
import Svr4.Kma.Alloc
import Svr4.Kma.Coalesce
import Svr4.Kma.Safety
import Svr4.Kma.Freepool
import Svr4.Kma.Release
import Svr4.Chains
import Svr4.Sem.Semaphores
import Svr4.Sem.Entries
import Svr4.Sem.Undos
import Svr4.Sem.Machine
import Svr4.Sem.Clearing
import Svr4.Sem.Books
import Svr4.Msg.Messages
import Svr4.Msg.Headers
import Svr4.Msg.Segments
import Svr4.Msg.Queues
import Svr4.Msg.Transfers
import Svr4.Msg.Choice
import Svr4.Msg.Delivery
import Svr4.DoublyLinked
import Svr4.RankedLists
import Svr4.Streams.Queues
import Svr4.Streams.Upkeep
import Svr4.Streams.Puts
import Svr4.Streams.Arrivals
import Svr4.Blocks
import Svr4.Streams.Departures
import Svr4.Streams.Flushes
import Svr4.Streams.Sides
import Svr4.Streams.Queueing
import Svr4.Streams.Books
import Svr4.Streams.Backenable
import Svr4.OrderedDicts
import Svr4.Host.DiskBacked
import Svr4.Host.PageCache
import Svr4.Host.Transparency
import Svr4.PointerTrees
import Svr4.Host.SparseReads
import Svr4.Host.Holes
import Svr4.Host.Names
import Svr4.Host.Links
import Svr4.Host.Deferred
import Svr4.Host.Deletion
import Svr4.Host.Reclaim
import Svr4.Host.Summary
import Svr4.Host.Unmount
import Svr4.DepthFirst
import Svr4.Mux.Graph
import Svr4.Mux.Search
import Svr4.Mux.Links
import Svr4.Accumulators
import Svr4.Host.Fsck
import Svr4.Host.FsckScan
import Svr4.Host.FsckIssues
import Svr4.Host.FsckRepair
import Svr4.Host.FsckConverge
import Svr4.ChainedTables
import Svr4.S5.FreeStack
import Svr4.S5.InodeScan
import Svr4.S5.InodeHint
import Svr4.OwnedForests
import Svr4.S5.BlockTrees
import Svr4.S5.ReadFailures
import Svr4.NumberedPieces
import Svr4.Ip.Fragments
import Svr4.Ip.Reassembly
import Svr4.Ip.Delivery
import Svr4.SerialNumbers
import Svr4.StreamPieces
import Svr4.Tcp.Segments
import Svr4.Tcp.Trimming
import Svr4.Tcp.Stream
import Svr4.Tcp.Splitting
import Svr4.Tcp.Upstream
import Svr4.ByteImages
import Svr4.Disk.Inspection
import Svr4.Disk.Blocks
import Svr4.Disk.Layout
import Svr4.BinaryHeaps
import Svr4.Clock.Heap
import Svr4.Clock.Timers
import Svr4.Pid.Table
import Svr4.Pid.Chains
import Svr4.Pid.Slots
import Svr4.Pid.Unique
import Svr4.Extents
import Svr4.ByteMoves
import Svr4.Bfs.Image
import Svr4.Bfs.Layout
import Svr4.Bfs.Calls
import Svr4.ExtentReach
import Svr4.Bfs.Compaction
import Svr4.Bfs.Books
import Svr4.Bfs.Directory
import Svr4.Bfs.Truncation
import Svr4.Bfs.Entries
import Svr4.Bfs.Moves
import Svr4.Bfs.Writing
import Svr4.Bfs.Room
import Svr4.Bfs.WriteCalls
import Svr4.Bfs.Accounting
import Svr4.Bfs.Contents
import Svr4.Pgrp.Membership
import Svr4.Pgrp.Calls
import Svr4.Pgrp.Orphans
import Svr4.Pgrp.Known
import Svr4.Ts.Class
import Svr4.Ts.Slices
import Svr4.Ts.Expiry
import Svr4.StreamPrograms
import Svr4.Xdr.Flat
import Svr4.Xdr.Careful
import Svr4.Xdr.Writing
import Svr4.Xdr.RoundTrip
import Svr4.Xdr.Agreement
import Svr4.Rings
import Svr4.Dnlc.Cache
import Svr4.Dnlc.Lists
import Svr4.Dnlc.References
import Svr4.Dnlc.Upkeep
import Svr4.Dnlc.Coherence
import Svr4.Dnlc.Known
import Svr4.Counting
import Svr4.Fio.Tables
import Svr4.Fio.Counts
import Svr4.Fio.Closes
import Svr4.Fio.Opens
import Svr4.Fio.Steps
import Svr4.Fio.Known
import Svr4.Ufs.Hashalloc
import Svr4.Ufs.Full
import Svr4.Kma.Reserve
import Svr4.Sem.Access
import Svr4.Host.AllocationSizes
import Svr4.Ufs.InodeRuns
import Svr4.Streams.RunList
import Svr4.Streams.Bufcalls
import Svr4.Ip.Options
import Svr4.Shm.Segments
import Svr4.Shm.Lifetime
import Svr4.Shm.Steps
import Svr4.Host.Ownership
import Svr4.Host.Reconcile
import Svr4.Host.Reconciled
import Svr4.Host.DirectoryRecords
import Svr4.Host.DirectoryBlocks
import Svr4.Host.DirectoryEdits
import Svr4.Host.Directories
import Svr4.OnesComplement
import Svr4.Ip.Checksum
import Svr4.Vm.Gaps
import Svr4.Vm.Hints
import Svr4.Vm.PageLocks
import Svr4.Vm.AlignedPages
import Svr4.Ufs.Blklist
import Svr4.Minima
import Svr4.Ts.Swaps
import Svr4.Futex.TimedWaits
