import Rmdb.Defs
import Rmdb.Lib.Bisect
import Rmdb.Index.Key
import Rmdb.Index.Node
import Rmdb.Index.Handle
import Rmdb.Index.Levels
import Rmdb.Index.Steps
import Rmdb.Index.Insert
import Rmdb.Index.Merge
import Rmdb.Index.Tree
import Rmdb.Index.Update
import Rmdb.Index.Remove
import Rmdb.Index.Map
import Rmdb.Index.Invariant
import Rmdb.Index.Alloc
import Rmdb.Index.Scan
import Rmdb.Record.Heap
import Rmdb.Execution.Row
import Rmdb.Execution.Content
import Rmdb.Execution.Statement
import Rmdb.Transaction.Rollback
import Rmdb.Execution.Failure
import Rmdb.Transaction.Gap
import Rmdb.Transaction.LockManager
import Rmdb.Transaction.LockSteps
import Rmdb.Transaction.TwoPhase
import Rmdb.Transaction.Release
import Rmdb.Transaction.LockQueue
import Rmdb.Transaction.GapLocks
import Rmdb.Transaction.Compatible
import Rmdb.Transaction.WaitDie
import Rmdb.Execution.Scan
import Rmdb.Execution.Locks
import Rmdb.Lib.Undo
import Rmdb.Transaction.Interleave
import Rmdb.Lib.Iter
import Rmdb.Execution.JoinCond
import Rmdb.Execution.NestedLoopJoin
import Rmdb.Execution.Merge
import Rmdb.Execution.SortMergeJoin
import Rmdb.Optimizer.Planner
import Rmdb.Optimizer.Conditions
import Rmdb.Optimizer.Delivery
import Rmdb.Optimizer.Order
import Rmdb.Index.Cut
import Rmdb.Execution.SeqScan
import Rmdb.Execution.ScanRange
import Rmdb.Execution.ScanBounds
import Rmdb.Execution.IndexScan
import Rmdb.Execution.PlainScan
import Rmdb.Execution.UpdateSets
import Rmdb.Optimizer.Logical
import Rmdb.Record.Page
import Rmdb.Record.File
import Rmdb.Record.Pins
import Rmdb.Record.TableMap
import Rmdb.Execution.Aggregate
import Rmdb.Lib.Group
import Rmdb.Execution.SeqScanExecutor
import Rmdb.Execution.AggregateTable
import Rmdb.Execution.AggregateGroups
import Rmdb.Execution.AggregateRows
import Rmdb.Execution.Portal
import Rmdb.Execution.FastCount
import Rmdb.Storage.BufferPool
import Rmdb.Storage.Clients
import Rmdb.Storage.PoolSteps
import Rmdb.Storage.PoolInvariant
import Rmdb.Storage.PoolCalls
import Rmdb.Storage.Transparency
import Rmdb.Execution.IndexScanExecutor
import Rmdb.Optimizer.IndexCols
import Rmdb.Execution.MinMax
import Rmdb.Execution.GapOverlap
import Rmdb.Transaction.CountedRuns
import Rmdb.Transaction.InsertProgress
import Rmdb.Execution.InsertLock
import Rmdb.Lib.Text
import Rmdb.System.Catalog
import Rmdb.System.CreateIndex
import Rmdb.System.CreateTable
import Rmdb.System.Analyze
import Rmdb.Lib.Frames
import Rmdb.Recovery.LogRecord
import Rmdb.Index.Header
import Rmdb.Recovery.Analyze
import Rmdb.Recovery.LogManager
import Rmdb.Recovery.Undo
import Rmdb.Recovery.Redo
import Rmdb.Storage.PageTable
import Rmdb.Storage.PinCounts
import Rmdb.Storage.FailedFetch
import Rmdb.Execution.ScanInside
import Rmdb.Execution.FullScan
import Rmdb.Optimizer.MergeInputs
