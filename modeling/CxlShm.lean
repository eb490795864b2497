import CxlShm.Lib.Transition
import CxlShm.Lib.SlotCount
import CxlShm.Lib.FoldMax
import CxlShm.Lib.Loop
import CxlShm.RefStep
import CxlShm.Redo
import CxlShm.EraCommit
import CxlShm.EraDecision
import CxlShm.EraMalloc
import CxlShm.SlotReuse
import CxlShm.LeakFlag
import CxlShm.Registration
import CxlShm.DropExact
import CxlShm.RecoveryExact
import CxlShm.QueueSteps
import CxlShm.QueueOrphans
import CxlShm.RingExact
import CxlShm.RedoLoads
import CxlShm.Lib.DoublyLinked
import CxlShm.PageQueue
import CxlShm.PageAlloc
import CxlShm.PageLists
import CxlShm.SegmentAccount
import CxlShm.PageFresh
import CxlShm.Alloc
import CxlShm.Cascade
import CxlShm.BlockLists
import CxlShm.HashIndex
import CxlShm.AllocRun
import CxlShm.Pool
import CxlShm.SizeClass
import CxlShm.OutOfSegments
import CxlShm.EraScan
import CxlShm.QueueCrash
import CxlShm.StalePayload
import CxlShm.RecoveryAgree
import CxlShm.Clients
import CxlShm.Idle
import CxlShm.Handle
import CxlShm.MapReduce
import CxlShm.FreshObject
import CxlShm.Counters
import CxlShm.HeapSteps
import CxlShm.World
import CxlShm.WorldCalls
import CxlShm.WorldHeap
import CxlShm.WorldRun
import CxlShm.WorldSteps
import CxlShm.WorldQueues
import CxlShm.WorldExact
import CxlShm.WorldRequests
import CxlShm.HandleCount
import CxlShm.WorldBlocks
import CxlShm.RingFifo
import CxlShm.Lib.LinkedStack
import CxlShm.ThreadFree
import CxlShm.SegmentScan
import CxlShm.Monitor
import CxlShm.IndexExact
import CxlShm.Lib.AppendChain
import CxlShm.IndexRun
import CxlShm.IndexPut
import CxlShm.LocalFree
import CxlShm.RecoveryTwins
import CxlShm.CallCount
import CxlShm.Handover
import CxlShm.HandoverExact
