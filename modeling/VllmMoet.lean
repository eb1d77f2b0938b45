import VllmMoet.Lib.Transition
import VllmMoet.Lib.Liveness
import VllmMoet.Lib.LinkedList
import VllmMoet.CpuTier.Tail
import VllmMoet.CpuTier.TailInvariant
import VllmMoet.CpuTier.Serve
import VllmMoet.CpuTier.Calls
import VllmMoet.CpuTier.Arena
import VllmMoet.CpuTier.Pins
import VllmMoet.CpuTier.Capacity
import VllmMoet.CpuTier.Groups
import VllmMoet.CpuTier.Memory
import VllmMoet.CpuTier.Rows
import VllmMoet.CpuTier.Reads
import VllmMoet.CpuTier.ServedRows
import VllmMoet.CpuTier.AckedRows
import VllmMoet.CpuTier.PrefillRounds
import VllmMoet.CpuTier.Leftovers
import VllmMoet.CpuTier.Progress
import VllmMoet.CpuTier.EventuallyAcked
import VllmMoet.Lib.Arrivals
import VllmMoet.AllReduce.Kernels
import VllmMoet.AllReduce.Rounds
import VllmMoet.AllReduce.Counters
import VllmMoet.AllReduce.Exchange
import VllmMoet.AllReduce.Safety
import VllmMoet.Lib.Stream
import VllmMoet.Placement.Plan
import VllmMoet.Placement.Admission
import VllmMoet.Placement.LostPairs
import VllmMoet.Placement.NonCompact
import VllmMoet.Placement.Manager
import VllmMoet.Placement.PinLifetimes
import VllmMoet.Placement.Protocol
import VllmMoet.Placement.Safety
import VllmMoet.Lib.SlotMap
import VllmMoet.Lib.TopK
import VllmMoet.Delta.Tier
import VllmMoet.Delta.TakeSlots
import VllmMoet.Delta.Bookkeeping
import VllmMoet.Delta.Manager
import VllmMoet.Delta.Residency
import VllmMoet.Delta.SpecGuard
import VllmMoet.Delta.Fetched
import VllmMoet.Delta.StepPins
import VllmMoet.Pack.Tiered
import VllmMoet.Pack.Shared
import VllmMoet.Pack.TieredSafety
import VllmMoet.Lib.Uring
import VllmMoet.Engram.Fetcher
import VllmMoet.Engram.Bookkeeping
import VllmMoet.Engram.Reaping
import VllmMoet.Engram.BooksKept
import VllmMoet.Engram.Issued
import VllmMoet.Engram.Polling
import VllmMoet.Engram.Finishing
import VllmMoet.Engram.Acknowledged
import VllmMoet.Engram.RowsServed
import VllmMoet.Lib.Selection
import VllmMoet.Sparse.Interleave
import VllmMoet.Sparse.Merge
import VllmMoet.PrefillPipe.Run
import VllmMoet.Lib.Rows
import VllmMoet.Lib.Scatter
import VllmMoet.Exl3.GroupsAgree
import VllmMoet.Exl3.Ownership
import VllmMoet.Exl3.OwnedFetches
import VllmMoet.Exl3.SlotBuilder
import VllmMoet.Lib.Layout
import VllmMoet.Planes.Quintal
import VllmMoet.Bf12.Container
import VllmMoet.Lib.WarpReduce
import VllmMoet.MoeScatter.Layout
import VllmMoet.Lib.DescOrder
import VllmMoet.Lib.Blocks
import VllmMoet.Lib.Prefixes
import VllmMoet.Lib.OrderStat
import VllmMoet.Routing.TopP
import VllmMoet.Routing.Unpermute
import VllmMoet.Delta.Evictions
import VllmMoet.Delta.Windows
import VllmMoet.Descriptors.Builders
import VllmMoet.Descriptors.Service
import VllmMoet.DSpark.Padding
import VllmMoet.DSpark.Survival
import VllmMoet.DSpark.Widths
import VllmMoet.Gate.SpecMask
import VllmMoet.Planes.Cache
import VllmMoet.Lib.Spmd
import VllmMoet.Replay.Step
import VllmMoet.Replay.Lockstep
import VllmMoet.Replay.Strict
import VllmMoet.Planes.Repack
import VllmMoet.Engram.CacheArena
import VllmMoet.Engram.CacheRefines
import VllmMoet.Engram.Lookahead
import VllmMoet.PrefillPipe.Order
import VllmMoet.CpuTier.Logs
import VllmMoet.CpuMoe.Wakeups
import VllmMoet.CpuMoe.Fc2Align
import VllmMoet.CpuMoe.Fc1Rows
import VllmMoet.Lib.Phases
import VllmMoet.CpuMoe.Reference
import VllmMoet.DetTopk.ClusterKernel
