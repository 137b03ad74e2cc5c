import LlvmGather.Library.Scan
import LlvmGather.Library.Walk
import LlvmGather.Library.NaturalLoop
import LlvmGather.Library.Dominator
import LlvmGather.Library.PostOrder
import LlvmGather.Library.BitVector
import LlvmGather.Library.Mask
import LlvmGather.Library.ByteStore
import LlvmGather.Library.Partial
import LlvmGather.Library.Truncation
import LlvmGather.Library.CountedLoop
import LlvmGather.Library.Machine
import LlvmGather.Library.Monitor
import LlvmGather.Library.Recency
import LlvmGather.Library.Stable
import LlvmGather.Library.Fuel
import LlvmGather.Ir.Core
import LlvmGather.Ir.Ssa
import LlvmGather.Ir.Certificate
import LlvmGather.Ir.Edit
import LlvmGather.Ir.Semantics
import LlvmGather.Ir.Motion
import LlvmGather.Ir.Simulation
import LlvmGather.Ir.Integer
import LlvmGather.Ir.Rewrite
import LlvmGather.Ir.Redirection
import LlvmGather.DataFlow.Core
import LlvmGather.DataFlow.Domain
import LlvmGather.DataFlow.Solution
import LlvmGather.DataFlow.Marking
import LlvmGather.DataFlow.Extremal
import LlvmGather.DataFlow.Termination
import LlvmGather.DataFlow.Width
import LlvmGather.Analysis.Dominance
import LlvmGather.Analysis.Liveness
import LlvmGather.Analysis.Available
import LlvmGather.Analysis.StrongLiveness
import LlvmGather.Analysis.StrongClosure
import LlvmGather.Analysis.Framework
import LlvmGather.Analysis.Printing
import LlvmGather.Analysis.PrintedResults
import LlvmGather.Transform.DeadCode
import LlvmGather.Transform.DeadCodeOrder
import LlvmGather.Transform.DominatorTree
import LlvmGather.Transform.LoopInvariant
import LlvmGather.Transform.Hoisting
import LlvmGather.Transform.ImmediateDominator
import LlvmGather.Transform.LoopTree
import LlvmGather.Transform.InvariantSet
import LlvmGather.Transform.Placement
import LlvmGather.Transform.Pipeline
import LlvmGather.LocalOpts.Folding
import LlvmGather.LocalOpts.Strength
import LlvmGather.LocalOpts.Logarithm
import LlvmGather.LocalOpts.Identities
import LlvmGather.LocalOpts.Passes
import LlvmGather.LocalOpts.Preservation
import LlvmGather.LocalOpts.Fixpoint
import LlvmGather.LocalOpts.Becoming
import LlvmGather.LocalOpts.Overflow
import LlvmGather.LocalOpts.Loop
import LlvmGather.Gather.Request
import LlvmGather.Gather.Cpu
import LlvmGather.Gather.Permutation
import LlvmGather.Gather.Packet
import LlvmGather.Gather.Memory
import LlvmGather.Gather.Tile
import LlvmGather.Gather.Tags
import LlvmGather.Gather.Cache
import LlvmGather.Gather.Atomic
import LlvmGather.Gather.Consistency
import LlvmGather.Gather.Transparency
import LlvmGather.Gather.ReadHit
import LlvmGather.Gather.Mshr
import LlvmGather.Gather.Timing
import LlvmGather.Gather.LineSafety
import LlvmGather.Gather.TimingSafety
import LlvmGather.Gather.Coherence
import LlvmGather.Gather.Keys
import LlvmGather.Gather.WriteThrough
import LlvmGather.Gather.Functional
import LlvmGather.Gather.SimpleMemory
import LlvmGather.Gather.FlowControl
import LlvmGather.Gather.Regulation
import LlvmGather.Gather.Reservations
import LlvmGather.Gather.Lru
import LlvmGather.Gather.MshrQueue
import LlvmGather.Gather.MshrOrder
import LlvmGather.Gather.MshrView
import LlvmGather.Gather.PacketQueue
import LlvmGather.Gather.Transmission
import LlvmGather.Generator.Patterns
import LlvmGather.Generator.Bounds
import LlvmGather.Generator.Coverage
import LlvmGather.LoopMemory.Stride
import LlvmGather.LoopMemory.Tracking
import LlvmGather.Gather.PageTable
import LlvmGather.Gather.Flush
import LlvmGather.Gather.SplitAccess
