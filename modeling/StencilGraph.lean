import StencilGraph.Framework.MachineInt
import StencilGraph.Framework.MixedRadix
import StencilGraph.Framework.Dataflow
import StencilGraph.Framework.Packing
import StencilGraph.Framework.Double
import StencilGraph.Framework.Memcpy
import StencilGraph.Micro.Session
import StencilGraph.Micro.SessionAgreement
import StencilGraph.Micro.ReceiveBuffer
import StencilGraph.Support.RingBuffer
import StencilGraph.Support.RingBufferCallbacks
import StencilGraph.Support.RingBufferTraffic
import StencilGraph.Support.Base64
import StencilGraph.Support.Base64RoundTrip
import StencilGraph.Crt.FuncRegistry
import StencilGraph.Crt.FuncRegistryMap
import StencilGraph.Crt.RawMemory
import StencilGraph.Crt.PageAllocator
import StencilGraph.Crt.PageAllocatorInvariant
import StencilGraph.Usmp.Greedy
import StencilGraph.Usmp.GreedyPlan
import StencilGraph.Framework.UnionFind
import StencilGraph.Fuse.ForwardGraph
import StencilGraph.Framework.Ancestor
import StencilGraph.Fuse.DominatorTree
import StencilGraph.Fuse.GraphPartitioner
import StencilGraph.Fuse.PathSearch
import StencilGraph.Fuse.MergeGroups
import StencilGraph.Fuse.CommitFuse
import StencilGraph.Fuse.FuseStep
import StencilGraph.Fuse.PartitionClosed
import StencilGraph.Framework.MemoVisit
import StencilGraph.Fuse.Creator
import StencilGraph.Fuse.CreatorGraph
import StencilGraph.Fuse.CreatorAgrees
import StencilGraph.Relay.Heap
import StencilGraph.Relay.Mutator
import StencilGraph.Relay.GroupOp
import StencilGraph.Relay.NodeAutoFusion
import StencilGraph.Relay.Value
import StencilGraph.Relay.Rebuild
import StencilGraph.Relay.Typed
import StencilGraph.Relay.Transport
import StencilGraph.Relay.Origin
import StencilGraph.Relay.Flatten
import StencilGraph.Relay.Region
import StencilGraph.Relay.FlattenGroup
import StencilGraph.Relay.CastParam
import StencilGraph.Relay.FuseGroup
import StencilGraph.Framework.Contraction
import StencilGraph.Relay.CallGraph
import StencilGraph.Relay.CallList
import StencilGraph.Relay.Exclusion
import StencilGraph.Relay.CallMap
import StencilGraph.Relay.FuseMain
import StencilGraph.Relay.FusionRun
import StencilGraph.Relay.CallOrder
import StencilGraph.Relay.FusionLoop
import StencilGraph.Framework.LittleEndian
import StencilGraph.Micro.Framing
import StencilGraph.Micro.FramerWire
import StencilGraph.Micro.UnframerStep
import StencilGraph.Micro.FramingRoundTrip
import StencilGraph.Micro.Resync
import StencilGraph.Framework.Ensures
import StencilGraph.Usmp.HillClimb
import StencilGraph.Usmp.HillClimbPlan
import StencilGraph.Framework.Corners
import StencilGraph.Framework.CounterBarrier
import StencilGraph.Arith.Expr
import StencilGraph.Arith.IntOperator
import StencilGraph.Arith.ConstIntBound
import StencilGraph.Arith.ConstIntBoundRules
import StencilGraph.Arith.ConstIntBoundSound
import StencilGraph.Arith.ModularSet
import StencilGraph.Arith.ModularSetRules
import StencilGraph.Arith.ModularSetSound
import StencilGraph.Arith.ModularSetOverflow
import StencilGraph.Arith.Casts
import StencilGraph.Arith.ConstIntBoundChecks
import StencilGraph.Framework.Layers
import StencilGraph.Relay.Stencils
import StencilGraph.Relay.Tags
import StencilGraph.Relay.TagRun
import StencilGraph.Stream.StreamSolver
import StencilGraph.Stream.CallNodes
import StencilGraph.Stream.Levels
import StencilGraph.Stream.StreamList
import StencilGraph.Stream.Syncs
import StencilGraph.Stream.ThreadOrder
import StencilGraph.Stream.ThreadPrograms
import StencilGraph.Stream.ThreadRuns
import StencilGraph.Stream.Threads
import StencilGraph.Framework.Text
import StencilGraph.Framework.PyText
import StencilGraph.Framework.RefCount
import StencilGraph.Codegen.Names
import StencilGraph.Codegen.CallArgs
import StencilGraph.Codegen.MainGen
import StencilGraph.Codegen.Kernels
import StencilGraph.Codegen.KernelRuns
import StencilGraph.Codegen.Storage
import StencilGraph.Codegen.StorageIndex
import StencilGraph.Codegen.AddOffset
import StencilGraph.Codegen.CloneNames
import StencilGraph.Framework.PostDominance
import StencilGraph.Fuse.PostDominators
import StencilGraph.Fuse.NodeAction
import StencilGraph.Fuse.DepthLimit
import StencilGraph.Fuse.Anchors
import StencilGraph.Plan.StorageAlloca
import StencilGraph.Plan.Leaves
import StencilGraph.Plan.Recorded
import StencilGraph.Plan.RefCounts
import StencilGraph.Plan.StorageAllocator
import StencilGraph.Plan.StoragePool
import StencilGraph.Plan.StorageSharing
import StencilGraph.Plan.StorageLive
import StencilGraph.Plan.Advance
import StencilGraph.Plan.BaseVisitor
import StencilGraph.Plan.Projections
import StencilGraph.Framework.Traced
import StencilGraph.Fuse.FuseMutator
import StencilGraph.Fuse.FuseMutatorEnds
import StencilGraph.Dnn.Partition
import StencilGraph.Dnn.TopoSort
import StencilGraph.Dnn.TopoSortOrder
import StencilGraph.Dnn.Growing
import StencilGraph.Dnn.PartitionConvex
import StencilGraph.Usmp.Liveness
import StencilGraph.Usmp.LivenessSweep
import StencilGraph.Usmp.PlannedMemory
import StencilGraph.Usmp.Alignment
import StencilGraph.Micro.Recv
import StencilGraph.Micro.RecvStream
import StencilGraph.Micro.UnframerRounds
import StencilGraph.Micro.Rewind
import StencilGraph.Micro.BytesNeeded
import StencilGraph.Crt.PageAllocatorSizes
import StencilGraph.Framework.TwoRuns
import StencilGraph.Crt.PageAllocatorCreate
import StencilGraph.Crt.StackAllocator
import StencilGraph.Crt.StackAllocatorSound
import StencilGraph.Codegen.KernelRuns
