import XlaModel.GraphCycles.Theorems.Execution
import XlaModel.Runtime.ExecutionGraph.Theorems.Create
import XlaModel.Indexing.Compose
import XlaModel.Indexing.Theorems.Compose
import XlaModel.Indexing.Theorems.ConvertVariables
import XlaModel.Sharding.Theorems.Transpose.TileAssignment
import XlaModel.Sharding.Theorems.ValueAt
import XlaModel.Hlo.Theorems.Update
import XlaModel.Hlo.Theorems.UpdateForMerge
import XlaModel.Hlo.Theorems.Schedule
import XlaModel.HeapSimulator.Theorems.BufferIntervalTree.Faithful
import XlaModel.Coordination.Theorems.KeyValueStore
import XlaModel.Shape.Theorems.ReshapeIsBitcast
import XlaModel.Shape.Theorems.DecomposeBitcast
import XlaModel.Shape.Theorems.PermuteDimensions
import XlaModel.Shape.Theorems.NestedTiling
import XlaModel.Shape.Theorems.LinearIndex
import XlaModel.Shape.Theorems.ArraySize
import XlaModel.Shape.Theorems.InsertedOrDeleted
import XlaModel.Coordination.Service.Barrier
import XlaModel.Coordination.Service.Operations
import XlaModel.Coordination.Theorems.Service.Basic
import XlaModel.Coordination.Theorems.Service.Inner
import XlaModel.Coordination.Theorems.Service.Operations
import XlaModel.Lib.Transition
import XlaModel.Lib.DivisorInterval
import XlaModel.Lib.List
import XlaModel.Lib.PermutedView
import XlaModel.Runtime.ExecutionGraph.Theorems.ExecutionPaths
import XlaModel.Runtime.ExecutionGraph.Theorems.Priority
import XlaModel.Runtime.ThunkExecutor.Theorems.ReadyQueue
import XlaModel.Runtime.ThunkExecutor.Theorems.Progress
import XlaModel.Shape.AlignLayouts
import XlaModel.Shape.DecomposeBitcast
import XlaModel.Shape.LinearIndex
import XlaModel.Shape.Theorems.AlignLayouts.CommonFactors
import XlaModel.Shape.Theorems.AlignLayouts.Degenerate
import XlaModel.Sharding.HloSharding
import XlaModel.Sharding.MeshAndAxis
import XlaModel.Sharding.NamedSharding
import XlaModel.Sharding.Subgroup
import XlaModel.Sharding.Proto
import XlaModel.Sharding.Theorems.HloSharding
import XlaModel.Sharding.Theorems.ImplicitlyReplicatedAxes
import XlaModel.Sharding.Theorems.PartialTile.Group
import XlaModel.Sharding.Theorems.PartialTile.HloSharding
import XlaModel.Sharding.Theorems.SliceAxes
import XlaModel.Sharding.Theorems.Subgroup.Normalize
import XlaModel.Sharding.Theorems.Subgroup.Normalizes
import XlaModel.WhileLoop.Basic
import XlaModel.WhileLoop.Range
import XlaModel.WhileLoop.Theorems.Range
import XlaModel.WhileLoop.Theorems.TripCount
import XlaModel.HeapSimulator.SlicedAllocationFinder
import XlaModel.HeapSimulator.GlobalDecreasingSizeBestFitHeap
import XlaModel.HeapSimulator.Theorems.GlobalDecreasingSizeBestFitHeap
import XlaModel.HeapSimulator.Theorems.FindLatestEnd
import XlaModel.HeapSimulator.Theorems.SlicedAllocationFinder.Complete
import XlaModel.BFCAllocator.Basic
import XlaModel.BFCAllocator.Theorems.ObtainMemory
import XlaModel.Indexing.Theorems.Interval
import XlaModel.Indexing.Theorems.RewriteMod
import XlaModel.Symbolic.Theorems.Evaluate
import XlaModel.Symbolic.Theorems.Parser
import XlaModel.Sharding.SubDims
import XlaModel.Sharding.Theorems.SubDims.FactorSequence
import XlaModel.Sharding.Theorems.SubDims.IotaTileAssignment
import XlaModel.Lib.BTreeSet
import XlaModel.Lib.SeparatedIntervals
import XlaModel.HeapSimulator.FreeChunksManager
import XlaModel.HeapSimulator.Theorems.FreeChunksManager
import XlaModel.Shape.Theorems.ConvertDimensionNumbers
import XlaModel.Shape.ConvertDimensionNumbers
import XlaModel.Lib.Components
import XlaModel.Shape.Theorems.ForEachIndexInternalParallel
import XlaModel.Shape.Theorems.NormalizedTranspose
import XlaModel.Coordination.KeyValueStore
import XlaModel.Coordination.Theorems.ConfigKey
import XlaModel.Indexing.SumDivision
import XlaModel.Indexing.Theorems.ConstantDivisors
import XlaModel.Indexing.Theorems.SumDivision
import XlaModel.Coordination.Theorems.Service.Single
import XlaModel.Coordination.Theorems.Service.Safety
import XlaModel.Coordination.Theorems.Service.Barriers
import XlaModel.Coordination.Theorems.Service.Front
import XlaModel.Coordination.Theorems.Service.Calls
import XlaModel.Coordination.Theorems.Service.Watch
import XlaModel.Coordination.Theorems.Service.Clients
import XlaModel.Coordination.Theorems.Service.Bookkeeping
