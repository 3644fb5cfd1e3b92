import HwBench.AccessPatterns.Footprint
import HwBench.Allocators.ArenaBatches
import HwBench.Allocators.ArenaNull
import HwBench.Allocators.ArenaRun
import HwBench.Allocators.DoubleFree
import HwBench.Allocators.PoolBatches
import HwBench.Allocators.PoolDomain
import HwBench.Allocators.PoolRefinement
import HwBench.BranchPrediction.BranchlessSum
import HwBench.BranchPrediction.SortedBranches
import HwBench.CacheLines.FalseSharing
import HwBench.CacheLines.LineSteps
import HwBench.Numa.DetectNodes
import HwBench.Prefetching.NodeLines
import HwBench.Prefetching.StrideLines
import HwBench.Statistics.Percentile
import HwBench.Statistics.Robustness
import HwBench.Suite.Main
