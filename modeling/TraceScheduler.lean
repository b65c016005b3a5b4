import TraceScheduler.AmpleBudget
import TraceScheduler.ApplySchedule
import TraceScheduler.BlockLayout
import TraceScheduler.CodeMotion
import TraceScheduler.Critical
import TraceScheduler.Ddg
import TraceScheduler.Dominators
import TraceScheduler.DynamicLiveness
import TraceScheduler.EarliestPlacement
import TraceScheduler.ExceptionHandling
import TraceScheduler.Function
import TraceScheduler.GlobalSchedule
import TraceScheduler.HoistStatistics
import TraceScheduler.Library.Arrivals
import TraceScheduler.Library.BackwardFlow
import TraceScheduler.Library.BreadthFirst
import TraceScheduler.Library.BreadthFirstDepth
import TraceScheduler.Library.Csv
import TraceScheduler.Library.Dataflow
import TraceScheduler.Library.Dominance
import TraceScheduler.Library.Erasure
import TraceScheduler.Library.ForwardFlow
import TraceScheduler.Library.GreedyOrder
import TraceScheduler.Library.Interleaving
import TraceScheduler.Library.Lockstep
import TraceScheduler.Library.LongestPath
import TraceScheduler.Library.PairOrder
import TraceScheduler.Library.PostOrder
import TraceScheduler.Library.QuietRounds
import TraceScheduler.Library.ReleaseOrder
import TraceScheduler.Library.RoundRobin
import TraceScheduler.Library.Script
import TraceScheduler.Library.Segments
import TraceScheduler.Library.StableSelect
import TraceScheduler.Library.TextFields
import TraceScheduler.ListExactness
import TraceScheduler.ListPriority
import TraceScheduler.ListScheduler
import TraceScheduler.Liveness
import TraceScheduler.LivenessDominance
import TraceScheduler.LivenessMotion
import TraceScheduler.LivenessPaths
import TraceScheduler.LocalCompleteness
import TraceScheduler.LocalGlobal
import TraceScheduler.LocalLiveness
import TraceScheduler.LocalPriorities
import TraceScheduler.LocalScheduler
import TraceScheduler.LoopPlacement
import TraceScheduler.MotionBehaviour
import TraceScheduler.PassBehaviour
import TraceScheduler.PassPipeline
import TraceScheduler.PeakPressure
import TraceScheduler.PlacementConvergence
import TraceScheduler.PressureBudget
import TraceScheduler.PressureDelta
import TraceScheduler.ProfileInvariance
import TraceScheduler.ReachingDefinitions
import TraceScheduler.RegionOrder
import TraceScheduler.RunningLiveSet
import TraceScheduler.ScheduleLegality
import TraceScheduler.SchedulerPass
import TraceScheduler.Scripts.Analyze
import TraceScheduler.Scripts.BenchWorker
import TraceScheduler.Scripts.CiGate
import TraceScheduler.Scripts.Gem5Provenance
import TraceScheduler.Scripts.Gem5Worker
import TraceScheduler.Scripts.ResultsFile
import TraceScheduler.Scripts.ResultsTable
import TraceScheduler.Scripts.Resume
import TraceScheduler.Scripts.RunSuite
import TraceScheduler.Scripts.SchedStats
import TraceScheduler.Scripts.WorkerFiles
import TraceScheduler.SeedSelection
import TraceScheduler.Semantics
import TraceScheduler.SingletonTraces
import TraceScheduler.SsaOrder
import TraceScheduler.StatisticsSwitch
import TraceScheduler.TraceBackEdges
import TraceScheduler.TraceIdentification
import TraceScheduler.TracePlan
import TraceScheduler.TraceStatistics
import TraceScheduler.Verifier
