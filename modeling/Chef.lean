import Chef.AddressResolution
import Chef.ApicState
import Chef.BlockDriver
import Chef.ByteOrder
import Chef.CacheSim
import Chef.CachingSolverRuns
import Chef.Calibration
import Chef.CallStackClone
import Chef.CallStackInvariant
import Chef.CexCachingRuns
import Chef.ConcolicRuns
import Chef.ConditionSharing
import Chef.CooperativeSearcher
import Chef.Coverage
import Chef.DeviceSnapshots
import Chef.DeviceStateRuns
import Chef.ExactMerge
import Chef.ExprOrder
import Chef.GenerationalSelector
import Chef.HighLevelStack
import Chef.HostFiles
import Chef.InterpreterCandidates
import Chef.KTest
import Chef.MergingSearcherRuns
import Chef.ModuleExecutionDetector
import Chef.OSTracerRuns
import Chef.PathProcessing
import Chef.ProcessTableRuns
import Chef.QueryRoundTrip
import Chef.QueueRuns
import Chef.RevokedRegions
import Chef.RoundRobinSelector
import Chef.Searcher
import Chef.StackMonitor
import Chef.TopologicCalls
import Chef.TopologicCursor
import Chef.TopologicStates
import Chef.TraceEntries
import Chef.ValueRange
import Chef.WeightedSelector
import Chef.Z3Strategies
