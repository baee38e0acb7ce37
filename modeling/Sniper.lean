import Sniper.Memory.DramCache
import Sniper.Memory.NucaCache
import Sniper.Threads.BarrierWaiters
import Sniper.Threads.BarrierQuantum
import Sniper.Timing.SmtProgress
import Sniper.Config.LookupLaw
import Sniper.Timing.RestartCharge
import Sniper.Timing.LongPath
import Sniper.Threads.TraceLifecycle
import Sniper.Threads.ThreadLifecycle
import Sniper.Memory.Recency
import Sniper.Memory.SetLocks
import Sniper.Memory.Srrip
import Sniper.Timing.HistoryList
import Sniper.Threads.FutexBitset
import Sniper.Threads.NextTimeout
import Sniper.Timing.RegisterHistory
import Sniper.Timing.BranchResolution
import Sniper.Timing.ReadyRuns
import Sniper.Protocol.DirtyData
import Sniper.Timing.CycleSkipping
import Sniper.Memory.HomeLookup
import Sniper.Network.Broadcast
import Sniper.Network.ControllerPositions
import Sniper.Network.MinimalRouting
import Sniper.Threads.TryLock
import Sniper.Memory.Tlb
import Sniper.Protocol.Forwarding
import Sniper.Timing.WindowedQueue
import Sniper.Memory.GhbReplay
import Sniper.Threads.SpinLoop
import Sniper.Predictors.LoopLearning
import Sniper.Predictors.Tournament
import Sniper.Tracing.MemoryTracker
import Sniper.Tracing.RoutineTracer
import Sniper.Threads.StatsCredit
import Sniper.Threads.SequentialOrder
import Sniper.Threads.BigSmallPools
import Sniper.Sampling.SamplingSchedule
import Sniper.Timing.DecodedDataflow
import Sniper.Memory.SetLock
import Sniper.Threads.BlockingQueue
import Sniper.Tracing.AccessCounts
import Sniper.Timing.CpiStacks
import Sniper.Timing.LateIssue
import Sniper.Directory.SharerRuns
import Sniper.Memory.InstructionFetch
import Sniper.Threads.AffinityCalls
import Sniper.Memory.FastCache
import Sniper.Sampling.FastForward
import Sniper.Threads.SchedulerTables
import Sniper.Predictors.A53
import Sniper.Threads.PinnedPlacement
import Sniper.Sampling.Statistics
import Sniper.Predictors.PentiumM
