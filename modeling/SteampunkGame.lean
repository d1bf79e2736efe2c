import SteampunkGame.Assets.ContentProvider
import SteampunkGame.Game.DisconnectAll
import SteampunkGame.Game.Event
import SteampunkGame.Game.EventDelivery
import SteampunkGame.Game.EventDetach
import SteampunkGame.Game.EventPump
import SteampunkGame.Game.EventQueue
import SteampunkGame.Game.EventYield
import SteampunkGame.Game.FrameRate
import SteampunkGame.Game.GameLoop
import SteampunkGame.Game.GameShutdown
import SteampunkGame.Game.GameStop
import SteampunkGame.Game.JobBodies
import SteampunkGame.Game.KeyInput
import SteampunkGame.Game.MainLoop
import SteampunkGame.Game.ObjectChildren
import SteampunkGame.Game.RenderExclusion
import SteampunkGame.Game.RenderSnapshot
import SteampunkGame.Game.Running
import SteampunkGame.Game.ThrowDelay
import SteampunkGame.Game.World
import SteampunkGame.Game.WriteCollision
import SteampunkGame.Game.WriteJob
import SteampunkGame.Game.YieldHang
import SteampunkGame.Lib.BitMask
import SteampunkGame.Lib.Dealing
import SteampunkGame.Lib.IteratorVector
import SteampunkGame.Lib.LevelOrder
import SteampunkGame.Lib.Ownership
import SteampunkGame.Lib.Progress
import SteampunkGame.Lib.Rounding
import SteampunkGame.Lib.Runs
import SteampunkGame.Lib.ShellWords
import SteampunkGame.Lib.Sweep
import SteampunkGame.Lib.SymbolCode
import SteampunkGame.Lib.TimedQueue
import SteampunkGame.Lib.WhileLoop
import SteampunkGame.Rendering.HsvColor
import SteampunkGame.Rendering.Rainbow
import SteampunkGame.Rendering.Screen
import SteampunkGame.Rendering.ScreenText
import SteampunkGame.Rendering.TextBox
import SteampunkGame.Sched.BarrierGap
import SteampunkGame.Sched.CallOrder
import SteampunkGame.Sched.CallProgress
import SteampunkGame.Sched.CallsAlone
import SteampunkGame.Sched.CloseMutex
import SteampunkGame.Sched.CoreConservation
import SteampunkGame.Sched.CoreEnumeration
import SteampunkGame.Sched.CoreRace
import SteampunkGame.Sched.EraseSafety
import SteampunkGame.Sched.EvenDistribution
import SteampunkGame.Sched.ExitedJobs
import SteampunkGame.Sched.FrameCompletion
import SteampunkGame.Sched.FrameCount
import SteampunkGame.Sched.FramePacing
import SteampunkGame.Sched.FrameProgram
import SteampunkGame.Sched.FrameTiming
import SteampunkGame.Sched.FrameTraversal
import SteampunkGame.Sched.Job
import SteampunkGame.Sched.JobCount
import SteampunkGame.Sched.JobOwnership
import SteampunkGame.Sched.Lifecycle
import SteampunkGame.Sched.LostWakeup
import SteampunkGame.Sched.PoolCalls
import SteampunkGame.Sched.PoolShrink
import SteampunkGame.Sched.PoppedWorkers
import SteampunkGame.Sched.RoundRobin
import SteampunkGame.Sched.Runner
import SteampunkGame.Sched.RunnerCalls
import SteampunkGame.Sched.ScheduleCycles
import SteampunkGame.Sched.SharedJobs
import SteampunkGame.Sched.ShrinkInvariant
import SteampunkGame.Sched.ShrinkSafety
import SteampunkGame.Sched.ShrinkWorker
import SteampunkGame.Sched.Shutdown
import SteampunkGame.Sched.SingleArbiter
import SteampunkGame.Sched.StartAllOrNothing
import SteampunkGame.Sched.StopEnds
import SteampunkGame.Sched.StopNotified
import SteampunkGame.Sched.StopReturn
import SteampunkGame.Sched.StopReturned
import SteampunkGame.Sched.SubCycleBarrier
import SteampunkGame.Sched.SubCycles
import SteampunkGame.Sched.Worker
import SteampunkGame.Sched.WorkerPool
import SteampunkGame.Sched.WorkerStart
import SteampunkGame.Sched.WorkerSteps
import SteampunkGame.Sched.WorkerStop
import SteampunkGame.Sched.WorkerSystem
import SteampunkGame.Sched.WorkerTotals
import SteampunkGame.Sched.WorkerTracking
import SteampunkGame.Util.OpenUrl
import SteampunkGame.Util.UriTools
