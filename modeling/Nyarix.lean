import Nyarix.Api.RateLimit
import Nyarix.Api.Versioning
import Nyarix.Execution.Agreement
import Nyarix.Execution.DeadEnd
import Nyarix.Execution.Deadlock
import Nyarix.Execution.Fallback
import Nyarix.Execution.HopLimit
import Nyarix.Execution.Isolation
import Nyarix.Execution.Leftover
import Nyarix.Execution.LiveEdit
import Nyarix.Execution.ParallelMetrics
import Nyarix.Execution.PayloadLimits
import Nyarix.Execution.Schedule
import Nyarix.Execution.TracedRoute
import Nyarix.Graph.Changes
import Nyarix.Graph.Export
import Nyarix.Graph.Feedback
import Nyarix.Graph.PriorityQueue
import Nyarix.Graph.Registration
import Nyarix.Lib.Fold
import Nyarix.Lib.Log
import Nyarix.Lib.Sidecar
import Nyarix.Lib.SlidingWindow
import Nyarix.Lib.StableSort
import Nyarix.Loader.Cache
import Nyarix.Loader.Containment
import Nyarix.Loader.DependencyGraph
import Nyarix.Loader.Reinstall
import Nyarix.Loader.Rollback
import Nyarix.Package.Builder
import Nyarix.Package.Trust
import Nyarix.PacketCodec
import Nyarix.PacketPool
import Nyarix.PacketTrace
import Nyarix.Percentile
import Nyarix.Runtime.Delivery
import Nyarix.Runtime.FlowMetrics
import Nyarix.Runtime.Lifecycle
import Nyarix.Runtime.ModuleLoader
import Nyarix.Runtime.NodeMetrics
import Nyarix.Runtime.PauseContract
import Nyarix.Runtime.Priority
import Nyarix.Runtime.ProfileRun
import Nyarix.Runtime.Publishing
import Nyarix.Runtime.RuntimeMetrics
import Nyarix.Runtime.Shutdown
import Nyarix.Runtime.TagPriority
import Nyarix.Loader.LoadOrder
import Nyarix.Package.Readers
import Nyarix.Api.Enforcement
import Nyarix.Graph.FlowShare
import Nyarix.MetricIsolation
import Nyarix.PacketHeap
import Nyarix.Graph.Validity
import Nyarix.Loader.Installed
import Nyarix.Loader.Instantiation
import Nyarix.Loader.Persistence
import Nyarix.Api.Contexts
