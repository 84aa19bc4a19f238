import QuietFlow.Aspect.Circles
import QuietFlow.Aspect.Dangling
import QuietFlow.Aspect.Ending
import QuietFlow.Aspect.Nulls
import QuietFlow.Aspect.Search
import QuietFlow.Aspect.Upstreams
import QuietFlow.Aspect.Waits
import QuietFlow.Async.Future
import QuietFlow.ErrorRate.Concurrent
import QuietFlow.ErrorRate.Count
import QuietFlow.ErrorRate.Local
import QuietFlow.ErrorRate.Sizes
import QuietFlow.Graph.Bitmap
import QuietFlow.Graph.Bound
import QuietFlow.Graph.Calls
import QuietFlow.Graph.Contended
import QuietFlow.Graph.Dispatch
import QuietFlow.Graph.Downstream
import QuietFlow.Graph.Edges
import QuietFlow.Graph.Engine
import QuietFlow.Graph.Finish
import QuietFlow.Graph.Limits
import QuietFlow.Graph.Linked
import QuietFlow.Graph.Outcome
import QuietFlow.Graph.Parallel
import QuietFlow.Graph.Places
import QuietFlow.Graph.Progress
import QuietFlow.Graph.Refused
import QuietFlow.Graph.Released
import QuietFlow.Graph.Rounds
import QuietFlow.Graph.Served
import QuietFlow.Graph.Steps
import QuietFlow.Graph.Storage
import QuietFlow.Graph.Targets
import QuietFlow.Graph.Util
import QuietFlow.Graph.Waiters
import QuietFlow.Graph.Whole
import QuietFlow.Machine.Code
import QuietFlow.Machine.Mappings
import QuietFlow.Machine.Memory
import QuietFlow.Queue.Admits
import QuietFlow.Queue.Align
import QuietFlow.Queue.Attempts
import QuietFlow.Queue.Early
import QuietFlow.Queue.FreeLock
import QuietFlow.Queue.Handover
import QuietFlow.Queue.Inner
import QuietFlow.Queue.Length
import QuietFlow.Queue.Lock
import QuietFlow.Queue.Quiescent
import QuietFlow.Queue.Sleepers
import QuietFlow.Queue.Slots
import QuietFlow.Queue.Task
import QuietFlow.Queue.Tickets
import QuietFlow.Queue.Versions
import QuietFlow.Queue.Wakeups
import QuietFlow.Queue.Window
import QuietFlow.Reuse.Clear
import QuietFlow.Reuse.Graphs
import QuietFlow.Reuse.Node
import QuietFlow.Reuse.Owners
import QuietFlow.Reuse.Pending
import QuietFlow.Runs.Admission
import QuietFlow.Runs.Census
import QuietFlow.Runs.Costs
import QuietFlow.Runs.Crew
import QuietFlow.Runs.Cycles
import QuietFlow.Runs.Ring
import QuietFlow.Runs.Stacks
import QuietFlow.Runs.System
import QuietFlow.Schedule.Accounts
import QuietFlow.Schedule.Coctx
import QuietFlow.Schedule.Completed
import QuietFlow.Schedule.Contexts
import QuietFlow.Schedule.Current
import QuietFlow.Schedule.Hands
import QuietFlow.Schedule.Idle
import QuietFlow.Schedule.Lifetimes
import QuietFlow.Schedule.Resumes
import QuietFlow.Schedule.Shrink
import QuietFlow.Schedule.Shutdown
import QuietFlow.Schedule.Stacks
import QuietFlow.Schedule.Startup
import QuietFlow.Schedule.Statuses
import QuietFlow.Schedule.Switches
import QuietFlow.Schedule.Tasks
import QuietFlow.Schedule.Worker
import QuietFlow.Schedule.Yields
