import QuietFlow.Graph.Util
import QuietFlow.Runs.System

/-! The life of a task: `Schedule::run_task`, `Node::resume`, `Node::finish`, the suspension of
`aspect.cpp`, `Graph::clear_graph` and `Node::~Node`.

Threads are workers or outside of the schedule, and a step is one access of one thread to the
fields of a task. Tasks and `BackNode`s are numbered as they are made; a `ReuseNode` that is
taken from its pool is a new task. When a task becomes ready is left open, and so is what `run`
does: it may make tasks, wait, and give up tasks that it owns. -/
namespace QuietFlow.RunTask
open Runs

/-- Who goes on with a task. -/
inductive Place (T : Type) where
  | unmade
  /-- For its required nodes, or in the queue of a limited graph. -/
  | waiting
  /-- In `task_queue`, or about to be a next task. -/
  | queued
  /-- In `run_task` of a worker, or the next task of one. -/
  | held (t : T)
  /-- Its context is saved, until the `BackNode` is run. -/
  | saved (back : ℕ)
  | past
  deriving DecidableEq

/-- Who is going to destroy it. -/
inductive Keeper (T : Type) where
  /-- Nobody: it was made with `new` and is behind no `shared_ptr`. -/
  | raw
  | shared
  | thread (t : T)
  /-- The local graph of a saved context. -/
  | saved
  | gone
  deriving DecidableEq

structure Node (T : Type) where
  ghost : Bool
  reuse : Bool
  /-- The `back_task` of a `BackNode`. -/
  backTask : Option ℕ
  parentGraph : Option ℕ
  status : RunningStatus
  /-- `mutex_` is held to set `Recoverable`. -/
  locked : Bool
  place : Place T
  keeper : Keeper T
  ----------
  /-- Its `run` has returned. -/
  ran : Bool
  /-- The part of it that is derived from `Node` is destroyed. -/
  destructed : Bool
  deleted : Bool
  statuses : List RunningStatus

/-- Whose code destroys a task: the code outside of the schedule, the `run` of a task, or
`run_task` itself. -/
inductive Caller where
  | outside
  | run (n : ℕ)
  | runTask (next : Option ℕ)
  deriving DecidableEq

/-- What follows `Recoverable`: the next task, or the rest of `BackNode::run`. -/
inductive After where
  | next (next : Option ℕ)
  | back
  deriving DecidableEq

/-- The statement a thread executes next. -/
inductive Pc where
  | outside
  | dequeue
  /-- `QuietFlowAssert(status == Initing)`, `set_status(Ready)`. -/
  | taken (n : ℕ)
  | resume (n : ℕ)
  | run (n : ℕ)
  | finish (n : ℕ)
  /-- `down_streams`, under the mutex. -/
  | notify (n : ℕ)
  /-- `parent_graph->finish(notified_nodes)`. -/
  | parent (n : ℕ)
  | ghost (n : ℕ) (next : Option ℕ)
  /-- `QuietFlowAssert(status == Finish)`. -/
  | check (n : ℕ) (next : Option ℕ)
  /-- `set_status(Recoverable)`. -/
  | lock (n : ℕ) (k : After)
  | store (n : ℕ) (k : After)
  | unlock (n : ℕ) (k : After)
  /-- `BackNode::run` until the context is saved. -/
  | spin (b : ℕ)
  /-- `require_node` or `wait_graph` of the task `a`, with its `BackNode`. -/
  | yield (a b : ℕ)
  | swap (a b : ℕ)
  | resumed (a b : ℕ)
  | again (a b : ℕ)
  /-- `clear_graph`: `while (i->status != Recoverable)`. -/
  | await (k : Caller) (n : ℕ)
  | handshake (k : Caller) (n : ℕ)
  /-- A `shared_ptr` goes. -/
  | leave (k : Caller) (n : ℕ)
  /-- `NodeDelete`. -/
  | recycle (k : Caller) (n : ℕ)
  /-- `~Node`: `while (status < Recoverable)`. -/
  | loop (k : Caller) (n : ℕ)
  | release (k : Caller) (n : ℕ)
  /-- `set_status(Destroy)`. -/
  | destroy (k : Caller) (n : ℕ)
  /-- An assertion failed, or a null pointer was followed. -/
  | failed
  deriving DecidableEq

/-- Where the destruction of the task `n` returns to. -/
def Caller.pc (n : ℕ) : Caller → Pc
  | .outside => .outside
  | .run a => .run a
  | .runTask next => .check n next

structure State (T : Type) where
  nodes : ℕ → Node T
  made : ℕ
  pc : T → Pc

inductive Act (T : Type) where
  | createEdges (t : T) (graph : ℕ) (ghost reuse : Bool)
  | addRootTask (t : T)
  /-- The task is handed to the schedule. -/
  | ready (n : ℕ)
  | dequeue (t : T) (n : ℕ)
  /-- A call of `require_node` or `wait_graph` that waits, with its local graph. -/
  | wait (t : T) (graph : ℕ)
  /-- `Graph::finish` returns the next task. -/
  | finish (t : T) (next : Option ℕ)
  /-- `clear_graph` comes to the task. -/
  | clear (t : T) (n : ℕ)
  /-- A `shared_ptr` goes without a wait before. -/
  | drop (t : T) (n : ℕ)
  /-- It is not the last one. -/
  | keep (t : T)
  /-- The pool is full. -/
  | full (t : T)
  | step (t : T)
  deriving DecidableEq

variable {T : Type}

namespace Node

def blank : Node T where
  ghost := false
  reuse := false
  backTask := none
  parentGraph := none
  status := .initing
  locked := false
  place := .unmade
  keeper := .raw
  ran := false
  destructed := false
  deleted := false
  statuses := [.initing]

variable (x : Node T)

def setStatus (status : RunningStatus) : Node T :=
  {x with status := status, statuses := x.statuses ++ [status]}

end Node

variable [DecidableEq T]

namespace State
variable (s : State T) (t : T)

def goto (pc : Pc) : State T := {s with pc := Function.update s.pc t pc}

def set (n : ℕ) (x : Node T) : State T := {s with nodes := Function.update s.nodes n x}

/-- A new task. -/
def make (x : Node T) : State T := {s.set s.made x with made := s.made + 1}

/-- Whose code the thread executes, if that may call the library. -/
def caller : Option Caller :=
  match s.pc t with
  | .outside => some .outside
  | .run n => if (s.nodes n).backTask = none then some (.run n) else none
  | _ => none

def createEdges (graph : ℕ) (ghost reuse : Bool) : Option (State T) :=
  (s.caller t).map fun _ => s.make {(Node.blank : Node T) with
    ghost := ghost, reuse := reuse, parentGraph := some graph, place := .waiting, keeper := .shared}

/-- Without `QUIET_FLOW_DEBUG`, the task of a `RootNode` is handed to the schedule at once. -/
def addRootTask : Option (State T) :=
  (s.caller t).map fun _ => s.make {(Node.blank : Node T) with ghost := true, place := .queued}

/-- `add_new_task`. -/
def ready (n : ℕ) : Option (State T) :=
  if (s.nodes n).place = .waiting ∧ (s.nodes n).status = .initing then
    some (s.set n {s.nodes n with place := .queued})
  else none

def dequeue (n : ℕ) : Option (State T) :=
  if s.pc t = .dequeue ∧ (s.nodes n).place = .queued then
    some ((s.set n {s.nodes n with place := .held t}).goto t (.taken n))
  else none

def wait (graph : ℕ) : Option (State T) :=
  match s.caller t with
  | some (.run a) => some ((s.make {(Node.blank : Node T) with
      backTask := some a, parentGraph := some graph, place := .waiting, keeper := .thread t}).goto t
        (.yield a s.made))
  | _ => none

def finish (next : Option ℕ) : Option (State T) :=
  match s.pc t with
  | .parent n =>
    match (s.nodes n).parentGraph, next with
    | none, _ => some (s.goto t .failed)
    | some _, none => some (s.goto t (.ghost n none))
    | some _, some m =>
      if (s.nodes m).place = .queued then
        some ((s.set m {s.nodes m with place := .held t}).goto t (.ghost n (some m)))
      else none
  | _ => none

/-- `require_node` asserts that the task is not in the graph it clears. -/
def clear (n : ℕ) : Option (State T) :=
  (s.caller t).bind fun k =>
    if (s.nodes n).keeper = .shared ∧ k ≠ .run n then
      some ((s.set n {s.nodes n with keeper := .thread t}).goto t (.await k n))
    else none

def drop (n : ℕ) : Option (State T) :=
  (s.caller t).bind fun k =>
    if (s.nodes n).keeper = .shared then
      some ((s.set n {s.nodes n with keeper := .thread t}).goto t (.leave k n))
    else none

def keep : Option (State T) :=
  match s.pc t with
  | .leave k n =>
    if (s.nodes n).backTask = none then
      some ((s.set n {s.nodes n with keeper := .shared}).goto t (k.pc n))
    else none
  | _ => none

def full : Option (State T) :=
  match s.pc t with
  | .recycle k n => some ((s.set n {s.nodes n with destructed := true}).goto t (.loop k n))
  | _ => none

/-- The thread's next access. -/
def advance : Option (State T) :=
  match s.pc t with
  | .outside | .dequeue | .parent _ | .failed => none
  | .taken n =>
    if (s.nodes n).status = .initing then
      some ((s.set n ((s.nodes n).setStatus .ready)).goto t (.resume n))
    else some (s.goto t .failed)
  | .resume n =>
    if (s.nodes n).status = .ready then
      some ((s.set n ((s.nodes n).setStatus .running)).goto t (.run n))
    else some (s.goto t .failed)
  | .run n =>
    match (s.nodes n).backTask with
    | none => some ((s.set n {s.nodes n with ran := true}).goto t (.finish n))
    | some _ => some (s.goto t (.lock n .back))
  | .finish n =>
    if (s.nodes n).status = .running then
      some ((s.set n ((s.nodes n).setStatus .finish)).goto t (.notify n))
    else some (s.goto t .failed)
  | .notify n => some (s.goto t (.parent n))
  | .ghost n next =>
    -- `task->release(); delete task;`
    if (s.nodes n).ghost then
      some ((s.set n {s.nodes n with keeper := .thread t, destructed := true}).goto t
        (.loop (.runTask next) n))
    else some (s.goto t (.check n next))
  | .check n next =>
    if (s.nodes n).status = .finish then some (s.goto t (.lock n (.next next)))
    else some (s.goto t .failed)
  | .lock n k =>
    if (s.nodes n).locked then none
    else some ((s.set n {s.nodes n with locked := true}).goto t (.store n k))
  | .store n k => some ((s.set n ((s.nodes n).setStatus .recoverable)).goto t (.unlock n k))
  | .unlock n (.next next) =>
    some ((s.set n {s.nodes n with locked := false, place := .past}).goto t
      (match next with
        | none => .dequeue
        | some m => .taken m))
  | .unlock n .back => some ((s.set n {s.nodes n with locked := false}).goto t (.spin n))
  | .spin b =>
    match (s.nodes b).backTask with
    | none => none
    | some a =>
      if (s.nodes a).place = .saved b then
        some (((s.set b {s.nodes b with place := .past, keeper := .thread t}).set a
          {s.nodes a with place := .held t}).goto t (.resumed a b))
      else some s
  | .yield a b => some ((s.set a ((s.nodes a).setStatus .yield)).goto t (.swap a b))
  | .swap a b =>
    some (((s.set b {s.nodes b with keeper := .saved}).set a {s.nodes a with place := .saved b}).goto t
      .dequeue)
  | .resumed a b => some (s.goto t (.again a b))
  | .again a b => some ((s.set a ((s.nodes a).setStatus .running)).goto t (.await (.run a) b))
  | .await k n =>
    if (s.nodes n).status = .recoverable then some (s.goto t (.handshake k n)) else some s
  | .handshake k n => if (s.nodes n).locked then none else some (s.goto t (.leave k n))
  | .leave k n =>
    if (s.nodes n).reuse then some (s.goto t (.recycle k n))
    else some ((s.set n {s.nodes n with destructed := true}).goto t (.loop k n))
  | .recycle k n =>
    some ((s.set n {s.nodes n with keeper := .gone, deleted := true}).goto t (k.pc n))
  | .loop k n =>
    if (s.nodes n).status.value < RunningStatus.recoverable.value then some s
    else some (s.goto t (.release k n))
  | .release k n => some (s.goto t (.destroy k n))
  | .destroy k n =>
    if (s.nodes n).locked then none
    else some ((s.set n {(s.nodes n).setStatus .destroy with keeper := .gone, deleted := true}).goto t
      (k.pc n))

end State

/-- The threads, of which `worker` are the workers of the schedule. -/
def threads (worker : T → Bool) : System (State T) (Act T) where
  start := ⟨fun _ => Node.blank, 0, fun t => if worker t then .dequeue else .outside⟩
  step s a :=
    match a with
    | .createEdges t graph ghost reuse => s.createEdges t graph ghost reuse
    | .addRootTask t => s.addRootTask t
    | .ready n => s.ready n
    | .dequeue t n => s.dequeue t n
    | .wait t graph => s.wait t graph
    | .finish t next => s.finish t next
    | .clear t n => s.clear t n
    | .drop t n => s.drop t n
    | .keep t => s.keep t
    | .full t => s.full t
    | .step t => s.advance t

/-! ### What the life of a task needs -/

section Places
variable (n : ℕ)

/-- The task that a thread destroys was, for `run_task`, its own. -/
def Caller.task : Caller → Option ℕ
  | .outside => none
  | .run a => some a
  | .runTask _ => some n

def Caller.next : Caller → Option ℕ
  | .runTask m => m
  | _ => none

def After.task : After → Option ℕ
  | .next m => m
  | .back => none

end Places

namespace Pc

/-- The task whose life a thread goes on with. -/
def node : Pc → Option ℕ
  | .outside | .dequeue | .failed => none
  | .taken n | .resume n | .run n | .finish n | .notify n | .parent n | .ghost n _ | .check n _
  | .lock n _ | .store n _ | .unlock n _ | .spin n => some n
  | .yield a _ | .swap a _ | .resumed a _ | .again a _ => some a
  | .await k n | .handshake k n | .leave k n | .recycle k n | .loop k n | .release k n
  | .destroy k n => k.task n

/-- The task that it takes up after that. -/
def next : Pc → Option ℕ
  | .ghost _ m | .check _ m => m
  | .lock _ k | .store _ k | .unlock _ k => k.task
  | .await k _ | .handshake k _ | .leave k _ | .recycle k _ | .loop k _ | .release k _
  | .destroy k _ => k.next
  | _ => none

def Holds (p : Pc) (n : ℕ) : Prop := p.node = some n ∨ p.next = some n

instance (p : Pc) (n : ℕ) : Decidable (p.Holds n) := inferInstanceAs (Decidable (_ ∨ _))

/-- The task that `Node::finish` is executed for. -/
def finishing : Pc → Option ℕ
  | .finish n | .notify n | .parent n => some n
  | _ => none

/-- The task whose fields the next statement reads or writes. -/
def touches : Pc → Option ℕ
  | .outside | .dequeue | .failed => none
  | .taken n | .resume n | .run n | .finish n | .notify n | .parent n | .ghost n _ | .check n _
  | .lock n _ | .store n _ | .unlock n _ | .spin n => some n
  | .yield a _ | .again a _ => some a
  | .swap _ b | .resumed _ b => some b
  | .await _ n | .handshake _ n | .leave _ n | .recycle _ n | .loop _ n | .release _ n
  | .destroy _ n => some n

end Pc

/-- The order of the statuses, of a `BackNode` (which is never finished) and of other tasks. -/
def follows (back : Bool) : RunningStatus → RunningStatus → Bool
  | .initing, .ready | .ready, .running | .recoverable, .destroy => true
  | .running, .yield | .yield, .running | .running, .finish | .finish, .recoverable => !back
  | .running, .recoverable => back
  | _, _ => false

/-- The history of a task's status, from `Initing` to what it is. -/
structure Node.Follows (x : Node T) : Prop where
  first : x.statuses.head? = some .initing
  chain : x.statuses.IsChain fun v v' => follows x.backTask.isSome v v' = true
  last : x.statuses.getLast? = some x.status

variable {s : State T}

variable (s) in
/-- Another thread is still going to set the task to `Recoverable`. -/
def Elsewhere (t : T) (n : ℕ) : Prop :=
  (s.nodes n).place = .waiting ∨ (s.nodes n).place = .queued ∨ (∃ b, (s.nodes n).place = .saved b) ∨
    ∃ t', t' ≠ t ∧ (s.pc t').Holds n

variable (s) in
/-- Every task is on its way through its life. -/
structure Completes : Prop where
  parent : ∀ t n, (s.pc t).finishing = some n → (s.nodes n).parentGraph ≠ none
  destructor : ∀ t k n, s.pc t = .loop k n → (s.nodes n).status = .recoverable ∨ Elsewhere s t n
  alive : ∀ t n, (s.pc t).touches = some n → (s.nodes n).deleted = false
  /-- `run` is called on a whole object. -/
  whole : ∀ t n, s.pc t = .run n → (s.nodes n).destructed = false
  statuses : ∀ n, (s.nodes n).Follows
  /-- No assertion fails. -/
  safe : ∀ t, s.pc t ≠ .failed

end QuietFlow.RunTask
