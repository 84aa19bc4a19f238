import QuietFlow.Runs.Stacks
import QuietFlow.Graph.Util

/-! Graphs, nodes and workers: `node.cpp`, `graph.cpp` and `Schedule::run_task`.

Every thread runs frames: a call of `Graph::create_edges`, a call of `Graph::ready`,
or a worker with a node in `run_task`, `Node::finish` and `Graph::finish`. One step is
one atomic operation, one load or store of a shared field or one mutex section; the
walks of `down_streams` take the list when they lock it and decrement one count a
step, and an assertion is checked in the step of the store or push that follows it. A
failed assertion, a full self queue and a null dereference disable the step.

Counters are integers: the `wait_count` of a node is never above the number of nodes it
requires, that of a graph never above the number of its nodes. A self queue is a FIFO
here, and `m_count` has no bound; with the ring, and `m_count` as the `int32_t` it is,
they are in `Graph.Whole`.

A node is created at most once, so the graph it is created in is a parameter;
`parentSet` says since when `parent_graph` is set. The fields below the line of
`Shared` are history that no step reads. -/
namespace QuietFlow.Engine
open Runs

/-- The sizes that make a graph limited. -/
structure Limit where
  parallel : ℕ
  queueSize : ℕ
  parallel_lt : parallel < 30
  queueSize_lt : queueSize < 2 ^ 15

structure Layout (N G : Type) where
  /-- The graph a node is created in. -/
  graphOf : N → G
  limit : G → Option Limit

/-- `fast_node_max_num`. -/
def fastNodeMaxNum : Fin 64 := 63

/-- `fast_down_strams_bak_init`. -/
def bakInit : BitVec 64 := bitMask 63

/-- A call of `create_edges`: with the nodes the new node requires, or with a graph it
waits for. -/
inductive Call (N G : Type) where
  | edges (required : List (Option N))
  | graph (g : G)
  deriving DecidableEq

/-- Where a thread is in `add_downstream`. -/
inductive Edge where
  | status
  | sameGraph
  | testBit
  | dup
  | loadBits
  | storeBits (word : BitVec 64)
  | readBak
  | lock
  deriving DecidableEq

/-- Where a thread is in `create_edges`. -/
inductive Build (N G : Type) where
  | count (c : Call N G)
  | store (c : Call N G)
  | arm (required : List (Option N))
  | edges (rest : List (Option N))
  | sub (r : Option N) (rest : List (Option N))
  | edge (u : N) (e : Edge) (rest : List (Option N))
  | check (g : G)
  | recheck (g : G)
  deriving DecidableEq

/-- What a call of `create_edges` does once the node is stored. -/
def Call.first {N G : Type} : Call N G → Build N G
  | .edges required => .arm required
  | .graph g => .check g

/-- Where a worker is with its node, in `run_task`, `finish` and `Graph::finish`. -/
inductive Work (N : Type) where
  | taken
  | resume
  | running
  | snapshot
  | bits (idxs : List ℕ) (notified : List N)
  | notifyBit (d : N) (idxs : List ℕ) (notified : List N)
  | drain (notified : List N)
  | notify (list : List N) (notified : List N)
  | graphCount (notified : List N)
  | graphDrain (notified : List N)
  | graphNotify (list : List N) (notified : List N)
  | tryEnqueue (n : N)
  | tryDequeue (temp : Option N)
  | pop (temp : Option N)
  | leave (next : Option N)
  | leavePopped (n : N)
  | left (next : Option N)
  deriving DecidableEq

/-- Who calls `Graph::ready`. -/
inductive Caller (N : Type) where
  | create (d : N)
  | finish (u : N)
  deriving DecidableEq

inductive Frame (N G : Type) where
  | build (d : N) (b : Build N G)
  | ready (caller : Caller N) (n : N)
  | enqueue (n : N)
  | dispatch (n : N)
  | work (u : N) (w : Work N)
  deriving DecidableEq

/-- What happens once to a node: in its `create_edges` its graph counts it, stores it, its
`wait_count` is set up and the call returns; its worker sets its status, saves its
bitmap, takes its `down_streams`, decrements the graph's count and completes
`Graph::finish`. -/
inductive Stage where
  | count
  | store
  | arm
  | built
  | finish
  | snapshot
  | drain
  | decrement
  | complete
  deriving DecidableEq

/-- What a thread may begin: a thread that is idle or in the `run` of a node creates
nodes, and an idle one takes tasks. -/
inductive Act (N G : Type) where
  | create (d : N) (c : Call N G)
  | take (u : N)
  deriving DecidableEq

def mayCreate {N G : Type} : Option (Frame N G) → Bool
  | none => true
  | some (.work _ .running) => true
  | some _ => false

structure Shared (N G : Type) where
  status : N → RunningStatus
  parentSet : N → Bool
  nodeId : N → ℕ
  fastDownStrams : N → BitVec 64
  fastDownStramsBak : N → BitVec 64
  waitCount : N → ℤ
  downStreams : N → List N
  nodeNum : G → ℕ
  fastNodes : G → ℕ → Option N
  nodes : G → List N
  graphWaitCount : G → ℤ
  graphDownStreams : G → List N
  mCount : G → ℤ
  limitQueue : G → List N
  /-- The task queue of the schedule. -/
  pool : List N
  ----------
  calls : N → Option (Call N G)
  /-- The nodes of the graph whose `create_edges` had returned when a waiter's call began. -/
  before : N → List N
  /-- On whose behalf a node's `wait_count` was decremented. -/
  paid : N → List (Option N)
  /-- Whose bits were stored. -/
  marked : N → List N
  /-- Passed to `Graph::ready`, or returned by `Graph::finish` without that. -/
  handed : List N
  /-- Passed to `add_new_task`, or returned by `Graph::finish`. -/
  dispatched : List N
  passed : Stage → List N
  /-- Nodes of a limited graph returned by another graph's `finish` without admission. -/
  bypassed : G → ℕ

variable {N G : Type} [DecidableEq N] [DecidableEq G]

namespace Shared
variable (s : Shared N G)

/-- `sub_wait_count`, on behalf of a required node. -/
@[simp] def pay (r : Option N) (d : N) : Shared N G :=
  {s with
    waitCount := Function.update s.waitCount d (s.waitCount d - 1)
    paid := Function.update s.paid d (s.paid d ++ [r])}

/-- The node, if its next `sub_wait_count` returns 1. -/
def woken (d : N) : List N := if s.waitCount d = 1 then [d] else []

@[simp] def pass (st : Stage) (u : N) : Shared N G :=
  {s with passed := Function.update s.passed st (s.passed st ++ [u])}

@[simp] def hand (n : N) : Shared N G := {s with handed := s.handed ++ [n]}

/-- `Graph::finish` of `u` returns a node that was not handed out before. -/
@[simp] def complete (u : N) (next : Option N) : Shared N G :=
  {s with handed := s.handed ++ next.toList, dispatched := s.dispatched ++ next.toList}.pass .complete u

@[simp] def setStatus (u : N) (status : RunningStatus) : Shared N G :=
  {s with status := Function.update s.status u status}

/-- `Schedule::add_new_task`. -/
def addNewTask (n : N) : Option (Shared N G × List (Frame N G)) :=
  if s.status n = .initing then
    some ({s with pool := s.pool ++ [n], dispatched := s.dispatched ++ [n]}, [])
  else none

end Shared

/-- The first notified node that fits is the next task. -/
def pick (fits : N → Bool) : List N → Option N × List N
  | [] => (none, [])
  | n :: rest =>
    if fits n then (some n, rest)
    else ((pick fits rest).1, n :: (pick fits rest).2)

@[simp] def readyAll (u : N) (ns : List N) : List (Frame N G) := ns.map (.ready (.finish u))

namespace Layout
variable (L : Layout N G) (s : Shared N G)

def limited (g : G) : Bool := (L.limit g).isSome

/-! ### Creating nodes -/

/-- `u->add_downstream(d)`. -/
def addDownstream (u d : N) (rest : List (Option N)) : Edge → Shared N G × List (Frame N G)
  | .status =>
    (s, [.build d (if (s.status u).ended then .sub (some u) rest else .edge u .sameGraph rest)])
  | .sameGraph =>
    (s, [.build d (.edge u
      (if s.parentSet u ∧ L.graphOf u = L.graphOf d ∧ s.nodeId d < fastNodeMaxNum then .testBit
        else .lock) rest)])
  | .testBit =>
    (s, [.build d (.edge u
      (if bitMapGet (s.fastDownStrams u) (s.nodeId d) fastNodeMaxNum then .dup else .loadBits) rest)])
  | .dup =>
    (s.pay (some u) d, (s.woken d).map (.ready (.create d)) ++ [.build d (.edge u .readBak rest)])
  | .loadBits => (s, [.build d (.edge u (.storeBits (s.fastDownStrams u)) rest)])
  | .storeBits word =>
    ({s with
      fastDownStrams :=
        Function.update s.fastDownStrams u (bitMapSet word (s.nodeId d) fastNodeMaxNum)
      marked := Function.update s.marked u (s.marked u ++ [d])},
      [.build d (.edge u .readBak rest)])
  | .readBak =>
    (s, [.build d
      (if s.fastDownStramsBak u = bakInit ∨
          bitMapGet (s.fastDownStramsBak u) (s.nodeId d) fastNodeMaxNum then .edges rest
        else .sub (some u) rest)])
  | .lock =>
    if (s.status u).ended then (s, [.build d (.sub (some u) rest)])
    else ({s with downStreams := Function.update s.downStreams u (s.downStreams u ++ [d])},
      [.build d (.edges rest)])

/-- The section of `create_edges` under the graph's mutex. -/
@[simp] def storeNode (d : N) : Shared N G :=
  let g := L.graphOf d
  let id := s.nodeNum g
  {s with
    parentSet := Function.update s.parentSet d true
    nodeId := Function.update s.nodeId d id
    fastNodes := if id < fastNodeMaxNum then
        Function.update s.fastNodes g (Function.update (s.fastNodes g) id (some d)) else s.fastNodes
    nodes := if id < fastNodeMaxNum then s.nodes else Function.update s.nodes g (s.nodes g ++ [d])
    nodeNum := Function.update s.nodeNum g (id + 1)}

/-- `create_edges` of a new node `d`. -/
def createEdges (d : N) : Build N G → Shared N G × List (Frame N G)
  | .count c =>
    let g := L.graphOf d
    ({s with
        graphWaitCount := Function.update s.graphWaitCount g (s.graphWaitCount g + 1)}.pass .count d,
      [.build d (.store c)])
  | .store c => ((L.storeNode s d).pass .store d, [.build d c.first])
  | .arm required =>
    ({s with waitCount := Function.update s.waitCount d (s.waitCount d + required.length)}.pass .arm d,
      if required = [] then [.ready (.create d) d, .build d (.edges [])]
      else [.build d (.edges required)])
  | .edges [] => (s.pass .built d, [])
  | .edges (none :: rest) => (s, [.build d (.sub none rest)])
  | .edges (some r :: rest) =>
    (s, [.build d (if r = d then .sub (some r) rest else .edge r .status rest)])
  | .sub r rest =>
    (s.pay r d, (s.woken d).map (.ready (.create d)) ++ [.build d (.edges rest)])
  | .edge u e rest => L.addDownstream s u d rest e
  | .check g =>
    if s.graphWaitCount g = 0 then (s.pass .arm d, [.ready (.create d) d, .build d (.edges [])])
    else (s, [.build d (.recheck g)])
  | .recheck g =>
    if s.graphWaitCount g = 0 then (s.pass .arm d, [.ready (.create d) d, .build d (.edges [])])
    else
      ({s with
          waitCount := Function.update s.waitCount d (s.waitCount d + 1)
          graphDownStreams := Function.update s.graphDownStreams g (s.graphDownStreams g ++ [d])}.pass
            .arm d,
        [.build d (.edges [])])

/-! ### Dispatching nodes -/

/-- `SelfQueue::try_enqueue`, up to the push. -/
@[simp] def admits (n : N) : Shared N G :=
  let g := L.graphOf n
  {s with mCount := Function.update s.mCount g (s.mCount g + 1)}

/-- `Graph::ready`. -/
def ready (n : N) : Shared N G × List (Frame N G) :=
  if L.limited (L.graphOf n) then
    (L.admits (s.hand n) n, [if s.mCount (L.graphOf n) ≥ 0 then .enqueue n else .dispatch n])
  else (s.hand n, [.dispatch n])

/-- The push of `try_enqueue`. -/
def enqueue (n : N) : Option (Shared N G × List (Frame N G)) :=
  let g := L.graphOf n
  (L.limit g).bind fun l =>
    if (s.limitQueue g).length < alignSize l.queueSize then
      some ({s with limitQueue := Function.update s.limitQueue g (s.limitQueue g ++ [n])}, [])
    else none

/-! ### Finishing nodes -/

/-- `Graph::finish` of a node `u`, from the test of `limit_graph` on. -/
def graphFinish (u : N) : List N → List (Frame N G)
  | [] => if L.limited (L.graphOf u) then [.work u (.tryDequeue none)] else [.work u (.leave none)]
  | temp :: rest =>
    if L.limited (L.graphOf u) then
      match pick (fun n => L.graphOf n = L.graphOf u) rest with
      | (some n, others) => readyAll u (others ++ [temp]) ++ [.work u (.leave (some n))]
      | (none, others) => readyAll u others ++ [.work u
        (if L.graphOf temp = L.graphOf u then .leave (some temp) else .tryDequeue (some temp))]
    else
      match pick (fun n => !L.limited (L.graphOf n)) rest with
      | (some n, others) => readyAll u (others ++ [temp]) ++ [.work u (.leave (some n))]
      | (none, others) => readyAll u others ++ [.work u
        (if L.limited (L.graphOf temp) then .tryEnqueue temp else .leave (some temp))]

/-- `self_queue->try_dequeue` at the end of `Graph::finish`, up to the pop or the return. -/
def tryDequeue (u : N) (temp : Option N) : Shared N G × List (Frame N G) :=
  let g := L.graphOf u
  let s' := {s with mCount := Function.update s.mCount g (s.mCount g - 1)}
  if s.mCount g > 0 then (s', [.work u (.pop temp)])
  else
    ({s'.complete u temp with bypassed := fun g' =>
        if (temp.map L.graphOf) = some g' ∧ L.limited g' then s.bypassed g' + 1 else s.bypassed g'},
      [.work u (.left temp)])

/-- The worker of a node `u`. -/
def runTask (u : N) : Work N → Option (Shared N G × List (Frame N G))
  | .taken =>
    if s.status u = .initing then some (s.setStatus u .ready, [.work u .resume]) else none
  | .resume =>
    if s.status u = .ready then some (s.setStatus u .running, [.work u .running]) else none
  | .running =>
    if s.status u = .running then
      some ((s.setStatus u .finish).pass .finish u, [.work u .snapshot])
    else none
  | .snapshot =>
    some ({s with
        fastDownStramsBak := Function.update s.fastDownStramsBak u (s.fastDownStrams u)}.pass
          .snapshot u,
      [.work u (.bits (bitMapIdx (s.fastDownStrams u) fastNodeMaxNum) [])])
  | .bits [] notified => some (s, [.work u (.drain notified)])
  | .bits (idx :: idxs) notified =>
    (s.fastNodes (L.graphOf u) idx).map fun d => (s, [.work u (.notifyBit d idxs notified)])
  | .notifyBit d idxs notified =>
    some (s.pay (some u) d, [.work u (.bits idxs (notified ++ s.woken d))])
  | .drain notified => some (s.pass .drain u, [.work u (.notify (s.downStreams u) notified)])
  | .notify [] notified => some (s, [.work u (.graphCount notified)])
  | .notify (d :: list) notified =>
    some (s.pay (some u) d, [.work u (.notify list (notified ++ s.woken d))])
  | .graphCount notified =>
    let g := L.graphOf u
    some ({s with
        graphWaitCount := Function.update s.graphWaitCount g (s.graphWaitCount g - 1)}.pass
          .decrement u,
      if s.graphWaitCount g = 1 then [.work u (.graphDrain notified)] else L.graphFinish u notified)
  | .graphDrain notified =>
    some (s, [.work u (.graphNotify (s.graphDownStreams (L.graphOf u)) notified)])
  | .graphNotify [] notified => some (s, L.graphFinish u notified)
  | .graphNotify (w :: list) notified =>
    some ({s with waitCount := Function.update s.waitCount w (s.waitCount w - 1)},
      [.work u (.graphNotify list (notified ++ s.woken w))])
  | .tryEnqueue n =>
    if s.mCount (L.graphOf n) ≥ 0 then
      some (L.admits (s.hand n) n, [.enqueue n, .work u (.leave none)])
    else some (L.admits s n, [.work u (.leave (some n))])
  | .tryDequeue temp => some (L.tryDequeue s u temp)
  | .pop temp =>
    let g := L.graphOf u
    match s.limitQueue g with
    | [] => none
    | n :: queue => some ({s with limitQueue := Function.update s.limitQueue g queue},
      temp.toList.map (.ready (.finish u)) ++ [.work u (.leavePopped n)])
  | .leave next => some (s.complete u next, [.work u (.left next)])
  | .leavePopped n =>
    some ({s with dispatched := s.dispatched ++ [n]}.pass .complete u, [.work u (.left (some n))])
  | .left next =>
    if s.status u = .finish then
      some (s.setStatus u .recoverable, next.toList.map (.work · .taken))
    else none

/-! ### Runs -/

def exec : Frame N G → Option (Shared N G × List (Frame N G))
  | .build d b => some (L.createEdges s d b)
  | .ready _ n => some (L.ready s n)
  | .enqueue n => L.enqueue s n
  | .dispatch n => s.addNewTask n
  | .work u w => L.runTask s u w

def call (top : Option (Frame N G)) : Act N G → Option (Shared N G × List (Frame N G))
  | .create d c =>
    if mayCreate top ∧ s.calls d = none then
      some ({s with
        calls := Function.update s.calls d (some c)
        before := Function.update s.before d (match c with
          | .edges _ => []
          | .graph g => (s.passed .built).filter fun n => L.graphOf n = g)}, [.build d (.count c)])
    else none
  | .take u =>
    if top = none ∧ u ∈ s.pool then some ({s with pool := s.pool.erase u}, [.work u .taken]) else none

def start : Shared N G where
  status _ := .initing
  parentSet _ := false
  nodeId _ := 0
  fastDownStrams _ := 0
  fastDownStramsBak _ := bakInit
  waitCount _ := 0
  downStreams _ := []
  nodeNum _ := 0
  fastNodes _ _ := none
  nodes _ := []
  graphWaitCount _ := 0
  graphDownStreams _ := []
  mCount g := match L.limit g with
    | none => 0
    | some l => -l.parallel
  limitQueue _ := []
  pool := []
  calls _ := none
  before _ := []
  paid _ := []
  marked _ := []
  handed := []
  dispatched := []
  passed _ := []
  bypassed _ := 0

def program : Program (Shared N G) (Frame N G) (Act N G) where
  start := L.start
  call := L.call
  exec := L.exec

/-- Any number of threads create nodes and run them. -/
def system (T : Type) [DecidableEq T] :
    System (Config (Shared N G) (Frame N G) T) (T × Option (Act N G)) := L.program.system T

end Layout
end QuietFlow.Engine
