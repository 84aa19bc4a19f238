import QuietFlow.Graph.Util
import QuietFlow.Runs.Stacks

/-! The lifetime of nodes: `node.cpp`, `graph.cpp` and the pool of `ReuseNode`.

A node is made by its constructor or taken from the pool, stored in a graph by
`create_edges`, and given up when the last `shared_ptr` to it goes: an ordinary node is
deleted, a `ReuseNode` goes back to the pool through `NodeDelete`, or is deleted when the
pool is full. Nodes and graphs are numbered as they are made. The scheduler moves a node's
status up to `Recoverable`; the waits of `release` and `clear_graph` for other reasons than
a status only delay them. -/
namespace QuietFlow.Reuse
open Runs

/-- Who gave a node up: the user, or `clear_graph` and `~Graph`. -/
inductive By where
  | user
  | clear
  deriving DecidableEq

/-- Who calls `Node::release`. -/
inductive Deleter where
  | nodeDelete
  | delete
  deriving DecidableEq

/-- What follows a `clear_graph`: in `Node::release`, `~Graph`; in `~Graph`, its end. -/
inductive Then where
  | call
  | release
  | delete
  deriving DecidableEq

/-- What a thread has still to do. -/
inductive Frame where
  /-- The `fetch_add` of `Node::Node`. -/
  | construct (n : ℕ)
  /-- `get_from_pool`, after its `try_dequeue`. -/
  | create (n : ℕ)
  | countUp (n : ℕ)
  | clearGraph (g : ℕ) (k : Then)
  | checkFinish (g : ℕ) (k : Then)
  | getNodes (g : ℕ) (k : Then)
  | setFinish (g : ℕ) (k : Then) (required : List ℕ)
  | await (g : ℕ) (k : Then) (required : List ℕ)
  | clear (g : ℕ) (k : Then)
  /-- The rest of `~Graph`, and the destructors of its vectors. -/
  | setDestroy (g : ℕ)
  | members (g : ℕ)
  /-- A `shared_ptr` goes. -/
  | reset (who : By) (n : ℕ)
  | release (d : Deleter) (who : By) (n : ℕ)
  | forget (d : Deleter) (who : By) (n : ℕ)
  | tryEnqueue (who : By) (n : ℕ)
  | pooled
  /-- `~Node`. -/
  | destruct (who : By) (n : ℕ)
  | countDown (who : By) (n : ℕ)
  | destroy (who : By) (n : ℕ)
  deriving DecidableEq

/-- What a thread may begin, and what may change at any time. -/
inductive Call where
  | new (reuse : Bool)
  | getFromPool (n : ℕ)
  | getGraph (n : ℕ)
  | newGraph
  | createEdges (g n : ℕ)
  | clearGraph (g : ℕ)
  | deleteGraph (g : ℕ)
  | delete (n : ℕ)
  | reset (n : ℕ)
  /-- The scheduler sets a node's status. -/
  | setStatus (n : ℕ) (status : RunningStatus)
  /-- The pool has room, or is full. -/
  | poolFull (full : Bool)
  deriving DecidableEq

structure Shared where
  pendingWorkerNum : ℤ
  /-- Nodes and graphs made so far. -/
  nodes : ℕ
  graphs : ℕ
  reuse : ℕ → Bool
  status : ℕ → RunningStatus
  subGraph : ℕ → Option ℕ
  useCount : ℕ → ℕ
  graphStatus : ℕ → RunningStatus
  /-- `fast_nodes` and `nodes` of a graph. -/
  stored : ℕ → List ℕ
  pool : List ℕ
  full : Bool
  /-- The raw pointers, the `shared_ptr`s and the graphs that users hold. -/
  raw : List ℕ
  held : List ℕ
  owned : List ℕ
  ----------
  destroyed : List ℕ
  graphsDestroyed : List ℕ

namespace Shared
variable (x : Shared)

@[simp] def setStatus (n : ℕ) (status : RunningStatus) : Shared :=
  {x with status := Function.update x.status n status}

@[simp] def setGraphStatus (g : ℕ) (status : RunningStatus) : Shared :=
  {x with graphStatus := Function.update x.graphStatus g status}

@[simp] def setUseCount (n count : ℕ) : Shared := {x with useCount := Function.update x.useCount n count}

/-- `new Graph`. -/
@[simp] def newGraph : Shared := {x.setGraphStatus x.graphs .initing with graphs := x.graphs + 1}

/-- `Node::create` of a new object. -/
@[simp] def newNode (reuse : Bool) : Shared :=
  {x with
    nodes := x.nodes + 1
    reuse := Function.update x.reuse x.nodes reuse
    status := Function.update x.status x.nodes .initing
    subGraph := Function.update x.subGraph x.nodes none}

/-- The section of `create_edges` under the graph's mutex. -/
@[simp] def store (g n : ℕ) : Shared :=
  {(x.setUseCount n 2).setGraphStatus g .running with
    raw := x.raw.erase n
    held := x.held ++ [n]
    stored := Function.update x.stored g (x.stored g ++ [n])}

/-- `nodes.clear()` and `fast_nodes.clear()`. -/
@[simp] def clear (g : ℕ) : Shared := {x with stored := Function.update x.stored g []}

end Shared

/-- What a thread goes on with. -/
def Then.frames (k : Then) (g : ℕ) : List Frame :=
  match k with
  | .call => []
  | .release => [.clearGraph g .delete]
  | .delete => [.setDestroy g]

def Deleter.released (d : Deleter) (who : By) (n : ℕ) : Frame :=
  match d with
  | .nodeDelete => .tryEnqueue who n
  | .delete => .destroy who n

/-- The deleter of the `shared_ptr` that `create_edges` makes. -/
def deleter (reuse : Bool) (who : By) (n : ℕ) : Frame :=
  if reuse then .release .nodeDelete who n else .destruct who n

/-- One statement. A wait for a status is not enabled until the status is there. -/
def exec (enableQfDumpGraph : Bool) (x : Shared) : Frame → Option (Shared × List Frame)
  | .construct n => some ({x with pendingWorkerNum := x.pendingWorkerNum + 1, raw := x.raw ++ [n]}, [])
  | .create n =>
    some ({x.setStatus n .initing with subGraph := Function.update x.subGraph n none}, [.countUp n])
  | .countUp n => some ({x with pendingWorkerNum := x.pendingWorkerNum + 1, raw := x.raw ++ [n]}, [])
  | .clearGraph g k =>
    if enableQfDumpGraph ∨ x.graphStatus g = .initing then some (x, k.frames g)
    else some (x, [.checkFinish g k])
  | .checkFinish g k =>
    if x.graphStatus g = .finish then some (x, [.clear g k]) else some (x, [.getNodes g k])
  | .getNodes g k => some (x, [.setFinish g k (x.stored g)])
  | .setFinish g k required => some (x.setGraphStatus g .finish, [.await g k required])
  | .await g k [] => some (x, [.clear g k])
  | .await g k (i :: required) =>
    if x.status i = .recoverable then some (x, [.await g k required]) else none
  | .clear g k => some (x.clear g, (x.stored g).map (.reset .clear) ++ k.frames g)
  | .setDestroy g => some (x.setGraphStatus g .destroy, [.members g])
  | .members g =>
    some ({x.clear g with graphsDestroyed := x.graphsDestroyed ++ [g]}, (x.stored g).map (.reset .clear))
  | .reset who n =>
    match x.useCount n with
    | 0 => none
    | 1 => some (x.setUseCount n 0, [deleter (x.reuse n) who n])
    | count + 2 => some (x.setUseCount n (count + 1), [])
  | .release d who n =>
    match x.subGraph n with
    | none => some (x, [d.released who n])
    | some g => some (x, [.clearGraph g .release, .forget d who n])
  | .forget d who n => some ({x with subGraph := Function.update x.subGraph n none}, [d.released who n])
  | .tryEnqueue who n =>
    if x.full then some (x, [.destruct who n]) else some ({x with pool := x.pool ++ [n]}, [.pooled])
  | .pooled => some ({x with pendingWorkerNum := x.pendingWorkerNum - 1}, [])
  | .destruct who n =>
    if (x.status n).value < RunningStatus.recoverable.value then none else some (x, [.countDown who n])
  | .countDown who n =>
    some ({x with pendingWorkerNum := x.pendingWorkerNum - 1}, [.release .delete who n])
  | .destroy _ n => some ({x.setStatus n .destroy with destroyed := x.destroyed ++ [n]}, [])

/-- A node that was made and not destroyed; its `run` may still be in progress in the pool. -/
def Shared.hasNode (x : Shared) (n : ℕ) : Bool := decide (n < x.nodes ∧ n ∉ x.destroyed)

def Shared.hasGraph (x : Shared) (g : ℕ) : Bool := decide (g < x.graphs ∧ g ∉ x.graphsDestroyed)

def call (x : Shared) : Call → Option (Shared × List Frame)
  | .new reuse => some (x.newNode reuse, [.construct x.nodes])
  | .getFromPool n => if n ∈ x.pool then some ({x with pool := x.pool.erase n}, [.create n]) else none
  | .getGraph n =>
    if x.hasNode n then
      match x.subGraph n with
      | some _ => some (x, [])
      | none => some ({x.newGraph with subGraph := Function.update x.subGraph n (some x.graphs)}, [])
    else none
  | .newGraph => some ({x.newGraph with owned := x.owned ++ [x.graphs]}, [])
  | .createEdges g n => if n ∈ x.raw ∧ x.hasGraph g then some (x.store g n, []) else none
  | .clearGraph g => if x.hasGraph g then some (x, [.clearGraph g .call]) else none
  | .deleteGraph g =>
    if g ∈ x.owned then some ({x with owned := x.owned.erase g}, [.clearGraph g .delete]) else none
  | .delete n => if n ∈ x.raw then some ({x with raw := x.raw.erase n}, [.destruct .user n]) else none
  | .reset n => if n ∈ x.held then some ({x with held := x.held.erase n}, [.reset .user n]) else none
  | .setStatus n status =>
    if (x.status n).value < RunningStatus.recoverable.value ∧ status ≠ .destroy then
      some (x.setStatus n status, [])
    else none
  | .poolFull full => some ({x with full := full}, [])

/-- The threads from `Schedule::init` on, with `pooled` nodes in the pool. -/
def program (enableQfDumpGraph : Bool) (pooled : ℕ) : Program Shared Frame Call where
  start :=
    { pendingWorkerNum := 0
      nodes := pooled
      graphs := 0
      reuse := fun _ => true
      status := fun _ => .recoverable
      subGraph := fun _ => none
      useCount := fun _ => 0
      graphStatus := fun _ => .initing
      stored := fun _ => []
      pool := List.range pooled
      full := false
      raw := []
      held := []
      owned := []
      destroyed := []
      graphsDestroyed := [] }
  call x _ a := call x a
  exec := exec enableQfDumpGraph

/-! ### What a step can do -/

/-- The labels, the frames replaced and the new ones. -/
inductive Effect (dump : Bool) : Shared → Option Call → List Frame → Shared → List Frame → Prop where
  | new {x r} : Effect dump x (some (.new r)) [] (x.newNode r) [.construct x.nodes]
  | getFromPool {x n} : n ∈ x.pool →
    Effect dump x (some (.getFromPool n)) [] {x with pool := x.pool.erase n} [.create n]
  | getGraph {x n} : x.hasNode n → x.subGraph n = none →
    Effect dump x (some (.getGraph n)) []
      {x.newGraph with subGraph := Function.update x.subGraph n (some x.graphs)} []
  | newGraph {x} : Effect dump x (some .newGraph) [] {x.newGraph with owned := x.owned ++ [x.graphs]} []
  | createEdges {x g n} : n ∈ x.raw → x.hasGraph g →
    Effect dump x (some (.createEdges g n)) [] (x.store g n) []
  | callClear {x g} : x.hasGraph g → Effect dump x (some (.clearGraph g)) [] x [.clearGraph g .call]
  | deleteGraph {x g} : g ∈ x.owned →
    Effect dump x (some (.deleteGraph g)) [] {x with owned := x.owned.erase g} [.clearGraph g .delete]
  | delete {x n} : n ∈ x.raw →
    Effect dump x (some (.delete n)) [] {x with raw := x.raw.erase n} [.destruct .user n]
  | drop {x n} : n ∈ x.held →
    Effect dump x (some (.reset n)) [] {x with held := x.held.erase n} [.reset .user n]
  | setStatus {x n status} : (x.status n).value < RunningStatus.recoverable.value → status ≠ .destroy →
    Effect dump x (some (.setStatus n status)) [] (x.setStatus n status) []
  | poolFull {x full} : Effect dump x (some (.poolFull full)) [] {x with full := full} []
  | hasGraph {x n} : Effect dump x (some (.getGraph n)) [] x []
  | construct {x n} : Effect dump x none [.construct n]
      {x with pendingWorkerNum := x.pendingWorkerNum + 1, raw := x.raw ++ [n]} []
  | create {x n} : Effect dump x none [.create n]
      {x.setStatus n .initing with subGraph := Function.update x.subGraph n none} [.countUp n]
  | countUp {x n} : Effect dump x none [.countUp n]
      {x with pendingWorkerNum := x.pendingWorkerNum + 1, raw := x.raw ++ [n]} []
  | skip {x g k} : dump = true ∨ x.graphStatus g = .initing →
    Effect dump x none [.clearGraph g k] x (k.frames g)
  | clearGraph {x g k} : dump = false → Effect dump x none [.clearGraph g k] x [.checkFinish g k]
  | finished {x g k} : x.graphStatus g = .finish → Effect dump x none [.checkFinish g k] x [.clear g k]
  | checkFinish {x g k} : Effect dump x none [.checkFinish g k] x [.getNodes g k]
  | getNodes {x g k} : Effect dump x none [.getNodes g k] x [.setFinish g k (x.stored g)]
  | setFinish {x g k r} :
    Effect dump x none [.setFinish g k r] (x.setGraphStatus g .finish) [.await g k r]
  | await {x g k i r} : x.status i = .recoverable →
    Effect dump x none [.await g k (i :: r)] x [.await g k r]
  | awaited {x g k} : Effect dump x none [.await g k []] x [.clear g k]
  | clear {x g k} :
    Effect dump x none [.clear g k] (x.clear g) ((x.stored g).map (.reset .clear) ++ k.frames g)
  | setDestroy {x g} : Effect dump x none [.setDestroy g] (x.setGraphStatus g .destroy) [.members g]
  | members {x g} : Effect dump x none [.members g]
      {x.clear g with graphsDestroyed := x.graphsDestroyed ++ [g]} ((x.stored g).map (.reset .clear))
  | last {x who n} : x.useCount n = 1 →
    Effect dump x none [.reset who n] (x.setUseCount n 0) [deleter (x.reuse n) who n]
  | reset {x who n count} : x.useCount n = count + 2 →
    Effect dump x none [.reset who n] (x.setUseCount n (count + 1)) []
  | release {x d who n} : x.subGraph n = none →
    Effect dump x none [.release d who n] x [d.released who n]
  | releaseGraph {x d who n g} : x.subGraph n = some g →
    Effect dump x none [.release d who n] x [.clearGraph g .release, .forget d who n]
  | forget {x d who n} : Effect dump x none [.forget d who n]
      {x with subGraph := Function.update x.subGraph n none} [d.released who n]
  | rejected {x who n} : Effect dump x none [.tryEnqueue who n] x [.destruct who n]
  | tryEnqueue {x who n} :
    Effect dump x none [.tryEnqueue who n] {x with pool := x.pool ++ [n]} [.pooled]
  | pooled {x} :
    Effect dump x none [.pooled] {x with pendingWorkerNum := x.pendingWorkerNum - 1} []
  | destruct {x who n} : RunningStatus.recoverable.value ≤ (x.status n).value →
    Effect dump x none [.destruct who n] x [.countDown who n]
  | countDown {x who n} : Effect dump x none [.countDown who n]
      {x with pendingWorkerNum := x.pendingWorkerNum - 1} [.release .delete who n]
  | destroy {x who n} : Effect dump x none [.destroy who n]
      {x.setStatus n .destroy with destroyed := x.destroyed ++ [n]} []

section Effect
variable {dump : Bool} {x x' : Shared} {new : List Frame}

theorem effect_of_call {a : Call} (h : call x a = some (x', new)) : Effect dump x (some a) [] x' new := by
  cases a with
  | new r =>
    cases h
    exact .new
  | newGraph =>
    cases h
    exact .newGraph
  | poolFull full =>
    cases h
    exact .poolFull
  | getGraph n =>
    obtain ⟨huse, h⟩ := Option.ite_none_right_eq_some.mp h
    cases hsub : x.subGraph n with
    | some g =>
      rw [hsub] at h
      cases h
      exact .hasGraph
    | none =>
      rw [hsub] at h
      cases h
      exact .getGraph huse hsub
  | getFromPool n =>
    obtain ⟨hn, h⟩ := Option.ite_none_right_eq_some.mp h
    cases h
    exact .getFromPool hn
  | createEdges g n =>
    obtain ⟨⟨hn, hg⟩, h⟩ := Option.ite_none_right_eq_some.mp h
    cases h
    exact .createEdges hn hg
  | clearGraph g =>
    obtain ⟨hg, h⟩ := Option.ite_none_right_eq_some.mp h
    cases h
    exact .callClear hg
  | deleteGraph g =>
    obtain ⟨hg, h⟩ := Option.ite_none_right_eq_some.mp h
    cases h
    exact .deleteGraph hg
  | delete n =>
    obtain ⟨hn, h⟩ := Option.ite_none_right_eq_some.mp h
    cases h
    exact .delete hn
  | reset n =>
    obtain ⟨hn, h⟩ := Option.ite_none_right_eq_some.mp h
    cases h
    exact .drop hn
  | setStatus n status =>
    obtain ⟨⟨hlt, hne⟩, h⟩ := Option.ite_none_right_eq_some.mp h
    cases h
    exact .setStatus hlt hne

theorem effect_of_exec {f : Frame} (h : exec dump x f = some (x', new)) : Effect dump x none [f] x' new := by
  cases f with
  | clearGraph g k =>
    rw [exec] at h
    split at h
    · next hskip =>
      cases h
      exact .skip hskip
    · next hskip =>
      cases h
      exact .clearGraph (Bool.eq_false_iff.mpr fun hd => hskip (.inl hd))
  | checkFinish g k =>
    rw [exec] at h
    split at h
    · next hfinish =>
      cases h
      exact .finished hfinish
    · cases h
      exact .checkFinish
  | await g k required =>
    cases required with
    | nil =>
      cases h
      exact .awaited
    | cons i required =>
      obtain ⟨hi, h⟩ := Option.ite_none_right_eq_some.mp h
      cases h
      exact .await hi
  | reset who n =>
    rw [exec] at h
    split at h
    · cases h
    · next hone =>
      cases h
      exact .last hone
    · next count hcount =>
      cases h
      exact .reset hcount
  | release d who n =>
    rw [exec] at h
    split at h
    · next hsub =>
      cases h
      exact .release hsub
    · next g hsub =>
      cases h
      exact .releaseGraph hsub
  | tryEnqueue who n =>
    rw [exec] at h
    split at h
    · cases h
      exact .rejected
    · cases h
      exact .tryEnqueue
  | destruct who n =>
    obtain ⟨hge, h⟩ := Option.ite_none_left_eq_some.mp h
    cases h
    exact .destruct (Nat.le_of_not_lt hge)
  | _ =>
    cases h
    constructor

variable {pooled : ℕ} {a : Option Call} {old : List Frame}

theorem effect_of_moves (h : (program dump pooled).Moves x a old x' new) : Effect dump x a old x' new := by
  cases h with
  | call h => exact effect_of_call h
  | exec h => exact effect_of_exec h

end Effect
end QuietFlow.Reuse
