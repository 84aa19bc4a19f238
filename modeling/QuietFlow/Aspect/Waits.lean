import QuietFlow.Aspect.Search
import QuietFlow.Runs.System

/-! Waits and their check for circles: `aspect.cpp`, with `enable_qf_check_circle` on.

Calls are taken one at a time, each as one step; a call that throws leaves the state as it
is. Nodes are numbered as they are made, `flag_node` first and `BackNode`s among them; a null
pointer in a list of nodes is `none`. -/
namespace QuietFlow.Aspect
open Runs

/-- A call of `require_node` or `wait_graph` that waits, with its `BackNode`. -/
inductive Wait where
  | nodes (back : ℕ) (nodes : List (Option ℕ))
  | graph (back g : ℕ)
  deriving DecidableEq

def Wait.back : Wait → ℕ
  | .nodes back _ | .graph back _ => back

structure State where
  nodes : ℕ
  /-- Made by a user: not `flag_node` and no `BackNode`. -/
  task : ℕ → Bool
  status : ℕ → RunningStatus
  /-- Null before `create_edges`; a `BackNode` is in a graph that nobody else has. -/
  parentGraph : ℕ → Option ℕ
  required : ℕ → List (Option ℕ)
  upStreams : ℕ → List (Option ℕ)
  waiting : ℕ → Option Wait
  /-- The `BackNode` that waits for a graph was notified. -/
  notified : ℕ → Bool

inductive Act where
  /-- `Node::Node`. -/
  | new
  | createEdges (g n : ℕ) (required : List (Option ℕ))
  | start (n : ℕ)
  | finish (n : ℕ)
  | requireNode (t : ℕ) (nodes : List (Option ℕ))
  | waitGraph (t g : ℕ)
  /-- The `BackNode` of a wait runs, and the call returns. -/
  | back (t : ℕ)
  deriving DecidableEq

namespace State
variable (s : State)

/-- `loose_get_status() < RunningStatus::Finish`. -/
def unfinished (n : ℕ) : Bool := !(s.status n).ended

/-- The nodes that `get_wait_count` of a graph counts. -/
def unfinishedIn (g : ℕ) : List ℕ :=
  (List.range s.nodes).filter fun n => decide (s.parentGraph n = some g) && s.unfinished n

/-- A node that users know of. -/
def isTask (n : ℕ) : Bool := decide (n < s.nodes) && s.task n

/-- Among `nodes` nodes the loop has ended after `nodes + 1` rounds, or never will. -/
def checkCircle (currentTask : ℕ) (checkNodes : List (Option ℕ)) : Except Stop Bool :=
  Aspect.checkCircle s.status s.upStreams currentTask (s.nodes + 1) checkNodes

/-! ### Calls -/

def needWait (nodes : List (Option ℕ)) : Bool := nodes.any fun n => n.any s.unfinished

def newNode (task : Bool) (upStreams : List (Option ℕ)) : State :=
  {s with
    nodes := s.nodes + 1
    task := Function.update s.task s.nodes task
    status := Function.update s.status s.nodes .initing
    parentGraph := Function.update s.parentGraph s.nodes none
    required := Function.update s.required s.nodes []
    upStreams := Function.update s.upStreams s.nodes upStreams}

/-- `append_upstreams(n, ·)`. -/
def append (n : ℕ) (nodes : List (Option ℕ)) : State :=
  {s with upStreams := Function.update s.upStreams n (s.upStreams n ++ nodes)}

/-- What `create_edges` appends: the nodes that are not null, and `flag_node`. -/
def recorded (required : List (Option ℕ)) : List (Option ℕ) :=
  required.filter Option.isSome ++ [some flagNode]

/-- A `BackNode` is made, with the upstreams that `create_edges` gives it, and the task yields. -/
def suspend (t : ℕ) (wait : Wait) (upStreams : List (Option ℕ)) : State :=
  let s := (s.newNode false upStreams).append t [some s.nodes]
  {s with
    status := Function.update s.status t .yield
    waiting := Function.update s.waiting t (some wait)
    notified := Function.update s.notified t false}

/-- The listed nodes are only known to be made; the new node itself may be among them. -/
def createEdges (g n : ℕ) (required : List (Option ℕ)) : Option State :=
  if s.isTask n ∧ s.parentGraph n = none ∧ required.all fun r => r.all s.isTask then
    some {s.append n (recorded required) with
      parentGraph := Function.update s.parentGraph n (some g)
      required := Function.update s.required n required}
  else none

/-- A worker takes the node: its `wait_count` is zero. -/
def start (n : ℕ) : Option State :=
  if s.isTask n ∧ s.status n = .initing ∧ s.parentGraph n ≠ none ∧
      (s.required n).all fun r => r.all fun m => decide (m = n) || !s.unfinished m then
    some {s with status := Function.update s.status n .running}
  else none

/-- The last node of a graph notifies those that wait for the graph. -/
def finish (n : ℕ) : Option State :=
  if s.isTask n ∧ s.status n = .running then
    let s' := {s with status := Function.update s.status n .finish}
    some {s' with
      notified := fun t =>
        match s.waiting t with
        | some (.graph _ g) =>
          s.notified t || (decide (s.parentGraph n = some g) && (s'.unfinishedIn g).isEmpty)
        | _ => s.notified t}
  else none

def requireNode (t : ℕ) (nodes : List (Option ℕ)) : Option State :=
  if s.isTask t ∧ s.status t = .running ∧ nodes.all fun n => n.all s.isTask then
    if s.needWait nodes then
      match s.checkCircle t nodes with
      | .error _ => none
      | .ok true => some s
      | .ok false => some (s.suspend t (.nodes s.nodes nodes) (recorded nodes))
    else some (s.append t nodes)
  else none

def waitGraph (t g : ℕ) : Option State :=
  if s.isTask t ∧ s.status t = .running then
    if s.unfinishedIn g = [] then some s
    else if s.parentGraph t = some g then some s
    else some (s.suspend t (.graph s.nodes g) [])
  else none

def released (t : ℕ) : Wait → Bool
  | .nodes _ nodes => !s.needWait nodes
  | .graph _ _ => s.notified t

/-- `~Graph` of the call's own graph requires its node, the `BackNode`, once more. -/
def back (t : ℕ) : Option State :=
  match s.waiting t with
  | none => none
  | some wait =>
    if s.released t wait then
      some {s.append t [some wait.back] with
        status := Function.update (Function.update s.status wait.back .recoverable) t .running
        waiting := Function.update s.waiting t none}
    else none

def step : Act → Option State
  | .new => some (s.newNode true [])
  | .createEdges g n required => s.createEdges g n required
  | .start n => s.start n
  | .finish n => s.finish n
  | .requireNode t nodes => s.requireNode t nodes
  | .waitGraph t g => s.waitGraph t g
  | .back t => s.back t

end State

def system : System State Act where
  start :=
    { nodes := flagNode + 1
      task := fun _ => false
      status := fun n => if n = flagNode then .initing else .destroy
      parentGraph := fun _ => none
      required := fun _ => []
      upStreams := fun _ => []
      waiting := fun _ => none
      notified := fun _ => false }
  step := State.step

/-! ### Waiting for -/

/-- Who waits for whom. -/
inductive WaitsFor (s : State) : ℕ → ℕ → Prop where
  | required {n m} : s.isTask n → s.status n = .initing → some m ∈ s.required n → s.unfinished m →
    WaitsFor s n m
  | node {t m back nodes} : s.waiting t = some (.nodes back nodes) → some m ∈ nodes → s.unfinished m →
    WaitsFor s t m
  | graph {t m back g} : s.waiting t = some (.graph back g) → m ∈ s.unfinishedIn g → WaitsFor s t m

/-- A wait that is not in `wait_graph`. -/
def Mirrored (s : State) (t m : ℕ) : Prop :=
  WaitsFor s t m ∧ ∀ back g, s.waiting t ≠ some (.graph back g)

/-- What the check follows. -/
def Upstream (s : State) : ℕ → ℕ → Prop := Follows s.status s.upStreams

/-! ### What a call can do -/

inductive Effect : State → Act → State → Prop where
  | new {s} : Effect s .new (s.newNode true [])
  | createEdges {s g n required} : s.isTask n → s.parentGraph n = none →
    (∀ m, some m ∈ required → s.isTask m) →
    Effect s (.createEdges g n required) {s.append n (State.recorded required) with
      parentGraph := Function.update s.parentGraph n (some g)
      required := Function.update s.required n required}
  | start {s n} : s.isTask n → s.status n = .initing → s.parentGraph n ≠ none →
    (∀ m, some m ∈ s.required n → m = n ∨ s.unfinished m = false) →
    Effect s (.start n) {s with status := Function.update s.status n .running}
  | finish {s n f} : s.isTask n → s.status n = .running →
    Effect s (.finish n) {s with status := Function.update s.status n .finish, notified := f}
  /-- A call that throws, or finds nothing to wait for. -/
  | same {s a} : Effect s a s
  | append {s t nodes} : s.isTask t → s.status t = .running →
    (∀ n, some n ∈ nodes → s.isTask n ∧ s.unfinished n = false) →
    Effect s (.requireNode t nodes) (s.append t nodes)
  | requireNode {s t nodes} : s.isTask t → s.status t = .running → (∀ n, some n ∈ nodes → s.isTask n) →
    s.checkCircle t nodes = .ok false →
    Effect s (.requireNode t nodes) (s.suspend t (.nodes s.nodes nodes) (State.recorded nodes))
  | waitGraph {s t g} : s.isTask t → s.status t = .running → s.parentGraph t ≠ some g →
    Effect s (.waitGraph t g) (s.suspend t (.graph s.nodes g) [])
  | back {s t wait} : s.waiting t = some wait →
    Effect s (.back t) {s.append t [some wait.back] with
      status := Function.update (Function.update s.status wait.back .recoverable) t .running
      waiting := Function.update s.waiting t none}

theorem all_some {p : ℕ → Bool} {l : List (Option ℕ)} (h : l.all (fun n => n.all p) = true) (n : ℕ)
    (hn : some n ∈ l) : p n = true := by
  simpa using List.all_eq_true.mp h (some n) hn

theorem effect_of_step {s s' : State} {a : Act} (h : s.step a = some s') : Effect s a s' := by
  cases a with
  | new =>
    cases h
    exact .new
  | createEdges g n required =>
    obtain ⟨⟨htask, hgraph, hall⟩, h⟩ := Option.ite_none_right_eq_some.mp h
    cases h
    exact .createEdges htask hgraph (all_some hall)
  | start n =>
    obtain ⟨⟨htask, hstatus, hgraph, hall⟩, h⟩ := Option.ite_none_right_eq_some.mp h
    cases h
    exact .start htask hstatus hgraph fun m hm => by simpa using all_some hall m hm
  | finish n =>
    obtain ⟨⟨htask, hstatus⟩, h⟩ := Option.ite_none_right_eq_some.mp h
    cases h
    exact .finish htask hstatus
  | requireNode t nodes =>
    obtain ⟨⟨htask, hstatus, hall⟩, h⟩ := Option.ite_none_right_eq_some.mp h
    split at h
    · split at h
      · cases h
      · cases h
        exact .same
      · next hcheck =>
        cases h
        exact .requireNode htask hstatus (all_some hall) hcheck
    · next hneed =>
      cases h
      refine .append htask hstatus fun n hn => ⟨all_some hall n hn, ?_⟩
      by_contra hun
      refine hneed (List.any_eq_true.mpr ⟨some n, hn, ?_⟩)
      simpa using hun
  | waitGraph t g =>
    obtain ⟨⟨htask, hstatus⟩, h⟩ := Option.ite_none_right_eq_some.mp h
    split at h
    · cases h
      exact .same
    · split at h
      · cases h
        exact .same
      · next hgraph =>
        cases h
        exact .waitGraph htask hstatus hgraph
  | back t =>
    rw [State.step, State.back] at h
    split at h
    · cases h
    · next wait hwait =>
      obtain ⟨-, h⟩ := Option.ite_none_right_eq_some.mp h
      cases h
      exact .back hwait

end QuietFlow.Aspect
