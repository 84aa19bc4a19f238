import QuietFlow.Aspect.Upstreams

/-! The nodes that `up_streams` points to.

`up_streams` holds raw pointers. A node is destroyed with its last `shared_ptr`: the graph's,
which `clear_graph` lets go, or a user's; a `BackNode`, in a graph that is local to the call,
when the call returns. A `ReuseNode` goes to its pool instead and is left out.

The entries of a node are the nodes that its calls were given, and the `BackNode`s of its waits:
as long as users keep the first, they are valid until the first wait returns. -/
namespace QuietFlow.Aspect
open Runs

/-! ### The calls of a run -/

/-- The nodes that a call is given. -/
def Act.listed : Act → List (Option ℕ)
  | .createEdges _ _ required => required
  | .requireNode _ nodes => nodes
  | _ => []

/-- For whom it is given them. -/
def Act.taker : Act → Option ℕ
  | .createEdges _ n _ => some n
  | .requireNode t _ => some t
  | _ => none

def given (calls : List Act) (x n : ℕ) : Prop := ∃ a ∈ calls, a.taker = some x ∧ some n ∈ a.listed

/-- A `require_node` or `wait_graph` of the task waited, and has returned. -/
def returned (calls : List Act) (t : ℕ) : Prop := .back t ∈ calls

instance (calls : List Act) (x n : ℕ) : Decidable (given calls x n) :=
  inferInstanceAs (Decidable (∃ a ∈ calls, _))

instance (calls : List Act) (t : ℕ) : Decidable (returned calls t) :=
  inferInstanceAs (Decidable (_ ∈ calls))

def Wait.awaited : Wait → List (Option ℕ)
  | .nodes _ listed => listed
  | .graph _ _ => []

structure Memory where
  waits : State
  /-- In the vectors of its graph. -/
  stored : ℕ → Bool
  /-- A user has a `shared_ptr`. -/
  held : ℕ → Bool
  destroyed : ℕ → Bool
  -- History; no step reads it.
  calls : List Act

inductive Use where
  | call (a : Act)
  /-- A user lets the node go. -/
  | drop (n : ℕ)
  /-- The rest of `clear_graph`, where `require_node` does not wait, or has returned. A caller is
  a task whose `require_node` finds all nodes finished. -/
  | clear (caller : Option ℕ) (g : ℕ)
  deriving DecidableEq

namespace Memory
variable (m : Memory)

/-- Not yet destroyed. -/
def alive (n : ℕ) : Bool := decide (n < m.waits.nodes) && !m.destroyed n

def destroy (n : ℕ) : Memory := {m with destroyed := Function.update m.destroyed n true}

def record (a : Act) (s : State) : Memory := {m with waits := s, calls := m.calls ++ [a]}

/-- A call is given pointers to nodes that are still there. -/
def call (a : Act) : Option Memory :=
  let alive := fun (nodes : List (Option ℕ)) => nodes.all fun n => n.all m.alive
  match a with
  | .createEdges _ n required =>
    if alive (some n :: required) then
      (m.waits.step a).map fun s => {m.record a s with
        stored := Function.update m.stored n true
        held := Function.update m.held n true}
    else none
  | .requireNode _ nodes => if alive nodes then (m.waits.step a).map (m.record a) else none
  | .back t =>
    match m.waits.waiting t with
    | none => none
    | some wait => (m.waits.step a).map fun s => (m.record a s).destroy wait.back
  | a => (m.waits.step a).map (m.record a)

def drop (n : ℕ) : Option Memory :=
  if m.held n then
    let m' := {m with held := Function.update m.held n false}
    if m.stored n then some m'
    else if m.waits.unfinished n then none
    else some (m'.destroy n)
  else none

/-- `get_nodes`. -/
def getNodes (g : ℕ) : List ℕ :=
  (List.range m.waits.nodes).filter fun n => m.stored n && decide (m.waits.parentGraph n = some g)

/-- The nodes that go with the graph. -/
def unheld (g : ℕ) : List ℕ := (m.getNodes g).filter fun n => !m.held n

/-- `nodes.clear(); fast_nodes.clear();` -/
def clearNodes (g : ℕ) : Memory :=
  {m with
    stored := fun n => m.stored n && decide (n ∉ m.getNodes g)
    destroyed := fun n => m.destroyed n || decide (n ∈ m.unheld g)}

def clear (caller : Option ℕ) (g : ℕ) : Option Memory :=
  if (m.getNodes g).all fun n => !m.waits.unfinished n then
    match caller with
    | none => some (m.clearNodes g)
    | some t =>
      let nodes := (m.getNodes g).map some
      (m.waits.requireNode t nodes).map fun s => (m.record (.requireNode t nodes) s).clearNodes g
  else none

def step : Use → Option Memory
  | .call a => m.call a
  | .drop n => m.drop n
  | .clear caller g => m.clear caller g

end Memory

def memory : System Memory Use where
  start :=
    { waits := system.start
      stored := fun _ => false
      held := fun _ => false
      destroyed := fun _ => false
      calls := [] }
  step := Memory.step

/-- A node is needed as long as what it was given to has not ended: the node or task of an
earlier call, unless that is a task that has come back from a wait, or a call that waits for it. -/
def Memory.needs (m : Memory) (x n : ℕ) : Prop :=
  m.waits.unfinished x ∧ (¬ returned m.calls x ∧ given m.calls x n ∨
    (m.waits.waiting x).any fun wait => decide (some n ∈ wait.awaited))

instance (m : Memory) (x n : ℕ) : Decidable (m.needs x n) := inferInstanceAs (Decidable (_ ∧ _))

/-- Users let a node go when it is no longer needed. A task does not destroy the nodes of a
graph by its `clear_graph`, unless it has come back from a wait. -/
def keeps (m : Memory) : Use → Prop
  | .call _ => True
  | .drop n => m.stored n = false → ∀ x < m.waits.nodes, ¬ m.needs x n
  | .clear caller g => ∀ n ∈ m.unheld g, (∀ t ∈ caller, returned m.calls t) ∧
      ∀ x < m.waits.nodes, ¬ m.needs x n

instance (m : Memory) : ∀ u, Decidable (keeps m u)
  | .call _ => .isTrue trivial
  | .drop _ => inferInstanceAs (Decidable (_ → _))
  | .clear _ g => inferInstanceAs (Decidable (∀ n ∈ m.unheld g, _))

/-! ### What the calls record -/

/-- The waits of a run, and what the entries of `up_streams` come from. -/
structure Recorded (s : State) (calls : List Act) : Prop where
  flag : flagNode < s.nodes
  given : ∀ x n, given calls x n → x < s.nodes ∧ s.isTask n
  returned : ∀ t, returned calls t → t < s.nodes
  waiting : ∀ t wait, s.waiting t = some wait → s.isTask t ∧ s.status t = .yield ∧
    flagNode < wait.back ∧ wait.back < s.nodes ∧ s.task wait.back = false ∧
    ∀ n, some n ∈ wait.awaited → s.isTask n
  owner : ∀ t t' wait wait', s.waiting t = some wait → s.waiting t' = some wait' →
    wait.back = wait'.back → t = t'
  /-- Given by a call, or the `BackNode` of a wait, or awaited by one. -/
  entries : ∀ x n, x < s.nodes → s.lists x n → s.unfinished x → Aspect.given calls x n ∨
    Aspect.returned calls x ∨ (∃ wait, s.waiting x = some wait ∧ wait.back = n) ∨
    ∃ t wait, s.waiting t = some wait ∧ wait.back = x ∧ some n ∈ wait.awaited

section Calls
variable {s s' : State} {a : Act} {calls : List Act}

end Calls

/-! ### Upstreams stay valid -/

section Steps
variable {m m' : Memory}

namespace Memory

/-- The node that a call destroys. -/
def gone (m : Memory) (a : Act) (n : ℕ) : Prop :=
  ∃ t wait, a = .back t ∧ m.waits.waiting t = some wait ∧ n = wait.back

end Memory

end Steps

end QuietFlow.Aspect
