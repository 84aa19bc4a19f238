import QuietFlow.Graph.Util
import QuietFlow.Runs.Crew

/-! Workers, tasks and coroutine contexts: `schedule.cpp`, `executor.cpp` and the waits of
`aspect.cpp`.

A worker thread runs on the stack of one context. `require_node` and `wait_graph` have
the same steps once they have to wait: a `BackNode` is made and published, and
`swap_new_context` leaves for a new context; whoever runs the `BackNode` comes back with
`set_context`. `coctx_swap` and `coctx_set` are one step each. Contexts and `BackNode`s are
numbered as they are made. A published `BackNode` is taken once, from the task queue or as
the next task of a chain; ordinary nodes may be taken at any time. -/
namespace QuietFlow.Schedule
open Runs

/-- A task of the queue: an ordinary node, or a `BackNode`. -/
inductive Task where
  | node
  | back (b : ℕ)
  deriving DecidableEq

/-- Where an ordinary node is in `run_task`: before `finish`, or after it with the next
task, in `release`. Both may wait. -/
inductive Body where
  | running
  | releasing (next : Option Task)
  deriving DecidableEq

/-- A call of `require_node` or `wait_graph` that waits: its `BackNode`, and the caller. -/
structure Wait where
  back : ℕ
  body : Body
  deriving DecidableEq

/-- Where `coctx_swap` returns to: `routine`, or a wait. -/
inductive Cont where
  | routine
  | wait (w : Wait)
  deriving DecidableEq

structure Saved where
  context : ℕ
  cont : Cont
  deriving DecidableEq

/-- The statement a worker executes next. -/
inductive Pc where
  | created
  | routine
  /-- `swap_new_context(out, jump_in_schedule)`. -/
  | swapPre (out : ℕ) (k : Cont)
  | swapNew (out : ℕ) (k : Cont)
  | swap (out : ℕ) (k : Cont)
  /-- `change_context_status`. -/
  | enter
  | enterYield
  | enterClear
  | dequeue
  | dequeued (n : Task)
  | task (n : Task)
  | body (body : Body)
  | backNode (body : Body)
  | publish (w : Wait)
  | idleAdd (w : Wait)
  /-- `BackNode::run`, with `set_context(c)`. -/
  | spin (b : ℕ)
  | backRun (b : ℕ)
  | setPre (b c : ℕ)
  | setPtr (b c : ℕ)
  | jump (b : ℕ)
  | resumed (w : Wait)
  | resumedDelete (w : Wait)
  | resumedClear (w : Wait)
  | taskEnd
  deriving DecidableEq

/-- A `Thread`, with the context whose stack it runs on. -/
structure Worker where
  pc : Pc
  stack : ℕ
  contextPtr : Option ℕ
  contextPrePtr : Option ℕ
  deriving DecidableEq

/-- What a step may choose: the task that is dequeued, whether a node waits, and the task
that `finish` returns. -/
inductive Act where
  | step
  | dequeue (n : Task)
  | wait
  | finish (next : Option Task)
  deriving DecidableEq

structure Shared where
  idleWorkerNum : ℤ
  pendingContextNum : ℤ
  status : ℕ → RunningStatus
  backRunContextPtr : ℕ → Option ℕ
  /-- The `BackNode`s that are published and not taken. -/
  ready : List ℕ
  /-- The contexts whose registers `coctx_swap` saved. -/
  saved : List Saved
  /-- Contexts and `BackNode`s made so far. -/
  contexts : ℕ
  backs : ℕ
  ----------
  freed : List ℕ

namespace Shared
variable (x : Shared)

@[simp] def setStatus (c : ℕ) (status : RunningStatus) : Shared :=
  {x with status := Function.update x.status c status}

/-- `new ExecutorContext`. -/
@[simp] def newContext : Shared :=
  {x.setStatus x.contexts .initing with
    pendingContextNum := x.pendingContextNum + 1, contexts := x.contexts + 1}

/-- `delete` of a context. -/
@[simp] def deleteContext (c : ℕ) : Shared :=
  {x with pendingContextNum := x.pendingContextNum - 1, freed := x.freed ++ [c]}

def take : Task → Option Shared
  | .node => some x
  | .back b => if b ∈ x.ready then some {x with ready := x.ready.erase b} else none

def takeNext : Option Task → Option Shared
  | none => some x
  | some n => x.take n

end Shared

/-- A step of a worker. -/
def exec (x : Shared) (w : Worker) (a : Act) : Option (Shared × Worker) :=
  match w.pc, a with
  | .created, .step =>
    some (x.newContext, {w with pc := .routine, stack := x.contexts})
  | .routine, .step => some (x.setStatus w.stack .ready, {w with pc := .swapPre w.stack .routine})
  | .swapPre out k, .step => some (x, {w with pc := .swapNew out k, contextPrePtr := some out})
  | .swapNew out k, .step =>
    some (x.newContext, {w with pc := .swap out k, contextPtr := some x.contexts})
  | .swap out k, .step => w.contextPtr.map fun c =>
    ({x with saved := x.saved ++ [⟨out, k⟩]}, {w with pc := .enter, stack := c})
  | .enter, .step => w.contextPtr.map fun c => (x.setStatus c .running, {w with pc := .enterYield})
  | .enterYield, .step =>
    match w.contextPrePtr with
    | none => some (x, {w with pc := .dequeue})
    | some c => some (x.setStatus c .yield, {w with pc := .enterClear})
  | .enterClear, .step => some (x, {w with pc := .dequeue, contextPrePtr := none})
  | .dequeue, .dequeue n => (x.take n).map fun x => (x, {w with pc := .dequeued n})
  | .dequeued n, .step =>
    some ({x with idleWorkerNum := x.idleWorkerNum - 1}, {w with pc := .task n})
  | .task .node, .step => some (x, {w with pc := .body .running})
  | .task (.back b), .step => some (x, {w with pc := .spin b})
  | .body body, .wait => some (x, {w with pc := .backNode body})
  | .body .running, .finish next => (x.takeNext next).map fun x =>
    (x, {w with pc := .body (.releasing next)})
  | .body (.releasing none), .step => some (x, {w with pc := .taskEnd})
  | .body (.releasing (some n)), .step => some (x, {w with pc := .task n})
  | .backNode body, .step =>
    some ({x with
        backRunContextPtr := Function.update x.backRunContextPtr x.backs w.contextPtr
        backs := x.backs + 1},
      {w with pc := .publish ⟨x.backs, body⟩})
  | .publish v, .step => some ({x with ready := x.ready ++ [v.back]}, {w with pc := .idleAdd v})
  | .idleAdd v, .step => (x.backRunContextPtr v.back).map fun c =>
    ({x with idleWorkerNum := x.idleWorkerNum + 1}, {w with pc := .swapPre c (.wait v)})
  | .spin b, .step => (x.backRunContextPtr b).map fun c =>
    (x, if x.status c = .yield then {w with pc := .backRun b} else w)
  | .backRun b, .step => (x.backRunContextPtr b).map fun c =>
    (x.setStatus c .running, {w with pc := .setPre b c})
  | .setPre b c, .step => some (x, {w with pc := .setPtr b c, contextPrePtr := w.contextPtr})
  | .setPtr b c, .step => some (x, {w with pc := .jump b, contextPtr := some c})
  | .jump _, .step => w.contextPtr.bind fun c =>
    match x.saved.find? fun e => e.context = c with
    | some ⟨context, .wait v⟩ =>
      some ({x with saved := x.saved.erase ⟨context, .wait v⟩}, {w with pc := .resumed v, stack := c})
    | _ => none
  | .resumed v, .step =>
    some ({x with backRunContextPtr := Function.update x.backRunContextPtr v.back none},
      {w with pc := .resumedDelete v})
  | .resumedDelete v, .step =>
    match w.contextPrePtr with
    | none => some (x, {w with pc := .resumedClear v})
    | some c => some (x.deleteContext c, {w with pc := .resumedClear v})
  | .resumedClear v, .step => some (x, {w with pc := .body v.body, contextPrePtr := none})
  | .taskEnd, .step =>
    some ({x with idleWorkerNum := x.idleWorkerNum + 1}, {w with pc := .dequeue})
  | _, _ => none

/-- The workers of a schedule, with the value that `init` stores in `idle_worker_num_`. -/
def crew (stored : ℤ) : Crew Shared Worker Act where
  start :=
    { idleWorkerNum := stored
      pendingContextNum := 0
      status := fun _ => .initing
      backRunContextPtr := fun _ => none
      ready := []
      saved := []
      contexts := 0
      backs := 0
      freed := [] }
  place := ⟨.created, 0, none, none⟩
  exec := exec

/-! ### What a step can do -/

inductive Effect : Shared → Worker → Shared → Worker → Prop where
  | created {x st p q} :
    Effect x ⟨.created, st, p, q⟩ x.newContext ⟨.routine, x.contexts, p, q⟩
  | routine {x st p q} :
    Effect x ⟨.routine, st, p, q⟩ (x.setStatus st .ready) ⟨.swapPre st .routine, st, p, q⟩
  | swapPre {x st p q out k} :
    Effect x ⟨.swapPre out k, st, p, q⟩ x ⟨.swapNew out k, st, p, some out⟩
  | swapNew {x st p q out k} :
    Effect x ⟨.swapNew out k, st, p, q⟩ x.newContext ⟨.swap out k, st, some x.contexts, q⟩
  | swap {x st c q out k} :
    Effect x ⟨.swap out k, st, some c, q⟩ {x with saved := x.saved ++ [⟨out, k⟩]} ⟨.enter, c, some c, q⟩
  | enter {x st c q} :
    Effect x ⟨.enter, st, some c, q⟩ (x.setStatus c .running) ⟨.enterYield, st, some c, q⟩
  | enterYield {x st p c} :
    Effect x ⟨.enterYield, st, p, some c⟩ (x.setStatus c .yield) ⟨.enterClear, st, p, some c⟩
  | enterYieldNull {x st p} : Effect x ⟨.enterYield, st, p, none⟩ x ⟨.dequeue, st, p, none⟩
  | enterClear {x st p q} : Effect x ⟨.enterClear, st, p, q⟩ x ⟨.dequeue, st, p, none⟩
  | dequeueNode {x st p q} : Effect x ⟨.dequeue, st, p, q⟩ x ⟨.dequeued .node, st, p, q⟩
  | dequeueBack {x st p q b} : b ∈ x.ready →
    Effect x ⟨.dequeue, st, p, q⟩ {x with ready := x.ready.erase b} ⟨.dequeued (.back b), st, p, q⟩
  | dequeued {x st p q n} :
    Effect x ⟨.dequeued n, st, p, q⟩ {x with idleWorkerNum := x.idleWorkerNum - 1} ⟨.task n, st, p, q⟩
  | taskNode {x st p q} : Effect x ⟨.task .node, st, p, q⟩ x ⟨.body .running, st, p, q⟩
  | taskBack {x st p q b} : Effect x ⟨.task (.back b), st, p, q⟩ x ⟨.spin b, st, p, q⟩
  | wait {x st p q body} : Effect x ⟨.body body, st, p, q⟩ x ⟨.backNode body, st, p, q⟩
  | finish {x st p q next} : (∀ b, next ≠ some (.back b)) →
    Effect x ⟨.body .running, st, p, q⟩ x ⟨.body (.releasing next), st, p, q⟩
  | finishBack {x st p q b} : b ∈ x.ready →
    Effect x ⟨.body .running, st, p, q⟩ {x with ready := x.ready.erase b}
      ⟨.body (.releasing (some (.back b))), st, p, q⟩
  | last {x st p q} : Effect x ⟨.body (.releasing none), st, p, q⟩ x ⟨.taskEnd, st, p, q⟩
  | chain {x st p q n} : Effect x ⟨.body (.releasing (some n)), st, p, q⟩ x ⟨.task n, st, p, q⟩
  | backNode {x st p q body} :
    Effect x ⟨.backNode body, st, p, q⟩
      {x with
        backRunContextPtr := Function.update x.backRunContextPtr x.backs p
        backs := x.backs + 1}
      ⟨.publish ⟨x.backs, body⟩, st, p, q⟩
  | publish {x st p q v} :
    Effect x ⟨.publish v, st, p, q⟩ {x with ready := x.ready ++ [v.back]} ⟨.idleAdd v, st, p, q⟩
  | idleAdd {x st p q v c} : x.backRunContextPtr v.back = some c →
    Effect x ⟨.idleAdd v, st, p, q⟩ {x with idleWorkerNum := x.idleWorkerNum + 1}
      ⟨.swapPre c (.wait v), st, p, q⟩
  | spin {x st p q b} : Effect x ⟨.spin b, st, p, q⟩ x ⟨.spin b, st, p, q⟩
  | spinDone {x st p q b c} : x.backRunContextPtr b = some c → x.status c = .yield →
    Effect x ⟨.spin b, st, p, q⟩ x ⟨.backRun b, st, p, q⟩
  | backRun {x st p q b c} : x.backRunContextPtr b = some c →
    Effect x ⟨.backRun b, st, p, q⟩ (x.setStatus c .running) ⟨.setPre b c, st, p, q⟩
  | setPre {x st p q b c} : Effect x ⟨.setPre b c, st, p, q⟩ x ⟨.setPtr b c, st, p, p⟩
  | setPtr {x st p q b c} : Effect x ⟨.setPtr b c, st, p, q⟩ x ⟨.jump b, st, some c, q⟩
  | jump {x st c q b v} : ⟨c, .wait v⟩ ∈ x.saved →
    Effect x ⟨.jump b, st, some c, q⟩ {x with saved := x.saved.erase ⟨c, .wait v⟩}
      ⟨.resumed v, c, some c, q⟩
  | resumed {x st p q v} :
    Effect x ⟨.resumed v, st, p, q⟩
      {x with backRunContextPtr := Function.update x.backRunContextPtr v.back none}
      ⟨.resumedDelete v, st, p, q⟩
  | resumedDelete {x st p c v} :
    Effect x ⟨.resumedDelete v, st, p, some c⟩ (x.deleteContext c) ⟨.resumedClear v, st, p, some c⟩
  | resumedDeleteNull {x st p v} :
    Effect x ⟨.resumedDelete v, st, p, none⟩ x ⟨.resumedClear v, st, p, none⟩
  | resumedClear {x st p q v} :
    Effect x ⟨.resumedClear v, st, p, q⟩ x ⟨.body v.body, st, p, none⟩
  | taskEnd {x st p q} :
    Effect x ⟨.taskEnd, st, p, q⟩ {x with idleWorkerNum := x.idleWorkerNum + 1} ⟨.dequeue, st, p, q⟩

variable {x x' : Shared} {w w' : Worker} {a : Act}

theorem effect_dequeue {n : Task} {st : ℕ} {p q : Option ℕ} (h : x.take n = some x') :
    Effect x ⟨.dequeue, st, p, q⟩ x' ⟨.dequeued n, st, p, q⟩ := by
  cases n with
  | node =>
    cases h
    exact .dequeueNode
  | back b =>
    rw [Shared.take] at h
    split at h
    · next hb =>
      cases h
      exact .dequeueBack hb
    · cases h

theorem effect_finish {next : Option Task} {st : ℕ} {p q : Option ℕ} (h : x.takeNext next = some x') :
    Effect x ⟨.body .running, st, p, q⟩ x' ⟨.body (.releasing next), st, p, q⟩ := by
  match next, h with
  | none, h =>
    cases h
    exact .finish fun b hb => by cases hb
  | some .node, h =>
    cases h
    exact .finish fun b hb => by cases hb
  | some (.back b), h =>
    rw [Shared.takeNext, Shared.take] at h
    split at h
    · next hb =>
      cases h
      exact .finishBack hb
    · cases h

theorem effect_of_exec (h : exec x w a = some (x', w')) : Effect x w x' w' := by
  obtain ⟨pc, st, p, q⟩ := w
  cases pc
  case swap out k =>
    cases a <;> cases p <;> cases h
    exact .swap
  case enter =>
    cases a <;> cases p <;> cases h
    exact .enter
  case enterYield =>
    cases a <;> cases q <;> cases h
    · exact .enterYieldNull
    · exact .enterYield
  case dequeue =>
    cases a with
    | dequeue n =>
      obtain ⟨y, hy, hs⟩ := Option.map_eq_some_iff.mp h
      cases hs
      exact effect_dequeue hy
    | step | wait | finish => cases h
  case task n =>
    cases a <;> cases n <;> cases h
    · exact .taskNode
    · exact .taskBack
  case body body =>
    cases a with
    | step =>
      match body, h with
      | .releasing none, h =>
        cases h
        exact .last
      | .releasing (some n), h =>
        cases h
        exact .chain
    | wait =>
      cases h
      exact .wait
    | finish next =>
      cases body with
      | running =>
        obtain ⟨y, hy, hs⟩ := Option.map_eq_some_iff.mp h
        cases hs
        exact effect_finish hy
      | releasing next => cases h
    | dequeue n => cases h
  case idleAdd v =>
    cases a with
    | step =>
      obtain ⟨c, hc, hs⟩ := Option.map_eq_some_iff.mp h
      cases hs
      exact .idleAdd hc
    | dequeue | wait | finish => cases h
  case spin b =>
    cases a with
    | step =>
      obtain ⟨c, hc, hs⟩ := Option.map_eq_some_iff.mp h
      split at hs
      · next hst =>
        cases hs
        exact .spinDone hc hst
      · cases hs
        exact .spin
    | dequeue | wait | finish => cases h
  case backRun b =>
    cases a with
    | step =>
      obtain ⟨c, hc, hs⟩ := Option.map_eq_some_iff.mp h
      cases hs
      exact .backRun hc
    | dequeue | wait | finish => cases h
  case jump b =>
    cases a with
    | step =>
      obtain ⟨c, hc, hs⟩ := Option.bind_eq_some_iff.mp h
      have hc : p = some c := hc
      subst hc
      split at hs
      · next context v hfind =>
        have hmem := List.mem_of_find?_eq_some hfind
        have hctx : context = c := by simpa using List.find?_some hfind
        subst hctx
        cases hs
        exact .jump hmem
      · cases hs
    | dequeue | wait | finish => cases h
  case resumedDelete v =>
    cases a <;> cases q <;> cases h
    · exact .resumedDeleteNull
    · exact .resumedDelete
  all_goals
    cases a <;> cases h
    constructor

end QuietFlow.Schedule
