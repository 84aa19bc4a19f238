import QuietFlow.Schedule.Lifetimes

/-! Whose code a worker is in: `current_task_`.

`require_node` and `wait_graph` ask the worker's `ExectorItem` for its current task, and let their
`BackNode` set it again. The code itself knows by the frame of `run_task` under it, on the stack of
the context, whose node it is: contexts go from worker to worker, and the frame with them. Here the
variables of a frame are kept with its context, and `current_task` says that the two agree. -/
namespace QuietFlow.Current
open Runs Crew
open Schedule (Shared Worker Pc Cont Saved Wait Body Task crew)

/-- A task by its name: an ordinary node or a `BackNode`. -/
inductive Named where
  | node (n : ℕ)
  | back (b : ℕ)
  deriving DecidableEq

def named (n : ℕ) : Task → Named
  | .node => .node n
  | .back b => .back b

/-- The variables of `run_task` and of a wait, on the stack of a context. -/
structure Local where
  task : Named
  nextTask : Named
  currentTask : Option Named

structure Board where
  locals : ℕ → Local
  /-- `back_task` of a `BackNode`. -/
  backTask : ℕ → Option Named

/-- An `ExectorItem`. -/
structure Item where
  worker : Worker
  currentTask : Option Named

namespace Board
variable (b : Board)

def set (c : ℕ) (l : Local) : Board := {b with locals := Function.update b.locals c l}

/-- What a statement does to the variables of its frame; `n` is the name of an ordinary node that
is taken, `v` the worker afterwards. -/
def after (w : Item) (v : Worker) (n : ℕ) : Board :=
  let l := b.locals w.worker.stack
  match w.worker.pc, v.pc with
  | .dequeue, .dequeued k => b.set w.worker.stack {l with task := named n k}
  | .body .running, .body (.releasing (some k)) => b.set w.worker.stack {l with nextTask := named n k}
  | .body (.releasing (some _)), .task _ => b.set w.worker.stack {l with task := l.nextTask}
  | .body _, .backNode _ => b.set w.worker.stack {l with currentTask := w.currentTask}
  | .backNode _, .publish u => {b with backTask := Function.update b.backTask u.back l.currentTask}
  | _, _ => b

end Board

/-- `set_current_task`, in `run_task` and in `BackNode::run`. -/
def Item.after (w : Item) (b : Board) (v : Worker) : Item :=
  match w.worker.pc with
  | .task _ => ⟨v, some (b.locals w.worker.stack).task⟩
  | .backRun k => ⟨v, b.backTask k⟩
  | _ => ⟨v, w.currentTask⟩

def exec (x : Shared × Board) (w : Item) (a : Schedule.Act × ℕ) : Option ((Shared × Board) × Item) :=
  (Schedule.exec x.1 w.worker a.1).map fun (y, v) => ((y, x.2.after w v a.2), w.after x.2 v)

def items (stored : ℤ) : Crew (Shared × Board) Item (Schedule.Act × ℕ) where
  start := ((crew stored).start, ⟨fun _ => ⟨.node 0, .node 0, none⟩, fun _ => none⟩)
  place := ⟨(crew stored).place, none⟩
  exec := exec

/-- In the code of an ordinary node: in `run` or `release`, or in a wait there. -/
def inNode : Pc → Bool
  | .body _ | .backNode _ | .publish _ | .idleAdd _ => true
  | .swapPre _ (.wait _) | .swapNew _ (.wait _) | .swap _ (.wait _) => true
  | .resumed _ | .resumedDelete _ | .resumedClear _ => true
  | _ => false

/-! ### What a frame keeps -/

/-- A frame of `run_task` in the code of a node. -/
structure Frame (l : Local) (body : Body) : Prop where
  node : ∃ n, l.task = .node n
  next : ∀ k, body = .releasing (some k) → ∃ n, l.nextTask = named n k

/-- In a wait of that node. -/
structure Asked (l : Local) (body : Body) : Prop extends Frame l body where
  asked : l.currentTask = some l.task

structure Waits (b : Board) (l : Local) (v : Wait) : Prop extends Asked l v.body where
  back : b.backTask v.back = some l.task

/-- A worker's frame, and its current task where it is the frame's. -/
def Item.Good (b : Board) (w : Item) : Prop :=
  let l := b.locals w.worker.stack
  match w.worker.pc with
  | .dequeued k | .task k => ∃ n, l.task = named n k
  | .body body => Frame l body ∧ w.currentTask = some l.task
  | .backNode body => Asked l body ∧ w.currentTask = some l.task
  | .publish v | .idleAdd v | .resumed v => Waits b l v ∧ w.currentTask = some l.task
  | .swapPre _ (.wait v) | .swapNew _ (.wait v) | .swap _ (.wait v) => Waits b l v ∧ w.currentTask = some l.task
  | .resumedDelete v | .resumedClear v => Asked l v.body ∧ w.currentTask = some l.task
  | .setPre k _ | .setPtr k _ | .jump k => w.currentTask = b.backTask k
  | _ => True

section Step
variable {x x' : Shared} {b b' : Board} {w : Item} {v : Worker} {n : ℕ}

theorem Waits.congr {l : Local} {u : Wait} (h : Waits b l u) (hback : b'.backTask u.back = b.backTask u.back) :
    Waits b' l u := ⟨h.toAsked, hback.trans h.back⟩

/-- Of the variables a worker depends on those of its frame and on the `BackNode`s it deals with. -/
theorem good_congr (hlocals : b'.locals w.worker.stack = b.locals w.worker.stack)
    (hback : ∀ k, k ∈ w.worker.held ∨ k ∈ w.worker.runs → b'.backTask k = b.backTask k) (h : w.Good b) :
    w.Good b' := by
  obtain ⟨⟨pc, st, p, q⟩, cur⟩ := w
  have hlocals : b'.locals st = b.locals st := hlocals
  simp only [Item.Good, hlocals] at h ⊢
  cases pc
  case publish u | idleAdd u | resumed u => exact ⟨h.1.congr (hback _ (.inl List.mem_cons_self)), h.2⟩
  case swapPre out k | swapNew out k | swap out k =>
    cases k with
    | routine => trivial
    | wait u => exact ⟨h.1.congr (hback _ (.inl List.mem_cons_self)), h.2⟩
  case setPre k c | setPtr k c => exact h.trans (hback _ (.inr List.mem_cons_self)).symm
  case jump k => exact h.trans (hback _ (.inr List.mem_cons_self)).symm
  all_goals exact h

theorem Item.Good.current (h : w.Good b) (hpc : inNode w.worker.pc = true) :
    ∃ n, (b.locals w.worker.stack).task = .node n ∧ w.currentTask = some (.node n) := by
  obtain ⟨⟨pc, st, p, q⟩, cur⟩ := w
  cases pc
  case body | backNode | publish | idleAdd | resumed | resumedDelete | resumedClear =>
    obtain ⟨n, hn⟩ := h.1.node
    exact ⟨n, hn, h.2.trans (congrArg some hn)⟩
  case swapPre out k | swapNew out k | swap out k =>
    cases k with
    | routine => cases hpc
    | wait u =>
      obtain ⟨n, hn⟩ := h.1.node
      exact ⟨n, hn, h.2.trans (congrArg some hn)⟩
  all_goals cases hpc

@[simp] theorem set_locals_self (c : ℕ) (l : Local) : (b.set c l).locals c = l := Function.update_self ..

theorem set_locals_ne {c d : ℕ} (h : d ≠ c) (l : Local) : (b.set c l).locals d = b.locals d :=
  Function.update_of_ne h ..

@[simp] theorem set_backTask (c : ℕ) (l : Local) : (b.set c l).backTask = b.backTask := rfl

/-- Only the frame that the worker is in changes, and the new `BackNode`. -/
theorem after_locals {c : ℕ} (h : c ≠ w.worker.stack) : (b.after w v n).locals c = b.locals c := by
  unfold Board.after
  split <;> first | exact set_locals_ne h _ | rfl

theorem after_wait (body : Body) (st : ℕ) (p q : Option ℕ) (cur : Option Named) :
    b.after ⟨⟨.body body, st, p, q⟩, cur⟩ ⟨.backNode body, st, p, q⟩ n =
      b.set st {b.locals st with currentTask := cur} := by
  rcases body with _ | _ | _ <;> rfl

theorem after_backTask (h : Schedule.Effect x w.worker x' v) {k : ℕ} (hk : k < x.backs) :
    (b.after w v n).backTask k = b.backTask k := by
  obtain ⟨worker, cur⟩ := w
  cases h
  case backNode => exact Function.update_of_ne (Nat.ne_of_lt hk) ..
  case wait body => rw [after_wait, set_backTask]
  case finish next _ => cases next <;> rfl
  all_goals rfl

/-- The saved frames. -/
def SavedGood (x : Shared × Board) : Prop :=
  ∀ c u, ⟨c, .wait u⟩ ∈ x.1.saved → Waits x.2 (x.2.locals c) u

/-- The frame of the worker that moves. -/
theorem good_step (h : Schedule.Effect x w.worker x' v) (hgood : w.Good b) (hsaved : SavedGood (x, b))
    (htarget : ∀ k, w.worker.pc = .jump k → ∀ c ∈ w.worker.contextPtr, ∀ u, ⟨c, .wait u⟩ ∈ x.saved →
      u.back = k) :
    (w.after b v).Good (b.after w v n) := by
  obtain ⟨worker, cur⟩ := w
  cases h
  case swapPre out k | swapNew out k =>
    cases k with
    | routine => trivial
    | wait u => exact hgood
  case dequeueNode | dequeueBack => exact ⟨n, congrArg Local.task (set_locals_self _ _)⟩
  case dequeued | publish | idleAdd | setPre | setPtr | resumedDelete | resumedDeleteNull => exact hgood
  case taskNode =>
    obtain ⟨m, hm⟩ := hgood
    exact ⟨⟨⟨m, hm⟩, nofun⟩, rfl⟩
  case wait st p q body =>
    obtain ⟨hframe, hcur⟩ := hgood
    simp only [Item.Good, Item.after, after_wait, set_locals_self]
    exact ⟨⟨⟨hframe.node, hframe.next⟩, hcur⟩, hcur⟩
  case finish st p q next _ =>
    obtain ⟨hframe, hcur⟩ := hgood
    cases next with
    | none => exact ⟨⟨hframe.node, nofun⟩, hcur⟩
    | some k =>
      simp only [Item.Good, Item.after, Board.after, set_locals_self]
      exact ⟨⟨hframe.node, fun k' hk => ⟨n, by cases hk; rfl⟩⟩, hcur⟩
  case finishBack st p q k _ =>
    obtain ⟨hframe, hcur⟩ := hgood
    simp only [Item.Good, Item.after, Board.after, set_locals_self]
    exact ⟨⟨hframe.node, fun k' hk => ⟨n, by cases hk; rfl⟩⟩, hcur⟩
  case chain st p q k =>
    obtain ⟨m, hm⟩ := hgood.1.next k rfl
    exact ⟨m, (congrArg Local.task (set_locals_self _ _)).trans hm⟩
  case backNode st p q body =>
    obtain ⟨hasked, hcur⟩ := hgood
    exact ⟨⟨hasked, (Function.update_self ..).trans hasked.asked⟩, hcur⟩
  case jump st c q k u hmem =>
    have hwaits := hsaved c u hmem
    have hback : u.back = k := htarget k rfl c rfl u hmem
    refine ⟨hwaits, hgood.trans ?_⟩
    rw [← hback]
    exact hwaits.back
  case resumed => exact ⟨hgood.1.toAsked, hgood.2⟩
  case resumedClear => exact ⟨hgood.1.toFrame, hgood.2⟩
  case backRun => rfl
  all_goals trivial

theorem after_created (hpc : w.worker.pc = .created) : b.after w v n = b := by
  simp only [Board.after, hpc]

/-- A wait is saved as its worker leaves. -/
theorem saved_cases (h : Schedule.Effect x w.worker x' v) {c : ℕ} {u : Wait}
    (hmem : ⟨c, .wait u⟩ ∈ x'.saved) : ⟨c, .wait u⟩ ∈ x.saved ∨ w.worker.pc = .swap c (.wait u) := by
  obtain ⟨worker, cur⟩ := w
  cases h
  case swap st d q out k =>
    rcases List.mem_append.mp hmem with hmem | hmem
    · exact .inl hmem
    · cases List.mem_singleton.mp hmem
      exact .inr rfl
  case jump => exact .inl (List.mem_of_mem_erase hmem)
  all_goals exact .inl hmem

end Step

/-! ### Along a run -/

section Run
variable {T : Type} [Fintype T] [DecidableEq T] {stored : ℤ} {s : Crew.Config (Shared × Board) Item T}

def forget (s : Crew.Config (Shared × Board) Item T) : Crew.Config Shared Worker T :=
  ⟨s.shared.1, fun t => (s.places t).worker⟩

omit [Fintype T] [DecidableEq T] in
theorem exec_cases {x x' : Shared × Board} {w w' : Item} {a : Schedule.Act × ℕ}
    (h : exec x w a = some (x', w')) : Schedule.exec x.1 w.worker a.1 = some (x'.1, w'.worker) ∧
      x'.2 = x.2.after w w'.worker a.2 ∧ w' = w.after x.2 w'.worker := by
  obtain ⟨⟨y, v⟩, hexec, heq⟩ := Option.map_eq_some_iff.mp h
  cases heq
  have hworker : (w.after x.2 v).worker = v := by
    unfold Item.after
    split <;> rfl
  rw [hworker]
  exact ⟨hexec, rfl, rfl⟩

omit [Fintype T] in
theorem reached_forget (h : ((items stored).system T).Reached s) :
    ((crew stored).system T).Reached (forget s) := by
  refine Crew.induct (I := fun s => ((crew stored).system T).Reached (forget s)) .start
    (fun s t a s' htook ih => ?_) h
  have hexec := (exec_cases htook.exec).1
  refine .step (a := (t, a.1)) ih ?_ trivial
  change (Schedule.exec s.shared.1 (s.places t).worker a.1).map _ = _
  have hplaces : (forget s').places = Function.update (forget s).places t (s'.places t).worker := by
    funext t'
    by_cases ht : t' = t
    · subst ht
      simp [forget]
    · simp [forget, htook.other ht, Function.update_of_ne ht]
  rw [hexec, Option.map_some]
  exact congrArg some (congrArg (Crew.Config.mk _) hplaces.symm)

omit [DecidableEq T] in
theorem lt_backs {s : Crew.Config Shared Worker T} (h : Schedule.Linked s) {k c : ℕ}
    (hptr : s.shared.backRunContextPtr k = some c) : k < s.shared.backs := by
  by_contra hle
  rw [h.fresh k (Nat.le_of_not_lt hle)] at hptr
  cases hptr

theorem frames (h : ((items stored).system T).Reached s) :
    SavedGood s.shared ∧ ∀ t, (s.places t).Good s.shared.2 := by
  refine Crew.invariant (I := SavedGood) (J := fun x w => w.Good x.2)
    (fun _ _ hc => absurd hc List.not_mem_nil) trivial (fun s t a s' htook hI hJ => ?_) h
  obtain ⟨hexec, hboard, hitem⟩ := exec_cases htook.exec
  have heff := Schedule.effect_of_exec hexec
  have hr := reached_forget htook.reached
  have hlinked := Schedule.linked hr
  have htokens := Schedule.tokens hr
  -- The frame in which the worker writes is its own.
  have hkeep : ∀ c, ((s.places t).worker.pc ≠ .created → c ≠ (s.places t).worker.stack) →
      s'.shared.2.locals c = s.shared.2.locals c := fun c hc => by
    rw [hboard]
    by_cases hpc : (s.places t).worker.pc = .created
    · rw [after_created hpc]
    · exact after_locals (hc hpc)
  have hback : ∀ k < s.shared.1.backs, s'.shared.2.backTask k = s.shared.2.backTask k := fun k hk => by
    rw [hboard]
    exact after_backTask heff hk
  refine ⟨fun c u hmem => ?_, ?_, fun t' ht => ?_⟩
  · rcases saved_cases heff hmem with hold | hpc
    · have hptr := hlinked.ptr_of_saved hold (b := u.back) (List.mem_singleton_self _)
      have hne : (s.places t).worker.pc ≠ .created → c ≠ (s.places t).worker.stack := fun hpc hc =>
        (Schedule.owned_only hr (t := t) (Schedule.mem_owned hpc)).2.2.1 (List.mem_map.mpr ⟨_, hold, hc⟩)
      rw [hkeep c hne]
      exact (hI c u hold).congr (hback _ (lt_backs hlinked hptr))
    · have hgood := hJ t
      have hsound : (s.places t).worker.Sound := hlinked.sound t
      have hheld : u.back ∈ (s.places t).worker.held := by
        rw [Schedule.Worker.held, hpc]
        exact List.mem_singleton_self _
      have hptr := hlinked.ptr_of_held (t := t) hheld
      simp only [Item.Good, hpc] at hgood
      simp only [Schedule.Worker.Sound, hpc] at hsound
      have hlocals : s'.shared.2.locals c = s.shared.2.locals (s.places t).worker.stack := by
        rw [hboard, ← hsound.1]
        simp only [Board.after, hpc]
      rw [hlocals]
      exact hgood.1.congr (hback _ (lt_backs hlinked hptr))
  · rw [hboard, hitem]
    have hworker : ((s.places t).after s.shared.2 (s'.places t).worker).worker = (s'.places t).worker := by
      rw [← hitem]
    rw [hworker]
    refine good_step heff (hJ t) hI fun k hpc c hc u hmem => ?_
    obtain ⟨d, v, hd, hv, hvback⟩ := Schedule.saved_of_jump hr (t := t) hpc
    have hcd : d = c := Option.some.inj (hd.symm.trans hc)
    subst hcd
    have hsame := Schedule.saved_unique hr hmem hv
    cases hsame
    exact hvback
  · by_cases hpc : (s.places t').worker.pc = .created
    · simp only [Item.Good, hpc]
    · refine good_congr (hkeep _ fun hpc' he => ht ?_) (fun k hk => hback k ?_) (hJ t')
      · have hstack : (s.places t').worker.stack ∈ (s.places t).worker.owned :=
          he ▸ Schedule.mem_owned (s := forget s) (t := t) hpc'
        exact (Schedule.owner_unique hr (t := t) hstack (Schedule.mem_owned hpc)).symm
      · rcases hk with hk | hk
        · exact lt_backs hlinked (hlinked.ptr_of_held (t := t') hk)
        · obtain ⟨c, hptr, -⟩ := Schedule.wait_of_runs htokens.balance hr (t := t') hk
          exact lt_backs hlinked hptr

/-- `current_task_` follows the code from worker to worker. -/
structure Follows (s : Crew.Config (Shared × Board) Item T) : Prop where
  current : ∀ t, inNode (s.places t).worker.pc = true →
    ∃ n, (s.shared.2.locals (s.places t).worker.stack).task = .node n ∧
      (s.places t).currentTask = some (.node n)
  /-- What a wait sets to `Yield` and back to `Running` is the node that waits. -/
  saved : ∀ c u, ⟨c, .wait u⟩ ∈ s.shared.1.saved →
    ∃ n, (s.shared.2.locals c).task = .node n ∧ (s.shared.2.locals c).currentTask = some (.node n) ∧
      s.shared.2.backTask u.back = some (.node n)
  /-- A `BackNode` goes back to the node that made it. -/
  jump : ∀ t k, (s.places t).worker.pc = .jump k →
    ∃ c, (s.places t).worker.contextPtr = some c ∧ (s.places t).currentTask = some (s.shared.2.locals c).task

theorem current_task (h : ((items stored).system T).Reached s) : Follows s := by
  obtain ⟨hsaved, hgood⟩ := frames h
  refine ⟨fun t hpc => ?_, fun c u hmem => ?_, fun t k hpc => ?_⟩
  · exact (hgood t).current hpc
  · have hwaits := hsaved c u hmem
    obtain ⟨n, hn⟩ := hwaits.node
    exact ⟨n, hn, hwaits.asked.trans (congrArg some hn), hwaits.back.trans (congrArg some hn)⟩
  · obtain ⟨c, v, hc, hmem, hback⟩ := Schedule.saved_of_jump (reached_forget h) (t := t) hpc
    have ht : (s.places t).currentTask = s.shared.2.backTask k := by
      have ht := hgood t
      simpa only [Item.Good, hpc] using ht
    refine ⟨c, hc, ?_⟩
    rw [ht, ← hback]
    exact (hsaved c v hmem).back

/-- The node that waited is the current task of the worker that goes on with it. -/
theorem current_task_migration : ∃ s, ((items 2).system (Fin 2)).Reached s ∧ Follows s ∧
    (s.places 1).worker.pc = .resumed ⟨0, .running⟩ ∧ (s.places 1).currentTask = some (.node 7) ∧
      (s.places 0).currentTask = some (.node 7) ∧ (s.places 0).worker.pc = .dequeue := by
  obtain ⟨s, hs, hp⟩ := System.exists_reachedBy ((items 2).system (Fin 2)) (fun _ _ _ => True)
    ((Schedule.migration 0 1).map fun a => (a.1, a.2, 7))
    (fun s => (s.places 1).worker.pc = .resumed ⟨0, .running⟩ ∧ (s.places 1).currentTask = some (.node 7) ∧
      (s.places 0).currentTask = some (.node 7) ∧ (s.places 0).worker.pc = .dequeue) (by decide)
  exact ⟨s, hs, current_task hs, hp⟩

end Run

end QuietFlow.Current
