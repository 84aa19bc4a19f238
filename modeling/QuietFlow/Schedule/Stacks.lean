import QuietFlow.Machine.Mappings
import QuietFlow.Queue.Lock
import QuietFlow.Schedule.Lifetimes
import QuietFlow.Schedule.Shrink

/-! The stacks of contexts, from `mmap` to `munmap`.

A `Thread` has a pool of stacks, a `LimitQueue` that its constructor fills. `new ExecutorContext`
takes a coroutine's stack from the pool of the thread it runs on, or maps one; the destructor puts
the stack into the pool of the thread it runs on, or unmaps it. So stacks move from thread to
thread with the contexts that are resumed elsewhere. `destroy` puts two `flag_node`s for every
thread into the task queue; a worker that takes one goes back to its `thread_context`, where
`routine` ends, and `~Thread` deletes what it left and empties its pool. -/
namespace QuietFlow.Stacks
open Runs Crew Machine Lock
open Schedule (Shared Worker Pc Cont Saved Memory Mapped coroutineStackSize)

/-- A mapping with the size of a coroutine's stack. -/
def coroutineRegion (p : Word) : Region := ⟨p, coroutineStackSize⟩

/-- The mapping of a context. -/
def region (m : Memory) (c : ℕ) : Region := ⟨m.stackPtr c, m.stackSize c⟩

structure Process where
  shared : Shared
  memory : Memory
  mappings : Mappings
  /-- The `flag_node`s in the task queue, once `destroy` has put them there. -/
  flags : Option ℕ
  /-- The contexts that `~Thread` has deleted. -/
  closed : List ℕ

namespace Process
variable (x : Process)

/-- `malloc_stack`, for which the kernel chooses `p`. -/
def mallocStack (p : Word) (size : ℕ) : Option Process :=
  if Mapped p size then (x.mappings.mmap ⟨p, size⟩).map fun m => {x with mappings := m} else none

def freeStack (c : ℕ) : Process := {x with mappings := x.mappings.munmap (region x.memory c)}

/-- The constructor has its stack. -/
def place (c : ℕ) (p : Word) (size : ℕ) (made : Bool) : Process :=
  {x with memory := x.memory.place c p size made}

/-- `delete` of a context by `~Thread`, which runs on no worker. -/
def close (c : ℕ) : Process := {x.freeStack c with closed := x.closed ++ [c]}

/-- The contexts that were deleted, by workers and by destructors. -/
def deleted : List ℕ := x.shared.freed ++ x.closed

def live : Finset ℕ := (Finset.range x.shared.contexts).filter fun c => c ∉ x.deleted

/-- The workers count the contexts they make and delete. -/
def pendingContextNum : ℤ := x.shared.pendingContextNum - x.closed.length

end Process

/-- Where a `Thread` is: in its constructor, at work, on the way back to `thread_context` or in
its destructor. `ptr` and `pre` are `context_ptr` and `context_pre_ptr`. -/
inductive Phase where
  | fill (i : ℕ)
  | work
  | setPre
  | setPtr (pre : Option ℕ)
  | jump (ptr pre : Option ℕ)
  | exited (ptr pre : Option ℕ)
  | deletePre (pre : Option ℕ)
  | drain
  | gone
  deriving DecidableEq

structure Thread where
  phase : Phase
  worker : Worker
  threadContext : Option ℕ
  stackPool : LimitQueue Word
  ----------
  pooled : List Word

namespace Thread
variable (w : Thread)

def getStack : Thread × Option Word :=
  match w.stackPool.tryDequeue 0 with
  | (q, .dequeued (some p)) => ({w with stackPool := q, pooled := w.pooled.tail}, some p)
  | (q, _) => ({w with stackPool := q}, none)

def putStack (p : Word) : Thread × Bool :=
  match w.stackPool.tryEnqueue p with
  | (q, .enqueued true) => ({w with stackPool := q, pooled := w.pooled ++ [p]}, true)
  | (q, _) => ({w with stackPool := q}, false)

end Thread

/-- What a step chooses: what the worker does, and where a mapping is made if one is. -/
inductive Act where
  | malloc (p : Word)
  | work (a : Schedule.Act) (p : Word)
  | destroy
  | flag
  | step
  deriving DecidableEq

/-- A step of the worker, with what `new` and `delete` of a context do. -/
def work (x : Process) (w : Thread) (a : Schedule.Act) (p : Word) : Option (Process × Thread) :=
  (Schedule.exec x.shared w.worker a).bind fun (y, v) =>
    let c := x.shared.contexts
    let x' := {x with shared := y}
    let w' := {w with worker := v}
    match w.worker.pc with
    | .created => (x'.mallocStack p 1).map fun x' =>
      (x'.place c p 1 false, {w' with threadContext := some c})
    | .swapNew _ _ =>
      match w'.getStack with
      | (w', some p) => some (x'.place c p coroutineStackSize true, w')
      | (w', none) => (x'.mallocStack p coroutineStackSize).map fun x' =>
        (x'.place c p coroutineStackSize true, w')
    | .resumedDelete _ =>
      match w.worker.contextPrePtr with
      | none => some (x', w')
      | some c =>
        match w'.putStack (x.memory.stackPtr c) with
        | (w', true) => some (x', w')
        | (w', false) => some (x'.freeStack c, w')
    | _ => some (x', w')

section Code
variable (backup threads : ℕ)

def exec (x : Process) (w : Thread) (a : Act) : Option (Process × Thread) :=
  match w.phase, a with
  | _, .destroy =>
    match x.flags with
    | none => some ({x with flags := some (2 * threads)}, w)
    | some _ => none
  | .fill i, .malloc p =>
    if i < backup then
      (x.mallocStack p coroutineStackSize).map fun x => (x, {(w.putStack p).1 with phase := .fill (i + 1)})
    else
      none
  | .fill i, .step => if i < backup then none else some (x, {w with phase := .work})
  | .work, .work a p => work x w a p
  | .work, .flag =>
    match w.worker.pc, x.flags with
    | .dequeue, some (n + 1) => some ({x with flags := some n}, {w with phase := .setPre})
    | _, _ => none
  | .setPre, .step => some (x, {w with phase := .setPtr w.worker.contextPtr})
  | .setPtr pre, .step => some (x, {w with phase := .jump w.threadContext pre})
  | .jump ptr pre, .step => ptr.bind fun c =>
    if ⟨c, .routine⟩ ∈ x.shared.saved then some (x, {w with phase := .exited ptr pre}) else none
  | .exited ptr pre, .step =>
    some ((ptr.elim x x.close), {w with phase := .deletePre pre})
  | .deletePre pre, .step => some ((pre.elim x x.close), {w with phase := .drain})
  | .drain, .step =>
    match w.getStack with
    | (w, some p) => some ({x with mappings := x.mappings.munmap (coroutineRegion p)}, w)
    | (w, none) => some (x, {w with phase := .gone})
  | _, _ => none

/-- The threads of a schedule; `pool` is a new `LimitQueue`. -/
def process (pool : LimitQueue Word) (stored : ℤ) : Crew Process Thread Act where
  start :=
    { shared := (Schedule.crew stored).start
      memory := (Schedule.placed stored).start.2
      mappings := .empty
      flags := none
      closed := [] }
  place := ⟨.fill 0, (Schedule.crew stored).place, none, pool, []⟩
  exec := exec backup threads

end Code

/-! ### The pool -/

section Pool
variable {k : ℕ} {w : Thread}

/-- The pool has `2 ^ k` slots and stores what it should. -/
def Pools (k : ℕ) (w : Thread) : Prop := ∃ h, Stores k h w.stackPool w.pooled

theorem getStack_nil (hk : k ≤ 30) (h : Pools k w) (hnil : w.pooled = []) : w.getStack = (w, none) := by
  obtain ⟨n, hn⟩ := h
  have hempty := (hn.isEmpty_iff hk).mpr hnil
  simp only [Thread.getStack, LimitQueue.tryDequeue, hempty, if_true]

theorem getStack_cons (hk : k ≤ 30) (h : Pools k w) {p : Word} {rest : List Word}
    (hcons : w.pooled = p :: rest) :
    ∃ q, w.getStack = ({w with stackPool := q, pooled := rest}, some p) ∧
      Pools k {w with stackPool := q, pooled := rest} := by
  obtain ⟨n, hn⟩ := h
  rw [hcons] at hn
  obtain ⟨hanswer, hstores⟩ := hn.tryDequeue_eq 0 hk
  refine ⟨(w.stackPool.tryDequeue 0).1, ?_, _, hstores⟩
  rw [Thread.getStack, ← Prod.mk.eta (p := w.stackPool.tryDequeue 0), hanswer, hcons]
  rfl

theorem putStack_full (hk : k ≤ 30) (h : Pools k w) (hfull : w.pooled.length = 2 ^ k) (p : Word) :
    w.putStack p = (w, false) := by
  obtain ⟨n, hn⟩ := h
  have hisFull := (hn.isFull_iff hk).mpr hfull
  simp only [Thread.putStack, LimitQueue.tryEnqueue, hisFull, if_true]

theorem putStack_room (hk : k ≤ 30) (h : Pools k w) (hroom : w.pooled.length ≠ 2 ^ k) (p : Word) :
    ∃ q, w.putStack p = ({w with stackPool := q, pooled := w.pooled ++ [p]}, true) ∧
      Pools k {w with stackPool := q, pooled := w.pooled ++ [p]} := by
  obtain ⟨n, hn⟩ := h
  obtain ⟨hanswer, hstores⟩ := hn.tryEnqueue_eq hk p hroom
  refine ⟨(w.stackPool.tryEnqueue p).1, ?_, _, hstores⟩
  rw [Thread.putStack, ← Prod.mk.eta (p := w.stackPool.tryEnqueue p), hanswer]

/-- The pool of a new thread. -/
theorem pools_make {backup : ℕ} (h : 1 ≤ backup) (h' : backup ≤ 2 ^ 30) {pool : LimitQueue Word}
    (hpool : LimitQueue.make 0 (BitVec.ofNat 64 backup) = some pool) :
    ∃ k ≤ 30, backup ≤ 2 ^ k ∧ Stores k 0 pool [] := by
  have hnat : (BitVec.ofNat 64 backup).toNat = backup := by
    rw [BitVec.toNat_ofNat]
    exact Nat.mod_eq_of_lt (by omega)
  obtain ⟨-, halign⟩ :=
    Align.alignSizeInt_eq (show 1 ≤ (BitVec.ofNat 64 backup).toNat by omega) (by omega)
  obtain ⟨k, hk, hpow⟩ := Align.alignSize_pow_le h h'
  rw [hnat, hpow] at halign
  rw [LimitQueue.make, halign, Option.map_some] at hpool
  cases hpool
  refine ⟨k, hk, ?_, stores_nil rfl hk 0⟩
  rw [← hpow]
  exact (Align.isLeast_alignSize h).1.2

end Pool

/-! ### What a step can do -/

section Step
variable {k backup threads : ℕ} {x x' : Process} {w w' : Thread} {a : Act}

inductive Moves (k backup threads : ℕ) (x : Process) (w : Thread) : Act → Process → Thread → Prop where
  | destroy : x.flags = none →
    Moves k backup threads x w .destroy {x with flags := some (2 * threads)} w
  | fill {i p m q} : w.phase = .fill i → i < backup → Mapped p coroutineStackSize →
    x.mappings.mmap (coroutineRegion p) = some m →
    Pools k {w with phase := .fill (i + 1), stackPool := q, pooled := w.pooled ++ [p]} →
    Moves k backup threads x w (.malloc p) {x with mappings := m}
      {w with phase := .fill (i + 1), stackPool := q, pooled := w.pooled ++ [p]}
  | filled {i} : w.phase = .fill i → backup ≤ i →
    Moves k backup threads x w .step x {w with phase := .work}
  | created {a p y v m} : w.phase = .work → Schedule.exec x.shared w.worker a = some (y, v) →
    w.worker.pc = .created → Mapped p 1 → x.mappings.mmap ⟨p, 1⟩ = some m →
    Moves k backup threads x w (.work a p)
      {x with shared := y, memory := x.memory.place x.shared.contexts p 1 false, mappings := m}
      {w with worker := v, threadContext := some x.shared.contexts}
  | taken {a p y v out r b q rest} : w.phase = .work → Schedule.exec x.shared w.worker a = some (y, v) →
    w.worker.pc = .swapNew out r → w.pooled = b :: rest →
    Pools k {w with worker := v, stackPool := q, pooled := rest} →
    Moves k backup threads x w (.work a p)
      {x with shared := y, memory := x.memory.place x.shared.contexts b coroutineStackSize true}
      {w with worker := v, stackPool := q, pooled := rest}
  | mapped {a p y v out r m} : w.phase = .work → Schedule.exec x.shared w.worker a = some (y, v) →
    w.worker.pc = .swapNew out r → w.pooled = [] → Mapped p coroutineStackSize →
    x.mappings.mmap (coroutineRegion p) = some m →
    Moves k backup threads x w (.work a p)
      {x with
        shared := y
        memory := x.memory.place x.shared.contexts p coroutineStackSize true
        mappings := m}
      {w with worker := v}
  | put {a p y v u c q} : w.phase = .work → Schedule.exec x.shared w.worker a = some (y, v) →
    w.worker.pc = .resumedDelete u → w.worker.contextPrePtr = some c →
    Pools k {w with worker := v, stackPool := q, pooled := w.pooled ++ [x.memory.stackPtr c]} →
    Moves k backup threads x w (.work a p) {x with shared := y}
      {w with worker := v, stackPool := q, pooled := w.pooled ++ [x.memory.stackPtr c]}
  | unmapped {a p y v u c} : w.phase = .work → Schedule.exec x.shared w.worker a = some (y, v) →
    w.worker.pc = .resumedDelete u → w.worker.contextPrePtr = some c →
    Moves k backup threads x w (.work a p)
      {x with shared := y, mappings := x.mappings.munmap (region x.memory c)} {w with worker := v}
  | other {a p y v} : w.phase = .work → Schedule.exec x.shared w.worker a = some (y, v) →
    w.worker.pc ≠ .created → (∀ out r, w.worker.pc ≠ .swapNew out r) →
    (∀ u, w.worker.pc = .resumedDelete u → w.worker.contextPrePtr = none) →
    Moves k backup threads x w (.work a p) {x with shared := y} {w with worker := v}
  | flag {n} : w.phase = .work → w.worker.pc = .dequeue → x.flags = some (n + 1) →
    Moves k backup threads x w .flag {x with flags := some n} {w with phase := .setPre}
  | setPre : w.phase = .setPre →
    Moves k backup threads x w .step x {w with phase := .setPtr w.worker.contextPtr}
  | setPtr {pre} : w.phase = .setPtr pre →
    Moves k backup threads x w .step x {w with phase := .jump w.threadContext pre}
  | jump {c pre} : w.phase = .jump (some c) pre → ⟨c, .routine⟩ ∈ x.shared.saved →
    Moves k backup threads x w .step x {w with phase := .exited (some c) pre}
  | closePtr {ptr pre} : w.phase = .exited ptr pre →
    Moves k backup threads x w .step (ptr.elim x x.close) {w with phase := .deletePre pre}
  | closePre {pre} : w.phase = .deletePre pre →
    Moves k backup threads x w .step (pre.elim x x.close) {w with phase := .drain}
  | drain {p rest q} : w.phase = .drain → w.pooled = p :: rest →
    Pools k {w with stackPool := q, pooled := rest} →
    Moves k backup threads x w .step {x with mappings := x.mappings.munmap (coroutineRegion p)}
      {w with stackPool := q, pooled := rest}
  | gone : w.phase = .drain → w.pooled = [] →
    Moves k backup threads x w .step x {w with phase := .gone}

theorem mallocStack_some {p : Word} {size : ℕ} (h : x.mallocStack p size = some x') :
    Mapped p size ∧ ∃ m, x.mappings.mmap ⟨p, size⟩ = some m ∧ x' = {x with mappings := m} := by
  obtain ⟨hmapped, h⟩ := Option.ite_none_right_eq_some.mp h
  obtain ⟨m, hm, heq⟩ := Option.map_eq_some_iff.mp h
  exact ⟨hmapped, m, hm, heq.symm⟩

theorem moves_of_work (hk : k ≤ 30) (hpools : Pools k w) (hphase : w.phase = .work) {a : Schedule.Act}
    {p : Word} (h : work x w a p = some (x', w')) : Moves k backup threads x w (.work a p) x' w' := by
  obtain ⟨⟨y, v⟩, hexec, h⟩ := Option.bind_eq_some_iff.mp h
  have hpools' : Pools k {w with worker := v} := hpools
  cases hpc : w.worker.pc <;> simp only [hpc] at h
  case created =>
    obtain ⟨z, hz, heq⟩ := Option.map_eq_some_iff.mp h
    obtain ⟨hmapped, m, hm, rfl⟩ := mallocStack_some hz
    cases heq
    exact .created hphase hexec hpc hmapped hm
  case swapNew out r =>
    cases hpooled : w.pooled with
    | nil =>
      rw [getStack_nil hk hpools' hpooled] at h
      obtain ⟨z, hz, heq⟩ := Option.map_eq_some_iff.mp h
      obtain ⟨hmapped, m, hm, rfl⟩ := mallocStack_some hz
      cases heq
      exact .mapped hphase hexec hpc hpooled hmapped hm
    | cons b rest =>
      obtain ⟨q, hget, hq⟩ := getStack_cons hk hpools' hpooled
      rw [hget] at h
      cases h
      exact .taken hphase hexec hpc hpooled hq
  case resumedDelete u =>
    cases hpre : w.worker.contextPrePtr with
    | none =>
      rw [hpre] at h
      cases h
      exact .other hphase hexec (by rw [hpc]; nofun) (by rw [hpc]; nofun) fun _ _ => hpre
    | some c =>
      rw [hpre] at h
      by_cases hfull : w.pooled.length = 2 ^ k
      · simp only [putStack_full hk hpools' hfull] at h
        cases h
        exact .unmapped hphase hexec hpc hpre
      · obtain ⟨q, hput, hq⟩ := putStack_room hk hpools' hfull (x.memory.stackPtr c)
        simp only [hput] at h
        cases h
        exact .put hphase hexec hpc hpre hq
  all_goals
    cases h
    exact .other hphase hexec (by rw [hpc]; nofun) (by rw [hpc]; nofun)
      fun u hu => absurd (hpc ▸ hu) nofun

theorem moves_of_exec (hk : k ≤ 30) (hpools : Pools k w)
    (hroom : ∀ i, w.phase = .fill i → i < backup → w.pooled.length ≠ 2 ^ k)
    (h : exec backup threads x w a = some (x', w')) : Moves k backup threads x w a x' w' := by
  cases a with
  | destroy =>
    cases hflags : x.flags with
    | none =>
      have hexec : exec backup threads x w .destroy = some ({x with flags := some (2 * threads)}, w) := by
        simp [exec, hflags]
      rw [hexec] at h
      cases h
      exact .destroy hflags
    | some n => simp [exec, hflags] at h
  | malloc p =>
    cases hphase : w.phase with
    | fill i =>
      simp only [exec, hphase] at h
      obtain ⟨hi, h⟩ := Option.ite_none_right_eq_some.mp h
      obtain ⟨z, hz, heq⟩ := Option.map_eq_some_iff.mp h
      obtain ⟨hmapped, m, hm, rfl⟩ := mallocStack_some hz
      obtain ⟨q, hput, hq⟩ := putStack_room hk hpools (hroom i hphase hi) p
      rw [hput] at heq
      cases heq
      exact .fill hphase hi hmapped hm hq
    | _ => simp [exec, hphase] at h
  | work a p =>
    cases hphase : w.phase with
    | work => exact moves_of_work hk hpools hphase (by simpa [exec, hphase] using h)
    | _ => simp [exec, hphase] at h
  | flag =>
    cases hphase : w.phase with
    | work =>
      simp only [exec, hphase] at h
      split at h
      · next n hpc hflags =>
        cases h
        exact .flag hphase hpc hflags
      · cases h
    | _ => simp [exec, hphase] at h
  | step =>
    cases hphase : w.phase with
    | fill i =>
      simp only [exec, hphase] at h
      obtain ⟨hi, h⟩ := Option.ite_none_left_eq_some.mp h
      cases h
      exact .filled hphase (Nat.le_of_not_lt hi)
    | work => simp [exec, hphase] at h
    | setPre =>
      simp only [exec, hphase] at h
      cases h
      exact .setPre hphase
    | setPtr pre =>
      simp only [exec, hphase] at h
      cases h
      exact .setPtr hphase
    | jump ptr pre =>
      simp only [exec, hphase] at h
      obtain ⟨c, rfl, h⟩ := Option.bind_eq_some_iff.mp h
      obtain ⟨hc, h⟩ := Option.ite_none_right_eq_some.mp h
      cases h
      exact .jump hphase hc
    | exited ptr pre =>
      simp only [exec, hphase] at h
      cases h
      exact .closePtr hphase
    | deletePre pre =>
      simp only [exec, hphase] at h
      cases h
      exact .closePre hphase
    | drain =>
      simp only [exec, hphase] at h
      cases hpooled : w.pooled with
      | nil =>
        rw [getStack_nil hk hpools hpooled] at h
        cases h
        exact .gone hphase hpooled
      | cons p rest =>
        obtain ⟨q, hget, hq⟩ := getStack_cons hk hpools hpooled
        rw [hget] at h
        cases h
        exact .drain hphase hpooled hq
    | gone => simp [exec, hphase] at h

end Step

/-! ### The workers -/

section Workers
variable {x x' : Shared} {w w' : Worker}

theorem made_by (h : Schedule.Effect x w x' w') (hpc : w.pc = .created ∨ ∃ out r, w.pc = .swapNew out r) :
    x'.contexts = x.contexts + 1 ∧ x'.freed = x.freed := by
  cases h
  case created | swapNew => exact ⟨rfl, rfl⟩
  all_goals rcases hpc with hpc | ⟨_, _, hpc⟩ <;> cases hpc

theorem deleted_by (h : Schedule.Effect x w x' w') {u : Schedule.Wait} (hpc : w.pc = .resumedDelete u) {c : ℕ}
    (hc : w.contextPrePtr = some c) : x'.contexts = x.contexts ∧ x'.freed = x.freed ++ [c] := by
  cases h
  case resumedDelete =>
    cases hc
    exact ⟨rfl, rfl⟩
  case resumedDeleteNull => cases hc
  all_goals cases hpc

theorem kept_by (h : Schedule.Effect x w x' w') (hcreated : w.pc ≠ .created)
    (hnew : ∀ out r, w.pc ≠ .swapNew out r)
    (hdelete : ∀ u, w.pc = .resumedDelete u → w.contextPrePtr = none) :
    x'.contexts = x.contexts ∧ x'.freed = x.freed := by
  cases h
  case created => exact absurd rfl hcreated
  case swapNew => exact absurd rfl (hnew _ _)
  case resumedDelete => cases hdelete _ rfl
  all_goals exact ⟨rfl, rfl⟩

/-- The context of the thread, once the worker has left it. -/
def anchors (w : Worker) (threadContext : Option ℕ) : List ℕ :=
  if w.pc.launched = true then threadContext.toList else []

/-- `thread_context` is the context that `routine` runs on, or the one it has left. -/
structure Anchored (x : Shared) (w : Worker) (threadContext : Option ℕ) : Prop where
  thread : w.pc ≠ .created → w.pc.launched = false → threadContext = some w.stack
  launched : w.pc.launched = true → ∃ c, threadContext = some c ∧ ⟨c, .routine⟩ ∈ x.saved

theorem routine_kept (h : Schedule.Effect x w x' w') {c : ℕ} (hc : (⟨c, .routine⟩ : Saved) ∈ x.saved) :
    ⟨c, .routine⟩ ∈ x'.saved := by
  cases h
  case swap => exact List.mem_append_left _ hc
  case jump => exact (List.mem_erase_of_ne (by simp)).mpr hc
  all_goals exact hc

theorem count_wait (d c : ℕ) (u : Schedule.Wait) :
    ([⟨d, .wait u⟩] : List Saved).count ⟨c, .routine⟩ = 0 := List.count_eq_zero.mpr (by simp)

section Anchor
variable {tc tc' : Option ℕ} (h : Schedule.Effect x w x' w')
  (htc : tc' = if w.pc = .created then some x.contexts else tc)
include h htc

theorem anchored_step (hsound : w.Sound) (ha : Anchored x w tc) : Anchored x' w' tc' := by
  have hkeep : w.pc.launched = true → ∃ c, tc = some c ∧ ⟨c, .routine⟩ ∈ x'.saved := fun hw => by
    obtain ⟨c, hc, hmem⟩ := ha.launched hw
    exact ⟨c, hc, routine_kept h hmem⟩
  cases h
  case created => exact ⟨fun _ _ => htc, nofun⟩
  case swapPre st p q out r =>
    subst htc
    cases r
    · exact ⟨fun _ _ => ha.thread nofun rfl, nofun⟩
    · exact ⟨fun _ hw => (Bool.noConfusion hw), fun _ => hkeep rfl⟩
  case swapNew st p q out r =>
    subst htc
    cases r
    · exact ⟨fun _ _ => ha.thread nofun rfl, nofun⟩
    · exact ⟨fun _ hw => (Bool.noConfusion hw), fun _ => hkeep rfl⟩
  case swap st c q out r =>
    subst htc
    refine ⟨fun _ hw => (Bool.noConfusion hw), fun _ => ?_⟩
    cases r
    · have hout : out = st := hsound.1
      refine ⟨out, ?_, List.mem_append_right _ (List.mem_singleton_self _)⟩
      rw [hout]
      exact ha.thread nofun rfl
    · exact hkeep rfl
  case routine =>
    subst htc
    exact ⟨fun _ _ => ha.thread nofun rfl, nofun⟩
  all_goals
    subst htc
    exact ⟨fun _ hw => (Bool.noConfusion hw), fun _ => hkeep rfl⟩

/-- `routine` is left once in every thread. -/
theorem routine_step (hsound : w.Sound) (ha : Anchored x w tc) (c : ℕ) :
    (x'.saved.count ⟨c, .routine⟩ : ℤ) - (anchors w' tc').count c =
      x.saved.count ⟨c, .routine⟩ - (anchors w tc).count c := by
  cases h
  case created => rfl
  case swapPre st p q out r => cases r <;> subst htc <;> rfl
  case swapNew st p q out r => cases r <;> subst htc <;> rfl
  case swap st d q out r =>
    subst htc
    rw [count_snoc]
    cases r
    · have hout : out = st := hsound.1
      have htc : tc' = some out := by
        rw [hout]
        exact ha.thread nofun rfl
      have hnew : anchors ⟨.enter, d, some d, q⟩ tc' = [out] := by rw [htc]; rfl
      have hold : anchors ⟨.swap out .routine, st, some d, q⟩ tc' = [] := rfl
      have hcount : ([⟨out, .routine⟩] : List Saved).count ⟨c, .routine⟩ = [out].count c := by
        simp [List.count_singleton]
      rw [hnew, hold, hcount, List.count_nil]
      omega
    · rw [count_wait]
      exact congrArg (· - _) (add_zero _)
  case jump st d q b u hmem =>
    subst htc
    have herase := count_cons_erase hmem ⟨c, .routine⟩
    rw [count_wait] at herase
    rw [herase]
    simp [anchors, Schedule.Pc.launched]
  all_goals
    subst htc
    rfl

end Anchor

/-- The context a resumed worker comes from is one of a coroutine. -/
def LeftCoroutine (x : Shared) (m : Memory) (w : Worker) : Prop :=
  ∀ v, w.pc = .resumed v ∨ w.pc = .resumedDelete v →
    ∀ c ∈ w.contextPrePtr, c < x.contexts ∧ m.Coroutine c

theorem leftCoroutine_step {m m' : Memory} (h : Schedule.Effect x w x' w') (hkept : Schedule.Kept x m x' m')
    (hsound : w.Sound) (hstacked : Schedule.Stacked x m w) (hleft : LeftCoroutine x m w) :
    LeftCoroutine x' m' w' := by
  have hkeep : ∀ c, c < x.contexts ∧ m.Coroutine c → c < x'.contexts ∧ m'.Coroutine c := fun c hc =>
    ⟨hc.1.trans_le hkept.contexts, hkept.coroutine c hc.1 hc.2⟩
  cases h
  case jump st d q b u hmem =>
    have hq : q = some st := hsound
    rintro v - c hc
    obtain rfl : c = st := by
      rw [hq] at hc
      exact (Option.some.inj hc).symm
    exact hkeep c (hstacked.stack nofun)
  case resumed st p q u =>
    rintro v - c hc
    exact hkeep c (hleft u (.inl rfl) c hc)
  all_goals rintro v (hv | hv) <;> cases hv

variable {T : Type} [Fintype T] [DecidableEq T] {stored : ℤ}

theorem leftCoroutine {s : Crew.Config (Shared × Memory) Worker T}
    (h : ((Schedule.placed stored).system T).Reached s) :
    ∀ t, LeftCoroutine s.shared.1 s.shared.2 (s.places t) := by
  refine (Crew.invariant (I := fun _ => True) (J := fun x : Shared × Memory => LeftCoroutine x.1 x.2)
    trivial ?_ (fun s t a s' htook _ hJ => ⟨trivial, ?_⟩) h).2
  · rintro v (hv | hv) <;> cases hv
  · obtain ⟨hexec, hafter⟩ := Schedule.exec_of_execAt htook.exec
    have heff := Schedule.effect_of_exec hexec
    have hsound := (Schedule.linked (Schedule.reached_forget htook.reached)).sound t
    obtain ⟨hI, hstacked⟩ := Schedule.stacked htook.reached
    obtain ⟨hkept, -, -⟩ := Schedule.stacked_step heff hafter hsound hI (hstacked t)
    refine ⟨leftCoroutine_step heff hkept hsound (hstacked t) (hJ t), fun t' _ v hv c hc => ?_⟩
    obtain ⟨hlt, hcoroutine⟩ := hJ t' v hv c hc
    exact ⟨hlt.trans_le hkept.contexts, hkept.coroutine c hlt hcoroutine⟩

end Workers

/-! ### Threads -/

namespace Thread
variable (w : Thread)

/-- The contexts that only this thread will delete, or pass on. -/
def keeps : List ℕ :=
  match w.phase with
  | .deletePre _ => [w.worker.stack]
  | .drain | .gone => []
  | _ => w.worker.owned ++ anchors w.worker w.threadContext

/-- The contexts of the thread that its destructor has deleted. -/
def closes : List ℕ :=
  match w.phase with
  | .deletePre _ => w.threadContext.toList
  | .drain | .gone => [w.worker.stack] ++ w.threadContext.toList
  | _ => []

/-- A thread that was told to stop keeps the pointers it stopped with. -/
def Poised : Prop :=
  match w.phase with
  | .fill _ => w.worker.pc = .created
  | .work => True
  | .setPre => w.worker.pc = .dequeue
  | .setPtr pre => w.worker.pc = .dequeue ∧ pre = some w.worker.stack
  | .jump ptr pre | .exited ptr pre =>
    w.worker.pc = .dequeue ∧ ptr = w.threadContext ∧ pre = some w.worker.stack
  | .deletePre pre => w.worker.pc = .dequeue ∧ pre = some w.worker.stack
  | .drain => w.worker.pc = .dequeue
  | .gone => w.worker.pc = .dequeue ∧ w.pooled = []

end Thread

section Moves
variable {k backup threads : ℕ} {x x' : Process} {w w' : Thread} {a : Act}

@[simp] theorem close_shared (o : Option ℕ) : (o.elim x x.close).shared = x.shared := by cases o <;> rfl

@[simp] theorem close_memory (o : Option ℕ) : (o.elim x x.close).memory = x.memory := by cases o <;> rfl

@[simp] theorem close_flags (o : Option ℕ) : (o.elim x x.close).flags = x.flags := by cases o <;> rfl

theorem execAt_of_exec {y : Shared} {m m' : Memory} {u v : Worker} {b : Schedule.Act} {p : Word} {z : Shared}
    (h : Schedule.exec y u b = some (z, v)) (hafter : m.after y.contexts p u.pc = some m') :
    Schedule.execAt (y, m) u (b, p) = some ((z, m'), v) := by
  simp only [Schedule.execAt, h, Option.bind_some, hafter, Option.map_some]

/-- A step is one of the worker, with a stack from wherever, or none. -/
theorem placed_of_moves (h : Moves k backup threads x w a x' w')
    (hpooled : ∀ p ∈ w.pooled, Mapped p coroutineStackSize) :
    (x'.shared = x.shared ∧ x'.memory = x.memory ∧ w'.worker = w.worker) ∨
      ∃ b, Schedule.execAt (x.shared, x.memory) w.worker b = some ((x'.shared, x'.memory), w'.worker) := by
  cases h
  case created b p y v m hphase hexec hpc hmapped hm =>
    refine .inr ⟨(b, p), execAt_of_exec hexec ?_⟩
    rw [hpc]
    exact if_pos hmapped
  case taken b p y v out r p' q rest hphase hexec hpc hcons hq =>
    refine .inr ⟨(b, p'), execAt_of_exec hexec ?_⟩
    rw [hpc]
    exact if_pos (hpooled p' (by rw [hcons]; exact List.mem_cons_self))
  case mapped b p y v out r m hphase hexec hpc hnil hmapped hm =>
    refine .inr ⟨(b, p), execAt_of_exec hexec ?_⟩
    rw [hpc]
    exact if_pos hmapped
  case put b p y v u c q hphase hexec hpc hpre hq =>
    refine .inr ⟨(b, p), execAt_of_exec hexec ?_⟩
    rw [hpc]
    rfl
  case unmapped b p y v u c hphase hexec hpc hpre =>
    refine .inr ⟨(b, p), execAt_of_exec hexec ?_⟩
    rw [hpc]
    rfl
  case other b p y v hphase hexec hcreated hnew hdelete =>
    refine .inr ⟨(b, p), execAt_of_exec hexec ?_⟩
    unfold Memory.after
    split
    · next hpc => exact absurd hpc hcreated
    · next hpc => exact absurd hpc (hnew _ _)
    · rfl
  case closePtr | closePre => exact .inl ⟨close_shared _, close_memory _, rfl⟩
  all_goals exact .inl ⟨rfl, rfl, rfl⟩

/-- A thread and its pool. -/
structure Stocked (k : ℕ) (w : Thread) : Prop where
  pools : Pools k w
  mapped : ∀ p ∈ w.pooled, Mapped p coroutineStackSize
  fill : ∀ i, w.phase = .fill i → w.pooled.length = i

theorem stocked_step (h : Moves k backup threads x w a x' w')
    (hleft : LeftCoroutine x.shared x.memory w.worker) (hw : Stocked k w) : Stocked k w' := by
  have hsnoc : ∀ p, Mapped p coroutineStackSize → ∀ b ∈ w.pooled ++ [p], Mapped b coroutineStackSize :=
    fun p hp b hb => by
      rcases List.mem_append.mp hb with hb | hb
      · exact hw.mapped b hb
      · rw [List.mem_singleton.mp hb]
        exact hp
  cases h
  case fill i p m q hphase hi hmapped hm hq =>
    refine ⟨hq, hsnoc p hmapped, fun j hj => ?_⟩
    obtain rfl := Phase.fill.inj hj
    rw [List.length_append, List.length_singleton, hw.fill i hphase]
  case taken b p y v out r p' q rest hphase hexec hpc hcons hq =>
    refine ⟨hq, fun d hd => hw.mapped d ?_, fun i hi => absurd (hphase ▸ hi) nofun⟩
    rw [hcons]
    exact List.mem_cons_of_mem _ hd
  case put b p y v u c q hphase hexec hpc hpre hq =>
    exact ⟨hq, hsnoc _ (hleft u (.inr hpc) c hpre).2.2.2, fun i hi => absurd (hphase ▸ hi) nofun⟩
  case drain p rest q hphase hcons hq =>
    refine ⟨hq, fun d hd => hw.mapped d ?_, fun i hi => absurd (hphase ▸ hi) nofun⟩
    rw [hcons]
    exact List.mem_cons_of_mem _ hd
  case destroy => exact hw
  case created hphase _ _ _ _ | mapped hphase _ _ _ _ _ | unmapped hphase _ _ _ | other hphase _ _ _ _ =>
    exact ⟨hw.pools, hw.mapped, fun i hi => absurd (hphase ▸ hi) nofun⟩
  all_goals exact ⟨hw.pools, hw.mapped, nofun⟩

/-- A step is one of the worker, with the thread's context made at its start, or none. -/
theorem worker_of_moves (h : Moves k backup threads x w a x' w') :
    (x'.shared = x.shared ∧ w'.worker = w.worker ∧ w'.threadContext = w.threadContext) ∨
      w.phase = .work ∧ w'.phase = .work ∧ x'.closed = x.closed ∧
        Schedule.Effect x.shared w.worker x'.shared w'.worker ∧
          w'.threadContext = if w.worker.pc = .created then some x.shared.contexts else w.threadContext := by
  have hwork : w.phase = .work → ∀ {b y v}, Schedule.exec x.shared w.worker b = some (y, v) →
      w.worker.pc ≠ .created → w.phase = .work ∧ w.phase = .work ∧ x.closed = x.closed ∧
        Schedule.Effect x.shared w.worker y v ∧
          w.threadContext = if w.worker.pc = .created then some x.shared.contexts else w.threadContext :=
    fun hphase _ _ _ hexec hpc => ⟨hphase, hphase, rfl, Schedule.effect_of_exec hexec, (if_neg hpc).symm⟩
  cases h
  case created b p y v m hphase hexec hpc _ _ =>
    exact .inr ⟨hphase, hphase, rfl, Schedule.effect_of_exec hexec, (if_pos hpc).symm⟩
  case taken hphase hexec hpc _ _ => exact .inr (hwork hphase hexec (by rw [hpc]; nofun))
  case mapped hphase hexec hpc _ _ _ => exact .inr (hwork hphase hexec (by rw [hpc]; nofun))
  case put hphase hexec hpc _ _ => exact .inr (hwork hphase hexec (by rw [hpc]; nofun))
  case unmapped hphase hexec hpc _ => exact .inr (hwork hphase hexec (by rw [hpc]; nofun))
  case other hphase hexec hpc _ _ => exact .inr (hwork hphase hexec hpc)
  case closePtr | closePre => exact .inl ⟨close_shared _, rfl, rfl⟩
  all_goals exact .inl ⟨rfl, rfl, rfl⟩

theorem poised_step (h : Moves k backup threads x w a x' w') (hsound : w.worker.Sound) (hw : w.Poised) :
    w'.Poised := by
  unfold Thread.Poised at hw ⊢
  cases h
  case destroy => exact hw
  case fill hphase _ _ _ _ => simpa only [hphase] using hw
  case filled => trivial
  case created hphase _ _ _ _ | taken hphase _ _ _ _ | mapped hphase _ _ _ _ _ | put hphase _ _ _ _ |
      unmapped hphase _ _ _ | other hphase _ _ _ _ =>
    simp only [hphase]
  case flag _ hpc _ => exact hpc
  case setPre hphase =>
    simp only [hphase] at hw
    rw [Schedule.Worker.Sound, hw] at hsound
    exact ⟨hw, hsound⟩
  case setPtr hphase =>
    simp only [hphase] at hw
    exact ⟨hw.1, rfl, hw.2⟩
  case jump hphase _ => simpa only [hphase] using hw
  case closePtr hphase =>
    simp only [hphase] at hw
    exact ⟨hw.1, hw.2.2⟩
  case closePre hphase =>
    simp only [hphase] at hw
    exact hw.1
  case drain hphase _ _ => simpa only [hphase] using hw
  case gone hphase hnil =>
    simp only [hphase] at hw
    exact ⟨hw, hnil⟩

/-- What the destructors delete is what their threads kept. -/
theorem closed_step (h : Moves k backup threads x w a x' w') (hw : w.Poised) (c : ℕ) :
    (x'.closed.count c : ℤ) - w'.closes.count c = x.closed.count c - w.closes.count c := by
  unfold Thread.Poised at hw
  unfold Thread.closes
  cases h
  case closePtr ptr pre hphase =>
    simp only [hphase] at hw ⊢
    rw [← hw.2.1]
    cases ptr with
    | none => rfl
    | some d =>
      show ((x.closed ++ [d]).count c : ℤ) - ([d].count c : ℤ) = _
      rw [count_snoc, List.count_nil]
      omega
  case closePre pre hphase =>
    simp only [hphase] at hw ⊢
    rw [hw.2]
    show ((x.closed ++ [w.worker.stack]).count c : ℤ) -
      (([w.worker.stack] ++ w.threadContext.toList).count c : ℤ) = _
    rw [count_snoc, List.count_append]
    push_cast
    omega
  case destroy => rfl
  case created hphase _ _ _ _ | taken hphase _ _ _ _ | mapped hphase _ _ _ _ _ | put hphase _ _ _ _ |
      unmapped hphase _ _ _ | other hphase _ _ _ _ | fill hphase _ _ _ _ | filled hphase _ | flag hphase _ _ |
      setPre hphase | setPtr hphase | jump hphase _ | drain hphase _ _ | gone hphase _ =>
    simp only [hphase]

theorem keeps_add_closes (hw : w.Poised) (c : ℕ) :
    w.worker.owned.count c + (anchors w.worker w.threadContext).count c =
      w.keeps.count c + w.closes.count c := by
  have hdequeue : w.worker.pc = .dequeue → w.worker.owned = [w.worker.stack] ∧
      anchors w.worker w.threadContext = w.threadContext.toList := fun hpc => by
    rw [Schedule.Worker.owned, anchors, hpc]
    exact ⟨rfl, rfl⟩
  unfold Thread.Poised at hw
  unfold Thread.keeps Thread.closes
  cases hphase : w.phase <;> simp only [hphase] at hw ⊢
  case deletePre pre =>
    obtain ⟨howned, hanchors⟩ := hdequeue hw.1
    rw [howned, hanchors]
  case drain =>
    obtain ⟨howned, hanchors⟩ := hdequeue hw
    rw [howned, hanchors, List.count_append, List.count_nil, zero_add]
  case gone =>
    obtain ⟨howned, hanchors⟩ := hdequeue hw.1
    rw [howned, hanchors, List.count_append, List.count_nil, zero_add]
  all_goals rw [List.count_append, List.count_nil, add_zero]

end Moves

section Run
variable {T : Type} [Fintype T] [DecidableEq T] {k backup : ℕ} {pool : LimitQueue Word} {stored : ℤ}
  {ok : Crew.Config Process Thread T → T × Act → Crew.Config Process Thread T → Prop}
  {s : Crew.Config Process Thread T}

def forget (s : Crew.Config Process Thread T) : Crew.Config (Shared × Memory) Worker T :=
  ⟨(s.shared.shared, s.shared.memory), fun t => (s.places t).worker⟩

structure Founded (k : ℕ) (stored : ℤ) (s : Crew.Config Process Thread T) : Prop where
  placed : ((Schedule.placed stored).system T).Reached (forget s)
  stocked : ∀ t, Stocked k (s.places t)

omit [Fintype T] in
/-- What a thread with its pool in order can do. -/
theorem Founded.moves (hk : k ≤ 30) (hbackup : backup ≤ 2 ^ k) (h : Founded k stored s) {threads : ℕ}
    {t : T}
    {a : Act} {x : Process} {w : Thread} (hexec : exec backup threads s.shared (s.places t) a = some (x, w)) :
    Moves k backup threads s.shared (s.places t) a x w := by
  refine moves_of_exec hk (h.stocked t).pools (fun i hphase hi => ?_) hexec
  rw [(h.stocked t).fill i hphase]
  omega

theorem founded (hk : k ≤ 30) (hbackup : backup ≤ 2 ^ k) (hpool : Stores k 0 pool []) {threads : ℕ}
    (h : ((process backup threads pool stored).system T).ReachedBy ok s) : Founded k stored s := by
  refine Crew.induct (I := Founded k stored) ⟨.start, fun _ => ⟨?_, ?_, ?_⟩⟩
    (fun s t a s' htook ih => ?_) h
  · exact ⟨0, hpool⟩
  · exact fun _ hp => absurd hp List.not_mem_nil
  · exact fun i hi => Phase.fill.inj hi
  · have hmoves := ih.moves hk hbackup htook.exec
    have hstocked := stocked_step hmoves (leftCoroutine ih.placed t) (ih.stocked t)
    refine ⟨?_, fun t' => ?_⟩
    · have hworkers : (forget s').places =
          Function.update (forget s).places t (s'.places t).worker := by
        funext t'
        by_cases ht : t' = t
        · subst ht
          simp [forget]
        · simp [forget, htook.other ht, Function.update_of_ne ht]
      rcases placed_of_moves hmoves (ih.stocked t).mapped with ⟨hshared, hmemory, hworker⟩ | ⟨b, hb⟩
      · have hsame : forget s' = forget s := by
          have hplaces : (forget s').places = (forget s).places := by
            rw [hworkers, hworker]
            exact Function.update_eq_self t _
          show Crew.Config.mk (s'.shared.shared, s'.shared.memory) (forget s').places = forget s
          rw [hshared, hmemory, hplaces]
          rfl
        rw [hsame]
        exact ih.placed
      · refine .step (a := (t, b)) ih.placed ?_ trivial
        show (Schedule.execAt (s.shared.shared, s.shared.memory) (s.places t).worker b).map _ = _
        rw [hb, Option.map_some]
        exact congrArg some (congrArg (Crew.Config.mk _) hworkers.symm)
    · by_cases ht : t' = t
      · subst ht
        exact hstocked
      · rw [htook.other ht]
        exact ih.stocked t'

section Owners
variable (hk : k ≤ 30) (hbackup : backup ≤ 2 ^ k) (hpool : Stores k 0 pool []) {threads : ℕ}
  (h : ((process backup threads pool stored).system T).ReachedBy ok s)
include hk hbackup hpool h

/-- A run of the threads is one of their workers. -/
theorem reached_workers : ((Schedule.crew stored).system T).Reached
    ⟨s.shared.shared, fun t => (s.places t).worker⟩ :=
  Schedule.reached_forget (founded hk hbackup hpool h).placed

theorem anchored : ∀ t, Anchored s.shared.shared (s.places t).worker (s.places t).threadContext := by
  refine Crew.induct
    (I := fun s => ∀ t, Anchored s.shared.shared (s.places t).worker (s.places t).threadContext)
    (fun _ => ⟨fun hpc => absurd rfl hpc, fun hl => ?_⟩) (fun s t a s' htook ih t' => ?_) h
  · cases hl
  have hfounded := founded hk hbackup hpool htook.reached
  have hsound := (Schedule.linked (reached_workers hk hbackup hpool htook.reached)).sound t
  rcases worker_of_moves (hfounded.moves hk hbackup htook.exec) with
    ⟨hshared, hworker, hcontext⟩ | ⟨-, -, -, heff, hcontext⟩
  · by_cases ht : t' = t
    · subst ht
      rw [hshared, hworker, hcontext]
      exact ih t'
    · rw [htook.other ht, hshared]
      exact ih t'
  · by_cases ht : t' = t
    · subst ht
      exact anchored_step heff hcontext hsound (ih t')
    · rw [htook.other ht]
      refine ⟨(ih t').thread, fun hpc => ?_⟩
      obtain ⟨c, hc, hmem⟩ := (ih t').launched hpc
      exact ⟨c, hc, routine_kept heff hmem⟩

theorem poised : ∀ t, (s.places t).Poised := by
  refine Crew.induct (I := fun s => ∀ t, (s.places t).Poised) (fun _ => rfl)
    (fun s t a s' htook ih t' => ?_) h
  have hfounded := founded hk hbackup hpool htook.reached
  have hsound := (Schedule.linked (reached_workers hk hbackup hpool htook.reached)).sound t
  by_cases ht : t' = t
  · subst ht
    exact poised_step (hfounded.moves hk hbackup htook.exec) hsound (ih t')
  · rw [htook.other ht]
    exact ih t'

/-- The contexts of threads that are saved are those of the threads that have left them. -/
theorem routine_count (c : ℕ) : (s.shared.shared.saved.count ⟨c, .routine⟩ : ℤ) =
    census (fun w : Thread => ((anchors w.worker w.threadContext).count c : ℤ)) s.places := by
  have hbalance := Crew.balance (fun x : Process => -(x.shared.saved.count ⟨c, .routine⟩ : ℤ))
    (fun w : Thread => ((anchors w.worker w.threadContext).count c : ℤ)) (fun s t a s' htook => ?_) h
  · have hplace : census (fun w : Thread => ((anchors w.worker w.threadContext).count c : ℤ))
        (fun _ : T => (process backup threads pool stored).place) = 0 := census_eq_zero fun _ => rfl
    have hstart : -((process backup threads pool stored).start.shared.saved.count ⟨c, .routine⟩ : ℤ) = 0 :=
      rfl
    rw [hplace, hstart] at hbalance
    omega
  · have hfounded := founded hk hbackup hpool htook.reached
    have hsound := (Schedule.linked (reached_workers hk hbackup hpool htook.reached)).sound t
    rcases worker_of_moves (hfounded.moves hk hbackup htook.exec) with
      ⟨hshared, hworker, hcontext⟩ | ⟨-, -, -, heff, hcontext⟩
    · rw [hshared, hworker, hcontext]
    · have hstep := routine_step heff hcontext hsound (anchored hk hbackup hpool htook.reached t) c
      omega

theorem closed_count (c : ℕ) : (s.shared.closed.count c : ℤ) =
    census (fun w : Thread => (w.closes.count c : ℤ)) s.places := by
  have hbalance := Crew.balance (fun x : Process => -(x.closed.count c : ℤ))
    (fun w : Thread => (w.closes.count c : ℤ)) (fun s t a s' htook => ?_) h
  · have hplace : census (fun w : Thread => (w.closes.count c : ℤ))
        (fun _ : T => (process backup threads pool stored).place) = 0 := census_eq_zero fun _ => rfl
    have hstart : -((process backup threads pool stored).start.closed.count c : ℤ) = 0 := rfl
    rw [hplace, hstart] at hbalance
    omega
  · have hfounded := founded hk hbackup hpool htook.reached
    have hstep := closed_step (hfounded.moves hk hbackup htook.exec) (poised hk hbackup hpool htook.reached t) c
    omega

/-- Each context that was made is kept by one thread, saved in a wait, or deleted. -/
theorem kept_once (c : ℕ) : census (fun w : Thread => (w.keeps.count c : ℤ)) s.places +
    ((s.shared.shared.saved.map Saved.context).count c - s.shared.shared.saved.count ⟨c, .routine⟩) +
      s.shared.deleted.count c = if c < s.shared.shared.contexts then 1 else 0 := by
  have hone : census (fun w : Thread => (w.worker.owned.count c : ℤ)) s.places +
      ((s.shared.shared.saved.map Saved.context).count c + s.shared.shared.freed.count c) =
        if c < s.shared.shared.contexts then 1 else 0 :=
    Schedule.owned_once (reached_workers hk hbackup hpool h) c
  have hroutine := routine_count hk hbackup hpool h c
  have hclosed := closed_count hk hbackup hpool h c
  have hpoised := poised hk hbackup hpool h
  have hsplit : census (fun w : Thread => (w.worker.owned.count c : ℤ)) s.places +
      census (fun w : Thread => ((anchors w.worker w.threadContext).count c : ℤ)) s.places =
        census (fun w : Thread => (w.keeps.count c : ℤ)) s.places +
          census (fun w : Thread => (w.closes.count c : ℤ)) s.places := by
    rw [← census_add, ← census_add]
    refine Finset.sum_congr rfl fun t _ => ?_
    have hsum := keeps_add_closes (hpoised t) c
    show ((s.places t).worker.owned.count c : ℤ) + _ = ((s.places t).keeps.count c : ℤ) + _
    omega
  rw [Process.deleted, List.count_append]
  push_cast
  omega

theorem deleted_le (c : ℕ) : s.shared.deleted.count c ≤ if c < s.shared.shared.contexts then 1 else 0 := by
  have hone := kept_once hk hbackup hpool h c
  have hkept := census_nonneg (f := fun w : Thread => (w.keeps.count c : ℤ))
    (fun _ => Int.natCast_nonneg _) s.places
  have hroutine :
      s.shared.shared.saved.count ⟨c, .routine⟩ ≤ (s.shared.shared.saved.map Saved.context).count c :=
    List.count_le_count_map (f := Saved.context)
  split_ifs at hone ⊢ <;> omega

theorem deleted_nodup : s.shared.deleted.Nodup :=
  List.nodup_iff_count_le_one.mpr fun c => by
    have hle := deleted_le hk hbackup hpool h c
    split at hle <;> omega

theorem lt_of_deleted {c : ℕ} (hc : c ∈ s.shared.deleted) : c < s.shared.shared.contexts := by
  have hle := deleted_le hk hbackup hpool h c
  have hpos := List.count_pos_iff.mpr hc
  split at hle <;> omega

theorem deleted_of_keeps {t : T} {c : ℕ} (hc : c ∈ (s.places t).keeps) :
    c < s.shared.shared.contexts ∧ c ∉ s.shared.deleted := by
  have hone := kept_once hk hbackup hpool h c
  have hkept := le_census (f := fun w : Thread => (w.keeps.count c : ℤ))
    (fun _ => Int.natCast_nonneg _) s.places t
  have hroutine :
      s.shared.shared.saved.count ⟨c, .routine⟩ ≤ (s.shared.shared.saved.map Saved.context).count c :=
    List.count_le_count_map (f := Saved.context)
  have hpos := List.count_pos_iff.mpr hc
  split at hone
  · next hlt => exact ⟨hlt, List.count_eq_zero.mp (by omega)⟩
  · omega

end Owners

end Run

end QuietFlow.Stacks
