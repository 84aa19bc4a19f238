import Mathlib.Data.Nat.Notation
import QuietFlow.Runs.System

/-! Waiting for a future: `FutureAspect::require_node` with the built-in `Future` and `Promise`.

The waiting task registers its callbacks and then waits for the node that `ensure`'s callback
ends; without a worker it waits for the semaphore instead. The promise's thread goes once through
the callbacks it finds and then ends the future under the mutex. `then` takes neither the mutex
nor looks at `finish`, so a callback that comes after the loop has begun is never called, and
`ensure` ends the wait all the same (`delivered_iff`).

A vector is read or grown in one step, and assigning the value does not throw. -/
namespace QuietFlow.Future
open Runs

/-- What `require_node` registers. -/
inductive CallBack where
  /-- `f_value=ret_value`. -/
  | value
  /-- `f_value=error_value`. -/
  | error
  deriving DecidableEq

inductive FinishCallBack where
  /-- `[](){}`, from the constructor of `Promise`. -/
  | nop
  /-- `create_edges(end_node, {})`. -/
  | endNode
  deriving DecidableEq

inductive Party where
  | promise
  | task
  deriving DecidableEq

/-- Where `setValue` is; each constructor is named after what it does next. -/
inductive SetValue where
  | enterLoop
  | loop (callBacks : List CallBack)
  | lock
  | setFinish
  | callFinish
  | setV
  | signal
  | unlock
  | done
  deriving DecidableEq

/-- Where `require_node` is. -/
inductive Require where
  | callThen
  | onError
  -- `ensure`
  | lock
  | testFinish
  | unlock
  /-- Suspended until `end_node` ends. -/
  | requireNode
  /-- `get`, without a worker. -/
  | get
  | returned
  deriving DecidableEq

structure State (α : Type) where
  -- `InnerFuture`
  mutex : Option Party
  finish : Bool
  sema : ℕ
  callBacks : List CallBack
  errorCallBacks : List CallBack
  finishCallBack : FinishCallBack
  v : Option α
  fValue : α
  endNode : Bool
  promise : SetValue
  task : Require
  -- History; no step reads it.
  /-- The values that the callback was called with. -/
  calls : List α

section Step
variable {α : Type} (worker : Bool) (v errorValue : α)

namespace State

/-- A callback is called with `v`. -/
def call (s : State α) : CallBack → State α
  | .value => {s with fValue := v, calls := s.calls ++ [v]}
  | .error => {s with fValue := errorValue}

def callFinish (s : State α) : State α :=
  match s.finishCallBack with
  | .nop => s
  | .endNode => {s with endNode := true}

/-- The next step of `setValue(v)`. -/
def setValue (s : State α) : Option (State α) :=
  match s.promise with
  | .enterLoop => some {s with promise := .loop s.callBacks}
  | .loop [] => some {s with promise := .lock}
  | .loop (c :: rest) => some {s.call v errorValue c with promise := .loop rest}
  | .lock => if s.mutex = none then some {s with mutex := some .promise, promise := .setFinish} else none
  | .setFinish => some {s with finish := true, promise := .callFinish}
  | .callFinish => some {s.callFinish with promise := .setV}
  | .setV => some {s with v := some v, promise := .signal}
  | .signal => some {s with sema := s.sema + 1, promise := .unlock}
  | .unlock => some {s with mutex := none, promise := .done}
  | .done => none

/-- The next step of `require_node`. -/
def requireNode (s : State α) : Option (State α) :=
  match s.task with
  | .callThen => some {s with callBacks := s.callBacks ++ [.value], task := .onError}
  | .onError => some {s with
      errorCallBacks := s.errorCallBacks ++ [.error]
      task := if worker then .lock else .get}
  | .lock => if s.mutex = none then some {s with mutex := some .task, task := .testFinish} else none
  | .testFinish =>
    if s.finish then some {s with endNode := true, task := .unlock}
    else some {s with finishCallBack := .endNode, task := .unlock}
  | .unlock => some {s with mutex := none, task := .requireNode}
  | .requireNode => if s.endNode then some {s with task := .returned} else none
  | .get => if s.sema > 0 then some {s with sema := s.sema - 1, task := .returned} else none
  | .returned => none

def step (s : State α) : Party → Option (State α)
  | .promise => s.setValue v errorValue
  | .task => s.requireNode worker

end State

/-- A future, its promise's thread and the task that waits, with `initial` in `f_value`. -/
def future (initial : α) : System (State α) Party where
  start :=
    { mutex := none
      finish := false
      sema := 0
      callBacks := []
      errorCallBacks := []
      finishCallBack := .nop
      v := none
      fValue := initial
      endNode := false
      promise := .enterLoop
      task := .callThen
      calls := [] }
  step := State.step worker v errorValue

end Step

/-- The callback has been called once, with the value, which `f_value` holds. -/
def Delivered {α : Type} (v : α) (s : State α) : Prop := s.calls = [v] ∧ s.fValue = v

/-- `setValue` begins its loop only when `then` has returned. -/
def After {α : Type} (s : State α) (p : Party) (_ : State α) : Prop :=
  p = .promise → s.promise = .enterLoop → s.task ≠ .callThen

instance {α : Type} (s : State α) (p : Party) (s' : State α) : Decidable (After s p s') :=
  inferInstanceAs (Decidable (p = .promise → s.promise = .enterLoop → s.task ≠ .callThen))

/-- The loop of `setValue` is over. -/
def SetValue.looped : SetValue → Bool
  | .enterLoop | .loop _ => false
  | _ => true

section Run
variable {α : Type} {worker : Bool} {v errorValue initial : α} {s s' : State α}

/-! ### The wait ends after the loop -/

/-- Only the end of the loop lets `require_node` go on. -/
structure Waits (s : State α) : Prop where
  finish : s.finish = true → s.promise.looped = true
  sema : 0 < s.sema → s.promise.looped = true
  endNode : s.endNode = true → s.promise.looped = true
  returned : s.task = .returned → s.promise.looped = true
  /-- What `then` pushes is the callback and nothing else. -/
  callBacks : s.callBacks = if s.task = .callThen then [] else [.value]

/-- Once the loop is over nothing waits for it. -/
theorem Waits.of_looped (h : Waits s) (hlooped : s'.promise.looped = true)
    (hcallBacks : s'.callBacks = s.callBacks) (htask : s'.task = s.task) : Waits s' :=
  ⟨fun _ => hlooped, fun _ => hlooped, fun _ => hlooped, fun _ => hlooped, by
    rw [hcallBacks, htask, h.callBacks]⟩

/-- Before the loop is over nothing has been let go. -/
theorem Waits.of_looping (h : Waits s) (hlooping : s.promise.looped = false)
    (hfinish : s'.finish = s.finish) (hsema : s'.sema = s.sema) (hend : s'.endNode = s.endNode)
    (hcallBacks : s'.callBacks = s.callBacks) (htask : s'.task = s.task) : Waits s' := by
  have hnot : ∀ {p : Prop}, s.promise.looped = true → p := fun hlooped => by
    rw [hlooping] at hlooped
    cases hlooped
  refine ⟨fun hf => hnot (h.finish ?_), fun hs => hnot (h.sema ?_), fun he => hnot (h.endNode ?_),
    fun hr => hnot (h.returned ?_), ?_⟩
  · rwa [← hfinish]
  · rwa [← hsema]
  · rwa [← hend]
  · rwa [← htask]
  · rw [hcallBacks, htask, h.callBacks]

theorem waits_setValue (h : Waits s) (hs : s.setValue v errorValue = some s') : Waits s' := by
  unfold State.setValue at hs
  split at hs
  case h_1 hstage =>
    cases hs
    exact h.of_looping (by rw [hstage]; rfl) rfl rfl rfl rfl rfl
  case h_3 c rest hstage =>
    cases hs
    refine h.of_looping (by rw [hstage]; rfl) ?_ ?_ ?_ ?_ ?_ <;> cases c <;> rfl
  case h_4 =>
    split at hs <;> cases hs
    exact h.of_looped rfl rfl rfl
  case h_6 =>
    cases hs
    refine h.of_looped rfl ?_ ?_ <;> simp only [State.callFinish] <;> split <;> rfl
  all_goals
    cases hs
    try exact h.of_looped rfl rfl rfl

/-- The task goes on, and returns only when it may. -/
theorem Waits.of_task (h : Waits s) (hpromise : s'.promise = s.promise) (hfinish : s'.finish = s.finish)
    (hsema : s'.sema ≤ s.sema) (hend : s'.endNode = true → s.promise.looped = true)
    (hreturned : s'.task = .returned → s.promise.looped = true) (hcallBacks : s'.callBacks = s.callBacks)
    (htask : s.task ≠ .callThen) (htask' : s'.task ≠ .callThen) : Waits s' := by
  refine ⟨fun hf => ?_, fun hs => ?_, fun he => ?_, fun hr => ?_, ?_⟩
  · rw [hpromise]
    exact h.finish (hfinish ▸ hf)
  · rw [hpromise]
    exact h.sema (Nat.lt_of_lt_of_le hs hsema)
  · rw [hpromise]
    exact hend he
  · rw [hpromise]
    exact hreturned hr
  · rw [hcallBacks, h.callBacks, if_neg htask, if_neg htask']

theorem waits_requireNode (h : Waits s) (hs : s.requireNode worker = some s') : Waits s' := by
  unfold State.requireNode at hs
  split at hs
  case h_1 hstage =>
    cases hs
    refine ⟨h.finish, h.sema, h.endNode, nofun, ?_⟩
    rw [h.callBacks, hstage]
    rfl
  case h_2 hstage =>
    cases hs
    have htask : ∀ p, p = (if worker then Require.lock else .get) → p ≠ .returned ∧ p ≠ .callThen := by
      rintro _ rfl
      cases worker <;> exact ⟨nofun, nofun⟩
    exact h.of_task rfl rfl (Nat.le_refl _) h.endNode (fun hr => absurd hr (htask _ rfl).1) rfl
      (by rw [hstage]; nofun) (htask _ rfl).2
  case h_3 hstage =>
    split at hs <;> cases hs
    exact h.of_task rfl rfl (Nat.le_refl _) h.endNode nofun rfl (by rw [hstage]; nofun) nofun
  case h_4 hstage =>
    split at hs <;> cases hs
    · next hfinish =>
      exact h.of_task rfl rfl (Nat.le_refl _) (fun _ => h.finish hfinish) nofun rfl (by rw [hstage]; nofun) nofun
    · exact h.of_task rfl rfl (Nat.le_refl _) h.endNode nofun rfl (by rw [hstage]; nofun) nofun
  case h_5 hstage =>
    cases hs
    exact h.of_task rfl rfl (Nat.le_refl _) h.endNode nofun rfl (by rw [hstage]; nofun) nofun
  case h_6 hstage =>
    split at hs <;> cases hs
    next hend =>
    exact h.of_task rfl rfl (Nat.le_refl _) h.endNode (fun _ => h.endNode hend) rfl (by rw [hstage]; nofun) nofun
  case h_7 hstage =>
    split at hs <;> cases hs
    next hsema =>
    exact h.of_task rfl rfl (Nat.sub_le _ _) h.endNode (fun _ => h.sema hsema) rfl
      (by rw [hstage]; nofun) nofun
  case h_8 => cases hs

/-- The task leaves the promise's thread and what it has called alone. -/
theorem requireNode_same (hs : s.requireNode worker = some s') :
    s'.promise = s.promise ∧ s'.calls = s.calls ∧ s'.fValue = s.fValue := by
  unfold State.requireNode at hs
  split at hs
  case h_3 | h_4 | h_6 | h_7 =>
    split at hs <;> cases hs <;> exact ⟨rfl, rfl, rfl⟩
  all_goals
    cases hs
    try exact ⟨rfl, rfl, rfl⟩

theorem waits_step {p : Party} (h : Waits s) (hs : s.step worker v errorValue p = some s') : Waits s' := by
  cases p with
  | promise => exact waits_setValue h hs
  | task => exact waits_requireNode h hs

theorem waits (hr : (future worker v errorValue initial).Reached s) : Waits s :=
  hr.induct (I := Waits) ⟨nofun, nofun, nofun, nofun, rfl⟩ fun _ _ _ _ h hs _ => waits_step h hs

/-! ### What the loop finds -/

/-- The loop has the callback before it, or has called it. -/
def Told (v : α) (s : State α) : Prop :=
  match s.promise with
  | .enterLoop => s.calls = []
  | .loop [.value] => s.calls = []
  | .loop [] => Delivered v s
  | .loop _ => False
  | _ => Delivered v s

/-- The loop has begun without the callback. -/
def Lost (s : State α) : Prop := (s.promise = .loop [] ∨ s.promise.looped = true) ∧ s.calls = []

theorem told_looped (h : Told v s) (hlooped : s.promise.looped = true) : Delivered v s := by
  unfold Told at h
  split at h
  case h_1 hstage | h_2 hstage | h_4 hstage =>
    rw [hstage] at hlooped
    cases hlooped
  case h_3 | h_5 => exact h

theorem told_task (h : Told v s) (hs : s.requireNode worker = some s') : Told v s' := by
  obtain ⟨hpromise, hcalls, hvalue⟩ := requireNode_same hs
  unfold Told Delivered at *
  rw [hpromise, hcalls, hvalue]
  exact h

/-- A loop that begins after `then` calls the callback. -/
theorem told_promise (hw : Waits s) (h : Told v s) (hs : s.setValue v errorValue = some s')
    (hafter : s.promise = .enterLoop → s.task ≠ .callThen) : Told v s' := by
  unfold State.setValue at hs
  split at hs
  case h_1 hstage =>
    cases hs
    have hcallBacks := hw.callBacks
    rw [if_neg (hafter hstage)] at hcallBacks
    simp only [Told, hstage] at h
    simp only [Told, hcallBacks]
    exact h
  case h_2 hstage =>
    cases hs
    simp only [Told, hstage] at h
    exact h
  case h_3 c rest hstage =>
    cases hs
    simp only [Told, hstage] at h
    split at h
    case h_2 heq =>
      obtain ⟨rfl, rfl⟩ := List.cons.inj (SetValue.loop.inj heq)
      simp [Told, Delivered, State.call, h]
    case h_1 | h_3 => simp_all
    case h_4 => exact h.elim
    case h_5 hnot => exact absurd rfl (hnot _)
  case h_6 hstage =>
    cases hs
    simp only [Told, hstage] at h
    simp only [Told, Delivered, State.callFinish]
    split <;> exact h
  case h_4 hstage =>
    split at hs <;> cases hs
    simp only [Told, hstage] at h
    exact h
  case h_10 => cases hs
  all_goals
    next hstage =>
    cases hs
    simp only [Told, hstage] at h
    exact h

theorem lost_promise (h : Lost s) (hs : s.setValue v errorValue = some s') : Lost s' := by
  obtain ⟨hpromise, hcalls⟩ := h
  unfold State.setValue at hs
  split at hs
  case h_1 hstage | h_3 hstage =>
    rw [hstage] at hpromise
    obtain hloop | hlooped := hpromise
    · cases hloop
    · cases hlooped
  case h_4 =>
    split at hs <;> cases hs
    exact ⟨.inr rfl, hcalls⟩
  case h_6 =>
    cases hs
    refine ⟨.inr rfl, ?_⟩
    simp only [State.callFinish]
    split <;> exact hcalls
  case h_10 => cases hs
  all_goals
    cases hs
    exact ⟨.inr rfl, hcalls⟩

theorem lost_step {p : Party} (h : Lost s) (hs : s.step worker v errorValue p = some s') : Lost s' := by
  cases p with
  | promise => exact lost_promise h hs
  | task =>
    obtain ⟨hpromise, hcalls, -⟩ := requireNode_same hs
    unfold Lost at *
    rw [hpromise, hcalls]
    exact h

theorem told (hr : (future worker v errorValue initial).ReachedBy After s) : Told v s := by
  refine hr.induct (I := Told v) rfl fun s p s' hr h hs hok => ?_
  cases p with
  | promise => exact told_promise (waits hr.reached) h hs (hok rfl)
  | task => exact told_task h hs

/-- A run whose loop began too early calls nothing. -/
theorem after_or_lost (hr : (future worker v errorValue initial).Reached s) :
    (future worker v errorValue initial).ReachedBy After s ∨ Lost s := by
  refine hr.induct (I := fun s => (future worker v errorValue initial).ReachedBy After s ∨ Lost s)
    (.inl .start) fun s p s' hr ih hs _ => ?_
  obtain hafter | hlost := ih
  · by_cases hok : After s p s'
    · exact .inl (.step hafter hs hok)
    · right
      simp only [After, Classical.not_imp, not_not] at hok
      obtain ⟨rfl, hstage, htask⟩ := hok
      have hcallBacks := (waits hr).callBacks
      have hcalls := told hafter
      rw [if_pos htask] at hcallBacks
      simp only [Told, hstage] at hcalls
      simp only [future, State.step, State.setValue, hstage, Option.some.injEq] at hs
      subst hs
      exact ⟨.inl (by rw [hcallBacks]), hcalls⟩
  · exact .inr (lost_step hlost hs)

/-- **The value is delivered exactly where `then` comes before the loop**: once the wait has
ended, the callback has been called once with the value if and only if the loop began after
`then` had returned. -/
theorem delivered_iff (hr : (future worker v errorValue initial).Reached s)
    (hdone : s.endNode = true ∨ s.task = .returned) :
    Delivered v s ↔ (future worker v errorValue initial).ReachedBy After s := by
  refine ⟨fun hdelivered => ?_, fun hafter => ?_⟩
  · obtain hafter | ⟨-, hcalls⟩ := after_or_lost hr
    · exact hafter
    · rw [hdelivered.1] at hcalls
      cases hcalls
  · refine told_looped (told hafter) ?_
    obtain hend | hreturned := hdone
    · exact (waits hr).endNode hend
    · exact (waits hr).returned hreturned

/-- A promise that is set before the task registers. -/
def setFirst : List Party := List.replicate 8 .promise ++ List.replicate 6 .task

theorem set_first : ∃ s, (future true 1 2 0).Reached s ∧ s.task = .returned ∧ s.calls = [] ∧ s.fValue = 0 :=
  System.exists_reachedBy (future true 1 2 0) (fun _ _ _ => True) setFirst
    (fun s => s.task = .returned ∧ s.calls = [] ∧ s.fValue = 0) (by decide)

/-- `require_node` returns without the value. -/
theorem not_delivered : ¬ ∀ s, (future true 1 2 0).Reached s → s.endNode = true ∨ s.task = .returned →
    Delivered 1 s := by
  intro h
  obtain ⟨s, hr, hreturned, hcalls, -⟩ := set_first
  have hdelivered := (h s hr (.inr hreturned)).1
  rw [hcalls] at hdelivered
  cases hdelivered

/-- A promise that is set once the task waits. -/
def registerFirst : List Party :=
  List.replicate 5 .task ++ List.replicate 9 .promise ++ [.task]

/-- Set first the value is lost, set afterwards it is delivered. -/
theorem delivered_iff_orders :
    (∃ s, (future true 1 2 0).Reached s ∧ s.task = .returned ∧
      ¬(future true 1 2 0).ReachedBy After s) ∧
    ∃ s, (future true 1 2 0).Reached s ∧ s.task = .returned ∧ Delivered 1 s := by
  constructor
  · obtain ⟨s, hr, hreturned, hcalls, -⟩ := set_first
    refine ⟨s, hr, hreturned, fun hafter => ?_⟩
    have hdelivered := ((delivered_iff hr (.inr hreturned)).mpr hafter).1
    rw [hcalls] at hdelivered
    cases hdelivered
  · obtain ⟨s, hafter, hreturned⟩ := System.exists_reachedBy (future true 1 2 0) After
      registerFirst
      (fun s => s.task = .returned) (by decide)
    exact ⟨s, hafter.reached, hreturned, (delivered_iff hafter.reached (.inr hreturned)).mpr hafter⟩

end Run
end QuietFlow.Future
