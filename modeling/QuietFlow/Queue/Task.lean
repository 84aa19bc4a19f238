import Mathlib.Algebra.Group.Int.Defs
import Mathlib.Algebra.Group.Nat.Defs
import Mathlib.Data.Fintype.Card
import QuietFlow.Runs.System

/-! The task queue, one shared access at a time.

`task::TaskQueue` puts a futex in front of two inner queues. `m_count` is the number
of registered consumers less the number of signalled tasks; a consumer that finds no
task withdraws (`wait`) and sleeps while the upper half of `m_count` is zero, a
producer whose task has no registered consumer wakes one (`signal`). Withdrawing
consumers hold for a while first (`spin_hold`): while any of them is in the hold,
producers wake nobody, and the last to leave makes up for it with one wake of as many
sleepers as are missing.

The inner queues' operations are single steps. `refuse` lets one of them fail without
reason, as the real ones do under contention; a full bounded queue and an empty queue
fail in an ordinary step. A sleeper wakes only through `FUTEX_WAKE`, whose step chooses
whom it wakes. -/
namespace QuietFlow.TaskQueue
open Runs

/-- Who is in `spin_hold`: `wait_dequeue` on entry, or `wait`. -/
inductive Holder where
  | entry
  | wait
  deriving DecidableEq, Repr

/-- Where a thread stands; each constructor is named after the access it makes next. -/
inductive Pc (α : Type) where
  | idle
  -- `enqueue`
  | offerLimit (item : α)
  | offerUnlimit (item : α)
  | signal
  | checkSpin
  | checkCount
  | wakeOne
  -- `spin_hold`
  | holdIn (h : Holder)
  | hold (h : Holder)
  | holdOut (h : Holder)
  /-- The last holder loads `m_count`. -/
  | recount (h : Holder)
  | wakeMany (h : Holder) (n : ℕ)
  -- `wait_dequeue`; `left` more attempts follow this one
  | register
  | takeLimit (left : ℕ)
  | sizeUnlimit (left : ℕ)
  | takeUnlimit (left : ℕ)
  -- `wait`
  | withdraw
  | futexWait
  | asleep
  | rejoin
  deriving DecidableEq, Repr

structure State (T α : Type) where
  mCount : ℤ
  bigSpinCount : ℤ
  limitQueue : List α
  unlimitQueue : List α
  pc : T → Pc α
  -- History; no step reads it.
  /-- The items that calls of `wait_dequeue` have returned. -/
  returned : List α

inductive Action (T α : Type) where
  | enqueue (t : T) (item : α)
  | waitDequeue (t : T)
  | step (t : T)
  /-- The inner queue's operation fails. -/
  | refuse (t : T)
  /-- `FUTEX_WAKE` wakes the sleepers in `woken`. -/
  | wake (t : T) (woken : Finset T)

/-- What an `int32_t` keeps of a counter. -/
def int32 (n : ℤ) : ℤ := n.bmod (2 ^ 32)

theorem int32_eq {n : ℤ} (hlo : -2 ^ 31 ≤ n) (hhi : n < 2 ^ 31) : int32 n = n := by
  rw [int32, Int.bmod_def]
  split <;> omega

/-- The upper half of `m_count`, which the futex sits on. -/
def highCount (n : ℤ) : ℤ := n / 2 ^ 32 % 2 ^ 32

variable {T α : Type} [Fintype T] [DecidableEq T]

namespace State

def setPc (s : State T α) (t : T) (pc : Pc α) : State T α :=
  {s with pc := Function.update s.pc t pc}

/-- `m_count.fetch_add`. -/
def addCount (s : State T α) (n : ℤ) : State T α := {s with mCount := s.mCount + n}

/-- `big_spin_count.fetch_add`. -/
def addSpin (s : State T α) (n : ℤ) : State T α := {s with bigSpinCount := s.bigSpinCount + n}

def sleepers [DecidableEq α] (s : State T α) : Finset T :=
  Finset.univ.filter fun t => s.pc t = .asleep

end State

/-- Where `spin_hold` returns to: `true` for the last holder. -/
def Holder.resume {α : Type} : Holder → Bool → Pc α
  | .entry, _ => .register
  | .wait, true => .rejoin
  | .wait, false => .futexWait

/-- After a failed attempt. -/
def retry {α : Type} : ℕ → Pc α
  | 0 => .withdraw
  | left + 1 => .takeLimit left

section Step
variable (capacity spinCycle : ℕ)

def advance (s : State T α) (t : T) : Option (State T α) :=
  match s.pc t with
  | .idle | .wakeOne | .wakeMany _ _ | .asleep => none
  | .offerLimit item =>
    if s.limitQueue.length < capacity then
      some {s.setPc t .signal with limitQueue := s.limitQueue ++ [item]}
    else some (s.setPc t (.offerUnlimit item))
  | .offerUnlimit item => some {s.setPc t .signal with unlimitQueue := s.unlimitQueue ++ [item]}
  | .signal =>
    let oldCount := int32 s.mCount
    some ((s.addCount (-1)).setPc t (if oldCount ≤ 0 then .checkSpin else .idle))
  | .checkSpin => some (s.setPc t (if s.bigSpinCount = 0 then .checkCount else .idle))
  | .checkCount => some (s.setPc t (if s.mCount < 0 then .wakeOne else .idle))
  | .holdIn h =>
    let oldCount := s.bigSpinCount
    some ((s.addSpin 1).setPc t (if oldCount = 0 then .hold h else .holdOut h))
  | .hold h => some (s.setPc t (.holdOut h))
  | .holdOut h =>
    let oldCount := s.bigSpinCount
    some ((s.addSpin (-1)).setPc t (if oldCount = 1 then .recount h else h.resume false))
  | .recount h =>
    let curCount := int32 s.mCount + 1
    some (s.setPc t (if curCount < 0 then .wakeMany h (-1 * curCount).toNat else h.resume true))
  | .register => some ((s.addCount 1).setPc t (.takeLimit spinCycle))
  | .takeLimit left =>
    match s.limitQueue with
    | [] => some (s.setPc t (.sizeUnlimit left))
    | item :: rest => some {s.setPc t .idle with
        limitQueue := rest
        returned := s.returned ++ [item]}
  | .sizeUnlimit left =>
    if s.unlimitQueue.length > 0 then some (s.setPc t (.takeUnlimit left))
    else some (s.setPc t (retry left))
  | .takeUnlimit left =>
    match s.unlimitQueue with
    | [] => some (s.setPc t (retry left))
    | item :: rest => some {s.setPc t .idle with
        unlimitQueue := rest
        returned := s.returned ++ [item]}
  | .withdraw =>
    let curCount := s.mCount
    some ((s.addCount (-1)).setPc t (if curCount < 0 then .rejoin else .holdIn .wait))
  | .futexWait => some (s.setPc t (if highCount s.mCount = 0 then .asleep else .rejoin))
  | .rejoin => some ((s.addCount 1).setPc t (.takeLimit 0))

/-- An inner queue's operation fails without reason. -/
def refuse (s : State T α) (t : T) : Option (State T α) :=
  match s.pc t with
  | .offerLimit item => some (s.setPc t (.offerUnlimit item))
  | .takeLimit left => some (s.setPc t (.sizeUnlimit left))
  | .sizeUnlimit left | .takeUnlimit left => some (s.setPc t (retry left))
  | _ => none

/-- `FUTEX_WAKE` with count `n` wakes `n` sleepers, or all of them if there are fewer. -/
def futexWake [DecidableEq α] (s : State T α) (t : T) (n : ℕ) (next : Pc α) (woken : Finset T) :
    Option (State T α) :=
  if woken ⊆ s.sleepers ∧ woken.card = min n s.sleepers.card then
    some (State.setPc {s with pc := fun t' => if t' ∈ woken then .rejoin else s.pc t'} t next)
  else none

def wake [DecidableEq α] (s : State T α) (t : T) (woken : Finset T) : Option (State T α) :=
  match s.pc t with
  | .wakeOne => futexWake s t 1 .idle woken
  | .wakeMany h n => futexWake s t n (h.resume true) woken
  | _ => none

/-- `enqueue` and `wait_dequeue` are entered by a thread that is in neither. -/
def enter (s : State T α) (t : T) (pc : Pc α) : Option (State T α) :=
  match s.pc t with
  | .idle => some (s.setPc t pc)
  | _ => none

def start : State T α := ⟨0, 0, [], [], fun _ => .idle, []⟩

/-- The task queue whose bounded queue has `capacity` slots, with `qf_spin_cycle`
attempts of `try_get`, and its callers. -/
def taskQueue (T α : Type) [Fintype T] [DecidableEq T] [DecidableEq α] :
    System (State T α) (Action T α) where
  start := start
  step := fun s a =>
    match a with
    | .enqueue t item => enter s t (.offerLimit item)
    | .waitDequeue t => enter s t (.holdIn .entry)
    | .step t => advance capacity spinCycle s t
    | .refuse t => refuse s t
    | .wake t woken => wake s t woken

end Step
end QuietFlow.TaskQueue
