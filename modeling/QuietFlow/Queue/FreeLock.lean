import Mathlib.Data.Nat.Notation
import QuietFlow.Runs.System

/-! The lock-free bounded queue, one shared access at a time.

`free_lock::LimitQueue` hands slots out by ticket. A call of `try_dequeue` or
`try_enqueue` first tests whether it may pass, then takes a number from its side's
`ahead` counter and tests again; it either repairs the miss in `missed` or draws a
ticket from `read` or `write`. The ticket's slot carries a version in `flag_vec`
that says whose turn it is, and a call spins (and futex-waits) until the version is
its own. Both sides run the same admission on their own three counters, so the
counters are indexed by `Side` and the admission steps by `Op`.

A counter is kept as the number of increments it has received; the code sees its
64-bit `word`, and every test, index and version is computed from words. -/
namespace QuietFlow.FreeLock
open Runs

/-- What a `uint64_t` counter holds after `n` increments. -/
def word (n : ℕ) : BitVec 64 := BitVec.ofNat 64 n

def isEmpty (read write : BitVec 64) : Bool :=
  let diff := read - write
  decide (diff ≥ 0) && decide (diff < 0xffffffff#64)

def isFull (capacity read write : BitVec 64) : Bool :=
  let diff := write - capacity - read
  decide (diff ≥ 0) && decide (diff < 0xffffffff#64)

inductive Side where
  | read
  | write
  deriving DecidableEq, Repr

def Side.other : Side → Side
  | .read => .write
  | .write => .read

/-- `read`, `read_missed` and `read_ahead`, or their `write` twins. -/
structure Cursor where
  claimed : ℕ
  missed : ℕ
  ahead : ℕ
  deriving DecidableEq, Repr

/-- `try_dequeue`, or `try_enqueue` of an item. -/
inductive Op (α : Type) where
  | dequeue
  | enqueue (item : α)
  deriving DecidableEq, Repr

def Op.side {α : Type} : Op α → Side
  | .dequeue => .read
  | .enqueue _ => .write

section Code
variable {α : Type} (capacity : BitVec 64)

def capacityBitmap : BitVec 64 := capacity - 1

def slot (n : ℕ) : BitVec 64 := word n &&& capacityBitmap capacity

/-- The test both sides make twice: `is_empty(read_ahead_ - read_missed_, write_)`
and `is_full(read_, write_ahead_ - write_missed_)`. -/
def refused (op : Op α) (ahead missed bound : ℕ) : Bool :=
  match op with
  | .dequeue => isEmpty (word ahead - word missed) (word bound)
  | .enqueue _ => isFull capacity (word bound) (word ahead - word missed)

/-- The low half of a version: what `FUTEX_WAIT` compares, and all that the reader's
`auto cur_version = 0` keeps of it. -/
def low (version : BitVec 64) : BitVec 32 := version.truncate 32

/-- The version a ticket waits for. -/
def targetVersion : Side → ℕ → BitVec 64
  | .read, n => word n
  | .write, n => word n - capacityBitmap capacity

/-- The comparison in the spin loop. The reader's `cur_version` is an `int`, and
`cur_version == read_` converts it back to 64 bits by sign extension; the writer's
is a `uint64_t`. -/
def versionReady (side : Side) (n : ℕ) (version : BitVec 64) : Bool :=
  match side with
  | .read => (low version).signExtend 64 == word n
  | .write => version == targetVersion capacity .write n

/-- The version a finished ticket leaves: `read_ + 1` and `write_`. -/
def storedVersion : Side → ℕ → BitVec 64
  | .read, n => word n + 1
  | .write, n => word n

end Code

/-- Where a call stands; each constructor is named after the access it makes next. -/
inductive Pc (α : Type) where
  | idle
  /-- Load the other side's counter. -/
  | bound (op : Op α)
  | missed (op : Op α) (bound : ℕ)
  /-- Load `ahead` and make the first test. -/
  | ahead (op : Op α) (bound missed : ℕ)
  | claim (op : Op α) (missed : ℕ)
  /-- Load the other side's counter again and make the second test. -/
  | retest (op : Op α) (missed ahead : ℕ)
  | miss (op : Op α) (ahead : ℕ)
  | ticket (op : Op α) (ahead : ℕ)
  /-- `i` loads of the slot version are left before `FUTEX_WAIT` on the value `cur`. -/
  | spin (op : Op α) (n i : ℕ) (cur : BitVec 32)
  | asleep (op : Op α) (n : ℕ) (cur : BitVec 32)
  | take (n : ℕ)
  | clear (n : ℕ) (item : α)
  | put (n : ℕ) (item : α)
  | store (side : Side) (n : ℕ) (item : α)
  | wake (side : Side) (n : ℕ) (item : α)
  /-- `QuietFlowAssert(*item != nullptr)` failed. -/
  | failed (n : ℕ)
  deriving DecidableEq, Repr

structure State (T α : Type) where
  vec : BitVec 64 → Option α
  flagVec : BitVec 64 → BitVec 64
  cursor : Side → Cursor
  /-- The futex queue of each slot, in the order of going to sleep. -/
  waiters : BitVec 64 → List T
  pc : T → Pc α
  -- History; no step reads it.
  /-- The attempts of each side that were already over when the thread's call began. -/
  since : T → Side → ℕ
  /-- Item `n` is the one of the enqueue that drew write ticket `n`. -/
  written : List α
  /-- The write tickets whose items have been put into `vec`. -/
  stored : List (ℕ × α)
  /-- The read tickets whose calls have returned, and the items they returned. -/
  returned : List (ℕ × α)
  cleared : List ℕ
  tickets : Side → List (BitVec 64)

inductive Action (T α : Type) where
  | call (t : T) (op : Op α)
  | step (t : T)
  deriving DecidableEq, Repr

/-- How often the version is loaded before each `FUTEX_WAIT`. -/
def spinCycle : ℕ := 100

/-- Where a woken call resumes. -/
def Pc.woken {α : Type} : Pc α → Pc α
  | .asleep op n cur => .spin op n spinCycle cur
  | pc => pc

/-- The first step of the call's second half, the slot being the ticket's. -/
def Op.begin {α : Type} : Op α → ℕ → Pc α
  | .dequeue, n => .take n
  | .enqueue item, n => .put n item

variable {T α : Type} [DecidableEq T]

namespace State

def setPc (s : State T α) (t : T) (pc : Pc α) : State T α :=
  {s with pc := Function.update s.pc t pc}

def setCursor (s : State T α) (side : Side) (c : Cursor) : State T α :=
  {s with cursor := Function.update s.cursor side c}

def setVec (s : State T α) (i : BitVec 64) (item : Option α) : State T α :=
  {s with vec := Function.update s.vec i item}

/-- The enqueue's item joins the history when the ticket is drawn. -/
def drawn (s : State T α) (op : Op α) (n : ℕ) : State T α :=
  {s with
    tickets := Function.update s.tickets op.side (s.tickets op.side ++ [word n])
    written := match op with
      | .dequeue => s.written
      | .enqueue item => s.written ++ [item]}

end State

section Step
variable (capacity : BitVec 64)

/-- `FUTEX_WAIT`: sleep only while the low half of the version is still `cur`. -/
def futexWait (s : State T α) (t : T) (op : Op α) (n : ℕ) (cur : BitVec 32) : State T α :=
  let i := slot capacity n
  if low (s.flagVec i) = cur then
    {s.setPc t (.asleep op n cur) with
      waiters := Function.update s.waiters i (s.waiters i ++ [t])}
  else s.setPc t (.spin op n spinCycle cur)

/-- `FUTEX_WAKE` with count `-1`: the first waiter is woken, and one is more than
the count asks for. -/
def futexWake (s : State T α) (i : BitVec 64) : State T α :=
  match s.waiters i with
  | [] => s
  | x :: rest =>
    {s.setPc x (s.pc x).woken with waiters := Function.update s.waiters i rest}

/-- The thread's next access. -/
def advance (s : State T α) (t : T) : Option (State T α) :=
  match s.pc t with
  | .idle | .asleep _ _ _ | .failed _ => none
  | .bound op => some (s.setPc t (.missed op (s.cursor op.side.other).claimed))
  | .missed op bound => some (s.setPc t (.ahead op bound (s.cursor op.side).missed))
  | .ahead op bound missed =>
    if refused capacity op (s.cursor op.side).ahead missed bound then some (s.setPc t .idle)
    else some (s.setPc t (.claim op missed))
  | .claim op missed =>
    let c := s.cursor op.side
    some ((s.setCursor op.side {c with ahead := c.ahead + 1}).setPc t (.retest op missed c.ahead))
  | .retest op missed ahead =>
    if refused capacity op ahead missed (s.cursor op.side.other).claimed then
      some (s.setPc t (.miss op ahead))
    else some (s.setPc t (.ticket op ahead))
  | .miss op _ =>
    let c := s.cursor op.side
    some ((s.setCursor op.side {c with missed := c.missed + 1}).setPc t .idle)
  | .ticket op _ =>
    let c := s.cursor op.side
    some (((s.setCursor op.side {c with claimed := c.claimed + 1}).drawn op c.claimed).setPc t
      (.spin op c.claimed spinCycle 0))
  | .spin op n 0 cur => some (futexWait capacity s t op n cur)
  | .spin op n (i + 1) _ =>
    let version := s.flagVec (slot capacity n)
    if versionReady capacity op.side n version then some (s.setPc t (op.begin n))
    else some (s.setPc t (.spin op n i (low version)))
  | .take n =>
    match s.vec (slot capacity n) with
    | none => some (s.setPc t (.failed n))
    | some item => some (s.setPc t (.clear n item))
  | .clear n item =>
    some {(s.setVec (slot capacity n) none).setPc t (.store .read n item) with
      cleared := s.cleared ++ [n]}
  | .put n item =>
    some {(s.setVec (slot capacity n) (some item)).setPc t (.store .write n item) with
      stored := s.stored ++ [(n, item)]}
  | .store side n item =>
    some {s.setPc t (.wake side n item) with
      flagVec := Function.update s.flagVec (slot capacity n) (storedVersion side n)}
  | .wake side n item =>
    some {(futexWake s (slot capacity n)).setPc t .idle with
      returned := match side with
        | .read => s.returned ++ [(n, item)]
        | .write => s.returned}

/-- A call is entered by a thread that is in none. -/
def call (s : State T α) (t : T) (op : Op α) : Option (State T α) :=
  match s.pc t with
  | .idle => some {s.setPc t (.bound op) with
      since := Function.update s.since t fun side => (s.cursor side).claimed + (s.cursor side).missed}
  | _ => none

def start : State T α where
  vec := fun _ => none
  flagVec := fun i => i - capacityBitmap capacity
  cursor := fun _ => ⟨0, 0, 0⟩
  waiters := fun _ => []
  pc := fun _ => .idle
  since := fun _ _ => 0
  written := []
  stored := []
  returned := []
  cleared := []
  tickets := fun _ => []

/-- The queue built by `LimitQueue(size)` with the given `capacity`, and its callers. -/
def queue (T α : Type) [DecidableEq T] : System (State T α) (Action T α) where
  start := start capacity
  step := fun s a =>
    match a with
    | .call t op => call s t op
    | .step t => advance capacity s t

end Step
end QuietFlow.FreeLock
