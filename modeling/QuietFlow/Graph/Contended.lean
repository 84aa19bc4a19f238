import QuietFlow.Queue.Attempts
import QuietFlow.Queue.Early
import QuietFlow.Queue.Quiescent
import QuietFlow.Queue.Task
import QuietFlow.Runs.Census

/-! Admissions by many threads at once: `SelfQueue::try_enqueue` and `try_dequeue`, one
atomic operation at a time.

`m_count` is changed before the `LimitQueue` is asked, by both sides. A call of the
`LimitQueue` takes its own steps (`FreeLock.advance`), and `try_dequeue` calls it until it
succeeds. A call that throws is over, and its thread may call again. -/
namespace QuietFlow.SelfQueue.Contended
open Runs FreeLock
open TaskQueue (int32 int32_eq)

/-- Where a thread is: inside `try_enqueue` past a `fetch_add` that returned `old_count`, or
inside `try_dequeue` past its `fetch_sub`. -/
inductive Place (α : Type) where
  | idle
  | enqueue (oldCount : ℤ) (node : α)
  | dequeue
  deriving DecidableEq

structure State (T α : Type) where
  limitQueue : FreeLock.State T α
  mCount : ℤ
  place : T → Place α
  ----------
  /-- The `old_count` of every call whose assertion failed. -/
  refusals : List ℤ

inductive Act (T α : Type) where
  | tryEnqueue (t : T) (node : α)
  | tryDequeue (t : T)
  | step (t : T)
  deriving DecidableEq

variable {T α : Type} [DecidableEq T]

namespace State
variable (s : State T α) (t : T)

/-- The `fetch_add` of `try_enqueue`. -/
def tryEnqueue (node : α) : Option (State T α) :=
  match s.place t with
  | .idle =>
    if s.mCount ≥ 0 then
      some {s with
        mCount := int32 (s.mCount + 1)
        place := Function.update s.place t (.enqueue s.mCount node)}
    else some {s with mCount := int32 (s.mCount + 1)}
  | _ => none

/-- The `fetch_sub` of `try_dequeue`. -/
def tryDequeue : Option (State T α) :=
  match s.place t with
  | .idle =>
    if s.mCount > 0 then
      some {s with mCount := int32 (s.mCount - 1), place := Function.update s.place t .dequeue}
    else some {s with mCount := int32 (s.mCount - 1)}
  | _ => none

/-- The call of `limit_queue` returns `result`. -/
def back (result : Bool) : State T α :=
  match s.place t with
  | .idle => s
  | .enqueue oldCount _ => {s with
      place := Function.update s.place t .idle
      refusals := if result then s.refusals else s.refusals ++ [oldCount]}
  | .dequeue => if result then {s with place := Function.update s.place t .idle} else s

/-- The thread's next step inside `limit_queue`. -/
def step (capacity : BitVec 64) : Option (State T α) :=
  match s.place t, s.limitQueue.pc t with
  | .enqueue _ node, .idle =>
    (FreeLock.call s.limitQueue t (.enqueue node)).map fun q => {s with limitQueue := q}
  | .dequeue, .idle => (FreeLock.call s.limitQueue t .dequeue).map fun q => {s with limitQueue := q}
  | _, pc => (advance capacity s.limitQueue t).map fun q =>
    match q.pc t, pc with
    | .idle, .wake _ _ _ => {s with limitQueue := q}.back t true
    | .idle, _ => {s with limitQueue := q}.back t false
    | _, _ => {s with limitQueue := q}

end State

/-- The self queue of `Graph(parent, parallel, queue_size)`. -/
def selfQueue (parallel size : ℕ) (T α : Type) [DecidableEq T] : System (State T α) (Act T α) where
  start := ⟨FreeLock.start (word (alignSize size)), -parallel, fun _ => .idle, []⟩
  step s a :=
    match a with
    | .tryEnqueue t node => s.tryEnqueue t node
    | .tryDequeue t => s.tryDequeue t
    | .step t => s.step t (word (alignSize size))

/-! ### Calls without a ticket -/

section Looks
variable {α : Type}

/-- Where a thread is in its call, and in that of `limit_queue`. -/
abbrev Look (α : Type) := Place α × View α

def Place.side : Place α → Option Side
  | .idle => none
  | .enqueue _ _ => some .write
  | .dequeue => some .read

/-- A node was admitted, and has no ticket yet. -/
def pushing : Look α → Bool
  | (.enqueue _ _, v) => v.waits
  | _ => false

/-- A node is to be taken, and has no ticket yet. -/
def popping : Look α → Bool
  | (.dequeue, v) => v.waits
  | _ => false

/-- A node was admitted with fewer than `capacity` waiting by the counter. -/
def low (capacity : ℤ) : Look α → Bool
  | (.enqueue oldCount _, v) => decide (oldCount < capacity) && v.waits
  | _ => false

/-- A node admitted with `capacity` or more waiting is on its way to a ticket. -/
def high (capacity : ℤ) : Look α → Bool
  | (.enqueue oldCount _, v) => decide (capacity ≤ oldCount) && v.tests.isSome
  | _ => false

/-- The census of a kind of look. -/
def one (p : Look α → Bool) (x : Look α) : ℤ := if p x then 1 else 0

/-- What one step inside `limit_queue` does to its call. -/
inductive Effect (capacity : BitVec 64) (c : Side → Cursor) :
    Look α → (Side → Cursor) → Look α → List ℤ → Prop where
  | begin {p op} : p.side = some op.side → Effect capacity c (p, .idle) c (p, .bound op) []
  | go {p v c' v'} : Attempt capacity c v c' v' → v' ≠ .idle → Effect capacity c (p, v) c' (p, v') []
  | done {p c'} : Attempt capacity c (.served : View α) c' .idle → p ≠ .idle →
    Effect capacity c (p, .served) c' (.idle, .idle) []
  | retry {v c'} : Attempt capacity c v c' .idle → v ≠ .served →
    Effect capacity c (.dequeue, v) c' (.dequeue, .idle) []
  | refuse {v c' oldCount node} : Attempt capacity c v c' .idle → v ≠ .served →
    Effect capacity c (.enqueue oldCount node, v) c' (.idle, .idle) [oldCount]

/-- A call of `limit_queue` is one of the thread's place. -/
def Agrees (x : Look α) : Prop :=
  (x.1 = .idle → x.2 = .idle) ∧ ∀ side, x.2.side = some side → x.1.side = some side

/-- What a call of `limit_queue.try_enqueue` has loaded is what the counters say. -/
def Fresh (c : Side → Cursor) : View α → Prop
  | .missed _ b => b = (c .read).claimed
  | .ahead _ b m => b = (c .read).claimed ∧ m = (c .write).missed
  | .claim _ m | .retest _ m _ => m = (c .write).missed
  | .miss _ => False
  | _ => True

variable {capacity : BitVec 64} {c c' : Side → Cursor} {x x' : Look α} {refused : List ℤ} {C : ℤ}

theorem agrees_of_attempt {p : Place α} {v v' : View α} (h : Attempt capacity c v c' v')
    (hv : Agrees (p, v)) (hv' : v' ≠ .idle) : Agrees (p, v') := by
  refine ⟨fun hp => ?_, fun side hside => hv.2 side ?_⟩
  · have hidle : v = .idle := hv.1 hp
    subst hidle
    cases h
  · cases h <;> first | exact hside | cases hside

theorem agrees_of_effect (h : Effect capacity c x c' x' refused) (hx : Agrees x) : Agrees x' := by
  cases h with
  | begin hside =>
    refine ⟨fun hp => ?_, fun side hs => hside.trans hs⟩
    cases hp
    cases hside
  | go hattempt hv => exact agrees_of_attempt hattempt hx hv
  | done | retry | refuse => exact ⟨fun _ => rfl, nofun⟩

/-- Of one kind: both pushing or both not, and so on. -/
structure Alike (x x' : Look α) : Prop where
  pushing : pushing x' = pushing x
  popping : popping x' = popping x
  low : ∀ C, low C x' = low C x

theorem alike_of_waits {v v' : View α} (p : Place α) (h : v'.waits = v.waits) :
    Alike (p, v) (p, v') := by
  cases p with
  | idle => exact ⟨rfl, rfl, fun C => rfl⟩
  | enqueue oldCount node => exact ⟨h, rfl, fun C => by simp only [low, h]⟩
  | dequeue => exact ⟨rfl, h, fun C => rfl⟩

theorem alike_of_served (p : Place α) : Alike (p, .served) (.idle, .idle) := by
  cases p with
  | enqueue oldCount node => exact ⟨rfl, rfl, fun C => by simp [low, View.waits]⟩
  | idle | dequeue => exact ⟨rfl, rfl, fun C => rfl⟩

theorem waits_of_ne {v : View α} (h : v ≠ .served) : v.waits = true := by
  cases v with
  | served => exact absurd rfl h
  | _ => rfl

/-- A step leaves its call of the kind it was, or draws its ticket, or refuses its node. -/
theorem kinds_of_effect (h : Effect capacity c x c' x' refused) :
    (Alike x x' ∧ refused = [] ∧ ∀ side, (c' side).claimed = (c side).claimed) ∨
    (∃ p op, x = (p, .ticket op) ∧ x' = (p, .served) ∧ refused = [] ∧
      c' = Function.update c op.side {c op.side with claimed := (c op.side).claimed + 1}) ∨
    ∃ oldCount node v, x = (.enqueue oldCount node, v) ∧ v.waits = true ∧ x' = (.idle, .idle) ∧
      refused = [oldCount] ∧ ∀ side, (c' side).claimed = (c side).claimed := by
  cases h with
  | begin hside => exact .inl ⟨alike_of_waits _ rfl, rfl, fun _ => rfl⟩
  | go hattempt hv =>
    rcases claimed_of_attempt hattempt with ⟨op, rfl, rfl, rfl⟩ | ⟨hwaits, hclaimed⟩
    · exact .inr (.inl ⟨_, op, rfl, rfl, rfl, rfl⟩)
    · refine .inl ⟨alike_of_waits _ ?_, rfl, hclaimed⟩
      rcases hwaits with rfl | hwaits
      · cases hattempt with
        | serve => rfl
        | wake => exact absurd rfl hv
      · exact hwaits
  | done hattempt hp =>
    cases hattempt with
    | wake => exact .inl ⟨alike_of_served _, rfl, fun _ => rfl⟩
  | retry hattempt hv =>
    rcases claimed_of_attempt hattempt with ⟨op, rfl, hne, -⟩ | ⟨-, hclaimed⟩
    · cases hne
    · exact .inl ⟨alike_of_waits _ (waits_of_ne hv).symm, rfl, hclaimed⟩
  | refuse hattempt hv =>
    rcases claimed_of_attempt hattempt with ⟨op, rfl, hne, -⟩ | ⟨-, hclaimed⟩
    · cases hne
    · exact .inr (.inr ⟨_, _, _, rfl, waits_of_ne hv, rfl, rfl, hclaimed⟩)

/-- Counter and tickets stay in balance. -/
theorem balance_of_effect (h : Effect capacity c x c' x' refused) (hx : Agrees x) :
    ((c' .write).claimed : ℤ) - (c' .read).claimed + one pushing x' - one popping x' + refused.length =
      (c .write).claimed - (c .read).claimed + one pushing x - one popping x := by
  rcases kinds_of_effect h with ⟨halike, rfl, hclaimed⟩ | ⟨p, op, rfl, rfl, rfl, rfl⟩ |
    ⟨oldCount, node, v, rfl, hv, rfl, rfl, hclaimed⟩
  · simp only [one, halike.pushing, halike.popping, hclaimed, List.length_nil]
    omega
  · have hside : p.side = some op.side := hx.2 op.side rfl
    cases op <;> cases p <;> cases hside <;>
      simp [one, pushing, popping, View.waits, Op.side, Function.update] <;> omega
  · simp [one, pushing, popping, hv, hclaimed]

/-- A node that takes a ticket unseen by the calls with room is one of a higher call. -/
theorem room_of_effect (h : Effect capacity c x c' x' refused) (hx : Agrees x)
    (hhigh : high C x = false) :
    ((c' .write).claimed : ℤ) - (c' .read).claimed + one (low C) x' - one popping x' ≤
      (c .write).claimed - (c .read).claimed + one (low C) x - one popping x := by
  rcases kinds_of_effect h with ⟨halike, rfl, hclaimed⟩ | ⟨p, op, rfl, rfl, rfl, rfl⟩ |
    ⟨oldCount, node, v, rfl, hv, rfl, rfl, hclaimed⟩
  · simp only [one, halike.low, halike.popping, hclaimed]
    omega
  · have hside : p.side = some op.side := hx.2 op.side rfl
    cases op <;> cases p <;> cases hside
    · simp [one, low, popping, View.waits, Op.side, Function.update]
    · simp only [high, View.tests, Option.isSome_some, Bool.and_true, decide_eq_false_iff_not,
        not_le] at hhigh
      simp [one, low, popping, View.waits, Op.side, Function.update, hhigh]
      omega
  · simp only [one, low, popping, hclaimed, hv, Bool.and_true, decide_eq_true_eq,
      Bool.false_eq_true, if_false]
    split <;> omega

theorem low_of_effect (h : Effect capacity c x c' x' refused) (hlow : low C x' = true) :
    low C x = true := by
  rcases kinds_of_effect h with ⟨halike, -, -⟩ | ⟨p, op, rfl, rfl, -, -⟩ |
    ⟨oldCount, node, v, -, -, rfl, -⟩
  · rw [← halike.low]
    exact hlow
  · cases p <;> simp [low, View.waits] at hlow
  · simp [low] at hlow

theorem low_of_write (hx : Agrees x) (hwrite : x.2.side = some .write) (hhigh : high C x = false) :
    low C x = true := by
  obtain ⟨p, v⟩ := x
  have hside := hx.2 .write hwrite
  cases p with
  | idle | dequeue => cases hside
  | enqueue oldCount node =>
    have htests : v.tests.isSome = true := by
      obtain ⟨op, hop, -⟩ := Option.map_eq_some_iff.mp hwrite
      exact Option.isSome_of_eq_some hop
    have hwaits : v.waits = true := waits_of_ne fun hv => by
      rw [hv] at htests
      cases htests
    simp only [high, htests, Bool.and_true, decide_eq_false_iff_not, not_le] at hhigh
    simp only [low, hhigh, hwaits, decide_true, Bool.and_self]

theorem one_nonneg (p : Look α → Bool) (x : Look α) : 0 ≤ one p x := by
  rw [one]
  split <;> omega

theorem pushing_of_low (h : low C x = true) : pushing x = true := by
  obtain ⟨p, v⟩ := x
  cases p with
  | idle | dequeue => cases h
  | enqueue oldCount node => exact (Bool.and_eq_true_iff.mp h).2

theorem one_low_le (x : Look α) : one (low C) x ≤ one pushing x := by
  cases h : low C x with
  | true => rw [one, one, h, pushing_of_low h]
  | false =>
    rw [one, h]
    exact one_nonneg _ _

theorem fresh_of_untested {v : View α} (h : v.tests = none) : Fresh c v := by
  cases v <;> trivial

/-- Only a dequeue claims a read ticket. -/
theorem read_of_effect (h : Effect capacity c x c' x' refused) (hx : Agrees x)
    (hpop : popping x = false) :
    (c' .read).claimed = (c .read).claimed := by
  rcases kinds_of_effect h with ⟨-, -, hclaimed⟩ | ⟨p, op, rfl, -, -, rfl⟩ |
    ⟨-, -, -, -, -, -, -, hclaimed⟩
  · exact hclaimed .read
  · have hside : p.side = some op.side := hx.2 op.side rfl
    cases op <;> cases p <;> cases hside
    · cases hpop
    · rfl
  · exact hclaimed .read

/-- An enqueue repairs a miss only if it was admitted high, or what it loaded was stale. -/
theorem missed_of_effect (h : Effect capacity c x c' x' refused) (hx : Agrees x)
    (hhigh : high C x = false) (hfresh : low C x = true → Fresh c x.2) :
    (c' .write).missed = (c .write).missed := by
  have hrepair : ∀ op : Op α, x.2 = .miss op → op.side ≠ .write := by
    intro op hop hwrite
    have hside : x.2.side = some .write := by
      simp only [View.side, hop, View.tests, Option.map_some, hwrite]
    have hlow := low_of_write hx hside hhigh
    have hmiss := hfresh hlow
    rw [hop] at hmiss
    exact hmiss
  cases h with
  | begin => rfl
  | go hattempt | done hattempt | retry hattempt | refuse hattempt =>
    exact missed_of_attempt hattempt .write hrepair

theorem fresh_congr {v : View α} (hread : (c' .read).claimed = (c .read).claimed)
    (hmissed : (c' .write).missed = (c .write).missed) (h : Fresh c v) : Fresh c' v := by
  cases v <;> simp only [Fresh, hread, hmissed] at h ⊢ <;> exact h

/-- A call with room keeps to fresh loads as long as its second test passes. -/
theorem fresh_of_effect (h : Effect capacity c x c' x' refused) (hx : Agrees x)
    (hlow : low C x = true) (hfresh : Fresh c x.2)
    (hpass : ∀ op m a, x.2 = .retest op m a →
      FreeLock.refused capacity op a m (c op.side.other).claimed = false) :
    Fresh c' x'.2 := by
  cases h with
  | begin | done | retry | refuse => trivial
  | @go p v c' v' hattempt hv =>
    have hwrite : p.side = some .write := by
      cases p with
      | enqueue oldCount node => rfl
      | idle | dequeue => cases hlow
    have hside : ∀ op : Op α, v.tests = some op → op.side = .write := by
      intro op hop
      have hplace := hx.2 op.side (by simp only [View.side, hop, Option.map_some])
      exact Option.some.inj (hplace.symm.trans hwrite)
    cases hattempt with
    | @bound op =>
      simp only [Fresh, hside op rfl, Side.other]
    | @missed op b =>
      simp only [Fresh, hside op rfl] at hfresh ⊢
      exact ⟨hfresh, trivial⟩
    | pass hr => exact hfresh.2
    | @claim op m =>
      simp only [Fresh, hside op rfl, Function.update_self] at hfresh ⊢
      exact hfresh
    | @fail op m a hr => rw [hpass op m a rfl] at hr; cases hr
    | miss => exact hfresh.elim
    | refuse | hold | draw | serve | wake => trivial

/-- A node is refused with a full count only, as long as the tests with room pass. -/
theorem refused_of_effect (h : Effect capacity c x c' x' refused)
    (hfresh : low C x = true → Fresh c x.2)
    (hpass : ∀ op b m, low C x = true → x.2 = .ahead op b m →
      FreeLock.refused capacity op (c op.side).ahead m b = false) : ∀ n ∈ refused, C ≤ n := by
  intro n hn
  cases h with
  | begin | go | done | retry => cases hn
  | @refuse v c' oldCount node hattempt hv =>
    rw [List.mem_singleton] at hn
    subst hn
    by_contra hlt
    have hlow : low C (.enqueue n node, v) = true := by
      simp only [low, waits_of_ne hv, not_le.mp hlt, decide_true, Bool.and_self]
    cases hattempt with
    | @refuse op b m hr => rw [hpass op b m hlow rfl] at hr; cases hr
    | miss => exact hfresh hlow
    | wake => exact hv rfl

end Looks

variable {s s' : State T α} {t : T} {capacity : BitVec 64}

def State.look (s : State T α) (t : T) : Look α := (s.place t, (s.limitQueue.pc t).view)

/-- Only the look of the thread itself changes. -/
theorem look_eq {q : FreeLock.State T α} {p : Place α} (pc : Pc α)
    (hne : ∀ t', t' ≠ t → (q.pc t').view = (s.limitQueue.pc t').view) (hpc : q.pc t = pc)
    (hlook : s'.limitQueue = q) (hplace : s'.place = Function.update s.place t p) :
    s'.look = Function.update s.look t (p, pc.view) := by
  funext t'
  by_cases ht : t' = t
  · subst ht
    simp only [State.look, hlook, hplace, hpc, Function.update_self]
  · simp only [State.look, hlook, hplace, Function.update_of_ne ht, hne t' ht]

theorem effect_of_call {op : Op α} {q : FreeLock.State T α}
    (hcall : FreeLock.call s.limitQueue t op = some q) (hplace : (s.place t).side = some op.side)
    (hpc : s.limitQueue.pc t = .idle) :
    ∃ x, Effect capacity s.limitQueue.cursor (s.look t) q.cursor x [] ∧
      ({s with limitQueue := q} : State T α).look = Function.update s.look t x := by
  simp only [FreeLock.call, hpc, Option.some.injEq] at hcall
  subst hcall
  refine ⟨(s.place t, .bound op), ?_, ?_⟩
  · rw [show s.look t = (s.place t, .idle) by rw [State.look, hpc]; rfl]
    exact .begin hplace
  · exact look_eq (.bound op)
      (fun t' ht => by simp [FreeLock.State.setPc, Function.update_of_ne ht])
      (by simp [FreeLock.State.setPc]) rfl (Function.update_eq_self ..).symm

/-- Every step inside `limit_queue` has its effect on the look of its thread. -/
theorem effect_of_step (h : s.step t capacity = some s')
    (hidle : s.place t = .idle → s.limitQueue.pc t = .idle) :
    ∃ x refused, Effect capacity s.limitQueue.cursor (s.look t) s'.limitQueue.cursor x refused ∧
      s'.look = Function.update s.look t x ∧ s'.refusals = s.refusals ++ refused ∧
      s'.mCount = s.mCount := by
  unfold State.step at h
  split at h
  · next node hplace hpc =>
    obtain ⟨q, hq, rfl⟩ := Option.map_eq_some_iff.mp h
    obtain ⟨x, heff, hlook⟩ := effect_of_call hq (by rw [hplace]; rfl) hpc
    exact ⟨x, [], heff, hlook, (List.append_nil _).symm, rfl⟩
  · next hplace hpc =>
    obtain ⟨q, hq, rfl⟩ := Option.map_eq_some_iff.mp h
    obtain ⟨x, heff, hlook⟩ := effect_of_call hq (by rw [hplace]; rfl) hpc
    exact ⟨x, [], heff, hlook, (List.append_nil _).symm, rfl⟩
  · next hnotEnqueue hnotDequeue =>
    obtain ⟨q, hq, h⟩ := Option.map_eq_some_iff.mp h
    have hattempt := attempt_of_advance hq
    have hne := fun t' (ht : t' ≠ t) => view_of_ne hq ht
    have hplace : s.place t ≠ .idle := fun hp => by simp [advance, hidle hp] at hq
    split at h
    · next side n item hpc' hpc =>
      have hlook : s.look t = (s.place t, .served) := by rw [State.look, hpc]; rfl
      refine ⟨(.idle, .idle), [], ?_⟩
      rw [hlook]
      cases hp : s.place t with
      | idle => exact absurd hp hplace
      | enqueue oldCount node | dequeue =>
        simp only [State.back, hp, if_true] at h
        subst h
        rw [hpc, hpc'] at hattempt
        exact ⟨.done hattempt (by simp), look_eq .idle hne hpc' rfl rfl,
          (List.append_nil _).symm, rfl⟩
    · next hpc' hnotWake =>
      have hview : (s.limitQueue.pc t).view ≠ .served := by
        intro hv
        obtain ⟨side, n, x, hw⟩ := wake_of_returned hq hv hpc'
        exact hnotWake side n x hw
      rw [hpc'] at hattempt
      rw [State.look]
      cases hp : s.place t with
      | idle => exact absurd hp hplace
      | enqueue oldCount node =>
        simp only [State.back, hp, Bool.false_eq_true, if_false] at h
        subst h
        exact ⟨(.idle, .idle), [oldCount], .refuse hattempt hview,
          look_eq .idle hne hpc' rfl rfl, rfl, rfl⟩
      | dequeue =>
        simp only [State.back, hp, Bool.false_eq_true, if_false] at h
        subst h
        exact ⟨(.dequeue, .idle), [], .retry hattempt hview,
          look_eq .idle hne hpc' rfl (by rw [← hp, Function.update_eq_self]),
          (List.append_nil _).symm, rfl⟩
    · next hpc' _ =>
      subst h
      exact ⟨(s.place t, (q.pc t).view), [], .go hattempt fun hv => hpc' (view_eq_idle hv),
        look_eq _ hne rfl rfl (Function.update_eq_self ..).symm, (List.append_nil _).symm, rfl⟩

theorem back_limitQueue (result : Bool) : (s.back t result).limitQueue = s.limitQueue := by
  unfold State.back
  split
  · rfl
  · rfl
  · split <;> rfl

theorem limitQueue_of_tryEnqueue {node : α} (h : s.tryEnqueue t node = some s') :
    s'.limitQueue = s.limitQueue := by
  unfold State.tryEnqueue at h
  split at h
  · split at h <;> cases h <;> rfl
  · cases h

theorem limitQueue_of_tryDequeue (h : s.tryDequeue t = some s') : s'.limitQueue = s.limitQueue := by
  unfold State.tryDequeue at h
  split at h
  · split at h <;> cases h <;> rfl
  · cases h

/-- It is a step of the ring. -/
theorem limitQueue_of_step (h : s.step t capacity = some s') :
    ∃ a, (queue capacity T α).step s.limitQueue a = some s'.limitQueue := by
  unfold State.step at h
  split at h
  · next node hplace hpc =>
    obtain ⟨q, hq, rfl⟩ := Option.map_eq_some_iff.mp h
    exact ⟨.call t (.enqueue node), hq⟩
  · next hplace hpc =>
    obtain ⟨q, hq, rfl⟩ := Option.map_eq_some_iff.mp h
    exact ⟨.call t .dequeue, hq⟩
  · obtain ⟨q, hq, h⟩ := Option.map_eq_some_iff.mp h
    refine ⟨.step t, ?_⟩
    split at h <;> subst h
    · rw [back_limitQueue]; exact hq
    · rw [back_limitQueue]; exact hq
    · exact hq

/-! ### Runs -/

variable [Fintype T] {C : ℕ}

/-- No dequeue is between its `fetch_sub` and its ticket while a call with room tests, and no
call without room tests while one with room has no ticket. -/
def Apart (C : ℤ) (s : State T α) : Prop :=
  (∀ t t', low C (s.look t) = true → (s.look t).2.tests.isSome = true → popping (s.look t') = false) ∧
  ∀ t t', low C (s.look t) = true → high C (s.look t') = false

instance (C : ℤ) (s : State T α) : Decidable (Apart C s) := inferInstanceAs (Decidable (_ ∧ _))

/-- A step of a run whose calls keep apart and whose counters do not wrap. -/
def Calm (C : ℤ) (s s' : State T α) : Prop :=
  Apart C s ∧ s.mCount < 2 ^ 31 - 1 ∧ Bounded s'.limitQueue

instance [DecidableEq α] (C : ℤ) (s s' : State T α) : Decidable (Calm C s s') :=
  inferInstanceAs (Decidable (_ ∧ _))

/-- What is known of the ring in such a run. -/
structure Ruled (C : ℕ) (q : FreeLock.State T α) : Prop where
  bounded : Bounded q
  admission : Admission C q
  tallied : Tallied q

structure Kept (C : ℤ) (s : State T α) : Prop where
  agrees : ∀ t, Agrees (s.look t)
  /-- The nodes in the ring and on their way in or out are those that the counter shows. -/
  balance : ((s.limitQueue.cursor .write).claimed : ℤ) - (s.limitQueue.cursor .read).claimed +
    census (one pushing) s.look - census (one popping) s.look + s.refusals.length ≤ max 0 s.mCount
  /-- There is room for every node admitted with room. -/
  room : ∀ t, low C (s.look t) = true →
    ((s.limitQueue.cursor .write).claimed : ℤ) - (s.limitQueue.cursor .read).claimed +
      census (one (low C)) s.look - census (one popping) s.look ≤ C
  fresh : ∀ t, low C (s.look t) = true → Fresh s.limitQueue.cursor (s.look t).2
  refusals : ∀ n ∈ s.refusals, C ≤ n

omit [DecidableEq T] in
/-- The attempts of enqueues are all of calls with room. -/
theorem attempts_sub (hagrees : ∀ t, Agrees (s.look t)) {attempts : Finset T}
    (hway : UnderWay s.limitQueue .write attempts) (hhigh : ∀ t, high C (s.look t) = false) :
    attempts ⊆ Finset.univ.filter fun t => low C (s.look t) = true := by
  intro t ht
  obtain ⟨hattempt, hside⟩ := (hway t).mp ht
  rw [side_of_attempt hattempt] at hside
  exact Finset.mem_filter.mpr ⟨Finset.mem_univ t, low_of_write (hagrees t) hside (hhigh t)⟩

omit [DecidableEq T] in
theorem write_of_low (h : Kept C s) (hlow : low C (s.look t) = true) {op : Op α}
    (hop : (s.look t).2.tests = some op) : op.side = .write := by
  have hside := (h.agrees t).2 op.side (by simp only [View.side, hop, Option.map_some])
  cases hp : (s.look t).1 with
  | enqueue oldCount node =>
    rw [hp] at hside
    exact (Option.some.inj hside).symm
  | idle | dequeue =>
    rw [← Prod.mk.eta (p := s.look t), hp] at hlow
    cases hlow

/-- There is a free slot for every attempt, and one more for a call before its attempt. -/
theorem ahead_of_low (h : Kept C s) (hapart : Apart C s) (htally : Tallied s.limitQueue)
    (hlow : low C (s.look t) = true) (htests : (s.look t).2.tests.isSome = true) :
    (s.limitQueue.cursor .write).ahead + (if (s.limitQueue.pc t).attempt = none then 1 else 0) ≤
      (s.limitQueue.cursor .write).missed + ((s.limitQueue.cursor .read).claimed + C) := by
  obtain ⟨attempts, hway, hcount⟩ := htally .write
  have hroom := h.room t hlow
  have hpop : census (one popping) s.look = 0 :=
    census_eq_zero fun t' => by simp [one, hapart.1 t t' hlow htests]
  have hcard : census (one (low C)) s.look =
      ((Finset.univ.filter fun t => low C (s.look t) = true).card : ℤ) :=
    census_ite (fun x => low C x = true) s.look
  have hsub := attempts_sub h.agrees hway fun t' => hapart.2 t t' hlow
  split
  · next hnone =>
    have hmem : t ∉ attempts := fun hm => ((hway t).mp hm).1 hnone
    have hle := Finset.card_le_card (Finset.insert_subset
      (Finset.mem_filter.mpr ⟨Finset.mem_univ t, hlow⟩) hsub)
    rw [Finset.card_insert_of_notMem hmem] at hle
    omega
  · have hle := Finset.card_le_card hsub
    omega

/-- A call with room passes its first test. -/
theorem ahead_passes (h : Kept C s) (hapart : Apart C s) (hq : Ruled C s.limitQueue)
    (hcap : C ≤ 2 ^ 63) (hlow : low C (s.look t) = true) {op : Op α} {b m : ℕ}
    (hview : (s.look t).2 = .ahead op b m) :
    refused (word C) op (s.limitQueue.cursor op.side).ahead m b = false := by
  have hpc : s.limitQueue.pc t = .ahead op b m := view_eq_ahead hview
  have hside : op.side = .write := write_of_low h hlow (by rw [hview]; rfl)
  have hfresh := h.fresh t hlow
  rw [hview] at hfresh
  obtain ⟨hread, hmissed⟩ := hfresh
  have hahead := ahead_of_low h hapart hq.tallied hlow (by rw [hview]; rfl)
  rw [if_pos (by rw [hpc]; rfl)] at hahead
  rw [← Bool.not_eq_true,
    hq.admission.ahead_refused_iff hq.bounded hcap hpc (by rw [hside]; exact hread), hside]
  simp only [limit]
  omega

/-- A call with room passes its second test. -/
theorem retest_passes (h : Kept C s) (hapart : Apart C s) (hq : Ruled C s.limitQueue)
    (hcap : C ≤ 2 ^ 63) (hlow : low C (s.look t) = true) {op : Op α} {m a : ℕ}
    (hview : (s.look t).2 = .retest op m a) :
    refused (word C) op a m (s.limitQueue.cursor op.side.other).claimed = false := by
  have hpc : s.limitQueue.pc t = .retest op m a := view_eq_retest hview
  have hside : op.side = .write := write_of_low h hlow (by rw [hview]; rfl)
  have hfresh := h.fresh t hlow
  rw [hview] at hfresh
  have hmissed : m = (s.limitQueue.cursor .write).missed := hfresh
  have hahead := ahead_of_low h hapart hq.tallied hlow (by rw [hview]; rfl)
  obtain ⟨L, hL⟩ := hq.admission .write
  have hlt := hL.attempt_lt (t := t) (a := a) (by rw [hpc]; exact congrArg some hside)
    (by rw [hpc]; rfl)
  rw [← Bool.not_eq_true, hq.admission.refused_iff hq.bounded hcap hpc, hside]
  simp only [limit]
  omega

namespace Kept

theorem start (parallel size : ℕ) : Kept C (selfQueue parallel size T α).start where
  agrees _ := ⟨fun _ => rfl, nofun⟩
  balance := by
    have hpush : census (one pushing) (selfQueue parallel size T α).start.look = 0 :=
      census_eq_zero fun _ => rfl
    have hpop : census (one popping) (selfQueue parallel size T α).start.look = 0 :=
      census_eq_zero fun _ => rfl
    rw [hpush, hpop]
    simp [selfQueue, FreeLock.start]
  room t hlow := by cases hlow
  fresh t hlow := by cases hlow
  refusals n hn := by cases hn

omit [Fintype T] in
/-- A thread enters a function of the self queue. -/
theorem look_of_enter {p : Place α} (hview : (s.limitQueue.pc t).view = .idle)
    (hqueue : s'.limitQueue = s.limitQueue) (hplace : s'.place = Function.update s.place t p) :
    s'.look = Function.update s.look t (p, .idle) := by
  rw [look_eq (s.limitQueue.pc t) (fun _ _ => rfl) rfl hqueue hplace, hview]

/-- A thread enters a function of the self queue, or passes by it. -/
theorem enter (h : Kept C s) {p : Place α} (hplace : s.place t = .idle)
    (hqueue : s'.limitQueue = s.limitQueue) (hplace' : s'.place = Function.update s.place t p)
    (hrefusals : s'.refusals = s.refusals)
    (hcount : max 0 s.mCount + one pushing (p, .idle) - one popping (p, .idle) ≤ max 0 s'.mCount)
    (hroom : low C (p, .idle) = true → s'.mCount ≤ C) : Kept C s' := by
  have hview : (s.limitQueue.pc t).view = .idle := (h.agrees t).1 hplace
  have hlook := look_of_enter hview hqueue hplace'
  have hbefore : s.look t = (.idle, .idle) := Prod.ext hplace hview
  have hcensus := fun f => census_update (one f) s.look t (p, .idle)
  have hbalance : ((s'.limitQueue.cursor .write).claimed : ℤ) - (s'.limitQueue.cursor .read).claimed +
      census (one pushing) s'.look - census (one popping) s'.look + s'.refusals.length ≤
        max 0 s'.mCount := by
    have hold := h.balance
    have hpush : one pushing (s.look t) = 0 := by rw [hbefore]; rfl
    have hpop : one popping (s.look t) = 0 := by rw [hbefore]; rfl
    rw [hqueue, hlook, hcensus, hcensus, hrefusals]
    omega
  refine ⟨fun t' => ?_, hbalance, fun t' hlow => ?_, fun t' hlow => ?_, hrefusals ▸ h.refusals⟩
  · rw [hlook]
    by_cases ht : t' = t
    · rw [ht, Function.update_self]
      exact ⟨fun _ => rfl, nofun⟩
    · rw [Function.update_of_ne ht]
      exact h.agrees t'
  · cases hnew : low C (p, .idle) with
    | true =>
      have hle : census (one (low C)) s'.look ≤ census (one pushing) s'.look :=
        census_mono fun t' => one_low_le _
      have hC := hroom hnew
      omega
    | false =>
      have ht : t' ≠ t := by
        rintro rfl
        rw [hlook, Function.update_self, hnew] at hlow
        cases hlow
      rw [hlook, Function.update_of_ne ht] at hlow
      have hold := h.room t' hlow
      have hpop : one popping (s.look t) = 0 := by rw [hbefore]; rfl
      have hlow : one (low C) (s.look t) = 0 := by rw [hbefore]; rfl
      have hnew : one (low C) (p, .idle) = 0 := by rw [one, hnew]; rfl
      have hpos := one_nonneg popping (p, View.idle)
      rw [hqueue, hlook, hcensus, hcensus]
      omega
  · rw [hqueue, hlook]
    by_cases ht : t' = t
    · rw [ht, Function.update_self]
      trivial
    · rw [hlook, Function.update_of_ne ht] at hlow
      rw [Function.update_of_ne ht]
      exact h.fresh t' hlow

theorem tryEnqueue {node : α} (h : Kept C s) (hcount : s.mCount < 2 ^ 31 - 1)
    (hs : s.tryEnqueue t node = some s') : Kept C s' := by
  unfold State.tryEnqueue at hs
  split at hs
  · next hplace =>
    split at hs <;> cases hs
    · next hpos =>
      have hint : int32 (s.mCount + 1) = s.mCount + 1 := int32_eq (by omega) (by omega)
      refine h.enter hplace rfl rfl rfl ?_ fun hlow => ?_
      · simp only [hint, one, pushing, popping, View.waits, if_true, Bool.false_eq_true, if_false]
        omega
      · simp only [low, View.waits, Bool.and_true, decide_eq_true_eq] at hlow
        simp only [hint]
        omega
    · next hneg =>
      refine h.enter (p := .idle) hplace rfl (by rw [← hplace, Function.update_eq_self]) rfl ?_
        (fun hlow => by cases hlow)
      simp only [one, pushing, popping, Bool.false_eq_true, if_false]
      omega
  · cases hs

theorem tryDequeue (h : Kept C s) (hcount : s.mCount < 2 ^ 31 - 1) (hs : s.tryDequeue t = some s') :
    Kept C s' := by
  unfold State.tryDequeue at hs
  split at hs
  · next hplace =>
    split at hs <;> cases hs
    · next hpos =>
      have hint : int32 (s.mCount - 1) = s.mCount - 1 := int32_eq (by omega) (by omega)
      refine h.enter hplace rfl rfl rfl ?_ nofun
      simp only [hint, one, pushing, popping, View.waits, if_true, Bool.false_eq_true, if_false]
      omega
    · next hneg =>
      refine h.enter (p := .idle) hplace rfl (by rw [← hplace, Function.update_eq_self]) rfl ?_
        (fun hlow => by cases hlow)
      simp only [one, pushing, popping, Bool.false_eq_true, if_false]
      omega
  · cases hs

/-- A step inside `limit_queue` refuses no node with room. -/
theorem step (h : Kept C s) (hapart : Apart C s) (hq : Ruled C s.limitQueue) (hcap : C ≤ 2 ^ 63)
    (hs : s.step t (word C) = some s') : Kept C s' := by
  obtain ⟨x, refused, heff, hlook, hrefusals, hcount⟩ :=
    effect_of_step hs fun hp => view_eq_idle ((h.agrees t).1 hp)
  have hcensus := fun p => census_update (one p) s.look t x
  have hx := h.agrees t
  have hlow_of : ∀ t', low C (s'.look t') = true → low C (s.look t') = true := by
    intro t' hlow
    rw [hlook] at hlow
    by_cases ht : t' = t
    · subst ht
      rw [Function.update_self] at hlow
      exact low_of_effect heff hlow
    · rw [Function.update_of_ne ht] at hlow
      exact hlow
  refine ⟨fun t' => ?_, ?_, fun t' hlow => ?_, fun t' hlow => ?_, fun n hn => ?_⟩
  · rw [hlook]
    by_cases ht : t' = t
    · rw [ht, Function.update_self]
      exact agrees_of_effect heff hx
    · rw [Function.update_of_ne ht]
      exact h.agrees t'
  · have hbalance := balance_of_effect heff hx
    have hold := h.balance
    rw [hlook, hcensus, hcensus, hcount, hrefusals, List.length_append]
    omega
  · have hroom := room_of_effect heff hx (hapart.2 t' t (hlow_of t' hlow))
    have hold := h.room t' (hlow_of t' hlow)
    rw [hlook, hcensus, hcensus]
    omega
  · have hlow := hlow_of t' hlow
    by_cases ht : t' = t
    · subst ht
      rw [hlook, Function.update_self]
      exact fresh_of_effect heff hx hlow (h.fresh t' hlow) fun op m a hview =>
        retest_passes h hapart hq hcap hlow hview
    · have hfresh := h.fresh t' hlow
      rw [hlook, Function.update_of_ne ht]
      cases htests : (s.look t').2.tests.isSome with
      | true =>
        exact fresh_congr (read_of_effect heff hx (hapart.1 t' t hlow htests))
          (missed_of_effect heff hx (hapart.2 t' t hlow) (h.fresh t)) hfresh
      | false =>
        exact fresh_of_untested (Option.isNone_iff_eq_none.mp (Option.isSome_eq_false_iff.mp htests))
  · rw [hrefusals] at hn
    rcases List.mem_append.mp hn with hn | hn
    · exact h.refusals n hn
    · exact refused_of_effect heff (h.fresh t)
        (fun op b m hlow hview => ahead_passes h hapart hq hcap hlow hview) n hn

end Kept

variable {size : ℕ}

/-- What holds along a run whose calls keep apart. -/
theorem kept_of_calm (parallel : ℕ) (hsize : 2 ≤ size) (hsize' : size < 2 ^ 15)
    (h : (selfQueue parallel size T α).ReachedBy (fun s _ s' => Calm (alignSize size) s s') s) :
    Kept (alignSize size) s ∧
      (limitQueue size T α).ReachedBy (fun _ _ s' => Bounded s') s.limitQueue := by
  obtain ⟨k, hk, hk', hpow⟩ := alignSize_pow hsize hsize'
  refine h.induct (I := fun s => Kept (alignSize size) s ∧
    (limitQueue size T α).ReachedBy (fun _ _ s' => Bounded s') s.limitQueue)
    ⟨.start parallel size, .start⟩ ?_
  rintro s a s' - ⟨hkept, hring⟩ hs ⟨hapart, hcount, hb⟩
  cases a with
  | tryEnqueue t node =>
    have hqueue : s'.limitQueue = s.limitQueue := limitQueue_of_tryEnqueue hs
    exact ⟨hkept.tryEnqueue hcount hs, hqueue ▸ hring⟩
  | tryDequeue t =>
    have hqueue : s'.limitQueue = s.limitQueue := limitQueue_of_tryDequeue hs
    exact ⟨hkept.tryDequeue hcount hs, hqueue ▸ hring⟩
  | step t =>
    obtain ⟨b, hstep⟩ := limitQueue_of_step hs
    refine ⟨?_, .step hring hstep hb⟩
    rw [limitQueue, hpow] at hring
    obtain ⟨hbounded, hadm, -, -⟩ := bounded_invariant hk (by omega) hring
    have hq : Ruled (alignSize size) s.limitQueue :=
      ⟨hbounded, hpow ▸ hadm, tallied_of_reached hring.reached⟩
    have hcap : 2 ^ k ≤ 2 ^ 63 := Nat.pow_le_pow_right (by decide) (by omega)
    exact hkept.step hapart hq (by omega) hs

/-- **A node is refused only when as many nodes as the ring holds were waiting by the counter**,
in a run whose calls keep apart. -/
theorem full_of_refused (parallel : ℕ) (hsize : 2 ≤ size) (hsize' : size < 2 ^ 15)
    (h : (selfQueue parallel size T α).ReachedBy (fun s _ s' => Calm (alignSize size) s s') s) :
    ∀ oldCount ∈ s.refusals, (alignSize size : ℤ) ≤ oldCount :=
  (kept_of_calm parallel hsize hsize' h).1.refusals

omit [DecidableEq T] [Fintype T] in
/-- The thread admits a node and puts it into the ring. -/
def push (t : T) (node : α) : List (Act T α) := .tryEnqueue t node :: List.replicate 11 (.step t)

theorem full_of_third : ∃ s : State Unit ℕ, s.refusals = [2] ∧
    ∀ oldCount ∈ s.refusals, (alignSize 2 : ℤ) ≤ oldCount := by
  obtain ⟨s, hreach, hrefusals⟩ := System.exists_reachedBy (selfQueue 0 2 Unit ℕ)
    (fun s _ s' => Calm (alignSize 2) s s')
    (push () 7 ++ push () 8 ++ .tryEnqueue () 9 :: List.replicate 4 (.step ()))
    (fun s => s.refusals = [2]) (by decide)
  exact ⟨s, hrefusals, full_of_refused 0 le_rfl (by decide) hreach⟩

/-- A dequeue has left the count and not yet the ring, and a node that the count has room for is
refused. -/
theorem refused_of_overlap : ¬ ∀ parallel size, 2 ≤ size → size < 2 ^ 15 → ∀ s : State (Fin 2) ℕ,
    (selfQueue parallel size (Fin 2) ℕ).Reached s →
    ∀ oldCount ∈ s.refusals, (alignSize size : ℤ) ≤ oldCount := by
  intro h
  obtain ⟨s, hreach, hrefusals⟩ := System.exists_reachedBy (selfQueue 0 2 (Fin 2) ℕ) (fun _ _ _ => True)
    (push 0 7 ++ push 0 8 ++ .tryDequeue 1 :: .tryEnqueue 0 9 :: List.replicate 4 (.step 0))
    (fun s => s.refusals = [1]) (by decide)
  have hfull := h 0 2 le_rfl (by decide) s hreach 1 (by rw [hrefusals]; exact List.mem_singleton_self 1)
  exact absurd hfull (by decide)

end QuietFlow.SelfQueue.Contended
