import Mathlib
import QuietFlow.Graph.Steps
import QuietFlow.Queue.Task

/-! Admissions that are refused: `Graph::ready` and `Graph::finish`, one call at a time.

`try_enqueue` raises `m_count` and then asks the `LimitQueue`; when that is full the
assertion throws and `m_count` stays raised. The calls are programs that keep what they
have done when they throw. `m_count` is an `int32_t` and wraps; the `LimitQueue` is a
bounded list. Between two calls the rest of the program may change everything else. -/

set_option mvcgen.warning false

namespace QuietFlow.SelfQueue
open Std.Do Runs Engine TaskQueue

/-- Why a call does not return: a `QuietFlowAssert` throws, or the loop of `try_dequeue`
finds the queue empty forever. -/
inductive Fault where
  | thrown
  | endless
  deriving DecidableEq

/-- What else the calls read and write. -/
structure Rest (N G : Type) where
  /-- `inner_schedule` is set and `Running`. -/
  scheduleRunning : Bool
  status : N → RunningStatus
  waitCount : N → ℤ
  graphWaitCount : G → ℤ
  graphDownStreams : G → List N
  /-- The task queue of the schedule. -/
  pool : List N

structure State (N G : Type) where
  mCount : G → ℤ
  limitQueue : G → List N
  rest : Rest N G

abbrev Code (N G : Type) := ExceptT Fault (StateM (State N G))

variable {N G : Type}

section Code
variable [DecidableEq N] [DecidableEq G]

/-- `sub_wait_count` of some nodes, and those that it returns 1 for. -/
def subWaitCounts : (N → ℤ) → List N → (N → ℤ) × List N
  | waitCount, [] => (waitCount, [])
  | waitCount, d :: list =>
    let after := subWaitCounts (Function.update waitCount d (waitCount d - 1)) list
    (after.1, (if waitCount d = 1 then [d] else []) ++ after.2)

/-- The part of `Graph::finish` before the test of `limit_graph`. -/
def Rest.countDown (r : Rest N G) (g : G) : Rest N G × List N :=
  let r' := {r with graphWaitCount := Function.update r.graphWaitCount g (r.graphWaitCount g - 1)}
  if r.graphWaitCount g = 1 then
    let after := subWaitCounts r.waitCount (r.graphDownStreams g)
    ({r' with waitCount := after.1}, after.2)
  else (r', [])

/-! ### Calls -/

/-- `SelfQueue::try_enqueue`. -/
def tryEnqueue (g : G) (l : Limit) (n : N) : Code N G Bool := do
  let oldCount := (← get).mCount g
  modify fun s => {s with mCount := Function.update s.mCount g (int32 (oldCount + 1))}
  if oldCount ≥ 0 then
    if ((← get).limitQueue g).length < alignSize l.queueSize then
      modify fun s => {s with limitQueue := Function.update s.limitQueue g (s.limitQueue g ++ [n])}
      return true
    else throw .thrown
  else return false

/-- `SelfQueue::try_dequeue`. -/
def tryDequeue (g : G) : Code N G (Option N) := do
  let oldCount := (← get).mCount g
  modify fun s => {s with mCount := Function.update s.mCount g (int32 (oldCount - 1))}
  if oldCount > 0 then
    match (← get).limitQueue g with
    | [] => throw .endless
    | n :: queue =>
      modify fun s => {s with limitQueue := Function.update s.limitQueue g queue}
      return some n
  else return none

def addNewTask (n : N) : Code N G Unit := do
  let r := (← get).rest
  if r.scheduleRunning ∧ r.status n = .initing then
    modify fun s => {s with rest := {r with pool := r.pool ++ [n]}}
  else throw .thrown

section Layout
variable (L : Layout N G)

def ready (g : G) (n : N) : Code N G Unit := do
  match L.limit g with
  | none => addNewTask n
  | some l => if ← tryEnqueue g l n then return else addNewTask n

def readyAll : List N → Code N G Unit
  | [] => return
  | n :: rest => do
    ready L (L.graphOf n) n
    readyAll rest

/-- `Graph::finish`, from the test of `limit_graph` on. -/
def dispatch (g : G) : List N → Code N G (Option N)
  | [] =>
    match L.limit g with
    | none => return none
    | some _ => tryDequeue g
  | temp :: rest =>
    match L.limit g with
    | none =>
      match pick (fun n => !L.limited (L.graphOf n)) rest with
      | (some next, others) => do
        readyAll L (others ++ [temp])
        return some next
      | (none, others) => do
        readyAll L others
        match L.limit (L.graphOf temp) with
        | none => return some temp
        | some l => if ← tryEnqueue (L.graphOf temp) l temp then return none else return some temp
    | some _ =>
      match pick (fun n => L.graphOf n = g) rest with
      | (some next, others) => do
        readyAll L (others ++ [temp])
        return some next
      | (none, others) => do
        readyAll L others
        if L.graphOf temp = g then return some temp
        else
          match ← tryDequeue g with
          | none => return some temp
          | some next =>
            ready L (L.graphOf temp) temp
            return some next

def finish (g : G) (notifiedNodes : List N) : Code N G (Option N) := do
  let after := (← get).rest.countDown g
  modify fun s => {s with rest := after.1}
  dispatch L g (notifiedNodes ++ after.2)

inductive Call (N G : Type) where
  | ready (g : G) (n : N)
  | finish (g : G) (notifiedNodes : List N)
  /-- What else happens in the program. -/
  | other (rest : Rest N G)

/-- A call on its own, and the state it leaves. -/
def result (s : State N G) : Call N G → Except Fault Unit × State N G
  | .ready g n => (ready L g n).run.run s
  | .finish g notifiedNodes =>
    let after := (finish L g notifiedNodes).run.run s
    (after.1.map fun _ => (), after.2)
  | .other rest => (.ok (), {s with rest})

def start (rest : Rest N G) : State N G where
  mCount g := match L.limit g with
    | none => 0
    | some l => -l.parallel
  limitQueue _ := []
  rest := rest

/-- The calls one after the other; none comes after one that never returns. -/
def system (rest : Rest N G) : System (State N G) (Call N G) where
  start := start L rest
  step s c :=
    match result L s c with
    | (.error .endless, _) => none
    | (_, s') => some s'

end Layout
end Code

/-! ### Counters and queues -/

section Counts
variable [DecidableEq N] [DecidableEq G] (L : Layout N G)

/-- The counter of each limited graph counts its queue. -/
def Matched (s : State N G) : Prop := ∀ g l, L.limit g = some l →
  -2 ^ 31 ≤ s.mCount g ∧ s.mCount g ≤ alignSize l.queueSize ∧
    (s.limitQueue g).length = (s.mCount g).toNat

/-- There are `asked g` places for each limited graph `g`. -/
def Fits (asked : G → ℕ) (s : State N G) : Prop := ∀ g l, L.limit g = some l →
  s.mCount g + asked g ≤ alignSize l.queueSize

/-- Before a part of a call: `room` says that the call has found enough of it, `known` what is
known of the counters, and `asked` how many places are still to be asked for. -/
def Before (room : Prop) (known : (G → ℤ) → Prop) (asked : G → ℕ) (s : State N G) : Prop :=
  Matched L s ∧ known s.mCount ∧ (room → Fits L asked s)

/-- How many of the nodes belong to each graph. -/
def countOf (ns : List N) (g : G) : ℕ := (ns.map L.graphOf).count g

/-- The nodes that `dispatch` passes to `ready` or to `try_enqueue`, if none of these calls
throws and `m_count` of `g` is `count`. -/
def passes (count : ℤ) (g : G) : List N → List N
  | [] => []
  | temp :: rest =>
    if L.limited g then
      match pick (fun n => L.graphOf n = g) rest with
      | (some _, others) => others ++ [temp]
      | (none, others) => if L.graphOf temp ≠ g ∧ 0 < count then others ++ [temp] else others
    else (pick (fun n => !L.limited (L.graphOf n)) rest).2 ++ [temp]

/-- How many nodes a call asks each limited graph to admit, if no call of `ready` throws. -/
def asks (s : State N G) : Call N G → G → ℕ
  | .ready g _ => Pi.single g 1
  | .finish g notified =>
    countOf L (passes L (s.mCount g) g (notified ++ (s.rest.countDown g).2))
  | .other _ => 0

/-- A call asks no graph for more places than are left, and lowers no count out of the
`int32_t`. -/
structure Room (s : State N G) (c : Call N G) : Prop where
  fits : Fits L (asks L s c) s
  above : ∀ g notified, c = .finish g notified → L.limited g →
    (∀ n ∈ notified ++ (s.rest.countDown g).2, L.graphOf n ≠ g) → -2 ^ 31 < s.mCount g

end Counts

section Specs
variable {L : Layout N G} {room : Prop} {known : (G → ℤ) → Prop} {asked asked' : G → ℕ} {g : G} {n : N}
  {s : State N G} {l : Limit}

theorem limited_eq (hl : L.limit g = some l) : L.limited g = true := by rw [Layout.limited, hl]; rfl

theorem not_limited (hl : L.limit g = none) : L.limited g = false := by rw [Layout.limited, hl]; rfl

theorem alignSize_lt (l : Limit) : (alignSize l.queueSize : ℤ) < 2 ^ 31 - 1 := by
  have hle := alignSize_le l.queueSize_lt
  omega

theorem Before.ask (h : Before L room known asked' s) (hle : asked ≤ asked') : Before L room known asked s :=
  ⟨h.1, h.2.1, fun hr g l hl => by
    have hfit := h.2.2 hr g l hl
    have hasked : asked g ≤ asked' g := hle g
    omega⟩

theorem Before.matched (h : Before L room known asked s) : room → Matched L s := fun _ => h.1

theorem Before.mono {known' : (G → ℤ) → Prop} (h : Before L room known asked' s) (hle : asked ≤ asked')
    (hknown : ∀ m, known m → known' m) : Before L room known' asked s :=
  ⟨h.1, hknown _ h.2.1, (h.ask hle).2.2⟩

theorem matched_start (rest : Rest N G) : Matched L (start L rest) := by
  intro g l hl
  have hpar := l.parallel_lt
  simp only [start, hl]
  refine ⟨by omega, by omega, ?_⟩
  simp

/-- A triple, read off a run. -/
theorem of_triple {α : Type} {m : Code N G α} {P : State N G → Prop} {Q : α → State N G → Prop}
    {E : Fault → State N G → Prop}
    (h : ⦃fun s => ⌜P s⌝⦄ m ⦃post⟨fun a s => ⌜Q a s⌝, fun e s => ⌜E e s⌝⟩⦄) (hs : P s) :
    (∃ a, (m.run.run s).1 = .ok a ∧ Q a (m.run.run s).2) ∨
      ∃ e, (m.run.run s).1 = .error e ∧ E e (m.run.run s).2 := by
  have hwp := h s hs
  simp only [wp, PredTrans.apply_pushExcept, PredTrans.apply_pushArg] at hwp
  rcases hr : m.run.run s with ⟨e | a, s'⟩
  · rw [hr] at hwp
    exact .inr ⟨e, rfl, hwp⟩
  · rw [hr] at hwp
    exact .inl ⟨a, rfl, hwp⟩

theorem addNewTask_spec (L : Layout N G) (room : Prop) (known : (G → ℤ) → Prop) (asked : G → ℕ)
    (n : N) :
    ⦃fun s => ⌜Before L room known asked s⌝⦄ addNewTask n
    ⦃post⟨fun _ s => ⌜Before L room known asked s⌝, fun e s => ⌜e = .thrown ∧ (room → Matched L s)⌝⟩⦄ := by
  mvcgen [addNewTask]
  case vc2 s h _ _ => exact ⟨trivial, fun _ => h.1⟩

variable [DecidableEq G]

theorem countOf_cons (n : N) (ns : List N) :
    countOf L (n :: ns) = countOf L ns + Pi.single (L.graphOf n) 1 := by
  funext g
  simp only [countOf, List.map_cons, List.count_cons, Pi.add_apply, Pi.single_apply, beq_iff_eq]
  simp only [eq_comm]

theorem countOf_append (ns ms : List N) : countOf L (ns ++ ms) = countOf L ms + countOf L ns := by
  funext g
  simp only [countOf, List.map_append, List.count_append, Pi.add_apply, add_comm]

theorem countOf_singleton (n : N) : countOf L [n] = Pi.single (L.graphOf n) 1 := by
  rw [countOf_cons]
  exact zero_add _

/-- One counter and its queue are set. -/
theorem Before.update (h : Before L room known asked' s) (hl : L.limit g = some l) {v : ℤ} {queue : List N}
    (rest : Rest N G) (hle : asked ≤ asked') (hknown : known (Function.update s.mCount g v))
    (hlow : -2 ^ 31 ≤ v) (hhigh : v ≤ alignSize l.queueSize) (hlength : queue.length = v.toNat)
    (hroom : room → v + asked g ≤ alignSize l.queueSize) :
    Before L room known asked
      ⟨Function.update s.mCount g v, Function.update s.limitQueue g queue, rest⟩ := by
  obtain ⟨hmatched, -, hfits⟩ := h
  refine ⟨fun g' l' hl' => ?_, hknown, fun hr g' l' hl' => ?_⟩
  · by_cases hg : g' = g
    · subst hg
      rw [hl] at hl'
      cases hl'
      simpa using ⟨hlow, hhigh, hlength⟩
    · simpa [Function.update_of_ne hg] using hmatched g' l' hl'
  · by_cases hg : g' = g
    · subst hg
      rw [hl] at hl'
      cases hl'
      simpa using hroom hr
    · have hfit := hfits hr g' l' hl'
      have hasked : asked g' ≤ asked' g' := hle g'
      simp only [Function.update_of_ne hg]
      omega

theorem Before.count (h : Before L room known asked' s) (hl : L.limit g = some l) {v : ℤ}
    (hle : asked ≤ asked') (hknown : known (Function.update s.mCount g v))
    (hlow : -2 ^ 31 ≤ v) (hhigh : v ≤ alignSize l.queueSize) (hlength : (s.limitQueue g).length = v.toNat)
    (hroom : room → v + asked g ≤ alignSize l.queueSize) :
    Before L room known asked {s with mCount := Function.update s.mCount g v} := by
  have h' := h.update hl s.rest hle hknown hlow hhigh hlength hroom
  rwa [Function.update_eq_self] at h'

/-- At the `fetch_add` of an admission. -/
theorem Before.asks (h : Before L room known asked' s) (hasked : asked + Pi.single g 1 ≤ asked')
    (hl : L.limit g = some l) :
    -2 ^ 31 ≤ s.mCount g ∧ s.mCount g ≤ alignSize l.queueSize ∧
      (s.limitQueue g).length = (s.mCount g).toNat ∧ int32 (s.mCount g + 1) = s.mCount g + 1 ∧
      (room → s.mCount g + 1 + asked g ≤ alignSize l.queueSize) := by
  obtain ⟨hlow, hhigh, hlength⟩ := h.1 g l hl
  have hlt := alignSize_lt l
  refine ⟨hlow, hhigh, hlength, int32_eq (by omega) (by omega), fun hr => ?_⟩
  have hfit := (h.ask hasked).2.2 hr g l hl
  simp only [Pi.add_apply, Pi.single_eq_same] at hfit
  omega

/-! ### What each function leaves -/

theorem tryEnqueue_spec (L : Layout N G) (room : Prop) (known : (G → ℤ) → Prop) (n : N)
    (hl : L.limit g = some l) (hasked : asked + Pi.single g 1 ≤ asked')
    (hknown : ∀ m v, known m → known (Function.update m g v)) :
    ⦃fun s => ⌜Before L room known asked' s⌝⦄ tryEnqueue g l n
    ⦃post⟨fun _ s => ⌜Before L room known asked s⌝, fun e s => ⌜e = .thrown ∧ (room → Matched L s)⌝⟩⦄ := by
  have hle : asked ≤ asked' := le_trans le_self_add hasked
  mvcgen [tryEnqueue]
  case vc1.isTrue.isTrue s h oldCount t hold hroom t' =>
    obtain ⟨hlow, hhigh, hlength, hint, hfit⟩ := h.asks hasked hl
    simp only [oldCount, t] at hold hroom
    simp only [t', t, oldCount, hint]
    refine h.update hl _ hle (hknown _ _ h.2.1) (by omega) (by omega) ?_ hfit
    rw [List.length_append, List.length_singleton]
    omega
  case vc2.isTrue.isFalse s h oldCount t hold hfull =>
    -- the queue is as long as the counter says, so there was no room
    obtain ⟨hlow, hhigh, hlength, hint, hfit⟩ := h.asks hasked hl
    simp only [oldCount, t] at hold hfull
    refine ⟨trivial, fun hr => ?_⟩
    have := hfit hr
    omega
  case vc3.isFalse s h oldCount t hold =>
    obtain ⟨hlow, hhigh, hlength, hint, hfit⟩ := h.asks hasked hl
    simp only [oldCount] at hold
    simp only [t, oldCount, hint]
    exact h.count hl hle (hknown _ _ h.2.1) (by omega) (by omega) (by omega) hfit

/-- What `tryDequeue` leaves, unless `m_count` wraps. -/
theorem Before.taken {count : ℤ} (h : Before L room (fun m => m g = count) asked s)
    (hl : L.limit g = some l)
    (hlow : -2 ^ 31 < count) (queue : List N) (rest : Rest N G)
    (hlength : queue.length = (count - 1).toNat) :
    Before L room (fun _ => True) asked
      ⟨Function.update s.mCount g (int32 (s.mCount g - 1)), Function.update s.limitQueue g queue, rest⟩ := by
  obtain ⟨-, hhigh, -⟩ := h.1 g l hl
  have hcount : s.mCount g = count := h.2.1
  have hlt := alignSize_lt l
  rw [hcount, int32_eq (by omega) (by omega)]
  refine (h.mono (le_refl asked) fun _ _ => trivial).update hl rest le_rfl trivial (by omega) (by omega)
    hlength fun hr => ?_
  have hfit := h.2.2 hr g l hl
  omega

theorem tryDequeue_spec (asked : G → ℕ) {count : ℤ} (hl : L.limit g = some l)
    (habove : room → -2 ^ 31 < count) :
    ⦃fun s => ⌜Before L room (fun m => m g = count) asked s⌝⦄ tryDequeue g
    ⦃post⟨fun r s => ⌜(r ≠ none → 0 < count) ∧ (r ≠ none ∨ room → Before L room (fun _ => True) asked s)⌝,
      fun _ _ => ⌜False⌝⟩⦄ := by
  mvcgen [tryDequeue]
  case vc1.isTrue.h_1 s h oldCount t hold hempty =>
    obtain ⟨-, -, hlength⟩ := h.1 g l hl
    simp only [oldCount, t] at hold hempty
    rw [hempty, List.length_nil] at hlength
    omega
  case vc2.isTrue.h_2 s h oldCount t hold n queue hqueue t' =>
    obtain ⟨-, -, hlength⟩ := h.1 g l hl
    simp only [oldCount, t] at hold hqueue
    have hcount : s.mCount g = count := h.2.1
    rw [hqueue, List.length_cons] at hlength
    exact ⟨fun _ => by omega, fun _ => h.taken hl (by omega) queue _ (by omega)⟩
  case vc3.isFalse s h oldCount t hold =>
    obtain ⟨-, -, hlength⟩ := h.1 g l hl
    simp only [oldCount] at hold
    have hcount : s.mCount g = count := h.2.1
    refine ⟨fun hne => absurd rfl hne, fun hcases => ?_⟩
    have hr := hcases.resolve_left fun hne => hne rfl
    have h' := h.taken hl (habove hr) (s.limitQueue g) s.rest (by omega)
    rwa [Function.update_eq_self] at h'

theorem ready_spec (L : Layout N G) (room : Prop) (known : (G → ℤ) → Prop) (n : N)
    (hasked : asked + Pi.single g 1 ≤ asked')
    (hknown : ∀ m v, known m → known (Function.update m g v)) :
    ⦃fun s => ⌜Before L room known asked' s⌝⦄ ready L g n
    ⦃post⟨fun _ s => ⌜Before L room known asked s⌝, fun e s => ⌜e = .thrown ∧ (room → Matched L s)⌝⟩⦄ := by
  have hadd := addNewTask_spec L room known asked n
  have htry := fun l (hl : L.limit g = some l) => tryEnqueue_spec L room known n hl hasked hknown
  mvcgen [ready, hadd, htry]
  case vc1 s h => exact h.ask (le_trans le_self_add hasked)

theorem readyAll_spec (L : Layout N G) (room : Prop) (known : (G → ℤ) → Prop) (ns : List N)
    (hasked : asked + countOf L ns ≤ asked')
    (hknown : ∀ n ∈ ns, ∀ m v, known m → known (Function.update m (L.graphOf n) v)) :
    ⦃fun s => ⌜Before L room known asked' s⌝⦄ readyAll L ns
    ⦃post⟨fun _ s => ⌜Before L room known asked s⌝, fun e s => ⌜e = .thrown ∧ (room → Matched L s)⌝⟩⦄ := by
  induction ns generalizing asked' with
  | nil =>
    mvcgen [readyAll]
    case vc1 s h => exact h.ask hasked
  | cons n rest ih =>
    rw [countOf_cons, ← add_assoc] at hasked
    have hready := ready_spec L room known n hasked (hknown n List.mem_cons_self)
    have hrest := ih le_rfl fun m hm => hknown m (List.mem_cons_of_mem n hm)
    mvcgen [readyAll, hready, hrest]

/-- A node of an unlimited graph finishes. -/
theorem dispatch_unlimited (room : Prop) (count : ℤ) (hl : L.limit g = none) (temp : N) (rest : List N) :
    ⦃fun s => ⌜Before L room (fun _ => True) (countOf L (passes L count g (temp :: rest))) s⌝⦄
    dispatch L g (temp :: rest)
    ⦃post⟨fun _ s => ⌜room → Matched L s⌝, fun e s => ⌜e = .thrown ∧ (room → Matched L s)⌝⟩⦄ := by
  cases hpick : pick (fun n => !L.limited (L.graphOf n)) rest with
  | mk next others =>
    have hpasses : passes L count g (temp :: rest) = others ++ [temp] := by
      simp only [passes, not_limited hl, hpick]
      rfl
    rw [hpasses]
    cases next with
    | some next =>
      have hready := readyAll_spec L room (fun _ => True) (others ++ [temp]) (zero_add _).le
        fun _ _ _ _ _ => trivial
      simp only [dispatch, hl, hpick]
      mvcgen [hready]
      all_goals exact Before.matched (by assumption)
    | none =>
      have hready := readyAll_spec L room (fun _ => True) others (countOf_append others [temp]).ge
        fun _ _ _ _ _ => trivial
      have htry := fun l (hl : L.limit (L.graphOf temp) = some l) =>
        tryEnqueue_spec L room (fun _ => True) temp hl
          ((zero_add _).trans (countOf_singleton temp).symm).le fun _ _ _ => trivial
      simp only [dispatch, hl, hpick]
      mvcgen [hready, htry]
      all_goals exact Before.matched (by assumption)

/-- A notified node takes the place of the finished one. -/
theorem dispatch_own (room : Prop) (count : ℤ) (temp : N) {next : N} {rest others : List N}
    (hl : L.limit g = some l)
    (hpick : pick (fun n => L.graphOf n = g) rest = (some next, others)) :
    ⦃fun s => ⌜Before L room (fun _ => True) (countOf L (passes L count g (temp :: rest))) s⌝⦄
    dispatch L g (temp :: rest)
    ⦃post⟨fun _ s => ⌜room → Matched L s⌝, fun e s => ⌜e = .thrown ∧ (room → Matched L s)⌝⟩⦄ := by
  have hpasses : passes L count g (temp :: rest) = others ++ [temp] := by
    simp only [passes, limited_eq hl, hpick]
    rfl
  have hready := readyAll_spec L room (fun _ => True) (others ++ [temp]) (zero_add _).le
    fun _ _ _ _ _ => trivial
  rw [hpasses]
  simp only [dispatch, hl, hpick]
  mvcgen [hready]
  all_goals exact Before.matched (by assumption)

/-- All notified nodes belong to other graphs, except perhaps the first. -/
theorem dispatch_others {count : ℤ} {temp : N} {rest others : List N} (hl : L.limit g = some l)
    (hpick : pick (fun n => L.graphOf n = g) rest = (none, others))
    (habove : room → (∀ n ∈ temp :: rest, L.graphOf n ≠ g) → -2 ^ 31 < count) :
    ⦃fun s => ⌜Before L room (fun m => m g = count) (countOf L (passes L count g (temp :: rest))) s⌝⦄
    dispatch L g (temp :: rest)
    ⦃post⟨fun _ s => ⌜room → Matched L s⌝, fun e s => ⌜e = .thrown ∧ (room → Matched L s)⌝⟩⦄ := by
  obtain ⟨rfl, hothers⟩ := pick_eq_none hpick
  have hne : ∀ n ∈ others, L.graphOf n ≠ g := fun n hn => of_decide_eq_false (hothers n hn)
  have hknown : ∀ n ∈ others, ∀ (m : G → ℤ) v, m g = count →
      Function.update m (L.graphOf n) v g = count := fun n hn m v hm => by
    rwa [Function.update_of_ne (hne n hn).symm]
  by_cases htemp : L.graphOf temp = g
  · have hpasses : passes L count g (temp :: others) = others := by
      simp only [passes, limited_eq hl, hpick]
      simp [htemp]
    have hready := readyAll_spec L room (fun m => m g = count) others (zero_add _).le hknown
    rw [hpasses]
    simp only [dispatch, hl, hpick, if_pos htemp]
    mvcgen [hready]
    all_goals exact Before.matched (by assumption)
  · have habove' : room → -2 ^ 31 < count := fun hr => habove hr fun n hn => by
      rcases List.mem_cons.mp hn with rfl | hn
      · exact htemp
      · exact hne n hn
    have hpasses : countOf L (passes L count g (temp :: others)) =
        (if 0 < count then Pi.single (L.graphOf temp) 1 else 0) + countOf L others := by
      simp only [passes, limited_eq hl, if_true, hpick]
      split
      · next hcount => rw [if_pos hcount.2, countOf_append, countOf_singleton]
      · next hcount => rw [if_neg fun hpos => hcount ⟨htemp, hpos⟩, zero_add]
    have hready := readyAll_spec L room (fun m => m g = count) others hpasses.ge hknown
    have hdequeue := tryDequeue_spec (if 0 < count then Pi.single (L.graphOf temp) 1 else 0) hl habove'
    have hlast := fun hpos : 0 < count => ready_spec L room (fun _ => True) temp (g := L.graphOf temp)
      (show 0 + Pi.single _ 1 ≤ if 0 < count then Pi.single (L.graphOf temp) 1 else 0 by
        rw [zero_add, if_pos hpos]) fun _ _ _ => trivial
    simp only [dispatch, hl, hpick, if_neg htemp]
    mvcgen [hready, hdequeue, hlast]
    case vc3 s h => exact fun hr => (h.2 (.inr hr)).1
    case vc4 s h => exact h.1 nofun
    case vc5 s h => exact h.2 (.inl nofun)
    case vc6 s h => exact h.matched

theorem dispatch_spec (count : ℤ) (ns : List N)
    (habove : room → L.limited g → (∀ n ∈ ns, L.graphOf n ≠ g) → -2 ^ 31 < count) :
    ⦃fun s => ⌜Before L room (fun m => m g = count) (countOf L (passes L count g ns)) s⌝⦄ dispatch L g ns
    ⦃post⟨fun _ s => ⌜room → Matched L s⌝, fun e s => ⌜e = .thrown ∧ (room → Matched L s)⌝⟩⦄ := by
  cases hl : L.limit g with
  | none =>
    cases ns with
    | nil =>
      mvcgen [dispatch, hl]
      case vc1 s h => exact h.matched
    | cons temp rest =>
      have hdispatch := dispatch_unlimited room count hl temp rest
      mvcgen [hdispatch]
      case vc1 s h => exact h.mono le_rfl fun _ _ => trivial
  | some l =>
    have habove' : room → (∀ n ∈ ns, L.graphOf n ≠ g) → -2 ^ 31 < count := fun hr =>
      habove hr (limited_eq hl)
    cases ns with
    | nil =>
      have hdequeue := tryDequeue_spec (countOf L (passes L count g [])) hl fun hr =>
        habove' hr fun n hn => by cases hn
      mvcgen [dispatch, hl, hdequeue]
      case vc2 => exact fun _ hleft hr => (hleft (.inr hr)).1
    | cons temp rest =>
      cases hpick : pick (fun n => L.graphOf n = g) rest with
      | mk next others =>
        cases next with
        | some next =>
          have hdispatch := dispatch_own room count temp hl hpick
          mvcgen [hdispatch]
          case vc1 s h => exact h.mono le_rfl fun _ _ => trivial
        | none =>
          have hdispatch := dispatch_others hl hpick habove'
          mvcgen [hdispatch]

variable [DecidableEq N]

theorem finish_spec (L : Layout N G) (s₀ : State N G) (g : G) (notified : List N) :
    ⦃fun s => ⌜s = s₀ ∧ Matched L s₀⌝⦄ finish L g notified
    ⦃post⟨fun _ s => ⌜Room L s₀ (.finish g notified) → Matched L s⌝,
      fun e s => ⌜e = .thrown ∧ (Room L s₀ (.finish g notified) → Matched L s)⌝⟩⦄ := by
  have hdispatch := dispatch_spec (s₀.mCount g) (notified ++ (s₀.rest.countDown g).2)
    fun hr : Room L s₀ (.finish g notified) => hr.above g notified rfl
  mvcgen [finish]
  case vc1 s h after t =>
    obtain ⟨rfl, hmatched⟩ := h
    exact hdispatch t.2 ⟨hmatched, rfl, fun hr => hr.fits⟩

theorem result_spec (s : State N G) (c : Call N G) (h : Matched L s) :
    (result L s c).1 ≠ .error .endless ∧ (Room L s c → Matched L (result L s c).2) := by
  cases c with
  | ready g n =>
    have hready := ready_spec L (Room L s (.ready g n)) (fun _ => True) n
      (show 0 + Pi.single g 1 ≤ asks L s (.ready g n) from (zero_add _).le) fun _ _ _ => trivial
    rcases of_triple hready ⟨h, trivial, fun hr => hr.fits⟩ with ⟨_, hr, hafter⟩ | ⟨e, hr, he, hafter⟩
    · exact ⟨by rw [result, hr]; nofun, fun _ => hafter.1⟩
    · exact ⟨by rw [result, hr, he]; nofun, hafter⟩
  | finish g notified =>
    rcases of_triple (finish_spec L s g notified) ⟨rfl, h⟩ with ⟨_, hr, hafter⟩ | ⟨e, hr, he, hafter⟩
    · exact ⟨by rw [result, hr]; nofun, hafter⟩
    · exact ⟨by rw [result, hr, he]; nofun, hafter⟩
  | other rest => exact ⟨nofun, fun _ => h⟩

/-! ### Sequences of calls -/

/-- What a caller relies on. -/
structure Usable (L : Layout N G) (s : State N G) : Prop where
  counted : ∀ g l, L.limit g = some l → 0 < s.mCount g → ((s.limitQueue g).length : ℤ) = s.mCount g
  /-- The loop of `try_dequeue` ends in every call. -/
  ends : ∀ c, (result L s c).1 ≠ .error .endless

/-- **The self queue stays usable** in every sequence of calls that each find room for the
nodes they admit and lower no count out of the `int32_t`. -/
theorem usable_of_room {rest : Rest N G} (h : (system L rest).ReachedBy (fun s c _ => Room L s c) s) :
    Usable L s := by
  have hmatched : Matched L s := by
    refine h.induct (matched_start rest) fun s c s' _ hm hs hroom => ?_
    obtain ⟨-, hafter⟩ := result_spec s c hm
    simp only [system] at hs
    split at hs
    · cases hs
    · next hr =>
      cases hs
      simpa only [hr] using hafter hroom
  refine ⟨fun g l hl hpos => ?_, fun c => (result_spec s c hmatched).1⟩
  obtain ⟨-, -, hlength⟩ := hmatched g l hl
  omega

end Specs

/-- A graph with place for one running node and two more, in which two nodes are ready. -/
theorem usable_of_two : ∃ s : State (Fin 2) Unit, s.limitQueue () = [1] ∧
    Usable ⟨fun _ => (), fun _ => some ⟨1, 2, by decide, by decide⟩⟩ s := by
  let L : Layout (Fin 2) Unit := ⟨fun _ => (), fun _ => some ⟨1, 2, by decide, by decide⟩⟩
  let rest : Rest (Fin 2) Unit := ⟨true, fun _ => .initing, fun _ => 0, fun _ => 2, fun _ => [], []⟩
  obtain ⟨s, hreach, hqueue⟩ := System.exists_reachedBy (system L rest)
    (fun s c _ => (match c with
      | .ready _ _ => decide (s.mCount () + 1 ≤ 2)
      | _ => false) = true)
    [.ready () 0, .ready () 1] (fun s => s.limitQueue () = [1]) (by decide)
  refine ⟨s, hqueue, usable_of_room (hreach.mono fun s c _ _ _ hok => ?_)⟩
  cases c with
  | ready g n =>
    refine ⟨fun g' l hl => ?_, nofun⟩
    cases hl
    exact of_decide_eq_true hok
  | finish g notified => cases hok
  | other rest => cases hok

/-- A refused node leaves the counter of a graph with one place for a running node above its
queue; two finished nodes later, the loop of `try_dequeue` is endless. -/
theorem unusable_of_refused : ¬ ∀ l : Limit, 1 ≤ l.parallel → 2 ≤ l.queueSize → ∀ rest s,
    (system (⟨fun _ => (), fun _ => some l⟩ : Layout (Fin 4) Unit) rest).Reached s →
      Usable ⟨fun _ => (), fun _ => some l⟩ s := by
  intro h
  let l : Limit := ⟨1, 2, by decide, by decide⟩
  let L : Layout (Fin 4) Unit := ⟨fun _ => (), fun _ => some l⟩
  let rest : Rest (Fin 4) Unit := ⟨true, fun _ => .initing, fun _ => 0, fun _ => 4, fun _ => [], []⟩
  obtain ⟨s, hreach, hmCount, hqueue⟩ := System.exists_reachedBy (system L rest) (fun _ _ _ => True)
    [.ready () 0, .ready () 1, .ready () 2, .ready () 3, .finish () [], .finish () []]
    (fun s => s.mCount () = 1 ∧ s.limitQueue () = []) (by decide)
  have hcounted := (h l le_rfl le_rfl rest s hreach).counted () l rfl (by rw [hmCount]; decide)
  rw [hmCount, hqueue] at hcounted
  cases hcounted

end QuietFlow.SelfQueue
