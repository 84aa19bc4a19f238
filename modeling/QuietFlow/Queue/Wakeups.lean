import QuietFlow.Queue.Task
import QuietFlow.Runs.Census

/-! When the task queue's sleepers are enough awake.

`Accounts` balances the counters against where the threads are. `m_count` is the
registered consumers less the stored tasks, apart from the tasks not yet signalled.
While somebody sleeps, every missing registration is covered: by a consumer awake
and not registered, by a producer about to wake one, by a wake still owed by the last
holder, unless the hold is on, when nobody wakes anybody. From this,
`items_le_awake`: with no producer under way and the hold over, there are at most as
many tasks as consumers awake, and wakes still owed. During the hold there may be more
(`items_outnumber_awake`): that is what the hold is for. -/
namespace QuietFlow.TaskQueue
open Runs

section Weights
variable {α : Type}

/-- A registered consumer, or a task stored and not yet signalled. -/
def credit : Pc α → ℤ
  | .signal | .takeLimit _ | .sizeUnlimit _ | .takeUnlimit _ | .withdraw => 1
  | _ => 0

/-- Counted in `big_spin_count`. -/
def holding : Pc α → ℤ
  | .hold _ | .holdOut _ => 1
  | _ => 0

/-- The last holder, about to see how many sleepers are missing. -/
def recounting : Pc α → ℤ
  | .recount _ => 1
  | _ => 0

def sleeping : Pc α → ℤ
  | .asleep => 1
  | _ => 0

/-- The wakes the last holder still owes. -/
def owed : Pc α → ℕ
  | .wakeMany _ n => n
  | _ => 0

/-- What covers a missing registration: a consumer awake that is not registered, a
producer that may wake one, and the wakes owed. -/
def cover : Pc α → ℤ
  | .checkSpin | .checkCount | .wakeOne => 1
  | .holdIn _ | .hold _ | .holdOut _ | .recount _ | .register | .futexWait | .rejoin => 1
  | .wakeMany _ n => n + 1
  | _ => 0

/-- Inside `enqueue`. -/
def Pc.enqueueing : Pc α → Bool
  | .offerLimit _ | .offerUnlimit _ | .signal | .checkSpin | .checkCount | .wakeOne => true
  | _ => false

/-- Inside `wait_dequeue` and not asleep. -/
def Pc.awake : Pc α → Bool
  | .holdIn _ | .hold _ | .holdOut _ | .recount _ | .wakeMany _ _ | .register | .takeLimit _
  | .sizeUnlimit _ | .takeUnlimit _ | .withdraw | .futexWait | .rejoin => true
  | _ => false

theorem holding_nonneg (p : Pc α) : 0 ≤ holding p := by cases p <;> simp [holding]
theorem recounting_nonneg (p : Pc α) : 0 ≤ recounting p := by cases p <;> simp [recounting]
theorem sleeping_nonneg (p : Pc α) : 0 ≤ sleeping p := by cases p <;> simp [sleeping]
theorem cover_nonneg (p : Pc α) : 0 ≤ cover p := by
  cases p with
  | wakeMany h n => exact Int.natCast_nonneg (n + 1)
  | _ => simp [cover]

end Weights

variable {T α : Type} [Fintype T]

structure Accounts (s : State T α) : Prop where
  tasks : s.mCount + (s.limitQueue.length + s.unlimitQueue.length) = census credit s.pc
  spinning : s.bigSpinCount = census holding s.pc
  covered : census sleeping s.pc = 0 ∨ 0 < s.bigSpinCount ∨ 0 < census recounting s.pc ∨
    0 ≤ s.mCount + census cover s.pc

/-- `|m_count| < 2^31`. -/
def Counted (s : State T α) : Prop := -2 ^ 31 < s.mCount ∧ s.mCount < 2 ^ 31

instance (s : State T α) : Decidable (Counted s) := inferInstanceAs (Decidable (_ ∧ _))

theorem nonneg_of_highCount {n : ℤ} (hlo : -2 ^ 31 < n) (h : highCount n = 0) : 0 ≤ n := by
  simp only [highCount] at h
  omega

namespace Accounts
variable [DecidableEq T] {s s' : State T α} {t : T}

omit [DecidableEq T] in
theorem start : Accounts (TaskQueue.start : State T α) where
  tasks := (census_eq_zero fun _ => rfl).symm
  spinning := (census_eq_zero fun _ => rfl).symm
  covered := .inl (census_eq_zero fun _ => rfl)

/-- One thread moves from `p` to `q`. It is enough that the counters move by the
differences of the weights, and that the sleepers stay covered, however many others
there are of each kind. -/
theorem move (h : Accounts s) {p : Pc α} (hpc : s.pc t = p) (q : Pc α)
    (hpc' : s'.pc = Function.update s.pc t q)
    (hbalance : ∀ sleepers others last, 0 ≤ sleepers → 0 ≤ others → 0 ≤ last →
      holding p ≤ s.bigSpinCount → 0 ≤ s.bigSpinCount →
      sleepers + sleeping p = 0 ∨ 0 < s.bigSpinCount ∨ 0 < last + recounting p ∨
        0 ≤ s.mCount + (others + cover p) →
      s'.mCount + (s'.limitQueue.length + s'.unlimitQueue.length) + credit p =
        s.mCount + (s.limitQueue.length + s.unlimitQueue.length) + credit q ∧
      s'.bigSpinCount + holding p = s.bigSpinCount + holding q ∧
      (sleepers + sleeping q = 0 ∨ 0 < s'.bigSpinCount ∨ 0 < last + recounting q ∨
        0 ≤ s'.mCount + (others + cover q))) : Accounts s' := by
  subst hpc
  have hsplit : ∀ f : Pc α → ℤ, census f s'.pc = census f s.pc - f (s.pc t) + f q := by
    intro f
    rw [hpc', census_update]
    omega
  obtain ⟨htasks, hspin, hcover⟩ := hbalance
    (census sleeping s.pc - sleeping (s.pc t)) (census cover s.pc - cover (s.pc t))
    (census recounting s.pc - recounting (s.pc t))
    (sub_nonneg.mpr (le_census sleeping_nonneg s.pc t))
    (sub_nonneg.mpr (le_census cover_nonneg s.pc t))
    (sub_nonneg.mpr (le_census recounting_nonneg s.pc t))
    (h.spinning ▸ le_census holding_nonneg s.pc t) (h.spinning ▸ census_nonneg holding_nonneg s.pc)
    (by rw [sub_add_cancel, sub_add_cancel, sub_add_cancel]; exact h.covered)
  constructor
  case tasks =>
    rw [hsplit]
    have := h.tasks
    omega
  case spinning =>
    rw [hsplit]
    have := h.spinning
    omega
  case covered =>
    rw [hsplit, hsplit, hsplit]
    exact hcover

theorem advance {capacity spinCycle : ℕ} (h : Accounts s) (hcount : Counted s)
    (hs : advance capacity spinCycle s t = some s') : Accounts s' := by
  obtain ⟨hlo, hhi⟩ := hcount
  have hint := int32_eq hlo.le hhi
  cases hpc : s.pc t with
  | idle | wakeOne | wakeMany h n | asleep => simp [TaskQueue.advance, hpc] at hs
  | offerLimit x =>
    simp only [TaskQueue.advance, hpc] at hs
    split at hs <;> cases hs <;> refine h.move hpc _ rfl fun _ _ _ _ _ _ _ _ hcovered => ?_
    · simp only [State.setPc, credit, holding, cover, sleeping, recounting, List.length_append,
        List.length_singleton, true_and] at *
      omega
    · simp only [State.setPc, credit, holding, cover, sleeping, recounting, true_and] at *
      omega
  | offerUnlimit x =>
    simp only [TaskQueue.advance, hpc, Option.some.injEq] at hs
    subst hs
    refine h.move hpc _ rfl fun _ _ _ _ _ _ _ _ hcovered => ?_
    simp only [State.setPc, credit, holding, cover, sleeping, recounting, List.length_append,
      List.length_singleton, true_and] at *
    omega
  | hold hold | register | rejoin =>
    simp only [TaskQueue.advance, hpc, Option.some.injEq] at hs
    subst hs
    refine h.move hpc _ rfl fun _ _ _ _ _ _ _ _ hcovered => ?_
    simp only [State.setPc, State.addCount, credit, holding, cover, sleeping, recounting, true_and] at *
    omega
  | signal =>
    simp only [TaskQueue.advance, hpc, hint, Option.some.injEq] at hs
    subst hs
    refine h.move hpc _ rfl fun _ _ _ _ _ _ _ _ hcovered => ?_
    split <;>
    · simp only [State.setPc, State.addCount, credit, holding, cover, sleeping, recounting, true_and] at *
      omega
  | checkSpin | checkCount =>
    simp only [TaskQueue.advance, hpc, Option.some.injEq] at hs
    subst hs
    refine h.move hpc _ rfl fun _ _ _ _ _ _ _ _ hcovered => ?_
    split <;>
    · simp only [State.setPc, credit, holding, cover, sleeping, recounting, true_and] at *
      omega
  | holdIn hold =>
    simp only [TaskQueue.advance, hpc, Option.some.injEq] at hs
    subst hs
    refine h.move hpc _ rfl fun _ _ _ _ _ _ _ _ hcovered => ?_
    split <;>
    · simp only [State.setPc, State.addSpin, credit, holding, cover, sleeping, recounting, true_and] at *
      omega
  | holdOut hold =>
    simp only [TaskQueue.advance, hpc, Option.some.injEq] at hs
    subst hs
    refine h.move hpc _ rfl fun _ _ _ _ _ _ _ _ hcovered => ?_
    split <;> cases hold <;>
    · simp only [State.setPc, State.addSpin, Holder.resume, credit, holding, cover, sleeping,
        recounting, true_and] at *
      omega
  | recount hold =>
    -- who wakes as many as are missing leaves all of them covered
    simp only [TaskQueue.advance, hpc, hint, Option.some.injEq] at hs
    subst hs
    refine h.move hpc _ rfl fun _ _ _ _ _ _ _ _ hcovered => ?_
    split <;> cases hold <;>
    · simp only [State.setPc, Holder.resume, credit, holding, cover, sleeping, recounting, true_and] at *
      omega
  | takeLimit left =>
    simp only [TaskQueue.advance, hpc] at hs
    split at hs
    · cases hs
      refine h.move hpc _ rfl fun _ _ _ _ _ _ _ _ hcovered => ?_
      simp only [State.setPc, credit, holding, cover, sleeping, recounting, true_and] at *
      omega
    · next x rest hqueue =>
      cases hs
      have hlength : s.limitQueue.length = rest.length + 1 := by rw [hqueue, List.length_cons]
      refine h.move hpc _ rfl fun _ _ _ _ _ _ _ _ hcovered => ?_
      simp only [State.setPc, credit, holding, cover, sleeping, recounting, true_and, hlength] at *
      omega
  | sizeUnlimit left =>
    simp only [TaskQueue.advance, hpc] at hs
    split at hs <;> cases hs <;> refine h.move hpc _ rfl fun _ _ _ _ _ _ _ _ hcovered => ?_
    · simp only [State.setPc, credit, holding, cover, sleeping, recounting, true_and] at *
      omega
    · cases left <;>
      · simp only [State.setPc, retry, credit, holding, cover, sleeping, recounting, true_and] at *
        omega
  | takeUnlimit left =>
    simp only [TaskQueue.advance, hpc] at hs
    split at hs
    · cases hs
      refine h.move hpc _ rfl fun _ _ _ _ _ _ _ _ hcovered => ?_
      cases left <;>
      · simp only [State.setPc, retry, credit, holding, cover, sleeping, recounting, true_and] at *
        omega
    · next x rest hqueue =>
      cases hs
      have hlength : s.unlimitQueue.length = rest.length + 1 := by rw [hqueue, List.length_cons]
      refine h.move hpc _ rfl fun _ _ _ _ _ _ _ _ hcovered => ?_
      simp only [State.setPc, credit, holding, cover, sleeping, recounting, true_and, hlength] at *
      omega
  | withdraw =>
    simp only [TaskQueue.advance, hpc, Option.some.injEq] at hs
    subst hs
    refine h.move hpc _ rfl fun _ _ _ _ _ _ _ _ hcovered => ?_
    split <;>
    · simp only [State.setPc, State.addCount, credit, holding, cover, sleeping, recounting, true_and] at *
      omega
  | futexWait =>
    simp only [TaskQueue.advance, hpc, Option.some.injEq] at hs
    subst hs
    have hpos := fun hhigh : highCount s.mCount = 0 => nonneg_of_highCount hlo hhigh
    refine h.move hpc _ rfl fun _ _ _ _ _ _ _ _ hcovered => ?_
    split
    · next hhigh =>
      have := hpos hhigh
      simp only [State.setPc, credit, holding, cover, sleeping, recounting, true_and] at *
      omega
    · simp only [State.setPc, credit, holding, cover, sleeping, recounting, true_and] at *
      omega

theorem refuse (h : Accounts s) (hs : refuse s t = some s') : Accounts s' := by
  cases hpc : s.pc t with
  | offerLimit x | takeLimit left =>
    simp only [TaskQueue.refuse, hpc, Option.some.injEq] at hs
    subst hs
    refine h.move hpc _ rfl fun _ _ _ _ _ _ _ _ hcovered => ?_
    simp only [State.setPc, credit, holding, cover, sleeping, recounting, true_and] at *
    omega
  | sizeUnlimit left | takeUnlimit left =>
    simp only [TaskQueue.refuse, hpc, Option.some.injEq] at hs
    subst hs
    refine h.move hpc _ rfl fun _ _ _ _ _ _ _ _ hcovered => ?_
    cases left <;>
    · simp only [State.setPc, retry, credit, holding, cover, sleeping, recounting, true_and] at *
      omega
  | _ => simp [TaskQueue.refuse, hpc] at hs

theorem enter {p : Pc α} (h : Accounts s) (hp : p = .holdIn .entry ∨ ∃ x, p = .offerLimit x)
    (hs : enter s t p = some s') : Accounts s' := by
  unfold TaskQueue.enter at hs
  split at hs <;> cases hs
  next hpc =>
  refine h.move hpc _ rfl fun _ _ _ _ _ _ _ _ hcovered => ?_
  rcases hp with rfl | ⟨x, rfl⟩ <;>
  · simp only [State.setPc, credit, holding, cover, sleeping, recounting, true_and] at *
    omega

/-- Sleepers are woken: each becomes a consumer awake. -/
theorem futexWake [DecidableEq α] {n : ℕ} {p next : Pc α} {woken : Finset T} (h : Accounts s)
    (hpc : s.pc t = p) (hs : futexWake s t n next woken = some s') (hcredit : credit p = credit next)
    (hholding : holding p = holding next) (hrecount : recounting p = recounting next)
    (hasleep : p ≠ .asleep) (hsleeping : sleeping p = sleeping next)
    (hcover : cover p ≤ cover next + n) : Accounts s' := by
  unfold TaskQueue.futexWake at hs
  split at hs <;> cases hs
  next hwoken =>
  obtain ⟨hsub, hcard⟩ := hwoken
  have hall : ∀ t ∈ woken, s.pc t = .asleep := fun t ht => by
    simpa [State.sleepers] using hsub ht
  have hout : t ∉ woken := fun ht => hasleep (hpc ▸ hall t ht)
  have hsplit : ∀ f : Pc α → ℤ,
      census f (Function.update (fun t' => if t' ∈ woken then Pc.rejoin else s.pc t') t next) =
        census f s.pc + woken.card * (f .rejoin - f .asleep) + (f next - f p) := by
    intro f
    rw [census_update, census_moveAll f s.pc woken .rejoin hall, if_neg hout, hpc]
  have hsleepers : census sleeping s.pc = s.sleepers.card := by
    calc census sleeping s.pc
      _ = census (fun p => if p = Pc.asleep then 1 else 0) s.pc := by
        congr 1
        funext x
        cases x <;> rfl
      _ = s.sleepers.card := census_ite (fun p => p = Pc.asleep) s.pc
  constructor
  case tasks =>
    have hnone : credit (.rejoin : Pc α) - credit (.asleep : Pc α) = 0 := rfl
    simp only [State.setPc, hsplit, hnone, hcredit, sub_self, mul_zero, add_zero]
    exact h.tasks
  case spinning =>
    have hnone : holding (.rejoin : Pc α) - holding (.asleep : Pc α) = 0 := rfl
    simp only [State.setPc, hsplit, hnone, hholding, sub_self, mul_zero, add_zero]
    exact h.spinning
  case covered =>
    have hslept : sleeping (.rejoin : Pc α) - sleeping (.asleep : Pc α) = -1 := rfl
    have hcovered : cover (.rejoin : Pc α) - cover (.asleep : Pc α) = 1 := rfl
    have hnone : recounting (.rejoin : Pc α) - recounting (.asleep : Pc α) = 0 := rfl
    simp only [State.setPc, hsplit, hslept, hcovered, hnone, hrecount, hsleeping, sub_self, mul_zero,
      mul_one, add_zero]
    have hcov := h.covered
    omega

theorem wake [DecidableEq α] {woken : Finset T} (h : Accounts s) (hs : wake s t woken = some s') :
    Accounts s' := by
  cases hpc : s.pc t with
  | wakeOne =>
    simp only [TaskQueue.wake, hpc] at hs
    exact h.futexWake hpc hs rfl rfl rfl nofun rfl (le_refl _)
  | wakeMany hold n =>
    simp only [TaskQueue.wake, hpc] at hs
    refine h.futexWake hpc hs ?_ ?_ ?_ nofun ?_ ?_ <;> cases hold <;>
      simp [Holder.resume, credit, holding, recounting, sleeping, cover, add_comm]
  | _ => simp [TaskQueue.wake, hpc] at hs

end Accounts

section Runs
variable [DecidableEq T] [DecidableEq α] {capacity spinCycle : ℕ} {s : State T α}

theorem accounts_of_counted
    (hs : (taskQueue capacity spinCycle T α).ReachedBy (fun _ _ s' => Counted s') s) :
    Counted s ∧ Accounts s := by
  have hstart : (-2 ^ 31 : ℤ) < 0 ∧ (0 : ℤ) < 2 ^ 31 := by decide
  refine hs.induct (I := fun s => Counted s ∧ Accounts s) ⟨hstart, .start⟩
    fun s a s' _ ⟨hcount, ih⟩ hstep hcount' => ⟨hcount', ?_⟩
  cases a with
  | enqueue t x => exact ih.enter (.inr ⟨x, rfl⟩) hstep
  | waitDequeue t => exact ih.enter (.inl rfl) hstep
  | step t => exact ih.advance hcount hstep
  | refuse t => exact ih.refuse hstep
  | wake t woken => exact ih.wake hstep

/-- **No wakeup is lost.** When nobody is inside `enqueue`, the hold is over and the last
holder has counted the missing sleepers, then as long as somebody sleeps there are at
most as many tasks as consumers awake, and wakes still owed. -/
theorem items_le_awake
    (hs : (taskQueue capacity spinCycle T α).ReachedBy (fun _ _ s' => Counted s') s)
    (hproducers : ∀ t, (s.pc t).enqueueing = false) (hhold : s.bigSpinCount = 0)
    (hlast : ∀ t h, s.pc t ≠ .recount h) (hasleep : ∃ t, s.pc t = .asleep) :
    s.limitQueue.length + s.unlimitQueue.length ≤
      (Finset.univ.filter fun t => (s.pc t).awake).card + ∑ t, owed (s.pc t) := by
  obtain ⟨-, h⟩ := accounts_of_counted hs
  obtain ⟨t, ht⟩ := hasleep
  have hsleeping : 1 ≤ census sleeping s.pc := by
    have := le_census sleeping_nonneg s.pc t
    rwa [ht] at this
  have hrecount : census recounting s.pc = 0 := by
    refine census_eq_zero fun t => ?_
    cases hpc : s.pc t with
    | recount h => exact absurd hpc (hlast t h)
    | _ => rfl
  -- thread by thread, a credit or a cover is a consumer awake or a wake owed
  have hpoint : ∀ t, credit (s.pc t) + cover (s.pc t) ≤
      (if (s.pc t).awake then 1 else 0) + (owed (s.pc t) : ℤ) := by
    intro t
    have hnot := hproducers t
    cases hpc : s.pc t <;> simp [hpc, Pc.enqueueing, credit, cover, Pc.awake, owed, add_comm] at hnot ⊢
  have hsum : census (fun p => credit p + cover p) s.pc ≤
      census (fun p => (if p.awake then 1 else 0) + (owed p : ℤ)) s.pc := census_mono hpoint
  rw [census_add, census_add, census_ite fun p : Pc α => p.awake = true] at hsum
  have howed : census (fun p => (owed p : ℤ)) s.pc = ((∑ t, owed (s.pc t) : ℕ) : ℤ) :=
    (Nat.cast_sum _ _).symm
  have htasks := h.tasks
  have hcovered := h.covered
  omega

end Runs

/-- Two consumers and two producers. Consumer 0 withdraws and holds; consumer 1 withdraws
and goes to sleep; then two tasks come. -/
def holdAndSleep : List (Action (Fin 4) ℕ) :=
  .waitDequeue 0 :: List.replicate 209 (.step 0) ++
  .waitDequeue 1 :: List.replicate 209 (.step 1) ++
  .enqueue 2 10 :: List.replicate 3 (.step 2) ++
  .enqueue 3 11 :: List.replicate 3 (.step 3)

/-- The last holder makes up for the producers' silence. -/
theorem items_le_awake_recount : ∃ s : State (Fin 4) ℕ,
    s.limitQueue.length + s.unlimitQueue.length = 2 ∧ s.pc 1 = .asleep ∧
      s.limitQueue.length + s.unlimitQueue.length ≤
        (Finset.univ.filter fun t => (s.pc t).awake).card + ∑ t, owed (s.pc t) := by
  obtain ⟨s, hreach, hitems, hproducers, hhold, hlast, hasleep⟩ :=
    System.exists_reachedBy (taskQueue 4 100 (Fin 4) ℕ) (fun _ _ s' => Counted s')
      (holdAndSleep ++ List.replicate 3 (.step 0))
      (fun s => s.limitQueue.length + s.unlimitQueue.length = 2 ∧
        (∀ t, (s.pc t).enqueueing = false) ∧ s.bigSpinCount = 0 ∧
        (∀ t, s.pc t ≠ .recount .entry ∧ s.pc t ≠ .recount .wait) ∧ s.pc 1 = .asleep)
      (by decide +kernel)
  refine ⟨s, hitems, hasleep, items_le_awake hreach hproducers hhold (fun t h => ?_) ⟨1, hasleep⟩⟩
  cases h
  · exact (hlast t).1
  · exact (hlast t).2

/-- **During the hold the tasks may outnumber the consumers awake** while another sleeps. -/
theorem items_outnumber_awake : ∃ s : State (Fin 4) ℕ,
    (taskQueue 4 100 (Fin 4) ℕ).ReachedBy (fun _ _ s' => Counted s') s ∧
      (∀ t, (s.pc t).enqueueing = false) ∧ s.pc 1 = .asleep ∧
      (Finset.univ.filter fun t => (s.pc t).awake).card <
        s.limitQueue.length + s.unlimitQueue.length :=
  System.exists_reachedBy (taskQueue 4 100 (Fin 4) ℕ) (fun _ _ s' => Counted s') holdAndSleep
    (fun s => (∀ t, (s.pc t).enqueueing = false) ∧ s.pc 1 = .asleep ∧
      (Finset.univ.filter fun t => (s.pc t).awake).card <
        s.limitQueue.length + s.unlimitQueue.length) (by decide +kernel)

end QuietFlow.TaskQueue
