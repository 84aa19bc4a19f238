import QuietFlow.Queue.Handover

/-! Who is woken.

Readers and writers of different tickets sleep on one word, each for its own version,
and every store of a version is followed by one `FUTEX_WAKE` with count `-1`, which
wakes the first sleeper only. A sleeper whose version has arrived is therefore safe
(`Watched`) as long as the wake of that version finds it at the head of the futex
queue, and as long as nobody goes to sleep over a version that is already there
(`Orderly`). The first condition fails as soon as a writer of the next round goes to
sleep before the reader of this one (`leftBehind_reached`). -/
namespace QuietFlow.FreeLock
open Runs

section Pc
variable {α : Type} (capacity : BitVec 64)

/-- The slot a call sleeps on and the version it sleeps for. -/
def Pc.awaits : Pc α → Option (BitVec 64 × BitVec 64)
  | .asleep op n _ => some (slot capacity n, targetVersion capacity op.side n)
  | _ => none

/-- The slot a call is about to wake and the version it has stored there. -/
def Pc.wakes : Pc α → Option (BitVec 64 × BitVec 64)
  | .wake side n _ => some (slot capacity n, storedVersion side n)
  | _ => none

@[simp] theorem woken_awaits (p : Pc α) : p.woken.awaits capacity = none := by cases p <;> rfl

@[simp] theorem woken_wakes (p : Pc α) : p.woken.wakes capacity = p.wakes capacity := by
  cases p <;> rfl

end Pc

variable {T α : Type}

section Conditions
variable (capacity : BitVec 64)

/-- `t` sleeps for a version that has arrived, and whoever stored it has finished waking. -/
def LeftBehind (s : State T α) (t : T) : Prop :=
  ∃ i, (s.pc t).awaits capacity = some (i, s.flagVec i) ∧
    ∀ t', (s.pc t').wakes capacity ≠ some (i, s.flagVec i)

/-- What a call's next step must not do for nobody to be left behind: wait for a version
that is already there (a reader does so if its ticket does not fit, a writer if the
version it compared last has the same low half), or wake for a version whose sleeper
stands behind another. -/
def State.orderly (s : State T α) : Pc α → Prop
  | .spin .dequeue n 0 _ => s.flagVec (slot capacity n) = targetVersion capacity .read n → Fits n
  | .spin (.enqueue _) n 0 cur =>
    s.flagVec (slot capacity n) = targetVersion capacity .write n →
      low (s.flagVec (slot capacity n)) ≠ cur
  | .wake side n _ =>
    s.flagVec (slot capacity n) = storedVersion side n →
      ∀ t ∈ (s.waiters (slot capacity n)).tail,
        (s.pc t).awaits capacity ≠ some (slot capacity n, s.flagVec (slot capacity n))
  | _ => True

def Orderly (s : State T α) : Action T α → Prop
  | .call _ _ => True
  | .step t => s.orderly capacity (s.pc t)

instance (s : State T α) : ∀ p, Decidable (s.orderly capacity p)
  | .spin .dequeue _ 0 _ => inferInstanceAs (Decidable (_ → _))
  | .spin (.enqueue _) _ 0 _ => inferInstanceAs (Decidable (_ → _))
  | .wake _ _ _ => inferInstanceAs (Decidable (_ → _))
  | .spin .dequeue _ (_ + 1) _ | .spin (.enqueue _) _ (_ + 1) _ | .idle | .bound _ | .missed _ _
  | .ahead _ _ _ | .claim _ _ | .retest _ _ _ | .miss _ _ | .ticket _ _ | .asleep _ _ _ | .take _
  | .clear _ _ | .put _ _ | .store _ _ _ | .failed _ => instDecidableTrue

instance (s : State T α) : ∀ a, Decidable (Orderly capacity s a)
  | .call _ _ => instDecidableTrue
  | .step _ => inferInstanceAs (Decidable (s.orderly _ _))

/-- Every sleeper is in its slot's futex queue, and one whose version has arrived has a
wake coming. -/
structure Watched (s : State T α) : Prop where
  queued : ∀ t i, t ∈ s.waiters i ↔ ∃ v, (s.pc t).awaits capacity = some (i, v)
  nodup : ∀ i, (s.waiters i).Nodup
  /-- A reader's last comparison failed. -/
  stale : ∀ t n i cur, s.pc t = .spin .dequeue n i cur → i < spinCycle →
    cur = low (word n) → ¬ Fits n
  woken : ∀ t i, (s.pc t).awaits capacity = some (i, s.flagVec i) →
    ∃ t', (s.pc t').wakes capacity = some (i, s.flagVec i)

end Conditions

namespace Watched
variable {capacity : BitVec 64} {s s' : State T α} {t : T}

theorem not_leftBehind (h : Watched capacity s) : ¬ LeftBehind capacity s t := by
  rintro ⟨i, ht, hnone⟩
  obtain ⟨t', ht'⟩ := h.woken t i ht
  exact hnone t' ht'

variable [DecidableEq T]

theorem start (capacity : BitVec 64) : Watched capacity (queue capacity T α).start where
  queued := by
    intro t i
    constructor
    · rintro ⟨⟩
    · rintro ⟨v, ⟨⟩⟩
  nodup := fun _ => List.nodup_nil
  stale := by rintro t n i cur ⟨⟩
  woken := by rintro t i ⟨⟩

/-- A step of a call that is not asleep, does not go to sleep, and leaves nobody asleep
whom it had to wake. -/
theorem move (h : Watched capacity s) (t : T) (p : Pc α) (hpc : s'.pc = Function.update s.pc t p)
    (hflag : s'.flagVec = s.flagVec) (hwaiters : s'.waiters = s.waiters)
    (hawake : (s.pc t).awaits capacity = none)
    (hdone : ∀ i t', (s.pc t).wakes capacity = some (i, s.flagVec i) →
      (s.pc t').awaits capacity ≠ some (i, s.flagVec i))
    (hp : p.awaits capacity = none)
    (hstale : ∀ n i cur, p = .spin .dequeue n i cur → i < spinCycle →
      cur = low (word n) → ¬ Fits n) : Watched capacity s' := by
  have hsame : ∀ t', (s'.pc t').awaits capacity = (s.pc t').awaits capacity := by
    intro t'
    rw [hpc]
    by_cases he : t' = t
    · rw [he, Function.update_self, hp, hawake]
    · rw [Function.update_of_ne he]
  constructor
  case queued =>
    intro t' i
    rw [hwaiters, hsame]
    exact h.queued t' i
  case nodup => rw [hwaiters]; exact h.nodup
  case stale =>
    intro t' n i cur ht'
    rw [hpc] at ht'
    by_cases he : t' = t
    · rw [he, Function.update_self] at ht'
      exact hstale n i cur ht'
    · rw [Function.update_of_ne he] at ht'
      exact h.stale t' n i cur ht'
  case woken =>
    intro t' i ht'
    rw [hsame, hflag] at ht'
    obtain ⟨t₂, ht₂⟩ := h.woken t' i ht'
    refine ⟨t₂, ?_⟩
    rw [hpc, hflag, Function.update_of_ne fun he => ?_, ht₂]
    exact hdone i t' (he ▸ ht₂) ht'

/-- `FUTEX_WAIT` puts the thread to sleep. -/
theorem sleep {op : Op α} {n : ℕ} {cur : BitVec 32} (h : Watched capacity s)
    (hpc : s.pc t = .spin op n 0 cur) (horderly : Orderly capacity s (.step t))
    (hcur : low (s.flagVec (slot capacity n)) = cur) :
    Watched capacity {s.setPc t (.asleep op n cur) with
      waiters := Function.update s.waiters (slot capacity n) (s.waiters (slot capacity n) ++ [t])} := by
  simp only [Orderly, hpc] at horderly
  have hold : (s.pc t).awaits capacity = none := by rw [hpc]; rfl
  have hout : ∀ i, t ∉ s.waiters i := by
    intro i ht
    obtain ⟨v, hv⟩ := (h.queued t i).mp ht
    rw [hold] at hv
    cases hv
  constructor
  case queued =>
    intro t' i
    simp only [State.setPc]
    by_cases he : t' = t
    · subst he
      rw [Function.update_self]
      by_cases hi : i = slot capacity n
      · subst hi
        simp [Pc.awaits]
      · simp [Function.update_of_ne hi, Pc.awaits, hout i, Ne.symm hi]
    · rw [Function.update_of_ne he, ← h.queued t' i]
      by_cases hi : i = slot capacity n
      · subst hi
        simp [he]
      · simp [Function.update_of_ne hi]
  case nodup =>
    intro i
    by_cases hi : i = slot capacity n
    · subst hi
      simp only [Function.update_self]
      exact (h.nodup _).append (List.nodup_singleton t) (by simpa using hout _)
    · simp only [Function.update_of_ne hi]
      exact h.nodup i
  case stale =>
    intro t' m i cur' ht'
    simp only [State.setPc] at ht'
    by_cases he : t' = t
    · rw [he, Function.update_self] at ht'
      cases ht'
    · rw [Function.update_of_ne he] at ht'
      exact h.stale t' m i cur' ht'
  case woken =>
    intro t' i ht'
    simp only [State.setPc] at ht' ⊢
    have hkeep : ∀ t₂ v, (s.pc t₂).wakes capacity = some (i, v) →
        (Function.update s.pc t (.asleep op n cur) t₂).wakes capacity = some (i, v) := by
      intro t₂ v ht₂
      rw [Function.update_of_ne fun he => ?_, ht₂]
      rw [he, hpc] at ht₂
      cases ht₂
    by_cases he : t' = t
    · -- nobody waits for a version that is there
      exfalso
      rw [he, Function.update_self] at ht'
      simp only [Pc.awaits, Option.some.injEq, Prod.mk.injEq] at ht'
      obtain ⟨rfl, hversion⟩ := ht'
      cases op with
      | dequeue =>
        refine h.stale t n 0 cur hpc (by decide) ?_ (horderly hversion.symm)
        rw [← hcur, ← hversion]
        rfl
      | enqueue x => exact horderly hversion.symm hcur
    · rw [Function.update_of_ne he] at ht'
      obtain ⟨t₂, ht₂⟩ := h.woken t' i ht'
      exact ⟨t₂, hkeep t₂ _ ht₂⟩

/-- A version is stored, and its storer is now bound to wake. -/
theorem store {side : Side} {n : ℕ} {x : α} (h : Watched capacity s)
    (hpc : s.pc t = .store side n x) :
    Watched capacity {s.setPc t (.wake side n x) with
      flagVec := Function.update s.flagVec (slot capacity n) (storedVersion side n)} := by
  have hsame : ∀ t', (Function.update s.pc t (.wake side n x) t').awaits capacity =
      (s.pc t').awaits capacity := by
    intro t'
    by_cases he : t' = t
    · rw [he, Function.update_self, hpc]
      rfl
    · rw [Function.update_of_ne he]
  constructor
  case queued =>
    intro t' i
    simp only [State.setPc, hsame]
    exact h.queued t' i
  case nodup => exact h.nodup
  case stale =>
    intro t' m i cur ht'
    simp only [State.setPc] at ht'
    by_cases he : t' = t
    · rw [he, Function.update_self] at ht'
      cases ht'
    · rw [Function.update_of_ne he] at ht'
      exact h.stale t' m i cur ht'
  case woken =>
    intro t' i ht'
    simp only [State.setPc, hsame] at ht' ⊢
    by_cases hi : i = slot capacity n
    · subst hi
      exact ⟨t, by rw [Function.update_self, Function.update_self]; rfl⟩
    · rw [Function.update_of_ne hi] at ht' ⊢
      obtain ⟨t₂, ht₂⟩ := h.woken t' i ht'
      refine ⟨t₂, ?_⟩
      rw [Function.update_of_ne fun he => ?_, ht₂]
      rw [he, hpc] at ht₂
      cases ht₂

/-- The first waiter is woken. -/
theorem pop (h : Watched capacity s) (i : BitVec 64) : Watched capacity (futexWake s i) := by
  unfold futexWake
  split
  · exact h
  · next y rest hw =>
    have hmem : y ∈ s.waiters i := by rw [hw]; exact List.mem_cons_self
    obtain ⟨v, hy⟩ := (h.queued y i).mp hmem
    have hnodup := h.nodup i
    rw [hw, List.nodup_cons] at hnodup
    have hother : ∀ t', t' ≠ y → Function.update s.pc y (s.pc y).woken t' = s.pc t' :=
      fun t' he => Function.update_of_ne he _ _
    constructor
    case queued =>
      intro t' j
      simp only [State.setPc]
      by_cases he : t' = y
      · subst he
        simp only [Function.update_self, woken_awaits, reduceCtorEq, exists_false, iff_false]
        by_cases hj : j = i
        · subst hj
          simpa using hnodup.1
        · rw [Function.update_of_ne hj, h.queued t' j, hy]
          simp [Ne.symm hj]
      · rw [hother t' he, ← h.queued t' j]
        by_cases hj : j = i
        · subst hj
          simp [hw, he]
        · rw [Function.update_of_ne hj]
    case nodup =>
      intro j
      by_cases hj : j = i
      · subst hj
        simpa using hnodup.2
      · simpa [Function.update_of_ne hj] using h.nodup j
    case stale =>
      intro t' n j cur ht' hlt
      simp only [State.setPc] at ht'
      by_cases he : t' = y
      · rw [he, Function.update_self] at ht'
        cases hpc : s.pc y <;> rw [hpc] at hy ht' <;> cases hy
        cases ht'
        exact absurd hlt (lt_irrefl _)
      · rw [hother t' he] at ht'
        exact h.stale t' n j cur ht' hlt
    case woken =>
      intro t' j ht'
      simp only [State.setPc] at ht' ⊢
      by_cases he : t' = y
      · rw [he, Function.update_self, woken_awaits] at ht'
        cases ht'
      · rw [hother t' he] at ht'
        obtain ⟨t₂, ht₂⟩ := h.woken t' j ht'
        refine ⟨t₂, ?_⟩
        by_cases he₂ : t₂ = y
        · rw [he₂, Function.update_self, woken_wakes, ← he₂, ht₂]
        · rw [hother t₂ he₂, ht₂]

/-- After an orderly wake, nobody who waited for the version is asleep. -/
theorem wake {side : Side} {n : ℕ} {x : α} (h : Watched capacity s) (hpc : s.pc t = .wake side n x)
    (horderly : Orderly capacity s (.step t)) (p : Pc α) (hp : p.awaits capacity = none)
    (hspin : ∀ n i cur, p ≠ .spin .dequeue n i cur)
    (hpc' : s'.pc = Function.update (futexWake s (slot capacity n)).pc t p)
    (hflag : s'.flagVec = s.flagVec) (hwaiters : s'.waiters = (futexWake s (slot capacity n)).waiters) :
    Watched capacity s' := by
  simp only [Orderly, hpc] at horderly
  have hpop := h.pop (slot capacity n)
  have hstay : (futexWake s (slot capacity n)).pc t = .wake side n x := by
    rw [futexWake_pc s _ t (by rw [hpc]; rfl), hpc]
  refine hpop.move t p hpc' (by rw [hflag, futexWake_flagVec]) hwaiters (by rw [hstay]; rfl) ?_ hp
    fun m i cur hm => absurd hm (hspin m i cur)
  intro i t' hwakes hasleep
  rw [hstay, futexWake_flagVec] at hwakes
  simp only [Pc.wakes, Option.some.injEq, Prod.mk.injEq] at hwakes
  obtain ⟨rfl, hversion⟩ := hwakes
  rw [futexWake_flagVec] at hasleep
  -- a sleeper that is left is in the tail of the queue
  have hmem := (hpop.queued t' _).mpr ⟨_, hasleep⟩
  have htail : (futexWake s (slot capacity n)).waiters (slot capacity n) =
      (s.waiters (slot capacity n)).tail := by
    unfold futexWake
    split
    · next hw => rw [hw]; rfl
    · next y rest hw => simp [hw]
  rw [htail] at hmem
  have hsame : (s.pc t').awaits capacity = some (slot capacity n, s.flagVec (slot capacity n)) := by
    rcases futexWake_pc_or s (slot capacity n) t' with he | he
    · rw [← he, hasleep]
    · rw [he, woken_awaits] at hasleep
      cases hasleep
  exact horderly hversion.symm t' hmem hsame

theorem advance (h : Watched capacity s) (horderly : Orderly capacity s (.step t))
    (hs : advance capacity s t = some s') : Watched capacity s' := by
  cases hpc : s.pc t with
  | idle | asleep op n cur | failed n => simp [FreeLock.advance, hpc] at hs
  | bound op | missed op b | claim op m | miss op a | clear n x | put n x =>
    simp only [FreeLock.advance, hpc, Option.some.injEq] at hs
    subst hs
    exact h.move t _ rfl rfl rfl (by rw [hpc]; rfl) (by rw [hpc]; rintro i t' ⟨⟩) rfl
      (by simp)
  | ahead op b m | retest op m a | take n =>
    simp only [FreeLock.advance, hpc] at hs
    split at hs <;> cases hs <;>
      exact h.move t _ rfl rfl rfl (by rw [hpc]; rfl) (by rw [hpc]; rintro i t' ⟨⟩) rfl
        (by simp)
  | ticket op a =>
    simp only [FreeLock.advance, hpc, Option.some.injEq] at hs
    subst hs
    refine h.move t _ rfl rfl rfl (by rw [hpc]; rfl) (by rw [hpc]; rintro i t' ⟨⟩) rfl ?_
    intro n i cur hp hlt
    cases hp
    exact absurd hlt (lt_irrefl _)
  | spin op n i cur =>
    cases i with
    | zero =>
      simp only [FreeLock.advance, hpc, futexWait, Option.some.injEq] at hs
      subst hs
      split
      · next hcur => exact h.sleep hpc horderly hcur
      · refine h.move t _ rfl rfl rfl (by rw [hpc]; rfl) (by rw [hpc]; rintro i t' ⟨⟩) rfl ?_
        intro m i cur' hp hlt
        cases hp
        exact absurd hlt (lt_irrefl _)
    | succ i =>
      simp only [FreeLock.advance, hpc] at hs
      split at hs <;> cases hs
      · refine h.move t _ rfl rfl rfl (by rw [hpc]; rfl) (by rw [hpc]; rintro i t' ⟨⟩) ?_ ?_
        · cases op <;> rfl
        · cases op <;> simp [Op.begin]
      · next hnot =>
        refine h.move t _ rfl rfl rfl (by rw [hpc]; rfl) (by rw [hpc]; rintro i t' ⟨⟩) rfl ?_
        intro m j cur' hp _ hlow hfits
        cases hp
        exact hnot ((versionReady_read_iff _ _ _).mpr ⟨hlow, hfits⟩)
  | store side n x =>
    simp only [FreeLock.advance, hpc, Option.some.injEq] at hs
    subst hs
    exact h.store hpc
  | wake side n x =>
    simp only [FreeLock.advance, hpc, Option.some.injEq] at hs
    subst hs
    exact h.wake hpc horderly .idle rfl (by simp) rfl (by simp [State.setPc]) rfl

theorem call {op : Op α} (h : Watched capacity s) (hs : call s t op = some s') :
    Watched capacity s' := by
  unfold FreeLock.call at hs
  split at hs <;> cases hs
  next hpc =>
  exact h.move t _ rfl rfl rfl (by rw [hpc]; rfl) (by rw [hpc]; rintro i t' ⟨⟩) rfl
    (fun _ _ _ => nofun)

end Watched

/-! ### Whole runs -/

section Runs
variable [DecidableEq T]

/-- **Nobody is left behind in a run whose steps are all orderly.** -/
theorem not_leftBehind_of_orderly {capacity : BitVec 64} {s : State T α}
    (hs : (queue capacity T α).ReachedBy (fun s a _ => Orderly capacity s a) s) (t : T) :
    ¬ LeftBehind capacity s t := by
  have hwatched : Watched capacity s := by
    refine hs.induct (.start capacity) fun s a s' _ ih hstep horderly => ?_
    cases a with
    | call t op => exact ih.call hstep
    | step t => exact ih.advance horderly hstep
  exact hwatched.not_leftBehind

end Runs

/-- A reader sleeps while its item is on the way; the writer has just stored the version. -/
theorem not_leftBehind_wakePending : ∃ s : State (Fin 2) ℕ,
    (s.pc 1).awaits (word (2 ^ 1)) = some (0, s.flagVec 0) ∧ ¬ LeftBehind (word (2 ^ 1)) s 1 := by
  obtain ⟨s, hreach, hasleep⟩ := System.exists_reachedBy (queue (word (2 ^ 1)) (Fin 2) ℕ)
    (fun s a _ => Orderly (word (2 ^ 1)) s a)
    (.call 0 (.enqueue 10) :: List.replicate 8 (.step 0) ++
      .call 1 .dequeue :: List.replicate 107 (.step 1) ++ [.step 0])
    (fun s => (s.pc 1).awaits (word (2 ^ 1)) = some (0, s.flagVec 0)) (by decide +kernel)
  exact ⟨s, hasleep, not_leftBehind_of_orderly hreach 1⟩

/-- Two slots. Thread 0 draws write ticket 0 and is slow; thread 1 fills slot 1; thread 2
draws read ticket 0; thread 3 draws write ticket 2 and goes to sleep on slot 0 first,
then thread 2; thread 0 stores version 0 and wakes thread 3. -/
def overtakingSleeper {T : Type} (a b c d : T) : List (Action T ℕ) :=
  .call a (.enqueue 10) :: List.replicate 8 (.step a) ++
  .call b (.enqueue 11) :: List.replicate 10 (.step b) ++
  .call c .dequeue :: List.replicate 6 (.step c) ++
  .call d (.enqueue 12) :: List.replicate 107 (.step d) ++
  List.replicate 101 (.step c) ++ List.replicate 2 (.step a)

theorem leftBehind_reached : ∃ s : State (Fin 4) ℕ, (queue (word (2 ^ 1)) (Fin 4) ℕ).Reached s ∧
    LeftBehind (word (2 ^ 1)) s 2 := by
  obtain ⟨s, hreach, hasleep, hnone⟩ := System.exists_reachedBy (queue (word (2 ^ 1)) (Fin 4) ℕ)
    (fun _ _ _ => True) (overtakingSleeper 0 1 2 3) (fun s => (s.pc 2).awaits (word (2 ^ 1)) = some (0, s.flagVec 0) ∧
      ∀ t, (s.pc t).wakes (word (2 ^ 1)) ≠ some (0, s.flagVec 0)) (by decide +kernel)
  exact ⟨s, hreach, 0, hasleep, hnone⟩

end QuietFlow.FreeLock
