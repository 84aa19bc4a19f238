import QuietFlow.Queue.Versions

/-! The counters between calls.

An attempt that is under way has been counted in `ahead` and not yet in `missed` or as a
ticket. So with no call in progress the three counters of a side agree, whatever misses there
were, and the wrapped tests of the next call compare what is really in the queue. -/
namespace QuietFlow.FreeLock
open Runs

/-- `size_approx()`, from `read` and `write`. -/
def sizeApprox (capacity read write : BitVec 64) : BitVec 64 :=
  if isFull capacity read write then capacity else (write - read) &&& capacityBitmap capacity

variable {T α : Type} [DecidableEq T] {capacity : BitVec 64} {s s' : State T α} {t : T} {op : Op α} {k : ℕ}

variable (capacity) in
/-- A call alone passes both of its tests. -/
def Passes (s : State T α) (t : T) (op : Op α) : Prop :=
  ∃ s' a, (queue capacity T α).run s (.call t op :: List.replicate 5 (.step t)) = some s' ∧
    s'.pc t = .ticket op a

/-! ### Attempts under way -/

/-- The threads with an attempt on the side. -/
def UnderWay (s : State T α) (side : Side) (attempts : Finset T) : Prop :=
  ∀ t, t ∈ attempts ↔ (s.pc t).attempt ≠ none ∧ (s.pc t).side = some side

/-- Every attempt is a ticket, a miss or under way. -/
def Tallied (s : State T α) : Prop := ∀ side, ∃ attempts, UnderWay s side attempts ∧
  (s.cursor side).ahead = (s.cursor side).claimed + (s.cursor side).missed + attempts.card

namespace Tallied

/-- A call goes on without a new attempt, or with the one it has. -/
theorem move (h : Tallied s) (p : Pc α) (hpc : s'.pc = Function.update s.pc t p)
    (hcursor : s'.cursor = s.cursor)
    (hp : ∀ side, p.attempt ≠ none ∧ p.side = some side ↔
      (s.pc t).attempt ≠ none ∧ (s.pc t).side = some side) : Tallied s' := by
  intro side
  obtain ⟨attempts, hway, hcount⟩ := h side
  refine ⟨attempts, fun t' => ?_, by rw [hcursor]; exact hcount⟩
  rw [hway, hpc]
  by_cases ht : t' = t
  · rw [ht, Function.update_self, hp]
  · rw [Function.update_of_ne ht]

/-- The thread is, or is not, under way on its side after a step that counts the difference. -/
theorem turn (h : Tallied s) (p : Pc α) (side : Side) (c : Cursor)
    (hpc : s'.pc = Function.update s.pc t p) (hcursor : s'.cursor = Function.update s.cursor side c)
    (hother : ∀ other, other ≠ side → ¬ (p.attempt ≠ none ∧ p.side = some other) ∧
      ¬ ((s.pc t).attempt ≠ none ∧ (s.pc t).side = some other))
    (hcount : (c.ahead : ℤ) - c.claimed - c.missed - (if p.attempt ≠ none ∧ p.side = some side then 1 else 0) =
      ((s.cursor side).ahead : ℤ) - (s.cursor side).claimed - (s.cursor side).missed -
        (if (s.pc t).attempt ≠ none ∧ (s.pc t).side = some side then 1 else 0)) : Tallied s' := by
  intro side'
  obtain ⟨attempts, hway, htally⟩ := h side'
  by_cases hside : side' = side
  · subst hside
    rw [hcursor, Function.update_self]
    by_cases hnew : p.attempt ≠ none ∧ p.side = some side'
    · refine ⟨insert t attempts, fun t' => ?_, ?_⟩
      · rw [Finset.mem_insert, hway, hpc]
        by_cases ht : t' = t
        · rw [ht, Function.update_self]
          simp [hnew]
        · rw [Function.update_of_ne ht]
          simp [ht]
      · rw [if_pos hnew] at hcount
        by_cases hold : t ∈ attempts
        · rw [if_pos ((hway t).mp hold)] at hcount
          rw [Finset.insert_eq_of_mem hold]
          omega
        · rw [if_neg fun h => hold ((hway t).mpr h)] at hcount
          rw [Finset.card_insert_of_notMem hold]
          omega
    · refine ⟨attempts.erase t, fun t' => ?_, ?_⟩
      · rw [Finset.mem_erase, hway, hpc]
        by_cases ht : t' = t
        · rw [ht, Function.update_self]
          simp [hnew]
        · rw [Function.update_of_ne ht]
          simp [ht]
      · rw [if_neg hnew] at hcount
        by_cases hold : t ∈ attempts
        · rw [if_pos ((hway t).mp hold)] at hcount
          have hcard := Finset.card_erase_add_one hold
          omega
        · rw [if_neg fun h => hold ((hway t).mpr h)] at hcount
          rw [Finset.erase_eq_of_notMem hold]
          omega
  · obtain ⟨hnew, hold⟩ := hother side' hside
    rw [hcursor, Function.update_of_ne hside]
    refine ⟨attempts, fun t' => ?_, htally⟩
    rw [hway, hpc]
    by_cases ht : t' = t
    · rw [ht, Function.update_self]
      exact iff_of_false hold hnew
    · rw [Function.update_of_ne ht]

theorem wake (h : Tallied s) (i : BitVec 64) : Tallied (futexWake s i) := by
  unfold futexWake
  split
  · exact h
  · next x rest _ => exact h.move (s.pc x).woken rfl rfl fun side => by simp

theorem step {a : Action T α} (h : Tallied s) (hs : (queue capacity T α).step s a = some s') :
    Tallied s' := by
  cases a with
  | call t op =>
    simp only [queue, call] at hs
    split at hs <;> cases hs
    next hidle => exact h.move (.bound op) rfl rfl fun side => by simp [hidle, Pc.attempt]
  | step t =>
    simp only [queue] at hs
    cases hpc : s.pc t with
    | idle | asleep op n cur | failed n => simp [advance, hpc] at hs
    | claim op m =>
      simp only [advance, hpc, Option.some.injEq] at hs
      subst hs
      refine h.turn _ op.side _ rfl rfl (fun other hne => ⟨fun hp => hne ?_, by simp [hpc, Pc.attempt]⟩) ?_
      · exact (Option.some.inj hp.2).symm
      · simp [hpc, Pc.attempt, Pc.side]
        omega
    | miss op a =>
      simp only [advance, hpc, Option.some.injEq] at hs
      subst hs
      refine h.turn .idle op.side _ rfl rfl (fun other hne => ⟨by simp [Pc.attempt], fun hp => hne ?_⟩) ?_
      · rw [hpc] at hp
        exact (Option.some.inj hp.2).symm
      · simp [hpc, Pc.attempt, Pc.side]
        omega
    | ticket op a =>
      simp only [advance, hpc, Option.some.injEq] at hs
      subst hs
      refine h.turn (.spin op (s.cursor op.side).claimed spinCycle 0) op.side _ rfl rfl
        (fun other hne => ⟨by simp [Pc.attempt], fun hp => hne ?_⟩) ?_
      · rw [hpc] at hp
        exact (Option.some.inj hp.2).symm
      · simp [hpc, Pc.attempt, Pc.side]
        omega
    | wake side n x =>
      simp only [advance, hpc, Option.some.injEq] at hs
      subst hs
      have hpc' : (futexWake s (slot capacity n)).pc t = .wake side n x := by
        rw [futexWake_pc s _ t (by rw [hpc]; rfl), hpc]
      exact (h.wake (slot capacity n)).move .idle rfl rfl fun side => by simp [hpc', Pc.attempt]
    | spin op n i cur =>
      cases i with
      | zero =>
        simp only [advance, hpc, futexWait, Option.some.injEq] at hs
        subst hs
        split
        · exact h.move (.asleep op n cur) rfl rfl fun side => by simp [hpc, Pc.attempt]
        · exact h.move (.spin op n spinCycle cur) rfl rfl fun side => by simp [hpc, Pc.attempt]
      | succ i =>
        simp only [advance, hpc] at hs
        split at hs <;> cases hs
        · exact h.move (op.begin n) rfl rfl fun side => by rw [begin_attempt, hpc]; simp [Pc.attempt]
        · exact h.move _ rfl rfl fun side => by simp [hpc, Pc.attempt]
    | bound op | missed op b | clear n x | put n x | store side n x =>
      simp only [advance, hpc, Option.some.injEq] at hs
      subst hs
      exact h.move _ rfl rfl fun side => by simp [hpc, Pc.attempt]
    | ahead op b m | retest op m a | take n =>
      simp only [advance, hpc] at hs
      split at hs <;> cases hs <;>
        exact h.move _ rfl rfl fun side => by simp [hpc, Pc.attempt, Pc.side]

end Tallied

theorem tallied_of_reached (h : (queue capacity T α).Reached s) : Tallied s :=
  h.induct (I := Tallied) (fun side => ⟨∅, fun t => by simp [queue, start, Pc.attempt], rfl⟩)
    fun s a s' _ ih hs _ => ih.step hs

/-! ### No call in progress -/

/-- What the counters say between calls. -/
structure Exact (k : ℕ) (s : State T α) : Prop where
  settled : ∀ side, word (s.cursor side).ahead - word (s.cursor side).missed = word (s.cursor side).claimed
  size : (sizeApprox (word (2 ^ k)) (word (s.cursor .read).claimed) (word (s.cursor .write).claimed)).toNat =
    (s.cursor .write).claimed - (s.cursor .read).claimed
  dequeue : ∀ t, Passes (word (2 ^ k)) s t .dequeue ↔
    (s.cursor .write).claimed ≠ (s.cursor .read).claimed
  enqueue : ∀ t x, Passes (word (2 ^ k)) s t (.enqueue x) ↔
    (s.cursor .write).claimed - (s.cursor .read).claimed < 2 ^ k

/-- Alone, both tests see the same counters. -/
theorem passes_iff (hidle : s.pc t = .idle) : Passes capacity s t op ↔
    refused capacity op (s.cursor op.side).ahead (s.cursor op.side).missed
      (s.cursor op.side.other).claimed = false := by
  obtain ⟨s₁, hload, hpc, hcur, -⟩ := load_runs capacity op hidle
  have hsplit : (queue capacity T α).run s (.call t op :: List.replicate 5 (.step t)) =
      (queue capacity T α).run s₁ (List.replicate 3 (.step t)) := by
    rw [show 5 = 2 + 3 from rfl, List.replicate_add, ← List.cons_append, System.run_append, hload,
      Option.bind_some]
  rw [Passes, hsplit]
  constructor
  · rintro ⟨s₂, a, hrun, -⟩
    by_contra hrefused
    rw [Bool.not_eq_false] at hrefused
    have hahead : advance capacity s₁ t = some (s₁.setPc t .idle) := by
      simp [advance, hpc, hcur, hrefused]
    have hstop : (queue capacity T α).step (s₁.setPc t .idle) (.step t) = none := by
      simp [queue, advance, State.setPc]
    rw [run_step hahead] at hrun
    simp [System.runBy, hstop] at hrun
  · intro hpass
    obtain ⟨s₂, htest, hpc', -⟩ := test_runs (s := s₁) capacity op (by rw [hcur]; exact hpc)
      (by rw [hcur]; exact hpass)
    exact ⟨s₂, _, htest, hpc'⟩

theorem size_exact (hk' : k ≤ 63) {r w : ℕ} (hrw : r ≤ w) (hwr : w ≤ r + 2 ^ k) :
    (sizeApprox (word (2 ^ k)) (word r) (word w)).toNat = w - r := by
  have hle : 2 ^ k ≤ 2 ^ 63 := Nat.pow_le_pow_right (by decide) hk'
  have hpos : 0 < 2 ^ k := Nat.two_pow_pos k
  have hfull := isFull_iff (2 ^ k) w 0 r (by omega) (by omega)
  rw [show word w - word 0 = word w from BitVec.sub_zero _, Nat.zero_add] at hfull
  rw [sizeApprox]
  split
  · next h =>
    have h := hfull.mp h
    rw [word_toNat, Nat.mod_eq_of_lt (by omega)]
    omega
  · next h =>
    have hlt : w - r < 2 ^ k := by
      have hn := mt hfull.mpr h
      omega
    have hdiff : word w - word r = word (w - r) := by
      rw [show w = w - r + r by omega, word_add, BitVec.add_sub_cancel, Nat.add_sub_cancel]
    rw [hdiff, show word (w - r) &&& capacityBitmap (word (2 ^ k)) = slot (word (2 ^ k)) (w - r) from rfl,
      slot_eq hk', Nat.mod_eq_of_lt hlt, word_toNat, Nat.mod_eq_of_lt (by omega)]

/-- **The counters are exact between calls**, however many attempts have missed. -/
theorem exact_of_idle (hk : 1 ≤ k) (hk' : k ≤ 63)
    (h : (queue (word (2 ^ k)) T α).ReachedBy (fun _ _ s' => Bounded s') s)
    (hidle : ∀ t, s.pc t = .idle) : Exact k s := by
  have hle : 2 ^ k ≤ 2 ^ 63 := Nat.pow_le_pow_right (by decide) hk'
  obtain ⟨-, hadm, -⟩ := bounded_invariant hk hk' h
  have hrw := hadm.read_le_write
  have hwr := hadm.write_le_read
  have hahead : ∀ side, (s.cursor side).ahead = (s.cursor side).claimed + (s.cursor side).missed := by
    intro side
    obtain ⟨attempts, hway, hcount⟩ := tallied_of_reached h.reached side
    have hnone : attempts = ∅ := Finset.eq_empty_iff_forall_notMem.mpr fun t ht => by
      have hattempt := ((hway t).mp ht).1
      rw [hidle] at hattempt
      exact hattempt rfl
    simpa [hnone] using hcount
  refine ⟨fun side => ?_, size_exact hk' hrw hwr, fun t => ?_, fun t x => ?_⟩
  · rw [hahead, word_add, BitVec.add_sub_cancel]
  · rw [passes_iff (hidle t)]
    simp only [refused, Op.side, Side.other, hahead]
    rw [← Bool.not_eq_true, isEmpty_iff _ _ _ (by omega) (by omega)]
    omega
  · rw [passes_iff (hidle t)]
    simp only [refused, Op.side, Side.other, hahead]
    rw [← Bool.not_eq_true, isFull_iff _ _ _ _ (by omega) (by omega)]
    omega

/-- Two dequeues want one item, and one of them misses. -/
theorem exact_of_miss : ∃ s : State (Fin 2) ℕ, (s.cursor .read).missed = 1 ∧ Exact 1 s := by
  obtain ⟨s, hreach, hmissed, hidle⟩ := System.exists_reachedBy (queue (word (2 ^ 1)) (Fin 2) ℕ)
    (fun _ _ s' => Bounded s')
    (.call 0 (.enqueue 7) :: List.replicate 10 (.step 0) ++
      .call 0 .dequeue :: List.replicate 3 (.step 0) ++
      .call 1 .dequeue :: List.replicate 3 (.step 1) ++
      .step 0 :: List.replicate 3 (.step 1) ++ List.replicate 7 (.step 0))
    (fun s => (s.cursor .read).missed = 1 ∧ ∀ t, s.pc t = .idle) (by decide)
  exact ⟨s, hmissed, exact_of_idle le_rfl (by decide) hreach hidle⟩

end QuietFlow.FreeLock
