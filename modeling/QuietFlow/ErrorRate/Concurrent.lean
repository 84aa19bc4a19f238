import QuietFlow.ErrorRate.Local
import QuietFlow.Runs.Census
import QuietFlow.Runs.System

/-! Concurrent calls on a `LocalErrorRate`.

A call loads `idx` for its bit and again for its word, writes with one `fetch_or` or `fetch_and`,
and only then moves `idx` on, so two calls may write the same bit. What that costs is exact: the
count falls short by the writes that found their bit already set (`errorCnt_iff`). Calls of
which no one begins while another is under way have no such write (`clear_of_apart`). -/
namespace QuietFlow.ErrorRate
open Align Runs
open FreeLock (word word_toNat word_add)

/-- Where a call is. -/
inductive Stage where
  | call
  /-- `op` is made of `idx`. -/
  | op (idx : BitVec 64)
  /-- The word is taken by a second load, `idx'`. -/
  | fetch (idx idx' : BitVec 64)
  | advance
  | returned
  deriving DecidableEq

/-- One atomic step of a call. -/
def exec (c : Call) (r : LocalErrorRate) : Stage → Option (LocalErrorRate × Stage)
  | .call => some (r, .op r.idx)
  | .op idx => some (r, .fetch idx r.idx)
  | .fetch idx idx' =>
    let w := wordIdx r.highBit idx'
    if h : w < r.container.length then
      some ({r with container := r.container.set w (c.fetch r.container[w] (c.op idx))}, .advance)
    else
      none
  | .advance => some ({r with idx := r.idx + 1}, .returned)
  | .returned => none

/-- A call makes the steps of `record` when no other is made between them. -/
theorem record_exec (c : Call) (r : LocalErrorRate) :
    r.record c = (exec c r .call).bind fun (r, p) => (exec c r p).bind fun (r, p) =>
      (exec c r p).bind fun (r, p) => (exec c r p).map Prod.fst := by
  by_cases h : wordIdx r.highBit r.idx < r.container.length <;>
    simp [exec, LocalErrorRate.record, h]

structure State (T : Type) where
  rate : LocalErrorRate
  pc : T → Call × Stage

section System
variable {T : Type} [DecidableEq T] (r : LocalErrorRate) (calls : T → Call)

def State.step (s : State T) (t : T) : Option (State T) :=
  (exec (s.pc t).1 s.rate (s.pc t).2).map fun (rate, p) =>
    ⟨rate, Function.update s.pc t ((s.pc t).1, p)⟩

/-- One call of each process, on the object `r`. -/
def concurrent : System (State T) T where
  start := ⟨r, fun t => (calls t, .call)⟩
  step := State.step

end System

/-- The cell that a call is about to write. -/
def Stage.cell (highBit : BitVec 32) : Stage → Option ℕ
  | .fetch idx idx' => some (64 * wordIdx highBit idx' + bitIdx idx)
  | _ => none

/-- The bit the step writes, if it writes one, is not set. -/
def Clear {T : Type} (s : State T) (t : T) (_ : State T) : Prop :=
  ∀ p ∈ (s.pc t).2.cell s.rate.highBit, cell s.rate.container p = false

/-- A call has written its outcome. -/
def Stage.wrote : Stage → Bool
  | .advance | .returned => true
  | _ => false

/-- A call has loaded `idx` and not moved it on. -/
def Stage.underWay : Stage → Bool
  | .op _ | .fetch _ _ | .advance => true
  | _ => false

/-- A call begins only when no other is under way. -/
def Apart {T : Type} (s : State T) (t : T) (_ : State T) : Prop :=
  (s.pc t).2 = .call → ∀ t', (s.pc t').2.underWay = false

/-! ### What is lost -/

/-- An error that is written. -/
def errorWritten (p : Call × Stage) : ℤ := if p.1 = .recordError ∧ p.2.wrote then 1 else 0

theorem errorWritten_eq {c : Call} {p : Stage} (h : p.wrote = true) :
    errorWritten (c, p) = c.outcome.toNat := by
  cases c <;> simp [errorWritten, h, Call.outcome]

theorem errorWritten_before {p : Call × Stage} (h : p.2.wrote = false) : errorWritten p = 0 := by
  simp [errorWritten, h]

section Balance
variable {T : Type} [DecidableEq T] [Fintype T] {j : ℕ} {calls : T → Call} {s s' : State T} {t : T}
  {ok : State T → T → State T → Prop}

/-- The parts of the object that never change, and the calls. -/
structure Shape (j : ℕ) (calls : T → Call) (s : State T) : Prop where
  length : s.rate.container.length = 2 ^ j
  highBit : s.rate.highBit.signExtend 64 = word (2 ^ j - 1)
  calls : ∀ t, (s.pc t).1 = calls t

omit [Fintype T] in
theorem step_eq (h : s.step t = some s') :
    ∃ r p, exec (s.pc t).1 s.rate (s.pc t).2 = some (r, p) ∧ s'.rate = r ∧
      s'.pc = Function.update s.pc t ((s.pc t).1, p) := by
  obtain ⟨⟨r, p⟩, hexec, hs⟩ := Option.map_eq_some_iff.mp h
  cases hs
  exact ⟨r, p, hexec, rfl, rfl⟩

/-- What a step does to the cells: a write puts the outcome of its call into one of them. -/
theorem exec_cells {c : Call} {r r' : LocalErrorRate} {p p' : Stage} (hj : j ≤ 24)
    (hlength : r.container.length = 2 ^ j) (hhigh : r.highBit.signExtend 64 = word (2 ^ j - 1))
    (h : exec c r p = some (r', p')) :
    r'.container.length = 2 ^ j ∧ r'.highBit = r.highBit ∧
    ((p.cell r.highBit = none ∧ r'.container = r.container ∧ p'.wrote = p.wrote) ∨
      ∃ i < 64 * 2 ^ j, p.cell r.highBit = some i ∧ p.wrote = false ∧ p'.wrote = true ∧
        cell r'.container = Function.update (cell r.container) i c.outcome) := by
  cases p with
  | call =>
    cases h
    exact ⟨hlength, rfl, .inl ⟨rfl, rfl, rfl⟩⟩
  | op idx =>
    cases h
    exact ⟨hlength, rfl, .inl ⟨rfl, rfl, rfl⟩⟩
  | fetch idx idx' =>
    have hw := wordIdx_lt hj hhigh idx'
    have hb := bitIdx_lt idx
    simp only [exec, hlength, hw, dif_pos, Option.some.injEq, Prod.mk.injEq] at h
    obtain ⟨rfl, rfl⟩ := h
    refine ⟨by rw [List.length_set, hlength], rfl, .inr ⟨_, by omega, rfl, rfl, rfl, ?_⟩⟩
    exact cell_fetch c _ idx
  | advance =>
    cases h
    exact ⟨hlength, rfl, .inl ⟨rfl, rfl, rfl⟩⟩
  | returned => cases h

/-- A step moves the count as it moves the errors written, unless it writes on a set bit. -/
theorem balance_step (hj : j ≤ 24) (hs : Shape j calls s) (h : s.step t = some s') :
    Shape j calls s' ∧ ∃ lost : ℕ, (lost = 0 → Clear s t s') ∧ (Clear s t s' → lost = 0) ∧
      (ones (cell s'.rate.container) (64 * 2 ^ j) : ℤ) + lost + census errorWritten s.pc =
        ones (cell s.rate.container) (64 * 2 ^ j) + census errorWritten s'.pc := by
  obtain ⟨r, p, hexec, hrate, hpc⟩ := step_eq h
  obtain ⟨hlength, hhigh, hcells⟩ := exec_cells hj hs.length hs.highBit hexec
  have hshape : Shape j calls s' := by
    refine ⟨by rw [hrate, hlength], by rw [hrate, hhigh, hs.highBit], fun t' => ?_⟩
    rw [hpc]
    by_cases ht : t' = t
    · rw [ht, Function.update_self, hs.calls]
    · rw [Function.update_of_ne ht, hs.calls]
  refine ⟨hshape, ?_⟩
  rw [hpc, census_update, hrate]
  obtain ⟨hcell, hcontainer, hwrote⟩ | ⟨i, hi, hcell, hbefore, hafter, hcells⟩ := hcells
  · refine ⟨0, fun _ i hi => ?_, fun _ => rfl, ?_⟩
    · rw [hcell] at hi
      cases hi
    · simp only [hcontainer, errorWritten, hwrote]
      omega
  · refine ⟨(cell s.rate.container i).toNat, fun hzero i' hi' => ?_, fun hclear => ?_, ?_⟩
    · rw [hcell] at hi'
      cases hi'
      simpa using hzero
    · rw [hclear i hcell]
      rfl
    · have hones := ones_update (f := cell s.rate.container) hi (s.pc t).1.outcome
      rw [hcells, errorWritten_eq hafter, errorWritten_before hbefore]
      omega

omit [Fintype T] in
theorem start_shape (calls : T → Call) (hj : j ≤ 24) :
    Shape j calls (concurrent (fresh j) calls).start :=
  ⟨(records_fresh hj).length, (records_fresh hj).highBit, fun _ => rfl⟩

theorem start_balance (calls : T → Call) (j : ℕ) :
    ones (cell (concurrent (fresh j) calls).start.rate.container) (64 * 2 ^ j) = 0 ∧
      census errorWritten (concurrent (fresh j) calls).start.pc = 0 := by
  refine ⟨?_, census_eq_zero fun _ => errorWritten_before rfl⟩
  rw [concurrent, cell_fresh, ones, List.countP_eq_zero]
  exact fun _ _ => Bool.false_ne_true

/-- Along every run, the count and what was lost are the errors written. -/
theorem balance (hj : j ≤ 24) (hr : (concurrent (fresh j) calls).Reached s) :
    Shape j calls s ∧ ∃ lost : ℕ, (lost = 0 → (concurrent (fresh j) calls).ReachedBy Clear s) ∧
      (ones (cell s.rate.container) (64 * 2 ^ j) : ℤ) + lost = census errorWritten s.pc := by
  refine hr.induct (I := fun s => Shape j calls s ∧ ∃ lost : ℕ,
    (lost = 0 → (concurrent (fresh j) calls).ReachedBy Clear s) ∧
      (ones (cell s.rate.container) (64 * 2 ^ j) : ℤ) + lost = census errorWritten s.pc)
    ⟨start_shape calls hj, 0, fun _ => .start, ?_⟩ fun s t s' _ ih hstep _ => ?_
  · have hstart := start_balance calls j
    rw [hstart.1, hstart.2]
    rfl
  · obtain ⟨hs, lost, hclear, hbalance⟩ := ih
    obtain ⟨hs', more, hmore, -, hstepped⟩ := balance_step hj hs hstep
    refine ⟨hs', lost + more, fun hzero => ?_, by push_cast; omega⟩
    exact .step (hclear (by omega)) hstep (hmore (by omega))

/-- Where every write found its bit clear, nothing is lost. -/
theorem balance_clear (hj : j ≤ 24) (hr : (concurrent (fresh j) calls).ReachedBy Clear s) :
    Shape j calls s ∧ (ones (cell s.rate.container) (64 * 2 ^ j) : ℤ) = census errorWritten s.pc := by
  refine hr.induct (I := fun s => Shape j calls s ∧
    (ones (cell s.rate.container) (64 * 2 ^ j) : ℤ) = census errorWritten s.pc)
    ⟨start_shape calls hj, ?_⟩ fun s t s' _ ih hstep hok => ?_
  · have hstart := start_balance calls j
    rw [hstart.1, hstart.2]
    rfl
  · obtain ⟨hs, hbalance⟩ := ih
    obtain ⟨hs', more, -, hclear, hstepped⟩ := balance_step hj hs hstep
    have := hclear hok
    exact ⟨hs', by omega⟩

/-- The calls that record an error. -/
def errors (calls : T → Call) : ℕ := (Finset.univ.filter fun t => calls t = .recordError).card

omit [DecidableEq T] in
theorem census_returned (hs : Shape j calls s) (hreturned : ∀ t, (s.pc t).2 = .returned) :
    census errorWritten s.pc = errors calls := by
  rw [errors, ← census_ite (· = Call.recordError) calls]
  refine Finset.sum_congr rfl fun t _ => ?_
  simp [errorWritten, hs.calls, hreturned, Stage.wrote]

/-- **What concurrent calls count**: once all calls have returned, the count is the number of
errors exactly where every `fetch_or` and `fetch_and` found its bit clear. -/
theorem errorCnt_iff (bitSize : BitVec 32) (h : 33 ≤ bitSize.toNat) (h' : bitSize.toNat ≤ 2 ^ 30)
    {r : LocalErrorRate} (hmake : LocalErrorRate.make bitSize = some r) (calls : T → Call)
    (hr : (concurrent r calls).Reached s) (hreturned : ∀ t, (s.pc t).2 = .returned) :
    s.rate.errorCnt = some (errors calls) ↔ (concurrent r calls).ReachedBy Clear s := by
  obtain ⟨j, hj, -, hfresh⟩ := make_eq h h'
  obtain rfl := Option.some_inj.mp (hfresh.symm.trans hmake)
  obtain ⟨hs, lost, hclear, hbalance⟩ := balance hj hr
  have hcnt : s.rate.errorCnt = some (ones (cell s.rate.container) (64 * 2 ^ j)) := by
    rw [LocalErrorRate.errorCnt, errorCntLoop_eq hj hs.length hs.highBit]
  have herrors := census_returned hs hreturned
  rw [hcnt, Option.some_inj]
  refine ⟨fun heq => hclear (by omega), fun hby => ?_⟩
  have := (balance_clear hj hby).2
  omega

end Balance

/-! ### Calls that are apart -/

section Apart
variable {T : Type} [DecidableEq T] [Fintype T] {j : ℕ} {calls : T → Call} {s s' : State T} {t : T}

/-- What a call has loaded and still uses. -/
def Stage.loads : Stage → List (BitVec 64)
  | .op idx => [idx]
  | .fetch idx idx' => [idx, idx']
  | _ => []

def returned (s : State T) : ℕ := (Finset.univ.filter fun t => (s.pc t).2 = .returned).card

/-- The cells behind `idx` are clear, but for the one that the call under way has written. -/
structure Orderly (j : ℕ) (s : State T) : Prop where
  idx : s.rate.idx = word (returned s)
  beyond : ∀ p, returned s ≤ p → p < 64 * 2 ^ j → cell s.rate.container p = true →
    p = returned s ∧ ∃ t, (s.pc t).2 = .advance
  alone : ∀ t t', (s.pc t).2.underWay = true → (s.pc t').2.underWay = true → t = t'
  loads : ∀ t, ∀ i ∈ (s.pc t).2.loads, i = word (returned s)

theorem loads_underWay {p : Stage} {i : BitVec 64} (h : i ∈ p.loads) : p.underWay = true := by
  cases p with
  | op _ | fetch _ _ => rfl
  | call | advance | returned => cases h

omit [DecidableEq T] in
theorem returned_lt (hcard : Fintype.card T ≤ 64 * 2 ^ j) (h : (s.pc t).2 ≠ .returned) :
    returned s < 64 * 2 ^ j :=
  lt_of_lt_of_le (Finset.card_lt_univ_of_notMem (x := t) (by simp [h])) hcard

/-- The number of returned calls after a step that ends none. -/
theorem returned_same {p : Stage} (hp : p ≠ .returned) (h : (s.pc t).2 ≠ .returned)
    (hpc : s'.pc = Function.update s.pc t ((s.pc t).1, p)) : returned s' = returned s := by
  rw [returned, returned, hpc]
  congr 1
  ext t'
  by_cases ht : t' = t
  · subst ht
    simp [hp, h]
  · simp [Function.update_of_ne ht]

theorem returned_succ (h : (s.pc t).2 ≠ .returned)
    (hpc : s'.pc = Function.update s.pc t ((s.pc t).1, .returned)) : returned s' = returned s + 1 := by
  have hnot : t ∉ Finset.univ.filter fun t => (s.pc t).2 = .returned := by simp [h]
  rw [returned, returned, hpc, ← Finset.card_insert_of_notMem hnot]
  congr 1
  ext t'
  by_cases ht : t' = t
  · subst ht
    simp
  · simp [ht]

omit [DecidableEq T] in
/-- No call but the one that steps is under way. -/
theorem Orderly.sole (ho : Orderly j s) (hok : Apart s t s') (h : (s.pc t).2 ≠ .returned) {t' : T}
    (ht : t' ≠ t) : (s.pc t').2.underWay = false := by
  by_cases hcall : (s.pc t).2 = .call
  · exact hok hcall t'
  · have hway : (s.pc t).2.underWay = true := by
      cases hp : (s.pc t).2 <;> first | rfl | contradiction
    by_contra hother
    exact ht (ho.alone t' t (by simpa using hother) hway)

theorem start_orderly (calls : T → Call) : Orderly j (concurrent (fresh j) calls).start where
  idx := by
    have hnone : returned (concurrent (fresh j) calls).start = 0 := by
      rw [returned, Finset.card_eq_zero, Finset.filter_eq_empty_iff]
      exact fun t _ h => nomatch h
    rw [hnone]
    rfl
  beyond p _ _ h := by
    rw [concurrent, cell_fresh] at h
    cases h
  alone _ _ h := nomatch h
  loads _ _ h := nomatch h

/-- A step of the only call under way. -/
theorem Orderly.moved {p : Stage} (hsole : ∀ t' ≠ t, (s.pc t').2.underWay = false)
    (hpc : s'.pc = Function.update s.pc t ((s.pc t).1, p)) (hidx : s'.rate.idx = word (returned s'))
    (hbeyond : ∀ i, returned s' ≤ i → i < 64 * 2 ^ j → cell s'.rate.container i = true →
      i = returned s' ∧ p = .advance)
    (hloads : ∀ i ∈ p.loads, i = word (returned s')) : Orderly j s' := by
  have hself : (s'.pc t).2 = p := by rw [hpc, Function.update_self]
  have hother : ∀ t' ≠ t, (s'.pc t').2.underWay = false := by
    intro t' ht
    rw [hpc, Function.update_of_ne ht]
    exact hsole t' ht
  have hway : ∀ t', (s'.pc t').2.underWay = true → t' = t := by
    intro t' h
    by_contra ht
    rw [hother t' ht] at h
    cases h
  refine ⟨hidx, fun i hle hlt hcell => ?_, fun t₁ t₂ h₁ h₂ => ?_, fun t' i hi => ?_⟩
  · obtain ⟨rfl, hadvance⟩ := hbeyond i hle hlt hcell
    exact ⟨rfl, t, hself.trans hadvance⟩
  · rw [hway t₁ h₁, hway t₂ h₂]
  · obtain rfl := hway t' (loads_underWay hi)
    rw [hself] at hi
    exact hloads i hi

omit [DecidableEq T] [Fintype T] in
theorem exec_fetch {c : Call} {r r' : LocalErrorRate} {idx idx' : BitVec 64} {p : Stage}
    (h : exec c r (.fetch idx idx') = some (r', p)) : p = .advance ∧ r'.idx = r.idx := by
  simp only [exec, Option.dite_none_right_eq_some, Option.some.injEq, Prod.mk.injEq] at h
  obtain ⟨-, rfl, rfl⟩ := h
  exact ⟨rfl, rfl⟩

/-- A call that begins when no other is under way writes the cell behind `idx`, which is clear. -/
theorem apart_step (hj : j ≤ 24) (hcard : Fintype.card T ≤ 64 * 2 ^ j) (hs : Shape j calls s)
    (ho : Orderly j s) (h : s.step t = some s') (hok : Apart s t s') :
    Orderly j s' ∧ Clear s t s' := by
  obtain ⟨r, p, hexec, hrate, hpc⟩ := step_eq h
  have hnot : (s.pc t).2 ≠ .returned := by
    intro hret
    rw [hret] at hexec
    cases hexec
  have hsole : ∀ t' ≠ t, (s.pc t').2.underWay = false := fun t' ht => ho.sole hok hnot ht
  have hlt := returned_lt hcard hnot
  have hquiet : (s.pc t).2 ≠ .advance → ∀ i, returned s ≤ i → i < 64 * 2 ^ j →
      cell s.rate.container i = false := by
    intro hadvance i hle hi
    by_contra hcell
    obtain ⟨-, t', ht'⟩ := ho.beyond i hle hi (by simpa using hcell)
    by_cases ht : t' = t
    · exact hadvance (ht ▸ ht')
    · have := hsole t' ht
      rw [ht'] at this
      cases this
  cases hstage : (s.pc t).2 with
  | call =>
    rw [hstage] at hexec
    obtain ⟨rfl, rfl⟩ := Prod.mk.inj (Option.some.inj hexec)
    have hsame := returned_same (by nofun) hnot hpc
    refine ⟨Orderly.moved hsole hpc (by rw [hrate, hsame, ho.idx]) (fun i hle hi hcell => ?_) ?_, ?_⟩
    · rw [hrate, hquiet (by rw [hstage]; nofun) i (hsame ▸ hle) hi] at hcell
      cases hcell
    · simp [Stage.loads, hsame, ho.idx]
    · simp [Clear, hstage, Stage.cell]
  | op idx =>
    rw [hstage] at hexec
    obtain ⟨rfl, rfl⟩ := Prod.mk.inj (Option.some.inj hexec)
    have hsame := returned_same (by nofun) hnot hpc
    have hload := ho.loads t idx (by simp [hstage, Stage.loads])
    refine ⟨Orderly.moved hsole hpc (by rw [hrate, hsame, ho.idx]) (fun i hle hi hcell => ?_) ?_, ?_⟩
    · rw [hrate, hquiet (by rw [hstage]; nofun) i (hsame ▸ hle) hi] at hcell
      cases hcell
    · simp [Stage.loads, hsame, ho.idx, hload]
    · simp [Clear, hstage, Stage.cell]
  | fetch idx idx' =>
    have hsame : p ≠ .returned → returned s' = returned s := fun hp => returned_same hp hnot hpc
    have hload := ho.loads t idx (by simp [hstage, Stage.loads])
    have hload' := ho.loads t idx' (by simp [hstage, Stage.loads])
    have hcell : (Stage.fetch idx idx').cell s.rate.highBit = some (returned s) := by
      rw [Stage.cell, hload, hload', wordIdx_eq hj hs.highBit, bitIdx_eq, ringIdx_eq hj,
        Nat.mod_eq_of_lt hlt]
    have hclear := hquiet (by rw [hstage]; nofun) (returned s) le_rfl hlt
    obtain ⟨-, -, hcells⟩ := exec_cells hj hs.length hs.highBit hexec
    rw [hstage, hcell] at hcells
    obtain ⟨hnone, -⟩ | ⟨i, -, hi, -, -, hupdate⟩ := hcells
    · cases hnone
    cases hi
    have hfetch := exec_fetch (hstage ▸ hexec)
    obtain rfl := hfetch.1
    refine ⟨Orderly.moved hsole hpc ?_ (fun i hle hi hset => ⟨?_, rfl⟩) (by nofun), ?_⟩
    · rw [hrate, hfetch.2, hsame (by nofun), ho.idx]
    · by_contra hne
      rw [hsame (by nofun)] at hle hne
      rw [hrate, hupdate, Function.update_of_ne hne] at hset
      rw [hquiet (by rw [hstage]; nofun) i hle hi] at hset
      cases hset
    · intro i hi
      rw [hstage, hcell] at hi
      cases hi
      exact hclear
  | advance =>
    rw [hstage] at hexec
    obtain ⟨rfl, rfl⟩ := Prod.mk.inj (Option.some.inj hexec)
    have hsucc := returned_succ hnot hpc
    refine ⟨Orderly.moved hsole hpc ?_ (fun i hle hi hcell => ?_) (by nofun), ?_⟩
    · rw [hrate, hsucc, word_add, ← ho.idx]
      rfl
    · rw [hrate] at hcell
      have := (ho.beyond i (by omega) hi hcell).1
      omega
    · simp [Clear, hstage, Stage.cell]
  | returned => exact absurd hstage hnot

/-- **Calls that are apart lose nothing**: up to a window of calls, of which no one begins while
another is under way, write on clear bits only. -/
theorem clear_of_apart (hj : j ≤ 24) (hcard : Fintype.card T ≤ 64 * 2 ^ j)
    (hr : (concurrent (fresh j) calls).ReachedBy Apart s) :
    (concurrent (fresh j) calls).ReachedBy Clear s := by
  have horderly : ∀ {s}, (concurrent (fresh j) calls).ReachedBy Apart s → Shape j calls s ∧ Orderly j s := by
    intro s hr
    refine hr.induct (I := fun s => Shape j calls s ∧ Orderly j s)
      ⟨start_shape calls hj, start_orderly calls⟩ fun s t s' _ ⟨hs, ho⟩ hstep hok => ?_
    exact ⟨(balance_step hj hs hstep).1, (apart_step hj hcard hs ho hstep hok).1⟩
  refine hr.mono fun s t s' hr hstep hok => ?_
  obtain ⟨hs, ho⟩ := horderly hr
  exact (apart_step hj hcard hs ho hstep hok).2

end Apart

/-! ### Two errors on one bit -/

theorem make_64 : LocalErrorRate.make 64#32 = some (fresh 0) := by decide

/-- Both calls load `idx` before either moves it on. -/
theorem two_returned : ∃ s : State (Fin 2),
    (concurrent (fresh 0) fun _ => .recordError).Reached s ∧ (∀ t, (s.pc t).2 = .returned) ∧
    s.rate.container = [1] := by
  have hrun := System.exists_reachedBy (concurrent (fresh 0) fun _ : Fin 2 => .recordError)
    (fun _ _ _ => True) [0, 0, 1, 1, 0, 1, 0, 1]
    (fun s => (∀ t, (s.pc t).2 = .returned) ∧ s.rate.container = [1]) (by decide)
  obtain ⟨s, hr, hreturned, hcontainer⟩ := hrun
  exact ⟨s, hr, hreturned, hcontainer⟩

/-- Of two errors one is counted. -/
theorem error_lost : ∃ r, LocalErrorRate.make 64#32 = some r ∧
    ∃ s : State (Fin 2), (concurrent r fun _ => .recordError).Reached s ∧
      (∀ t, (s.pc t).2 = .returned) ∧ s.rate.errorCnt ≠ some (errors fun _ : Fin 2 => .recordError) := by
  obtain ⟨s, hr, hreturned, hcontainer⟩ := two_returned
  refine ⟨_, make_64, s, hr, hreturned, ?_⟩
  obtain ⟨hs, -⟩ := balance (by decide) hr
  rw [LocalErrorRate.errorCnt, errorCntLoop_eq (by decide) hs.length hs.highBit, hcontainer]
  decide

/-- The same two calls: the count is short, so some write found its bit set. -/
theorem errorCnt_iff_two : ∃ s : State (Fin 2),
    (concurrent (fresh 0) fun _ => .recordError).Reached s ∧
    (s.rate.errorCnt = some (errors fun _ : Fin 2 => .recordError) ↔
      (concurrent (fresh 0) fun _ => .recordError).ReachedBy Clear s) := by
  obtain ⟨s, hr, hreturned, -⟩ := two_returned
  exact ⟨s, hr, errorCnt_iff 64#32 (by decide) (by decide) make_64 (fun _ => .recordError) hr hreturned⟩

end QuietFlow.ErrorRate
