import QuietFlow.Queue.Wakeups

/-! What `TaskQueue::size` says.

`size` is `m_count` read as an unsigned word, and `m_count` is the registered consumers less the
signalled tasks. With no call under way nobody is registered, and every stored task is signalled:
`m_count` is the backlog negated. The two books that say so hold in every run, whatever the
counters reach. -/
namespace QuietFlow.TaskQueue
open Runs

/-- `size()`. -/
def State.size {T α : Type} (s : State T α) : BitVec 64 := BitVec.ofInt 64 s.mCount

/-- The items in the two inner queues. -/
def State.stored {T α : Type} (s : State T α) : ℕ := s.limitQueue.length + s.unlimitQueue.length

/-- An item of a call of `enqueue` that is not stored yet. -/
def offering {α : Type} : Pc α → ℤ
  | .offerLimit _ | .offerUnlimit _ => 1
  | _ => 0

/-- The call of `enqueue` that the step begins, if it begins one. -/
def Action.entered {T α : Type} : Action T α → ℕ
  | .enqueue _ _ => 1
  | _ => 0

/-- The calls of `enqueue` in a run. -/
def entered {T α : Type} (as : List (Action T α)) : ℕ := (as.map Action.entered).sum

/-- The items enqueued in a run and not dequeued. -/
def backlog {T α : Type} (as : List (Action T α)) (s : State T α) : ℕ := entered as - s.returned.length

section Books
variable {T α : Type} [Fintype T] {s s' : State T α} {t : T} {n : ℕ}

/-- From `s` to `s'`, with `n` calls of `enqueue` begun: the counter moves as the items and the
consumers do, and no item appears or disappears. -/
structure Books (n : ℕ) (s s' : State T α) : Prop where
  count : s'.mCount + s'.stored - census credit s'.pc = s.mCount + s.stored - census credit s.pc
  items : (s'.stored : ℤ) + s'.returned.length + census offering s'.pc =
    s.stored + s.returned.length + census offering s.pc + n

variable [DecidableEq T]

theorem Books.move {p q : Pc α} (hpc : s.pc t = p) (hpc' : s'.pc = Function.update s.pc t q)
    (hcount : s'.mCount + s'.stored + credit p = s.mCount + s.stored + credit q)
    (hitems : (s'.stored : ℤ) + s'.returned.length + offering q =
      s.stored + s.returned.length + offering p + n) : Books n s s' := by
  subst hpc
  constructor
  · rw [hpc', census_update]
    omega
  · rw [hpc', census_update]
    omega

/-- A step that leaves the queues and the counters alone. -/
theorem Books.quiet {p q : Pc α} (hpc : s.pc t = p) (hs : s' = s.setPc t q)
    (hcredit : credit p = credit q) (hoffering : offering p = offering q) : Books 0 s s' := by
  subst hs
  refine .move hpc rfl ?_ ?_
  · rw [hcredit]
    rfl
  · rw [hoffering, Nat.cast_zero, add_zero]
    rfl

theorem books_advance {capacity spinCycle : ℕ} (hs : advance capacity spinCycle s t = some s') :
    Books 0 s s' := by
  cases hpc : s.pc t with
  | idle | wakeOne | wakeMany h n | asleep => simp [advance, hpc] at hs
  | offerLimit x =>
    simp only [advance, hpc] at hs
    split at hs <;> cases hs
    · refine .move hpc rfl ?_ ?_ <;>
      · simp only [State.setPc, State.stored, credit, offering, List.length_append, List.length_singleton]
        omega
    · exact .quiet hpc rfl rfl rfl
  | offerUnlimit x =>
    simp only [advance, hpc, Option.some.injEq] at hs
    subst hs
    refine .move hpc rfl ?_ ?_ <;>
    · simp only [State.setPc, State.stored, credit, offering, List.length_append, List.length_singleton]
      omega
  | signal | withdraw =>
    simp only [advance, hpc, Option.some.injEq] at hs
    subst hs
    refine .move hpc rfl ?_ ?_ <;> split <;>
    · simp only [State.setPc, State.addCount, State.stored, credit, offering]
      omega
  | register | rejoin =>
    simp only [advance, hpc, Option.some.injEq] at hs
    subst hs
    refine .move hpc rfl ?_ ?_ <;>
    · simp only [State.setPc, State.addCount, State.stored, credit, offering]
      omega
  | checkSpin | checkCount | futexWait =>
    simp only [advance, hpc, Option.some.injEq] at hs
    subst hs
    refine .quiet hpc rfl ?_ ?_ <;> split <;> rfl
  | hold h =>
    simp only [advance, hpc, Option.some.injEq] at hs
    exact .quiet hpc hs.symm rfl rfl
  | holdIn h =>
    simp only [advance, hpc, Option.some.injEq] at hs
    subst hs
    refine .move hpc rfl ?_ ?_ <;> split <;>
      simp [State.setPc, State.addSpin, State.stored, credit, offering]
  | holdOut h =>
    simp only [advance, hpc, Option.some.injEq] at hs
    subst hs
    refine .move hpc rfl ?_ ?_ <;> split <;> cases h <;>
      simp [State.setPc, State.addSpin, Holder.resume, State.stored, credit, offering]
  | recount h =>
    simp only [advance, hpc, Option.some.injEq] at hs
    subst hs
    refine .quiet hpc rfl ?_ ?_ <;> split <;> cases h <;> rfl
  | takeLimit left =>
    simp only [advance, hpc] at hs
    split at hs <;> cases hs
    · exact .quiet hpc rfl rfl rfl
    · next x rest hqueue =>
      have hlength : s.limitQueue.length = rest.length + 1 := by rw [hqueue, List.length_cons]
      refine .move hpc rfl ?_ ?_ <;>
      · simp only [State.setPc, State.stored, credit, offering, hlength, List.length_append,
          List.length_singleton]
        omega
  | sizeUnlimit left =>
    simp only [advance, hpc] at hs
    split at hs <;> cases hs
    · exact .quiet hpc rfl rfl rfl
    · refine .quiet hpc rfl ?_ ?_ <;> cases left <;> rfl
  | takeUnlimit left =>
    simp only [advance, hpc] at hs
    split at hs <;> cases hs
    · refine .quiet hpc rfl ?_ ?_ <;> cases left <;> rfl
    · next x rest hqueue =>
      have hlength : s.unlimitQueue.length = rest.length + 1 := by rw [hqueue, List.length_cons]
      refine .move hpc rfl ?_ ?_ <;>
      · simp only [State.setPc, State.stored, credit, offering, hlength, List.length_append,
          List.length_singleton]
        omega

theorem books_refuse (hs : refuse s t = some s') : Books 0 s s' := by
  cases hpc : s.pc t with
  | offerLimit x | takeLimit left =>
    simp only [refuse, hpc, Option.some.injEq] at hs
    exact .quiet hpc hs.symm rfl rfl
  | sizeUnlimit left | takeUnlimit left =>
    simp only [refuse, hpc, Option.some.injEq] at hs
    refine .quiet hpc hs.symm ?_ ?_ <;> cases left <;> rfl
  | _ => simp [refuse, hpc] at hs

theorem books_enter {p : Pc α} (hs : enter s t p = some s') (hcredit : credit p = 0)
    (hoffering : offering p = n) : Books n s s' := by
  unfold enter at hs
  split at hs <;> cases hs
  next hpc =>
  refine .move hpc rfl ?_ ?_
  · rw [hcredit]
    rfl
  · rw [hoffering, show offering (.idle : Pc α) = 0 from rfl, add_zero]
    rfl

variable [DecidableEq α]

/-- Who sleeps is not registered, and stays so when woken. -/
theorem books_futexWake {woken : Finset T} {p next : Pc α} (hpc : s.pc t = p)
    (hs : futexWake s t n next woken = some s') (hasleep : p ≠ .asleep)
    (hcredit : credit p = credit next) (hoffering : offering p = offering next) : Books 0 s s' := by
  unfold futexWake at hs
  split at hs <;> cases hs
  next hwoken =>
  have hall : ∀ t ∈ woken, s.pc t = .asleep := fun t ht => by
    simpa [State.sleepers] using hwoken.1 ht
  have hout : t ∉ woken := fun ht => hasleep (hpc ▸ hall t ht)
  have hsame : ∀ f : Pc α → ℤ, f .rejoin = f .asleep → f p = f next →
      census f (Function.update (fun t' => if t' ∈ woken then Pc.rejoin else s.pc t') t next) =
        census f s.pc := by
    intro f hwake hnext
    rw [census_update, census_moveAll f s.pc woken .rejoin hall, if_neg hout, hpc, hwake, hnext]
    omega
  constructor
  · simp only [State.setPc, State.stored, hsame credit rfl hcredit]
  · simp only [State.setPc, State.stored, hsame offering rfl hoffering, Nat.cast_zero, add_zero]

theorem books_wake {woken : Finset T} (hs : wake s t woken = some s') : Books 0 s s' := by
  cases hpc : s.pc t with
  | wakeOne =>
    simp only [wake, hpc] at hs
    exact books_futexWake hpc hs (by simp) rfl rfl
  | wakeMany h n =>
    simp only [wake, hpc] at hs
    refine books_futexWake hpc hs (by simp) ?_ ?_ <;> cases h <;> rfl
  | _ => simp [wake, hpc] at hs

theorem books_step {capacity spinCycle : ℕ} {a : Action T α}
    (hs : (taskQueue capacity spinCycle T α).step s a = some s') : Books a.entered s s' := by
  cases a with
  | enqueue t item => exact books_enter hs rfl rfl
  | waitDequeue t => exact books_enter hs rfl rfl
  | step t => exact books_advance hs
  | refuse t => exact books_refuse hs
  | wake t woken => exact books_wake hs

theorem books_run {capacity spinCycle : ℕ} {as : List (Action T α)}
    (hs : (taskQueue capacity spinCycle T α).run s as = some s') : Books (entered as) s s' := by
  induction as generalizing s with
  | nil =>
    cases hs
    exact ⟨rfl, by rw [entered, List.map_nil, List.sum_nil, Nat.cast_zero, add_zero]⟩
  | cons a rest ih =>
    simp only [System.runBy, Option.bind_eq_some_iff, if_true] at hs
    obtain ⟨m, hstep, hrest⟩ := hs
    have hfirst := books_step hstep
    have hlater := ih hrest
    have hsum : (entered (a :: rest) : ℤ) = a.entered + entered rest := by
      rw [entered, List.map_cons, List.sum_cons, entered, Nat.cast_add]
    constructor
    · rw [hlater.count, hfirst.count]
    · rw [hlater.items, hfirst.items, hsum]
      omega

/-- With no call under way, the counter is the backlog negated. -/
theorem mCount_eq {capacity spinCycle : ℕ} {as : List (Action T α)}
    (hs : (taskQueue capacity spinCycle T α).run start as = some s) (hidle : ∀ t, s.pc t = .idle) :
    s.mCount = -(backlog as s : ℤ) ∧ s.stored = backlog as s := by
  have hbooks := books_run hs
  have hcredit : census credit s.pc = 0 := census_eq_zero fun t => by rw [hidle]; rfl
  have hoffering : census offering s.pc = 0 := census_eq_zero fun t => by rw [hidle]; rfl
  have hcredit₀ : census credit (start : State T α).pc = 0 := census_eq_zero fun t => rfl
  have hoffering₀ : census offering (start : State T α).pc = 0 := census_eq_zero fun t => rfl
  have hcount := hbooks.count
  have hitems := hbooks.items
  rw [hcredit, hcredit₀] at hcount
  rw [hoffering, hoffering₀] at hitems
  simp only [start, State.stored, List.length_nil] at hcount hitems
  rw [backlog, State.stored]
  omega

/-- **`size` is the backlog negated**, so it is the backlog exactly where there is none (or half
of all words). -/
theorem size_iff (capacity spinCycle : ℕ) {as : List (Action T α)}
    (hs : (taskQueue capacity spinCycle T α).run start as = some s) (hidle : ∀ t, s.pc t = .idle) :
    s.size.toNat = backlog as s ↔ backlog as s = 0 ∨ backlog as s = 2 ^ 63 := by
  rw [State.size, (mCount_eq hs hidle).1, BitVec.toNat_ofInt]
  omega

end Books

/-- One call of `enqueue`, with nobody to wake. -/
def enqueueOne : List (Action Unit ℕ) :=
  [.enqueue () 7, .step (), .step (), .step (), .step (), .wake () ∅]

theorem enqueued_one : ∃ s, (taskQueue 1 1 Unit ℕ).run start enqueueOne = some s ∧
    (∀ t, s.pc t = .idle) ∧ backlog enqueueOne s = 1 ∧ s.size = -1#64 := by
  have hrun : ((taskQueue 1 1 Unit ℕ).run start enqueueOne).any (fun s =>
      decide ((∀ t, s.pc t = .idle) ∧ backlog enqueueOne s = 1 ∧ s.size = -1#64)) = true := by decide
  obtain ⟨s, hs, h⟩ := (Option.any_eq_true _ _).mp hrun
  exact ⟨s, hs, of_decide_eq_true h⟩

/-- One item stored, and a size of `2^64 - 1`. -/
theorem size_one_item : ¬ ∀ (as : List (Action Unit ℕ)) (s : State Unit ℕ),
    (taskQueue 1 1 Unit ℕ).run start as = some s → (∀ t, s.pc t = .idle) →
      s.size.toNat = backlog as s := by
  intro h
  obtain ⟨s, hs, hidle, hbacklog, hsize⟩ := enqueued_one
  have heq := h _ s hs hidle
  rw [hbacklog, hsize] at heq
  exact absurd heq (by decide)

theorem size_iff_one : ∃ s, (taskQueue 1 1 Unit ℕ).run start enqueueOne = some s ∧
    (s.size.toNat = backlog enqueueOne s ↔ backlog enqueueOne s = 0 ∨ backlog enqueueOne s = 2 ^ 63) := by
  obtain ⟨s, hs, hidle, -⟩ := enqueued_one
  exact ⟨s, hs, size_iff 1 1 hs hidle⟩

end QuietFlow.TaskQueue
