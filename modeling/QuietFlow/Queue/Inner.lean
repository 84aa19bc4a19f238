import QuietFlow.Runs.Crew

/-! The two queues inside the task queue.

`inner_enqueue` puts what the bounded queue refuses into `UnLimitQueue`, a locked queue whose
size is counted in `inner_size` after the lock is released; `inner_dequeue` looks behind the
lock only when the count is not zero. The bounded queue's operations are single steps, and so
is a mutex section. A counter is kept as the sum of its increments; the code sees its 64-bit
word. What was accepted and what was returned is read off the results of the calls, which are
recorded beside the store as the calls return. -/
namespace QuietFlow.TaskQueue.Inner
open Runs

/-- `std::deque<void*>::max_size()`, at which a push throws. -/
def maxSize : ℕ := 2 ^ 60 - 1

structure Store (α : Type) where
  limitQueue : List α
  innerQueue : List α
  innerSize : ℤ

/-- What a call returned. -/
inductive Result (α : Type) where
  /-- `inner_enqueue` returned true. -/
  | enqueued (item : α)
  /-- `inner_dequeue` returned true and set its `*item`, or it returned false. -/
  | dequeued (item : Option α)
  deriving DecidableEq

/-- Where a thread stands; each constructor is named after the access it makes next. -/
inductive Pc (α : Type) where
  /-- What the last call returned. -/
  | idle (result : Option (Result α))
  -- `inner_enqueue`
  | offer (item : α)
  | push (item : α)
  | countPush (item : α)
  -- `inner_dequeue`
  | take
  | load
  | pop
  | countPop (item : α)
  deriving DecidableEq

inductive Act (α : Type) where
  | enqueue (item : α)
  | dequeue
  | step
  deriving DecidableEq

variable {α : Type}

/-- `UnLimitQueue::size_approx()`. -/
def Store.sizeApprox (s : Store α) : BitVec 64 := BitVec.ofInt 64 s.innerSize

def exec (capacity : ℕ) (s : Store α) : Pc α → Act α → Option (Store α × Pc α)
  | .idle _, .enqueue item => some (s, .offer item)
  | .idle _, .dequeue => some (s, .take)
  | .offer item, .step =>
    if s.limitQueue.length < capacity then
      some ({s with limitQueue := s.limitQueue ++ [item]}, .idle (some (.enqueued item)))
    else some (s, .push item)
  | .push item, .step =>
    if s.innerQueue.length < maxSize then
      some ({s with innerQueue := s.innerQueue ++ [item]}, .countPush item)
    else none
  | .countPush item, .step =>
    some ({s with innerSize := s.innerSize + 1}, .idle (some (.enqueued item)))
  | .take, .step =>
    match s.limitQueue with
    | [] => some (s, .load)
    | item :: rest => some ({s with limitQueue := rest}, .idle (some (.dequeued (some item))))
  | .load, .step => if s.sizeApprox > 0 then some (s, .pop) else some (s, .idle (some (.dequeued none)))
  | .pop, .step =>
    match s.innerQueue with
    | [] => some (s, .idle (some (.dequeued none)))
    | item :: rest => some ({s with innerQueue := rest}, .countPop item)
  | .countPop item, .step =>
    some ({s with innerSize := s.innerSize + -1}, .idle (some (.dequeued (some item))))
  | _, _ => none

/-! ### What the calls return -/

/-- The result of a call that ends in this place. -/
def Pc.result : Pc α → Option (Result α)
  | .idle result => result
  | _ => none

def Result.accepted : Result α → Option α
  | .enqueued item => some item
  | .dequeued _ => none

def Result.got : Result α → Option α
  | .enqueued _ => none
  | .dequeued item => item

/-- The store, with the results of all calls that have returned. -/
structure Recorded (α : Type) where
  store : Store α
  results : List (Result α)

/-- The items that calls of `inner_enqueue` have accepted. -/
def Recorded.accepted (x : Recorded α) : List α := x.results.filterMap Result.accepted

/-- The items that calls of `inner_dequeue` have returned. -/
def Recorded.returned (x : Recorded α) : List α := x.results.filterMap Result.got

def inner (capacity : ℕ) (α : Type) : Crew (Recorded α) (Pc α) (Act α) where
  start := ⟨⟨[], [], 0⟩, []⟩
  place := .idle none
  exec x p a := (exec capacity x.store p a).map fun (s, p') => (⟨s, x.results ++ p'.result.toList⟩, p')

/-- A push that is not yet counted. -/
def pushing : Pc α → List α
  | .countPush item => [item]
  | _ => []

/-- A pop that is not yet counted. -/
def popping : Pc α → List α
  | .countPop item => [item]
  | _ => []

section Step
variable {capacity : ℕ} {s s' : Store α} {p p' : Pc α} {a : Act α}

theorem exec_of_inner {x x' : Recorded α} (h : (inner capacity α).exec x p a = some (x', p')) :
    exec capacity x.store p a = some (x'.store, p') ∧ x'.results = x.results ++ p'.result.toList := by
  obtain ⟨⟨s, q⟩, hexec, hx⟩ := Option.map_eq_some_iff.mp h
  cases hx
  exact ⟨hexec, rfl⟩

/-- One step keeps the items: those in the queues, in the hands of a pop, not yet accepted. -/
theorem items_step [DecidableEq α] (h : exec capacity s p a = some (s', p')) (item : α) :
    (s'.limitQueue.count item + s'.innerQueue.count item + (popping p').count item
        + (p'.result.toList.filterMap Result.got).count item : ℤ) - (pushing p').count item
        - (p'.result.toList.filterMap Result.accepted).count item =
      s.limitQueue.count item + s.innerQueue.count item + (popping p).count item
        - (pushing p).count item := by
  unfold exec at h
  split at h <;> try split at h
  all_goals cases h
  all_goals simp_all [pushing, popping, Pc.result, Result.got, Result.accepted, List.filterMap_cons, List.count_cons]
  all_goals omega

theorem size_step (h : exec capacity s p a = some (s', p')) :
    s'.innerSize - s'.innerQueue.length + ((pushing p').length - (popping p').length) =
      s.innerSize - s.innerQueue.length + ((pushing p).length - (popping p).length) := by
  unfold exec at h
  split at h <;> try split at h
  all_goals cases h
  all_goals simp_all [pushing, popping]
  all_goals omega

theorem length_step (h : exec capacity s p a = some (s', p')) (hle : s.innerQueue.length ≤ maxSize) :
    s'.innerQueue.length ≤ maxSize := by
  unfold exec at h
  split at h <;> try split at h
  all_goals cases h
  all_goals simp_all
  all_goals omega

end Step

/-! ### Between calls -/

section Runs
variable {T : Type} [DecidableEq T] {capacity : ℕ}

/-- What a call of `inner_dequeue` returns when no other call is in progress. -/
def Answers (capacity : ℕ) (s : Crew.Config (Recorded α) (Pc α) T) (t : T) (result : Option α) : Prop :=
  ∃ n s₁ s', ((inner capacity α).system T).step s (t, .dequeue) = some s₁ ∧
    ((inner capacity α).system T).run s₁ (List.replicate n (t, .step)) = some s' ∧
    s'.places t = .idle (some (.dequeued result))

variable {s s₁ s' : Crew.Config (Recorded α) (Pc α) T} {t : T}

/-- One step of a thread. -/
theorem step_alone {x : Store α} {p : Pc α} {a : Act α}
    (h : exec capacity s.shared.store (s.places t) a = some (x, p)) :
    ((inner capacity α).system T).step s (t, a) =
      some ⟨⟨x, s.shared.results ++ p.result.toList⟩, Function.update s.places t p⟩ := by
  show (((exec capacity s.shared.store (s.places t) a).map _).map _) = _
  rw [h]
  rfl

theorem answers_unique {r r' : Option α} (h : Answers capacity s t r) (h' : Answers capacity s t r') :
    r = r' := by
  obtain ⟨n, s₁, s₂, hcall, hrun, hidle⟩ := h
  obtain ⟨n', s₁', s₂', hcall', hrun', hidle'⟩ := h'
  rw [hcall] at hcall'
  cases hcall'
  have hstop : ∀ (s : Crew.Config (Recorded α) (Pc α) T) r, s.places t = .idle r →
      ((inner capacity α).system T).step s (t, .step) = none := by
    intro s r hs
    show ((inner capacity α).exec s.shared (s.places t) .step).map _ = none
    rw [hs]
    rfl
  have hsame := System.run_alone_unique hrun (hstop _ _ hidle) hrun' (hstop _ _ hidle')
  rw [hsame, hidle'] at hidle
  cases hidle
  rfl

/-- From `p` on, with the store `x`, thread `t` alone comes to the end of its call. -/
def Settles (capacity : ℕ) (places : T → Pc α) (t : T) (result : Option α) (x : Store α) (p : Pc α) : Prop :=
  ∀ results, ∃ n s', ((inner capacity α).system T).run ⟨⟨x, results⟩, Function.update places t p⟩
    (List.replicate n (t, .step)) = some s' ∧ s'.places t = .idle (some (.dequeued result))

theorem settles_idle {places : T → Pc α} {x : Store α} {r : Option α} :
    Settles capacity places t r x (.idle (some (.dequeued r))) :=
  fun _ => ⟨0, _, rfl, Function.update_self ..⟩

theorem Settles.step {places : T → Pc α} {x x' : Store α} {p p' : Pc α} {r : Option α}
    (h : Settles capacity places t r x' p') (hexec : exec capacity x p .step = some (x', p')) :
    Settles capacity places t r x p := by
  intro results
  obtain ⟨n, s', hrun, hs'⟩ := h (results ++ p'.result.toList)
  refine ⟨n + 1, s', ?_, hs'⟩
  have hplace : Function.update places t p t = p := Function.update_self ..
  have hstep := step_alone (s := ⟨⟨x, results⟩, Function.update places t p⟩) (t := t)
    (show exec capacity x (Function.update places t p t) .step = some (x', p') by rw [hplace]; exact hexec)
  rw [Function.update_idem] at hstep
  rw [List.replicate_succ, System.run_cons hstep]
  exact hrun

/-- The two tests of `inner_dequeue`, when the size is counted. -/
theorem settles_take (capacity : ℕ) (places : T → Pc α) (t : T) {x : Store α}
    (hsize : x.innerSize = x.innerQueue.length)
    (hmax : x.innerQueue.length ≤ maxSize) :
    Settles capacity places t (x.limitQueue ++ x.innerQueue).head? x .take := by
  cases hlimit : x.limitQueue with
  | cons y rest => exact settles_idle.step (by simp only [exec, hlimit]; rfl)
  | nil =>
    have htake : exec capacity x .take .step = some (x, .load) := by simp only [exec, hlimit]
    refine Settles.step ?_ htake
    cases hinner : x.innerQueue with
    | nil =>
      have hzero : ¬ x.sizeApprox > 0 := by simp [Store.sizeApprox, hsize, hinner]
      exact settles_idle.step (by simp only [exec, if_neg hzero]; rfl)
    | cons y rest =>
      have hpos : x.sizeApprox > 0 := by
        have hlen : x.innerQueue.length = rest.length + 1 := by rw [hinner, List.length_cons]
        rw [Store.sizeApprox, hsize, gt_iff_lt, BitVec.lt_def, BitVec.ofInt_natCast, BitVec.toNat_ofNat]
        simp only [maxSize] at hmax
        simp only [BitVec.ofNat_eq_ofNat, BitVec.toNat_ofNat]
        omega
      have hload : exec capacity x .load .step = some (x, .pop) := by simp only [exec, if_pos hpos]
      have hpop : exec capacity x .pop .step = some ({x with innerQueue := rest}, .countPop y) := by
        simp only [exec, hinner]
      refine Settles.step ?_ hload
      refine Settles.step ?_ hpop
      exact settles_idle.step rfl

end Runs

/-! ### Whole runs -/

section Whole
variable {T : Type} [Fintype T] {capacity : ℕ} {s : Crew.Config (Recorded α) (Pc α) T}

/-- What a state with no call in progress has nothing of. -/
theorem census_idle {f : Pc α → ℤ} (hf : ∀ r, f (.idle r) = 0) (hidle : ∀ t, ∃ r, s.places t = .idle r) :
    census f s.places = 0 :=
  census_eq_zero fun t => by
    obtain ⟨r, hr⟩ := hidle t
    rw [hr, hf]

variable [DecidableEq T]

theorem size_reached (h : ((inner capacity α).system T).Reached s) :
    s.shared.store.innerSize = s.shared.store.innerQueue.length
      + census (fun p => ((popping p).length : ℤ)) s.places
      - census (fun p => ((pushing p).length : ℤ)) s.places := by
  have hbalance := Crew.balance (fun x : Recorded α => x.store.innerSize - x.store.innerQueue.length)
    (fun p => ((pushing p).length - (popping p).length : ℤ))
    (fun s t a s' htook => size_step (exec_of_inner htook.exec).1) h
  rw [census_sub, census_eq_zero (f := fun p : Pc α => ((pushing p).length - (popping p).length : ℤ))
    fun _ => rfl] at hbalance
  have hstart : (inner capacity α).start.store.innerSize
      - (inner capacity α).start.store.innerQueue.length = 0 := rfl
  omega

variable [DecidableEq α]

/-- What the two queues do together. -/
structure TwoLevel (capacity : ℕ) (s : Crew.Config (Recorded α) (Pc α) T) : Prop where
  /-- Each accepted item was returned by one call, or is in one of the queues, or is in the
  hands of one call; what is there before its `inner_enqueue` returns is still to be accepted. -/
  conserved : ∀ item, (s.shared.returned.count item + s.shared.store.limitQueue.count item
      + s.shared.store.innerQueue.count item : ℤ)
      + census (fun p => ((popping p).count item : ℤ)) s.places =
    s.shared.accepted.count item + census (fun p => ((pushing p).count item : ℤ)) s.places
  size : s.shared.store.sizeApprox = BitVec.ofInt 64 (s.shared.store.innerQueue.length
    + census (fun p => ((popping p).length : ℤ)) s.places
    - census (fun p => ((pushing p).length : ℤ)) s.places)
  /-- With no call in progress a dequeue returns what is stored first. -/
  answers : (∀ t, ∃ r, s.places t = .idle r) → ∀ t result, Answers capacity s t result ↔
    result = (s.shared.store.limitQueue ++ s.shared.store.innerQueue).head?
  /-- So it succeeds exactly if an accepted item has not been returned. -/
  succeeds : (∀ t, ∃ r, s.places t = .idle r) → ∀ t result, Answers capacity s t result →
    (result.isSome ↔ s.shared.returned.length < s.shared.accepted.length)

/-- The items of all calls, before the calls in progress have returned. -/
theorem conserved_reached (h : ((inner capacity α).system T).Reached s) (item : α) :
    (s.shared.returned.count item + s.shared.store.limitQueue.count item
      + s.shared.store.innerQueue.count item : ℤ)
      + census (fun p => ((popping p).count item : ℤ)) s.places =
    s.shared.accepted.count item + census (fun p => ((pushing p).count item : ℤ)) s.places := by
  have hbalance := Crew.balance
    (fun x : Recorded α => (x.returned.count item + x.store.limitQueue.count item
      + x.store.innerQueue.count item : ℤ) - x.accepted.count item)
    (fun p => ((popping p).count item - (pushing p).count item : ℤ)) (fun s t a s' htook => by
      obtain ⟨hexec, hresults⟩ := exec_of_inner htook.exec
      have hitems := items_step hexec item
      simp only [Recorded.returned, Recorded.accepted, hresults, List.filterMap_append,
        List.count_append, Nat.cast_add] at hitems ⊢
      omega) h
  rw [census_sub, census_eq_zero (f := fun p : Pc α => ((popping p).count item - (pushing p).count item : ℤ))
    fun _ => rfl] at hbalance
  have hstart : ((inner capacity α).start.returned.count item
      + (inner capacity α).start.store.limitQueue.count item
      + (inner capacity α).start.store.innerQueue.count item : ℤ)
      - (inner capacity α).start.accepted.count item = 0 := rfl
  omega

/-- With no call in progress what is stored is what was accepted and not returned. -/
theorem stored_idle (h : ((inner capacity α).system T).Reached s) (hidle : ∀ t, ∃ r, s.places t = .idle r) :
    (s.shared.returned ++ (s.shared.store.limitQueue ++ s.shared.store.innerQueue)).Perm s.shared.accepted := by
  refine List.perm_iff_count.mpr fun item => ?_
  have hconserved := conserved_reached h item
  rw [census_idle (fun _ => rfl) hidle, census_idle (fun _ => rfl) hidle] at hconserved
  rw [List.count_append, List.count_append]
  omega

/-- **Nothing is lost or duplicated**, and no item is left behind the gate of `inner_size`. -/
theorem two_level (h : ((inner capacity α).system T).Reached s) : TwoLevel capacity s := by
  have hmax : s.shared.store.innerQueue.length ≤ maxSize :=
    (Crew.invariant (I := fun x : Recorded α => x.store.innerQueue.length ≤ maxSize) (J := fun _ _ => True)
      (Nat.zero_le _) trivial (fun s t a s' htook hle _ =>
        ⟨length_step (exec_of_inner htook.exec).1 hle, trivial, fun _ _ => trivial⟩) h).1
  have hsize := size_reached h
  have hanswers : (∀ t, ∃ r, s.places t = .idle r) → ∀ t result, Answers capacity s t result ↔
      result = (s.shared.store.limitQueue ++ s.shared.store.innerQueue).head? := by
    intro hidle t result
    rw [census_idle (fun _ => rfl) hidle, census_idle (fun _ => rfl) hidle] at hsize
    obtain ⟨r, hr⟩ := hidle t
    obtain ⟨n, s', hrun, hs'⟩ := settles_take capacity s.places t (by omega) hmax s.shared.results
    have hanswer : Answers capacity s t (s.shared.store.limitQueue ++ s.shared.store.innerQueue).head? :=
      ⟨n, _, s', step_alone (by rw [hr]; rfl), by simpa [Pc.result] using hrun, hs'⟩
    exact ⟨fun h => answers_unique h hanswer, fun h => h ▸ hanswer⟩
  refine ⟨conserved_reached h, congrArg _ hsize, hanswers, fun hidle t result hresult => ?_⟩
  have hlength := (stored_idle h hidle).length_eq
  rw [List.length_append] at hlength
  rw [(hanswers hidle t result).mp hresult, List.isSome_head?, ← hlength, ← List.length_pos_iff]
  omega

end Whole

/-- Two enqueues meet a bounded queue with one slot, and a dequeue takes the first. -/
theorem two_level_overflow : ∃ s : Crew.Config (Recorded ℕ) (Pc ℕ) (Fin 2),
    (s.shared.store.innerQueue = [8] ∧ s.shared.returned = [7]) ∧ TwoLevel 1 s := by
  obtain ⟨s, hreach, hinner⟩ := System.exists_reachedBy ((inner 1 ℕ).system (Fin 2)) (fun _ _ _ => True)
    [(0, .enqueue 7), (1, .enqueue 8), (0, .step), (1, .step), (1, .step), (1, .step),
      (0, .dequeue), (0, .step)]
    (fun s => s.shared.store.innerQueue = [8] ∧ s.shared.returned = [7]) (by decide)
  exact ⟨s, hinner, two_level hreach⟩

end QuietFlow.TaskQueue.Inner
