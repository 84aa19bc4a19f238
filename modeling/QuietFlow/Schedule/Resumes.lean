import QuietFlow.Schedule.Contexts

/-! Coming back to a context.

A published `BackNode` is with one worker, in the queue or with a wait that has still to
run it, and the wait it belongs to has not been resumed. A saved context has either its
successor still before `set_status(Yield)`, or that status, or a `BackNode::run` that has
seen it; so whoever jumps to a context finds it saved. -/
namespace QuietFlow.Schedule
open Runs Crew

/-! ### BackNodes that are to be run -/

def Task.backs : Task → List ℕ
  | .node => []
  | .back b => [b]

def Body.backs : Body → List ℕ
  | .releasing (some n) => n.backs
  | _ => []

def Cont.runs : Cont → List ℕ
  | .routine => []
  | .wait v => v.body.backs

namespace Worker
variable (w : Worker)

/-- The `BackNode` that the worker has taken and not yet run. -/
def runs : List ℕ :=
  match w.pc with
  | .dequeued n | .task n => n.backs
  | .body body | .backNode body => body.backs
  | .publish v | .idleAdd v | .resumed v | .resumedDelete v | .resumedClear v => v.body.backs
  | .swapPre _ k | .swapNew _ k | .swap _ k => k.runs
  | .spin b | .backRun b | .setPre b _ | .setPtr b _ | .jump b => [b]
  | _ => []

/-- The `BackNode` that the worker has published. -/
def waits : List ℕ :=
  match w.pc with
  | .idleAdd v => [v.back]
  | .swapPre _ k | .swapNew _ k | .swap _ k => k.backs
  | _ => []

/-- The `BackNode` whose wait the worker has resumed. -/
def ends : List ℕ :=
  match w.pc with
  | .resumed v => [v.back]
  | _ => []

/-- Past the test of its context's status, a `BackNode` still refers to that context. -/
def Target (ptr : ℕ → Option ℕ) : Prop :=
  match w.pc with
  | .setPre b c | .setPtr b c => ptr b = some c
  | .jump b => ∃ c, w.contextPtr = some c ∧ ptr b = some c
  | _ => True

def token (b : ℕ) : ℤ := w.runs.count b - w.waits.count b

end Worker

def savedToken (saved : List Saved) (b : ℕ) : ℤ :=
  (saved.flatMap fun e => e.cont.runs).count b - (saved.flatMap fun e => e.cont.backs).count b

def Shared.tokens (x : Shared) (b : ℕ) : ℤ := x.ready.count b + savedToken x.saved b

section Step
variable {x x' : Shared} {w w' : Worker} {b c : ℕ}

theorem tokens_step (h : Effect x w x' w')
    (hjump : ∀ b c v, w.pc = .jump b → w.contextPtr = some c → ⟨c, .wait v⟩ ∈ x.saved → v.back = b)
    (n : ℕ) : x'.tokens n + w'.token n = x.tokens n + w.token n := by
  have hnil : (([] : List ℕ).count n : ℤ) = 0 := rfl
  cases h
  case dequeueBack st p q b hb =>
    have hcount := count_cons_erase hb n
    show ((x.ready.erase b).count n + savedToken x.saved n) +
      ((([b] : List ℕ).count n : ℤ) - ([] : List ℕ).count n) =
        (x.ready.count n + savedToken x.saved n) + ((([] : List ℕ).count n : ℤ) - ([] : List ℕ).count n)
    omega
  case finishBack st p q b hb =>
    have hcount := count_cons_erase hb n
    show ((x.ready.erase b).count n + savedToken x.saved n) +
      ((([b] : List ℕ).count n : ℤ) - ([] : List ℕ).count n) =
        (x.ready.count n + savedToken x.saved n) + ((([] : List ℕ).count n : ℤ) - ([] : List ℕ).count n)
    omega
  case publish st p q v =>
    have hcount : ((x.ready ++ [v.back]).count n : ℤ) = x.ready.count n + ([v.back] : List ℕ).count n := by
      rw [List.count_append]
      push_cast
      rfl
    show ((x.ready ++ [v.back]).count n + savedToken x.saved n) +
      ((v.body.backs.count n : ℤ) - ([v.back] : List ℕ).count n) =
        (x.ready.count n + savedToken x.saved n) + ((v.body.backs.count n : ℤ) - ([] : List ℕ).count n)
    omega
  case swap st d q out k =>
    have hsave : savedToken (x.saved ++ [⟨out, k⟩]) n =
        savedToken x.saved n + (k.runs.count n - k.backs.count n) := by
      rw [savedToken, List.flatMap_append, List.flatMap_append, List.flatMap_singleton,
        List.flatMap_singleton, List.count_append, List.count_append, savedToken]
      push_cast
      omega
    show (x.ready.count n + savedToken (x.saved ++ [(⟨out, k⟩ : Saved)]) n) +
      ((([] : List ℕ).count n : ℤ) - ([] : List ℕ).count n) =
        (x.ready.count n + savedToken x.saved n) + (k.runs.count n - k.backs.count n)
    omega
  case jump st d q b v hmem =>
    have hb : v.back = b := hjump b d v rfl rfl hmem
    have herase : savedToken x.saved n = savedToken (x.saved.erase ⟨d, .wait v⟩) n +
        (v.body.backs.count n - ([v.back] : List ℕ).count n) := by
      have hruns : (x.saved.flatMap fun e => e.cont.runs).count n = v.body.backs.count n +
          ((x.saved.erase ⟨d, .wait v⟩).flatMap fun e => e.cont.runs).count n :=
        count_flatMap_erase hmem (fun e => e.cont.runs) n
      have hbacks : (x.saved.flatMap fun e => e.cont.backs).count n = ([v.back] : List ℕ).count n +
          ((x.saved.erase ⟨d, .wait v⟩).flatMap fun e => e.cont.backs).count n :=
        count_flatMap_erase hmem (fun e => e.cont.backs) n
      simp only [savedToken]
      omega
    subst hb
    show (x.ready.count n + savedToken (x.saved.erase ⟨d, .wait v⟩) n) +
      ((v.body.backs.count n : ℤ) - ([] : List ℕ).count n) =
        (x.ready.count n + savedToken x.saved n) +
          ((([v.back] : List ℕ).count n : ℤ) - ([] : List ℕ).count n)
    omega
  case finish st p q next hnext =>
    have hbacks : (Body.releasing next).backs = [] := by
      match next, hnext with
      | none, _ => rfl
      | some .node, _ => rfl
      | some (.back b), hnext => exact absurd rfl (hnext b)
    show x.tokens n + (((Body.releasing next).backs.count n : ℤ) - ([] : List ℕ).count n) = _
    rw [hbacks]
    rfl
  all_goals rfl

/-- A `BackNode` keeps its reference until its wait is resumed. -/
theorem ptr_step (h : Effect x w x' w') (hends : b ∉ w.ends)
    (hfresh : ∀ b, x.backs ≤ b → x.backRunContextPtr b = none) (hb : x.backRunContextPtr b = some c) :
    x'.backRunContextPtr b = some c := by
  cases h
  case backNode st p q body =>
    have hne : b ≠ x.backs := fun he => by
      rw [he, hfresh _ le_rfl] at hb
      cases hb
    show Function.update x.backRunContextPtr x.backs p b = some c
    rwa [Function.update_of_ne hne]
  case resumed st p q v =>
    have hne : b ≠ v.back := fun he => hends (List.mem_singleton.mpr he)
    show Function.update x.backRunContextPtr v.back none b = some c
    rwa [Function.update_of_ne hne]
  all_goals exact hb

theorem target_step (h : Effect x w x' w') (hw : w.Target x.backRunContextPtr) :
    w'.Target x'.backRunContextPtr := by
  cases h
  case backRun st p q b c hc => exact hc
  case setPre => exact hw
  case setPtr st p q b c => exact ⟨c, rfl, hw⟩
  all_goals trivial

end Step

section Run
variable {T : Type} [Fintype T] [DecidableEq T] {stored : ℤ} {s : Crew.Config Shared Worker T}

structure Tokens (s : Crew.Config Shared Worker T) : Prop where
  balance : ∀ b, s.shared.tokens b + census (fun w : Worker => w.token b) s.places = 0
  target : ∀ t, (s.places t).Target s.shared.backRunContextPtr

omit [Fintype T] [DecidableEq T] in
theorem held_of_waits {t : T} {b : ℕ} (hb : b ∈ (s.places t).waits) : b ∈ (s.places t).held := by
  revert hb
  unfold Worker.waits Worker.held
  cases (s.places t).pc <;> simp

omit [DecidableEq T] in
/-- The context of a saved wait is the one its `BackNode` refers to. -/
theorem Linked.ptr_of_saved (h : Linked s) {e : Saved} (he : e ∈ s.shared.saved) {b : ℕ}
    (hb : b ∈ e.cont.backs) : s.shared.backRunContextPtr b = some e.context := by
  have hmem : b ∈ s.shared.saved.flatMap fun e' => if e'.context = e.context then e'.cont.backs else [] :=
    List.mem_flatMap.mpr ⟨e, he, by rwa [if_pos rfl]⟩
  have hpos : 1 ≤ savedBacks s.shared.saved b e.context := by
    have hcount := List.count_pos_iff.mpr hmem
    rw [savedBacks]
    omega
  have hrefers := h.refers b e.context
  have hnonneg := census_nonneg (fun w : Worker => w.holds_nonneg b e.context) s.places
  by_contra hne
  rw [Schedule.refers, if_neg hne] at hrefers
  omega

section Wait
variable (hbalance : ∀ b, s.shared.tokens b + census (fun w : Worker => w.token b) s.places = 0)
include hbalance

omit [DecidableEq T] in
/-- The `BackNode`s that are to be run and the waits that are not resumed. -/
theorem runs_eq_waits (b : ℕ) :
    (s.shared.ready.count b : ℤ) + (s.shared.saved.flatMap fun e => e.cont.runs).count b +
      census (fun w : Worker => (w.runs.count b : ℤ)) s.places =
        (s.shared.saved.flatMap fun e => e.cont.backs).count b +
          census (fun w : Worker => (w.waits.count b : ℤ)) s.places := by
  have hb := hbalance b
  have hsub := census_sub (fun w : Worker => (w.runs.count b : ℤ)) (fun w => (w.waits.count b : ℤ)) s.places
  rw [Shared.tokens, savedToken] at hb
  simp only [Worker.token] at hb
  omega

/-- A `BackNode` that a worker is to run belongs to a wait that is not resumed. -/
theorem wait_of_runs (hr : ((crew stored).system T).Reached s) {t : T} {b : ℕ}
    (hb : b ∈ (s.places t).runs) :
    ∃ c, s.shared.backRunContextPtr b = some c ∧
      ((∃ t', b ∈ (s.places t').waits ∧ (s.places t').stack = c) ∨
        ∃ v, ⟨c, .wait v⟩ ∈ s.shared.saved ∧ v.back = b) := by
  have hlinked := linked hr
  have heq := runs_eq_waits hbalance b
  have hone : 1 ≤ census (fun w : Worker => (w.runs.count b : ℤ)) s.places := by
    have hpos := List.count_pos_iff.mpr hb
    have hle := le_census (f := fun w : Worker => (w.runs.count b : ℤ)) (fun w => Int.natCast_nonneg _) s.places t
    omega
  by_cases hsaved : b ∈ s.shared.saved.flatMap fun e => e.cont.backs
  · obtain ⟨⟨c, k⟩, he, hk⟩ := List.mem_flatMap.mp hsaved
    refine ⟨c, hlinked.ptr_of_saved he hk, .inr ?_⟩
    cases k with
    | routine => cases hk
    | wait v => exact ⟨v, he, (List.mem_singleton.mp hk).symm⟩
  · have hzero := List.count_eq_zero.mpr hsaved
    obtain ⟨t', ht'⟩ := exists_of_one_le_census (fun w : Worker => (w.waits.count b : ℤ))
      s.places (by omega)
    have hmem : b ∈ (s.places t').waits := List.count_pos_iff.mp (by omega)
    exact ⟨_, hlinked.ptr_of_held (held_of_waits hmem), .inl ⟨t', hmem, rfl⟩⟩

end Wait

omit [Fintype T] [DecidableEq T] in
theorem mem_owned {t : T} (h : (s.places t).pc ≠ .created) : (s.places t).stack ∈ (s.places t).owned := by
  unfold Worker.owned
  split
  · contradiction
  all_goals exact List.mem_cons_self

section Wait
variable (hr : ((crew stored).system T).Reached s)
  (hbalance : ∀ b, s.shared.tokens b + census (fun w : Worker => w.token b) s.places = 0) {t : T} {b : ℕ}
include hr hbalance

/-- A `BackNode` that is to be run keeps its context while others go on. -/
theorem not_ends_of_runs (hb : b ∈ (s.places t).runs) (t' : T) : b ∉ (s.places t').ends := by
  intro hends
  obtain ⟨v, hpc, hv⟩ : ∃ v, (s.places t').pc = .resumed v ∧ v.back = b := by
    unfold Worker.ends at hends
    split at hends
    · next v hpc => exact ⟨v, hpc, (List.mem_singleton.mp hends).symm⟩
    · cases hends
  have hheld : b ∈ (s.places t').held := by
    rw [Worker.held, hpc]
    exact List.mem_singleton.mpr hv.symm
  have howned : (s.places t').stack ∈ (s.places t').owned := mem_owned fun hc => by
    rw [hpc] at hc
    cases hc
  obtain ⟨c, hc, hwait⟩ := wait_of_runs hbalance hr hb
  rw [(linked hr).ptr_of_held hheld] at hc
  cases hc
  rcases hwait with ⟨u, hu, hstack⟩ | ⟨v', hsaved, -⟩
  · have hne : (s.places u).pc ≠ .created := fun hc => by
      rw [Worker.waits, hc] at hu
      cases hu
    have hsame := owner_unique hr howned (hstack ▸ mem_owned hne)
    rw [← hsame, Worker.waits, hpc] at hu
    cases hu
  · exact (owned_only hr howned).2.2.1 (List.mem_map_of_mem hsaved)

/-- The wait that a worker jumps to, if its context is saved. -/
theorem back_of_saved (htarget : (s.places t).Target s.shared.backRunContextPtr)
    (hpc : (s.places t).pc = .jump b) {c : ℕ} (hc : (s.places t).contextPtr = some c) {v : Wait}
    (hv : ⟨c, .wait v⟩ ∈ s.shared.saved) : v.back = b := by
  have hruns : b ∈ (s.places t).runs := by
    rw [Worker.runs, hpc]
    exact List.mem_cons_self
  rw [Worker.Target, hpc] at htarget
  obtain ⟨c', hc', hptr⟩ := htarget
  rw [hc] at hc'
  cases hc'
  obtain ⟨c', hptr', hwait⟩ := wait_of_runs hbalance hr hruns
  rw [hptr] at hptr'
  cases hptr'
  rcases hwait with ⟨u, hu, hstack⟩ | ⟨v', hsaved, hback⟩
  · have hne : (s.places u).pc ≠ .created := fun hc => by
      rw [Worker.waits, hc] at hu
      cases hu
    exact absurd (List.mem_map_of_mem hv) (owned_only hr (hstack ▸ mem_owned hne)).2.2.1
  · cases saved_unique hr hsaved hv
    exact hback

end Wait

omit [Fintype T] [DecidableEq T] in
theorem runs_of_target {t : T} {ptr ptr' : ℕ → Option ℕ} (h : (s.places t).Target ptr)
    (hkeep : ∀ b c, b ∈ (s.places t).runs → ptr b = some c → ptr' b = some c) : (s.places t).Target ptr' := by
  unfold Worker.Target at h ⊢
  unfold Worker.runs at hkeep
  split at h
  · next b c hpc =>
    rw [hpc] at hkeep
    exact hkeep b c List.mem_cons_self h
  · next b c hpc =>
    rw [hpc] at hkeep
    exact hkeep b c List.mem_cons_self h
  · next b hpc =>
    rw [hpc] at hkeep
    obtain ⟨c, hc, hptr⟩ := h
    exact ⟨c, hc, hkeep b c List.mem_cons_self hptr⟩
  · trivial

theorem tokens (h : ((crew stored).system T).Reached s) : Tokens s := by
  refine Crew.induct (I := Tokens) ?_ (fun s t a s' htook ih => ?_) h
  · refine ⟨fun b => ?_, fun _ => trivial⟩
    have hzero : census (fun w : Worker => w.token b) (((crew stored).system T).start).places = 0 :=
      census_eq_zero fun t => rfl
    rw [hzero]
    rfl
  · have heff := effect_of_exec htook.exec
    refine ⟨fun b => ?_, fun t' => ?_⟩
    · have hcensus := htook.census fun w => w.token b
      have hstep := tokens_step heff (fun b c v hpc hc hv =>
        back_of_saved htook.reached ih.balance (ih.target t) hpc hc hv) b
      have hbalance := ih.balance b
      omega
    · by_cases ht : t' = t
      · subst ht
        exact target_step heff (ih.target t')
      · rw [htook.other ht]
        exact runs_of_target (ih.target t') fun b c hb hptr =>
          ptr_step heff (not_ends_of_runs htook.reached ih.balance hb t) (linked htook.reached).fresh hptr

/-- A `BackNode` that refers to a context has one wait at most. -/
theorem waits_le_one (h : ((crew stored).system T).Reached s) (b : ℕ) :
    ((s.shared.saved.flatMap fun e => e.cont.backs).count b : ℤ) +
      census (fun w : Worker => (w.waits.count b : ℤ)) s.places ≤ 1 := by
  have hlinked := linked h
  cases hptr : s.shared.backRunContextPtr b with
  | none =>
    have hsaved : b ∉ s.shared.saved.flatMap fun e => e.cont.backs := fun hb => by
      obtain ⟨e, he, hk⟩ := List.mem_flatMap.mp hb
      rw [hlinked.ptr_of_saved he hk] at hptr
      cases hptr
    have hwaits : census (fun w : Worker => (w.waits.count b : ℤ)) s.places = 0 :=
      census_eq_zero fun t => by
        have hb : b ∉ (s.places t).waits := fun hb => by
          rw [hlinked.ptr_of_held (held_of_waits hb)] at hptr
          cases hptr
        exact_mod_cast List.count_eq_zero.mpr hb
    rw [hwaits, List.count_eq_zero.mpr hsaved]
    decide
  | some c =>
    have hrefers := hlinked.refers b c
    rw [refers, if_pos hptr] at hrefers
    have hsaved : (s.shared.saved.flatMap fun e => e.cont.backs).count b =
        (s.shared.saved.flatMap fun e => if e.context = c then e.cont.backs else []).count b := by
      rw [List.count_flatMap, List.count_flatMap]
      refine congrArg List.sum (List.map_congr_left fun e he => ?_)
      show e.cont.backs.count b = (if e.context = c then e.cont.backs else []).count b
      split
      · rfl
      · next hne =>
        refine List.count_eq_zero.mpr fun hk => hne ?_
        rw [hlinked.ptr_of_saved he hk] at hptr
        exact Option.some.inj hptr
    have hwaits : census (fun w : Worker => (w.waits.count b : ℤ)) s.places ≤
        census (fun w : Worker => w.holds b c) s.places := census_mono fun t => by
      by_cases hb : b ∈ (s.places t).waits
      · have hstack := hlinked.ptr_of_held (held_of_waits hb)
        rw [hptr] at hstack
        rw [Worker.holds, if_pos (Option.some.inj hstack).symm]
        unfold Worker.waits Worker.held
        cases (s.places t).pc <;> simp
      · rw [List.count_eq_zero.mpr hb]
        exact Worker.holds_nonneg _ b c
    rw [savedBacks] at hrefers
    omega

/-- A `BackNode` is with one worker at most. -/
theorem runner_unique (h : ((crew stored).system T).Reached s) {t t' : T} {b : ℕ}
    (ht : b ∈ (s.places t).runs) (ht' : b ∈ (s.places t').runs) : t = t' := by
  by_contra hne
  have htwo := two_le_census (f := fun w : Worker => (w.runs.count b : ℤ)) (p := s.places)
    (fun w => Int.natCast_nonneg _) hne (by exact_mod_cast List.count_pos_iff.mpr ht)
    (by exact_mod_cast List.count_pos_iff.mpr ht')
  have heq := runs_eq_waits (tokens h).balance b
  have hone := waits_le_one h b
  omega

end Run
end QuietFlow.Schedule
