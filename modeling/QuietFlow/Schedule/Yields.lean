import QuietFlow.Schedule.Resumes

/-! The status of a context that is left.

The new context sets `Yield` on the one that was left, after `coctx_swap` has saved it, and
`BackNode::run` waits for `Yield` before it takes it back. A context that is saved has that
status, or a worker is still to set it, or one has consumed it. -/
namespace QuietFlow.Schedule
open Runs Crew

namespace Worker
variable (w : Worker)

/-- The contexts whose `Yield` the worker is to set or has consumed. -/
def crossing : List ℕ :=
  match w.pc with
  | .enter | .enterYield => w.contextPrePtr.toList
  | .setPre _ c | .setPtr _ c => [c]
  | .jump _ => w.contextPtr.toList
  | _ => []

end Worker

def yields (status : ℕ → RunningStatus) (c : ℕ) : ℤ := if status c = .yield then 1 else 0

theorem yields_nonneg (status : ℕ → RunningStatus) (c : ℕ) : 0 ≤ yields status c := by
  unfold yields
  split <;> omega

/-- A status other than `Yield` that replaces one. -/
theorem yields_update {status : ℕ → RunningStatus} {c : ℕ} {v : RunningStatus} (hc : status c ≠ .yield)
    (hv : v ≠ .yield) (n : ℕ) : yields (Function.update status c v) n = yields status n := by
  unfold yields
  by_cases hn : n = c
  · subst hn
    rw [Function.update_self, if_neg hv, if_neg hc]
  · rw [Function.update_of_ne hn]

theorem yields_set {status : ℕ → RunningStatus} {c : ℕ} (hc : status c ≠ .yield) (n : ℕ) :
    yields (Function.update status c .yield) n = yields status n + ([c] : List ℕ).count n := by
  unfold yields
  by_cases hn : n = c
  · subst hn
    rw [Function.update_self, if_pos rfl, if_neg hc, List.count_singleton_self]
    rfl
  · rw [Function.update_of_ne hn, List.count_singleton, beq_eq_false_iff_ne.mpr (Ne.symm hn)]
    exact (add_zero _).symm

theorem yields_reset {status : ℕ → RunningStatus} {c : ℕ} (hc : status c = .yield) (n : ℕ) :
    yields (Function.update status c .running) n + ([c] : List ℕ).count n = yields status n := by
  unfold yields
  by_cases hn : n = c
  · subst hn
    rw [Function.update_self, if_neg (by decide), if_pos hc, List.count_singleton_self]
    rfl
  · rw [Function.update_of_ne hn, List.count_singleton, beq_eq_false_iff_ne.mpr (Ne.symm hn)]
    exact add_zero _

def Shared.left (x : Shared) (c : ℕ) : ℤ := (x.saved.map Saved.context).count c - yields x.status c

section Step
variable {x x' : Shared} {w w' : Worker}

theorem left_step (h : Effect x w x' w') (hs : w.Sound)
    (hyield : ∀ b c, w.pc = .backRun b → x.backRunContextPtr b = some c → x.status c = .yield)
    (howned : ∀ c ∈ w.owned, x.status c ≠ .yield) (hnew : x.status x.contexts ≠ .yield)
    (hcrossing : ∀ c ∈ w.crossing, x.status c ≠ .yield) (n : ℕ) :
    x'.left n + w.crossing.count n = x.left n + w'.crossing.count n := by
  cases h
  case created st p q =>
    have hyields := yields_update (v := .initing) hnew (by decide) n
    show (x.saved.map Saved.context).count n -
      yields (Function.update x.status x.contexts .initing) n + _ = _
    rw [hyields]
    rfl
  case swapNew st p q out k =>
    have hyields := yields_update (v := .initing) hnew (by decide) n
    show (x.saved.map Saved.context).count n -
      yields (Function.update x.status x.contexts .initing) n + _ = _
    rw [hyields]
    rfl
  case routine st p q =>
    have hyields := yields_update (v := .ready) (howned st List.mem_cons_self) (by decide) n
    show (x.saved.map Saved.context).count n - yields (Function.update x.status st .ready) n + _ = _
    rw [hyields]
    rfl
  case enter st c q =>
    have hc : some c = some st := hs.1
    have hyields := yields_update (v := .running) (howned st List.mem_cons_self) (by decide) n
    cases hc
    show (x.saved.map Saved.context).count n - yields (Function.update x.status st .running) n + _ = _
    rw [hyields]
    rfl
  case enterYield st p c =>
    have hyields := yields_set (hcrossing c List.mem_cons_self) n
    show (x.saved.map Saved.context).count n - yields (Function.update x.status c .yield) n +
      (([c] : List ℕ).count n : ℤ) = x.left n + (([] : List ℕ).count n : ℤ)
    rw [hyields, Shared.left, List.count_nil]
    push_cast
    omega
  case backRun st p q b c hc =>
    have hyields := yields_reset (hyield b c rfl hc) n
    show (x.saved.map Saved.context).count n - yields (Function.update x.status c .running) n +
      (([] : List ℕ).count n : ℤ) = x.left n + (([c] : List ℕ).count n : ℤ)
    rw [Shared.left, List.count_nil]
    push_cast
    omega
  case swap st c q out k =>
    obtain ⟨hout, hq⟩ := hs
    have hout : out = st := hout
    have hq : q = some st := hq
    subst hout hq
    have hmap : ((x.saved ++ [(⟨out, k⟩ : Saved)]).map Saved.context).count n =
        (x.saved.map Saved.context).count n + ([out] : List ℕ).count n := by
      rw [List.map_append, List.count_append]
      rfl
    show ((x.saved ++ [(⟨out, k⟩ : Saved)]).map Saved.context).count n - yields x.status n +
      (([] : List ℕ).count n : ℤ) = x.left n + (([out] : List ℕ).count n : ℤ)
    rw [hmap, Shared.left, List.count_nil]
    push_cast
    omega
  case jump st c q b v hmem =>
    have hperm : (x.saved.map Saved.context).count n = ([c] : List ℕ).count n +
        ((x.saved.erase ⟨c, .wait v⟩).map Saved.context).count n := by
      rw [((List.perm_cons_erase hmem).map Saved.context).count_eq n, List.map_cons,
        ← List.singleton_append, List.count_append]
    show ((x.saved.erase ⟨c, .wait v⟩).map Saved.context).count n - yields x.status n +
      (([c] : List ℕ).count n : ℤ) = x.left n + (([] : List ℕ).count n : ℤ)
    rw [Shared.left, hperm, List.count_nil]
    push_cast
    omega
  all_goals rfl

/-- `Yield` stays until a `BackNode` of that context takes it. -/
theorem status_step {c : ℕ} (h : Effect x w x' w') (hs : w.Sound) (hc : x.status c = .yield)
    (howned : ∀ c ∈ w.owned, x.status c ≠ .yield) (hnew : x.status x.contexts ≠ .yield)
    (hback : ∀ b, w.pc = .backRun b → x.backRunContextPtr b ≠ some c) : x'.status c = .yield := by
  have hkeep : ∀ (d : ℕ) (v : RunningStatus), x.status d ≠ .yield →
      Function.update x.status d v c = .yield := fun d v hd => by
    have hne : c ≠ d := fun he => hd (he ▸ hc)
    rwa [Function.update_of_ne hne]
  cases h
  case created => exact hkeep _ _ hnew
  case swapNew => exact hkeep _ _ hnew
  case routine st p q => exact hkeep _ _ (howned st List.mem_cons_self)
  case enter st d q =>
    have hd : some d = some st := hs.1
    cases hd
    exact hkeep _ _ (howned st List.mem_cons_self)
  case enterYield st p d =>
    show Function.update x.status d .yield c = .yield
    rw [Function.update_apply, hc, ite_self]
  case backRun st p q b d hd =>
    have hne : c ≠ d := fun he => hback b rfl (he ▸ hd)
    show Function.update x.status d .running c = .yield
    rwa [Function.update_of_ne hne]
  all_goals exact hc

end Step

/-! ### Along a run -/

section Run
variable {T : Type} [Fintype T] [DecidableEq T] {stored : ℤ} {s : Crew.Config Shared Worker T}

omit [DecidableEq T] in
/-- Where a context that a `BackNode` refers to is. -/
theorem Linked.place (h : Linked s) {b c : ℕ} (hptr : s.shared.backRunContextPtr b = some c) :
    (∃ t, (s.places t).stack = c ∧ b ∈ (s.places t).held) ∨
      ∃ v, ⟨c, .wait v⟩ ∈ s.shared.saved ∧ v.back = b := by
  have hrefers := h.refers b c
  rw [Schedule.refers, if_pos hptr] at hrefers
  by_cases hmem : b ∈ s.shared.saved.flatMap fun e => if e.context = c then e.cont.backs else []
  · obtain ⟨⟨d, k⟩, he, hb⟩ := List.mem_flatMap.mp hmem
    split at hb
    · next hd =>
      have hd : d = c := hd
      subst hd
      cases k with
      | routine => cases hb
      | wait v => exact .inr ⟨v, he, (List.mem_singleton.mp hb).symm⟩
    · cases hb
  · rw [savedBacks, List.count_eq_zero.mpr hmem] at hrefers
    obtain ⟨t, ht⟩ := exists_of_one_le_census (fun w : Worker => w.holds b c) s.places (by omega)
    unfold Worker.holds at ht
    split at ht
    · next hstack => exact .inl ⟨t, hstack, List.count_pos_iff.mp (by omega)⟩
    · omega

omit [Fintype T] [DecidableEq T] in
theorem owned_of_held {t : T} {b : ℕ} (hb : b ∈ (s.places t).held) :
    (s.places t).stack ∈ (s.places t).owned :=
  mem_owned fun hc => by
    rw [Worker.held, hc] at hb
    cases hb

omit [Fintype T] [DecidableEq T] in
theorem held_unique {t : T} {b b' : ℕ} (hb : b ∈ (s.places t).held) (hb' : b' ∈ (s.places t).held) : b = b' := by
  have hbacks : ∀ k : Cont, b ∈ k.backs → b' ∈ k.backs → b = b' := fun k hk hk' => by
    cases k with
    | routine => cases hk
    | wait v => exact (List.mem_singleton.mp hk).trans (List.mem_singleton.mp hk').symm
  unfold Worker.held at hb hb'
  cases hpc : (s.places t).pc <;> rw [hpc] at hb hb'
  case swapPre out k => exact hbacks k hb hb'
  case swapNew out k => exact hbacks k hb hb'
  case swap out k => exact hbacks k hb hb'
  case publish v => exact (List.mem_singleton.mp hb).trans (List.mem_singleton.mp hb').symm
  case idleAdd v => exact (List.mem_singleton.mp hb).trans (List.mem_singleton.mp hb').symm
  case resumed v => exact (List.mem_singleton.mp hb).trans (List.mem_singleton.mp hb').symm
  all_goals cases hb

/-- One `BackNode` refers to a context. -/
theorem ptr_unique (h : ((crew stored).system T).Reached s) {b b' c : ℕ}
    (hb : s.shared.backRunContextPtr b = some c) (hb' : s.shared.backRunContextPtr b' = some c) : b = b' := by
  have hlinked := linked h
  rcases hlinked.place hb with ⟨t, hst, ht⟩ | ⟨v, hv, hback⟩
  · have howned := owned_of_held ht
    rw [hst] at howned
    rcases hlinked.place hb' with ⟨t', hst', ht'⟩ | ⟨v', hv', -⟩
    · have hsame := owner_unique h howned (hst' ▸ owned_of_held ht')
      subst hsame
      exact held_unique ht ht'
    · exact absurd (List.mem_map_of_mem hv') (owned_only h howned).2.2.1
  · rcases hlinked.place hb' with ⟨t', hst', ht'⟩ | ⟨v', hv', hback'⟩
    · have howned := owned_of_held ht'
      rw [hst'] at howned
      exact absurd (List.mem_map_of_mem hv) (owned_only h howned).2.2.1
    · cases saved_unique h hv hv'
      exact hback.symm.trans hback'

structure Yields (s : Crew.Config Shared Worker T) : Prop where
  balance : ∀ c, s.shared.left c = census (fun w : Worker => (w.crossing.count c : ℤ)) s.places
  waiting : ∀ t b, (s.places t).pc = .backRun b →
    ∃ c, s.shared.backRunContextPtr b = some c ∧ s.shared.status c = .yield

section Status
variable (hr : ((crew stored).system T).Reached s)
  (hbalance : ∀ c, s.shared.left c = census (fun w : Worker => (w.crossing.count c : ℤ)) s.places) {c : ℕ}
include hr hbalance

omit [DecidableEq T] hr in
/-- A context that is not saved is not at `Yield`. -/
theorem not_yield (hc : (s.shared.saved.map Saved.context).count c = 0) : s.shared.status c ≠ .yield := by
  intro hy
  have hleft := hbalance c
  have hnonneg := census_nonneg (f := fun w : Worker => (w.crossing.count c : ℤ))
    (fun w => Int.natCast_nonneg _) s.places
  rw [Shared.left, hc, yields, if_pos hy] at hleft
  omega

theorem not_yield_of_owned {t : T} (hc : c ∈ (s.places t).owned) : s.shared.status c ≠ .yield :=
  not_yield hbalance (List.count_eq_zero.mpr (owned_only hr hc).2.2.1)

theorem not_yield_of_new : s.shared.status s.shared.contexts ≠ .yield := by
  have hle := saved_count_le hr (c := s.shared.contexts)
  rw [if_neg (lt_irrefl _)] at hle
  exact not_yield hbalance (by omega)

theorem not_yield_of_crossing {t : T} (hc : c ∈ (s.places t).crossing) : s.shared.status c ≠ .yield := by
  intro hy
  have hleft := hbalance c
  have hpos := List.count_pos_iff.mpr hc
  have hone := le_census (f := fun w : Worker => (w.crossing.count c : ℤ)) (fun w => Int.natCast_nonneg _)
    s.places t
  have hle := saved_count_le hr (c := c)
  rw [Shared.left, yields, if_pos hy] at hleft
  split at hle <;> omega

end Status

theorem yields_of_reached (h : ((crew stored).system T).Reached s) : Yields s := by
  refine Crew.induct (I := Yields) ?_ (fun s t a s' htook ih => ?_) h
  · refine ⟨fun c => ?_, fun t b hpc => by cases hpc⟩
    exact (census_eq_zero fun t => rfl).symm
  · have heff := effect_of_exec htook.exec
    have hr := htook.reached
    have hsound := (linked hr).sound t
    have howned : ∀ c ∈ (s.places t).owned, s.shared.status c ≠ .yield :=
      fun c hc => not_yield_of_owned hr ih.balance hc
    have hnew := not_yield_of_new hr ih.balance
    refine ⟨fun c => ?_, fun t' b hpc => ?_⟩
    · have hcensus := htook.census fun w => (w.crossing.count c : ℤ)
      have hstep := left_step heff hsound
        (fun b c hpc hptr => by
          obtain ⟨d, hd, hy⟩ := ih.waiting t b hpc
          rw [hptr] at hd
          cases hd
          exact hy)
        howned hnew (fun c hc => not_yield_of_crossing hr ih.balance hc) c
      have hbalance := ih.balance c
      omega
    · by_cases ht : t' = t
      · subst ht
        generalize s.places t' = w, s.shared = x, s'.places t' = w', s'.shared = x' at heff hpc
        cases heff
        case spinDone hptr hy =>
          cases hpc
          exact ⟨_, hptr, hy⟩
        all_goals cases hpc
      · rw [htook.other ht] at hpc
        obtain ⟨c, hptr, hy⟩ := ih.waiting t' b hpc
        have hruns : b ∈ (s.places t').runs := by
          rw [Worker.runs, hpc]
          exact List.mem_cons_self
        have hends := not_ends_of_runs hr (tokens hr).balance hruns t
        refine ⟨c, ptr_step heff hends (linked hr).fresh hptr,
          status_step heff hsound hy howned hnew fun b' hpc' hptr' => ht ?_⟩
        -- the only other `BackNode::run` that could take it is of the same `BackNode`
        have hsame := ptr_unique hr hptr hptr'
        subst hsame
        refine runner_unique hr hruns ?_
        rw [Worker.runs, hpc']
        exact List.mem_cons_self

/-- Whoever jumps finds the registers saved, by the wait of its `BackNode`. -/
theorem saved_of_jump (h : ((crew stored).system T).Reached s) {t : T} {b : ℕ}
    (hpc : (s.places t).pc = .jump b) :
    ∃ c v, (s.places t).contextPtr = some c ∧ ⟨c, .wait v⟩ ∈ s.shared.saved ∧ v.back = b := by
  have htarget := (tokens h).target t
  rw [Worker.Target, hpc] at htarget
  obtain ⟨c, hc, hptr⟩ := htarget
  have hcrossing : c ∈ (s.places t).crossing := by
    rw [Worker.crossing, hpc, hc]
    exact List.mem_cons_self
  have hpos := List.count_pos_iff.mpr hcrossing
  have hone := le_census (f := fun w : Worker => (w.crossing.count c : ℤ)) (fun w => Int.natCast_nonneg _)
    s.places t
  have hleft := (yields_of_reached h).balance c
  have hyields := yields_nonneg s.shared.status c
  have hsaved : c ∈ s.shared.saved.map Saved.context := by
    rw [Shared.left] at hleft
    exact List.count_pos_iff.mp (by omega)
  rcases (linked h).place hptr with ⟨t', hst, ht'⟩ | ⟨v, hv, hback⟩
  · have howned := owned_of_held ht'
    rw [hst] at howned
    exact absurd hsaved (owned_only h howned).2.2.1
  · exact ⟨c, v, hc, hv, hback⟩

end Run
end QuietFlow.Schedule
