import QuietFlow.Runs.Census
import QuietFlow.Runs.System

/-! Processes that are each at one place.

A step takes one process from its place to another and changes the shared state; what it
chooses is its label. `Crew.invariant` lifts a fact about the shared state and one about
every place, and `Crew.balance` a sum of a shared quantity and the weights of all places. -/
namespace QuietFlow.Runs

structure Crew (σ W α : Type*) where
  start : σ
  /-- Where every process begins. -/
  place : W
  exec : σ → W → α → Option (σ × W)

namespace Crew

structure Config (σ W T : Type*) where
  shared : σ
  places : T → W

variable {σ W α T : Type*} (C : Crew σ W α)

section Step
variable (T) [DecidableEq T]

def step (s : Config σ W T) : T × α → Option (Config σ W T)
  | (t, a) => (C.exec s.shared (s.places t) a).map fun (x, w) => ⟨x, Function.update s.places t w⟩

def system : System (Config σ W T) (T × α) where
  start := ⟨C.start, fun _ => C.place⟩
  step := C.step T

variable {C T} {ok : Config σ W T → T × α → Config σ W T → Prop} {s s' : Config σ W T} {t : T} {a : α}

variable (C ok) in
/-- A step of a run: process `t` executes. -/
structure Took (s : Config σ W T) (t : T) (a : α) (s' : Config σ W T) : Prop where
  reached : (C.system T).ReachedBy ok s
  ok : ok s (t, a) s'
  exec : C.exec s.shared (s.places t) a = some (s'.shared, s'.places t)
  others : s'.places = Function.update s.places t (s'.places t)

theorem Took.other (h : C.Took ok s t a s') {t' : T} (ht : t' ≠ t) : s'.places t' = s.places t' := by
  rw [h.others, Function.update_of_ne ht]

theorem Took.next (h : C.Took ok s t a s') : (C.system T).ReachedBy ok s' := by
  refine .step (a := (t, a)) h.reached ?_ h.ok
  show (C.exec s.shared (s.places t) a).map _ = _
  rw [h.exec, Option.map_some]
  exact congrArg some (congrArg (Config.mk s'.shared) h.others.symm)

theorem took_of_step (hr : (C.system T).ReachedBy ok s) (hstep : C.step T s (t, a) = some s')
    (hok : ok s (t, a) s') : C.Took ok s t a s' := by
  obtain ⟨⟨x, w⟩, hexec, hs⟩ := Option.map_eq_some_iff.mp hstep
  cases hs
  exact ⟨hr, hok, by simpa using hexec, by simp⟩

theorem induct {I : Config σ W T → Prop} (start : I (C.system T).start)
    (step : ∀ s t a s', C.Took ok s t a s' → I s → I s') (h : (C.system T).ReachedBy ok s) : I s :=
  System.ReachedBy.induct h start fun s ⟨t, a⟩ s' hr ih hstep hok =>
    step s t a s' (took_of_step hr hstep hok) ih

/-- A fact `I` about the shared state and a fact `J` about every process. -/
theorem invariant {I : σ → Prop} {J : σ → W → Prop} (start : I C.start) (place : J C.start C.place)
    (move : ∀ s t a s', C.Took ok s t a s' → I s.shared → (∀ t, J s.shared (s.places t)) →
      I s'.shared ∧ J s'.shared (s'.places t) ∧ ∀ t', t' ≠ t → J s'.shared (s.places t'))
    (h : (C.system T).ReachedBy ok s) : I s.shared ∧ ∀ t, J s.shared (s.places t) := by
  refine induct (I := fun s => I s.shared ∧ ∀ t, J s.shared (s.places t)) ⟨start, fun _ => place⟩
    (fun s t a s' htook ih => ?_) h
  obtain ⟨hI, hJ, hkeep⟩ := move s t a s' htook ih.1 ih.2
  refine ⟨hI, fun t' => ?_⟩
  by_cases ht : t' = t
  · subst ht
    exact hJ
  · rw [htook.other ht]
    exact hkeep t' ht

variable [Fintype T]

theorem Took.census (h : C.Took ok s t a s') (f : W → ℤ) :
    census f s'.places = census f s.places + (f (s'.places t) - f (s.places t)) := by
  rw [h.others, census_update, Function.update_self]

/-- A quantity of the shared state and the weights of all places balance along all runs if
they do in every step. -/
theorem balance (Φ : σ → ℤ) (w : W → ℤ)
    (move : ∀ s t a s', C.Took ok s t a s' →
      Φ s'.shared + w (s'.places t) = Φ s.shared + w (s.places t))
    (h : (C.system T).ReachedBy ok s) :
    Φ s.shared + census w s.places = Φ C.start + census w (fun _ : T => C.place) := by
  refine induct (I := fun s => Φ s.shared + census w s.places =
    Φ C.start + census w (fun _ : T => C.place)) rfl (fun s t a s' htook ih => ?_) h
  have hmove := move s t a s' htook
  have hcensus := htook.census w
  omega

end Step

/-- A weight of at least one at two processes counts twice. -/
theorem two_le_census [Fintype T] {f : W → ℤ} (hf : ∀ w, 0 ≤ f w) {p : T → W} {t t' : T} (hne : t ≠ t')
    (ht : 1 ≤ f (p t)) (ht' : 1 ≤ f (p t')) : 2 ≤ census f p := by
  classical
  have hpair : ∑ u ∈ {t, t'}, f (p u) ≤ census f p :=
    Finset.sum_le_sum_of_subset_of_nonneg (Finset.subset_univ _) fun u _ _ => hf (p u)
  rw [Finset.sum_pair hne] at hpair
  omega

end Crew
end QuietFlow.Runs
