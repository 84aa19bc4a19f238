import Mathlib.Data.Nat.Notation
import Mathlib.Logic.Function.Basic

/-! State machines and what holds along their runs.

A `System` is a start state and a partial step: a label says which process moves
(and what it chooses), and a step that is not enabled is `none`. `ReachedBy ok`
are the states of the runs whose every step meets a condition `ok` on the state
before, the label and the state after; with no condition it is `Reached`. One
induction (`ReachedBy.induct`) serves every invariant: it hands the step the
reachability of the state before, so that invariants proved earlier can be used.
`runBy` executes a list of labels, for concrete runs. -/
namespace QuietFlow.Runs

structure System (σ α : Type*) where
  start : σ
  step : σ → α → Option σ

namespace System
variable {σ α : Type*} (S : System σ α)

/-- The states of the runs whose every step meets `ok`. -/
inductive ReachedBy (ok : σ → α → σ → Prop) : σ → Prop where
  | start : ReachedBy ok S.start
  | step {s a s'} : ReachedBy ok s → S.step s a = some s' → ok s a s' → ReachedBy ok s'

/-- The states of all runs. -/
abbrev Reached : σ → Prop := S.ReachedBy fun _ _ _ => True

variable {S} {ok ok' : σ → α → σ → Prop} {s s' : σ}

theorem ReachedBy.induct {I : σ → Prop} (h : S.ReachedBy ok s) (start : I S.start)
    (step : ∀ s a s', S.ReachedBy ok s → I s → S.step s a = some s' → ok s a s' → I s') : I s := by
  induction h with
  | start => exact start
  | step hr hs hok ih => exact step _ _ _ hr ih hs hok

/-- A weaker condition on the steps reaches at least as much. -/
theorem ReachedBy.mono (h : S.ReachedBy ok s)
    (sub : ∀ s a s', S.ReachedBy ok s → S.step s a = some s' → ok s a s' → ok' s a s') :
    S.ReachedBy ok' s := by
  induction h with
  | start => exact .start
  | step hr hs hok ih => exact .step ih hs (sub _ _ _ hr hs hok)

theorem ReachedBy.reached (h : S.ReachedBy ok s) : S.Reached s :=
  h.mono fun _ _ _ _ _ _ => trivial

/-- A map that takes every step to a step of another system, or to none, takes runs to runs. -/
theorem ReachedBy.simulate {τ β : Type*} {S' : System τ β} {ok' : τ → β → τ → Prop} {f : σ → τ}
    (h : S.ReachedBy ok s) (start : f S.start = S'.start)
    (step : ∀ s a s', S.ReachedBy ok s → S'.ReachedBy ok' (f s) → S.step s a = some s' → ok s a s' →
      f s' = f s ∨ ∃ b, S'.step (f s) b = some (f s') ∧ ok' (f s) b (f s')) :
    S'.ReachedBy ok' (f s) := by
  refine h.induct (I := fun s => S'.ReachedBy ok' (f s)) ?_ fun s a s' hr ih hs hok => ?_
  · rw [start]
    exact .start
  · rcases step s a s' hr ih hs hok with hstay | ⟨b, hb, hok'⟩
    · rw [hstay]
      exact ih
    · exact .step ih hb hok'

section Run
variable (S) (ok : σ → α → σ → Prop) [∀ s a s', Decidable (ok s a s')]

/-- Execute a list of labels, as long as every step is enabled and meets `ok`. -/
def runBy : σ → List α → Option σ
  | s, [] => some s
  | s, a :: rest => (S.step s a).bind fun s' => if ok s a s' then runBy s' rest else none

abbrev run : σ → List α → Option σ := S.runBy fun _ _ _ => True

variable {S ok}

theorem runBy_append (s : σ) (as bs : List α) :
    S.runBy ok s (as ++ bs) = (S.runBy ok s as).bind fun s' => S.runBy ok s' bs := by
  induction as generalizing s with
  | nil => rfl
  | cons a rest ih =>
    simp only [List.cons_append, runBy]
    cases S.step s a with
    | none => rfl
    | some s' =>
      simp only [Option.bind_some]
      split
      · exact ih s'
      · rfl

theorem run_append (s : σ) (as bs : List α) :
    S.run s (as ++ bs) = (S.run s as).bind fun s' => S.run s' bs := runBy_append s as bs

theorem run_cons {a : α} (h : S.step s a = some s') (as : List α) :
    S.run s (a :: as) = S.run s' as := by
  simp only [runBy, h, Option.bind_some, if_true]

/-- A process that moves alone until it can move no more ends in one state only. -/
theorem run_alone_unique {a : α} {n m : ℕ} {s₁ s₂ : σ} (h₁ : S.run s (List.replicate n a) = some s₁)
    (hstop₁ : S.step s₁ a = none) (h₂ : S.run s (List.replicate m a) = some s₂)
    (hstop₂ : S.step s₂ a = none) : s₁ = s₂ := by
  induction n generalizing s m with
  | zero =>
    cases h₁
    cases m with
    | zero => exact Option.some.inj h₂
    | succ m => simp [List.replicate_succ, runBy, hstop₁] at h₂
  | succ n ih =>
    rw [List.replicate_succ] at h₁
    cases hstep : S.step s a with
    | none => simp [runBy, hstep] at h₁
    | some s' =>
      rw [run_cons hstep] at h₁
      cases m with
      | zero =>
        cases h₂
        rw [hstep] at hstop₂
        cases hstop₂
      | succ m =>
        rw [List.replicate_succ, run_cons hstep] at h₂
        exact ih h₁ h₂

theorem ReachedBy.run (h : S.ReachedBy ok s) (as : List α) (hs : S.runBy ok s as = some s') :
    S.ReachedBy ok s' := by
  induction as generalizing s with
  | nil => cases hs; exact h
  | cons a rest ih =>
    simp only [runBy, Option.bind_eq_some_iff] at hs
    obtain ⟨m, hstep, hs⟩ := hs
    split at hs
    · next hok => exact ih (.step h hstep hok) hs
    · cases hs

/-- A concrete run reaches a state with a property that can be evaluated. -/
theorem exists_reachedBy (S : System σ α) (ok : σ → α → σ → Prop)
    [∀ s a s', Decidable (ok s a s')] (as : List α) (p : σ → Prop) [DecidablePred p]
    (h : (S.runBy ok S.start as).any (fun s => decide (p s)) = true) :
    ∃ s, S.ReachedBy ok s ∧ p s := by
  obtain ⟨s, hs, hp⟩ := (Option.any_eq_true _ _).mp h
  exact ⟨s, ReachedBy.start.run as hs, of_decide_eq_true hp⟩

end Run
end System
end QuietFlow.Runs
