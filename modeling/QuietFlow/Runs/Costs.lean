import QuietFlow.Runs.Stacks

/-! What a run can cost.

A quantity of the shared state and the weights of all frames, which every step raises by at
most the fee of its label, is at most the sum of the fees at the end of a run
(`total_le_fees`). A step may use what holds of the labels so far and that they are
part of the whole run, so a bound that depends on the whole run can be a constant of
the weights. With negative fees it bounds the length of the run. -/
namespace QuietFlow.Runs.Program

variable {σ F α T : Type*} {P : Program σ F α} [DecidableEq T] {s s' : Config σ F T}
  {ls : List (T × Option α)}

/-- A run ends with a step of a shorter run. -/
theorem run_snoc {as : List (T × Option α)} {l : T × Option α}
    (h : (P.system T).run (P.system T).start (as ++ [l]) = some s) :
    ∃ m, (P.system T).run (P.system T).start as = some m ∧ (P.system T).step m l = some s := by
  rw [System.run_append] at h
  obtain ⟨m, hm, h⟩ := Option.bind_eq_some_iff.mp h
  obtain ⟨m', hstep, h⟩ := Option.bind_eq_some_iff.mp h
  cases h
  exact ⟨m, hm, hstep⟩

theorem reached_run (h : (P.system T).run (P.system T).start ls = some s) : (P.system T).Reached s :=
  System.ReachedBy.start.run ls h

variable [Fintype T]

theorem total_le_fees (Φ : σ → ℤ) (w : F → ℤ) (fee : Option α → ℤ)
    (move : ∀ as s t a old s' new, (P.system T).run (P.system T).start as = some s → as <+: ls →
      P.Took (fun _ _ _ => True) s t a old s' new →
      Φ s'.shared + weight w new ≤ Φ s.shared + weight w old + fee a)
    (h : (P.system T).run (P.system T).start ls = some s) :
    Φ s.shared + total w s ≤ Φ P.start + (ls.map fun l => fee l.2).sum := by
  have hprefix : ∀ as s, as <+: ls → (P.system T).run (P.system T).start as = some s →
      Φ s.shared + total w s ≤ Φ P.start + (as.map fun l => fee l.2).sum := by
    intro as
    induction as using List.reverseRecOn with
    | nil =>
      intro s _ hs
      cases hs
      have hzero : total w (P.system T).start = 0 := total_eq_zero fun f hf => by
        obtain ⟨t, ht⟩ := hf
        cases ht
      rw [hzero]
      exact le_refl _
    | append_singleton as l ih =>
      intro s hle hs
      obtain ⟨m, hm, hstep⟩ := run_snoc hs
      have has : as <+: ls := (List.prefix_append as [l]).trans hle
      obtain ⟨old, new, rest, hold, hmove, hnew⟩ := step_cases (t := l.1) (a := l.2) hstep
      have htook : P.Took (fun _ _ _ => True) m l.1 l.2 old s new :=
        ⟨reached_run hm, hstep, trivial, hmove, rest, hold, hnew⟩
      have hcost := move as m l.1 l.2 old s new hm has htook
      have htotal := total_step htook w
      have hrec := ih m has hm
      rw [List.map_append, List.sum_append, List.map_singleton, List.sum_singleton]
      omega
  exact hprefix ls s (List.prefix_refl ls) h

end QuietFlow.Runs.Program
