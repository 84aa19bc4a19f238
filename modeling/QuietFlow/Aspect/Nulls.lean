import QuietFlow.Aspect.Waits

/-! Null pointers in the lists of `require_node`.

The first loop of `require_node` and `create_edges` skip a null pointer. The search for a
circle does not, and a call that does not wait leaves one in `up_streams` for later searches. -/
namespace QuietFlow.Aspect
open Runs

/-- No list holds a null pointer, unless it holds the caller, too. -/
def nullSafe : Act → Prop
  | .requireNode t nodes => none ∈ nodes → some t ∈ nodes
  | _ => True

instance : ∀ a, Decidable (nullSafe a)
  | .requireNode t nodes => inferInstanceAs (Decidable (none ∈ nodes → some t ∈ nodes))
  | .new | .createEdges _ _ _ | .start _ | .finish _ | .waitGraph _ _ | .back _ => .isTrue trivial

theorem none_not_mem_recorded (nodes : List (Option ℕ)) : none ∉ State.recorded nodes := by
  simp [State.recorded]

theorem null_step {s s' : State} {a : Act} (h : Effect s a s') (hnull : ∀ n, none ∉ s.upStreams n)
    (hsafe : nullSafe a) (n : ℕ) : none ∉ s'.upStreams n := by
  have happend : ∀ (s : State) t (nodes : List (Option ℕ)), none ∉ s.upStreams n → none ∉ nodes →
      none ∉ (s.append t nodes).upStreams n := by
    intro s t nodes hs hnodes
    simp only [State.append, Function.update_apply]
    grind
  have hnew : ∀ task (nodes : List (Option ℕ)), none ∉ nodes → none ∉ (s.newNode task nodes).upStreams n := by
    intro task nodes hnodes
    simp only [State.newNode, Function.update_apply]
    grind
  cases h with
  | new => exact hnew true [] List.not_mem_nil
  | createEdges _ _ _ => exact happend s _ _ (hnull n) (none_not_mem_recorded _)
  | start _ _ _ _ => exact hnull n
  | finish _ _ => exact hnull n
  | same => exact hnull n
  | @append t nodes _ hstatus hnodes =>
    -- a list with the caller would have waited
    refine happend s _ _ (hnull n) fun hnone => ?_
    have hun := (hnodes t (hsafe hnone)).2
    rw [State.unfinished, hstatus] at hun
    cases hun
  | requireNode _ _ _ _ =>
    exact happend (s.newNode false _) _ _ (hnew false _ (none_not_mem_recorded _)) (by simp)
  | waitGraph _ _ _ => exact happend (s.newNode false []) _ _ (hnew false [] List.not_mem_nil) (by simp)
  | back _ => exact happend s _ _ (hnull n) (by simp)

/-- **A null pointer is followed** exactly in a call whose list holds one and not the caller. -/
theorem nullRead_iff {s : State} (h : system.ReachedBy (fun _ a _ => nullSafe a) s) :
    (∀ n, none ∉ s.upStreams n) ∧ ∀ t nodes fuel,
      checkCircle s.status s.upStreams t fuel nodes = .error .nullRead ↔ none ∈ nodes ∧ some t ∉ nodes := by
  have hnull := h.induct (I := fun s => ∀ n, none ∉ s.upStreams n) (fun n => List.not_mem_nil)
    fun s a s' _ hnull hs hsafe => null_step (effect_of_step hs) hnull hsafe
  refine ⟨hnull, fun t nodes fuel => ⟨fun hread => ?_, fun ⟨hnone, hself⟩ => ?_⟩⟩
  · by_contra hnot
    refine checkCircle_ne_null hnull (fun hnone => ?_) fuel hread
    by_contra hself
    exact hnot ⟨hnone, hself⟩
  · rw [checkCircle, if_neg hself]
    rcases checkNodes_spec s.status nodes with ⟨-, hfold⟩ | ⟨hno, -⟩
    · rw [doCheckCircle, hfold]
      rfl
    · exact absurd hnone hno

theorem nullRead_of_caller : ∃ s : State, s.status 1 = .running ∧
    checkCircle s.status s.upStreams 1 5 [none, some 1] ≠ .error .nullRead := by
  obtain ⟨s, hs, hstatus⟩ := System.exists_reachedBy system (fun _ a _ => nullSafe a)
    [.new, .createEdges 0 1 [none], .start 1, .requireNode 1 [none, some 1]]
    (fun s => s.status 1 = .running) (by decide)
  refine ⟨s, hstatus, fun hread => ?_⟩
  have hself := (((nullRead_iff hs).2 1 [none, some 1] 5).mp hread).2
  simp at hself

/-- A list with a null pointer and an unfinished node. -/
theorem nullRead_of_unfinished : ¬ ∀ s, system.Reached s → ∀ t nodes fuel, s.status t = .running →
    (∀ n, some n ∈ nodes → s.isTask n) → checkCircle s.status s.upStreams t fuel nodes ≠ .error .nullRead := by
  intro h
  obtain ⟨s, hs, hstatus, htask, hread⟩ := System.exists_reachedBy system (fun _ _ _ => True)
    [.new, .createEdges 0 1 [], .start 1, .new, .createEdges 0 2 []]
    (fun s => s.status 1 = .running ∧ s.isTask 2 ∧
      checkCircle s.status s.upStreams 1 5 [none, some 2] = .error .nullRead) (by decide)
  exact h s hs 1 [none, some 2] 5 hstatus (by simp [htask]) hread

end QuietFlow.Aspect
