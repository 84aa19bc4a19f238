import QuietFlow.Reuse.Owners
import Mathlib.Data.Finset.Card

/-! The count of outstanding nodes, which `Schedule::destroy` waits for.

The constructor and `get_from_pool` count a node in, `NodeDelete` and `~Node` count it out,
each by a step of its own. `flag_node` is made before `Schedule::init`, which sets the count
to zero, and is not counted. -/
namespace QuietFlow.Reuse
open Runs Program

/-- Part of a node's construction, of `get_from_pool`, of `NodeDelete` or of `~Node`. -/
def Frame.working : Frame → Bool
  | .construct _ | .create _ | .countUp _ | .release _ _ _ | .forget _ _ _ | .tryEnqueue _ _ | .pooled
  | .destruct _ _ | .countDown _ _ | .destroy _ _ => true
  | _ => false

/-- What a frame is to add to the count for its node to be counted right. -/
def Frame.uncounted : Frame → ℤ
  | .construct _ | .create _ | .countUp _ | .release .delete _ _ | .forget .delete _ _ | .destroy _ _ => 1
  | .pooled => -1
  | _ => 0

/-- The nodes that are neither destroyed nor in the pool. -/
def Shared.outside (x : Shared) : Finset ℕ :=
  (Finset.range x.nodes).filter fun n => n ∉ x.pool ∧ n ∉ x.destroyed

def Shared.uncounted (x : Shared) : ℤ := x.pendingWorkerNum - x.nodes + x.pool.length + x.destroyed.length

section Step
variable {dump : Bool} {x x' : Shared} {a : Option Call} {old new : List Frame}

theorem uncounted_frames (k : Then) (g : ℕ) : weight Frame.uncounted (k.frames g) = 0 := by cases k <;> rfl

theorem uncounted_resets (l : List ℕ) (who : By) : weight Frame.uncounted (l.map (.reset who)) = 0 :=
  weight_eq_zero fun f hf => by
    obtain ⟨i, -, rfl⟩ := List.mem_map.mp hf
    rfl

theorem uncounted_step (h : Effect dump x a old x' new) :
    x'.uncounted + weight Frame.uncounted new = x.uncounted + weight Frame.uncounted old := by
  cases h
  case getFromPool n hn =>
    have hlength := List.length_erase_of_mem hn
    have hpos := List.length_pos_of_mem hn
    simp only [Shared.uncounted, weight_cons, weight_nil, Frame.uncounted]
    omega
  case skip g k hk =>
    rw [uncounted_frames]
    rfl
  case clear g k =>
    rw [weight_append, uncounted_resets, uncounted_frames]
    rfl
  case members g =>
    rw [uncounted_resets]
    rfl
  case last who n hn =>
    cases hr : x.reuse n <;> rfl
  case release d who n hn => cases d <;> rfl
  case releaseGraph d who n g hn => cases d <;> rfl
  case forget d who n => cases d <;> rfl
  case new | construct | countUp | tryEnqueue | pooled | countDown | destroy =>
    simp only [Shared.uncounted, Shared.newNode, Shared.setStatus, weight_cons, weight_nil, Frame.uncounted,
      List.length_append, List.length_singleton]
    push_cast
    omega
  all_goals rfl

end Step

section Run
variable {dump : Bool} {pooled : ℕ} {T : Type} [Fintype T] [DecidableEq T] {s : Config Shared Frame T}

theorem uncounted_eq (h : ((program dump pooled).system T).Reached s) :
    s.shared.uncounted + total Frame.uncounted s = 0 := by
  have hbalance := balance Shared.uncounted (fun _ => Frame.uncounted)
    (fun s t a old s' new htook => ⟨uncounted_step (effect_of_moves htook.moves), fun _ _ => rfl⟩) h
  have hstart : (program dump pooled).start.uncounted = 0 := by simp [program, Shared.uncounted]
  rw [hbalance, hstart]

/-- The pool and the destroyed nodes have nothing twice. -/
theorem pool_add_destroyed_le (h : ((program dump pooled).system T).Reached s) (n : ℕ) :
    s.shared.pool.count n + s.shared.destroyed.count n ≤ if n < s.shared.nodes then 1 else 0 := by
  have hplace := (owners h).place n
  have htotal := total_nonneg (tally_nonneg Frame.token n) s
  rw [Shared.place] at hplace
  split_ifs at hplace ⊢ <;> omega

theorem outside_card (h : ((program dump pooled).system T).Reached s) :
    (s.shared.outside.card : ℤ) = s.shared.nodes - s.shared.pool.length - s.shared.destroyed.length := by
  have hle := pool_add_destroyed_le h
  have hnodup : (s.shared.pool ++ s.shared.destroyed).Nodup := List.nodup_iff_count_le_one.mpr fun n => by
    have hn := hle n
    rw [List.count_append]
    split at hn <;> omega
  have hsub : (s.shared.pool ++ s.shared.destroyed).toFinset ⊆ Finset.range s.shared.nodes := fun n hn => by
    have hpos := List.count_pos_iff.mpr (List.mem_toFinset.mp hn)
    have hn := hle n
    rw [List.count_append] at hpos
    split at hn
    · next hlt => exact Finset.mem_range.mpr hlt
    · omega
  have houtside : s.shared.outside =
      Finset.range s.shared.nodes \ (s.shared.pool ++ s.shared.destroyed).toFinset := by
    ext n
    simp [Shared.outside]
  have hcard := Finset.card_sdiff_add_card_eq_card hsub
  rw [List.toFinset_card_of_nodup hnodup, List.length_append, Finset.card_range] at hcard
  rw [houtside]
  omega

/-- **The count is the number of nodes that are neither destroyed nor in the pool** whenever no
call that counts is in progress, so `Schedule::destroy` goes on exactly when none is left. -/
theorem pending_eq_outside (h : ((program dump pooled).system T).Reached s)
    (hidle : s.Without Frame.working) : s.shared.pendingWorkerNum = s.shared.outside.card ∧
      (s.shared.pendingWorkerNum = 0 ↔ s.shared.outside = ∅) := by
  have hzero : total Frame.uncounted s = 0 := total_eq_zero fun f hf => by
    have hf := hidle.eq_false hf
    cases f <;> first | rfl | cases hf
  have hcount := uncounted_eq h
  have hcard := outside_card h
  rw [hzero, Shared.uncounted] at hcount
  have heq : s.shared.pendingWorkerNum = s.shared.outside.card := by omega
  refine ⟨heq, ?_⟩
  rw [heq, ← Finset.card_eq_zero]
  exact_mod_cast Iff.rfl

/-- Node 1 is made, node 0 taken from the pool and stored in the sub-graph of node 1, which is
stored in a graph that is then cleared: node 0 goes back to the pool, node 1 finds it full. -/
def recycling : List (Fin 2 × Option Call) :=
  [(0, some (.new true)), (0, none), (1, some (.getFromPool 0)), (1, none), (1, none),
    (1, some (.new false)), (1, none), (0, some .newGraph), (0, some (.getGraph 1)),
    (1, some (.createEdges 1 0)), (0, some (.createEdges 0 1)), (0, some (.reset 0)), (0, none),
    (1, some (.reset 1)), (1, none), (0, some (.setStatus 0 .recoverable)),
    (0, some (.setStatus 1 .recoverable)), (0, some (.clearGraph 0))] ++
  List.replicate 26 (0, none) ++ [(1, some (.poolFull true))] ++ List.replicate 5 (0, none)

theorem pending_of_recycling : ∃ s, ((program false 1).system (Fin 2)).Reached s ∧
    (s.shared.pendingWorkerNum = s.shared.outside.card ∧
      (s.shared.pendingWorkerNum = 0 ↔ s.shared.outside = ∅)) ∧
    s.shared.pool = [0] ∧ s.shared.destroyed = [1] ∧ s.shared.outside = {2} := by
  obtain ⟨s, hs, hidle, hrest⟩ := System.exists_reachedBy ((program false 1).system (Fin 2))
    (fun _ _ _ => True) recycling
    (fun s => s.Without Frame.working ∧ s.shared.pool = [0] ∧ s.shared.destroyed = [1] ∧
      s.shared.outside = {2}) (by decide)
  exact ⟨s, hs, pending_eq_outside hs hidle, hrest⟩

end Run
end QuietFlow.Reuse
