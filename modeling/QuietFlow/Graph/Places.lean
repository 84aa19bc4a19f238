import QuietFlow.Graph.Steps

/-! Where the nodes are.

A node passes the stages of its `create_edges` and of its worker one after the other
(`passed_add`), and a node that is handed out is in a self queue, on its way, or
dispatched (`dispatched_add`). Each of these is a balance of the histories and of what
the frames hold, kept by every step. -/
namespace QuietFlow.Engine
open Runs Program

section Lists
variable {α β : Type}

@[simp] theorem flatMap_ignored (l : List α) : l.flatMap (fun _ => ([] : List β)) = [] := by
  simp

theorem flatMap_one (a : α) (f : α → List β) : [a].flatMap f = f a := by
  simp

/-- The members of a group in a list, counted one by one. -/
theorem sum_count [DecidableEq α] [DecidableEq β] {key : α → β} {b : β} {D : Finset α}
    (hD : ∀ a ∈ D, key a = b) (as : List α) (has : ∀ a ∈ as, key a = b → a ∈ D) :
    ∑ a ∈ D, (as.count a : ℤ) = (as.map key).count b := by
  induction as with
  | nil => simp
  | cons a rest ih =>
    have hrest := ih fun n hn => has n (List.mem_cons_of_mem a hn)
    simp only [List.count_cons, List.map_cons, beq_iff_eq, Nat.cast_add, Nat.cast_ite, Nat.cast_one,
      Nat.cast_zero, Finset.sum_add_distrib, hrest]
    congr 1
    by_cases ha : key a = b
    · have hmem := has a List.mem_cons_self ha
      rw [Finset.sum_ite_eq, if_pos hmem, if_pos ha]
    · have hmem : a ∉ D := fun h => ha (hD a h)
      rw [Finset.sum_ite_eq, if_neg hmem, if_neg ha]

end Lists

namespace Stage

theorem rank_injective {st m : Stage} (h : st.rank = m.rank) : st = m := by
  cases st <;> cases m <;> first | rfl | simp [rank] at h

theorem count_upTo (m : Stage) : Stage.count.upTo m = m.creates := by
  cases m <;> rfl

theorem finish_upTo (m : Stage) : Stage.finish.upTo m = !m.creates := by
  cases m <;> rfl

variable {N : Type} [DecidableEq N] (p : Stage → List N) (st st' : Stage)

/-- A node passes a stage and awaits the next one. -/
theorem count_pass (hrank : st'.rank = st.rank + 1) (hcreates : st'.creates = st.creates) (d n : N)
    (m : Stage) :
    (Function.update p st (p st ++ [d]) m).count n + (bif st'.upTo m then [d] else []).count n =
      (p m).count n + (bif st.upTo m then [d] else []).count n := by
  by_cases hm : m = st
  · subst hm
    simp [upTo, hrank, List.count_append]
  · have hne : m.rank ≠ st.rank := fun h => hm (rank_injective h)
    have hle : decide (st.rank + 1 ≤ m.rank) = decide (st.rank ≤ m.rank) := by
      apply decide_eq_decide.mpr
      omega
    rw [Function.update_of_ne hm, upTo, upTo, hcreates, hrank, hle]

instance (q : Stage → Prop) [DecidablePred q] : Decidable (∀ m, q m) :=
  decidable_of_iff (q .count ∧ q .store ∧ q .arm ∧ q .built ∧ q .finish ∧ q .snapshot ∧ q .drain ∧
    q .decrement ∧ q .complete)
    ⟨fun h m => by cases m <;> simp only [h], fun h => by simp only [h, and_self]⟩

/-- A node passes the last stage of its part. -/
theorem count_pass_last (hlast : ∀ m, st.upTo m = true → m = st) (d n : N) (m : Stage) :
    (Function.update p st (p st ++ [d]) m).count n =
      (p m).count n + (bif st.upTo m then [d] else []).count n := by
  by_cases hm : m = st
  · subst hm
    simp [upTo, List.count_append]
  · have hno : st.upTo m = false := by
      cases h : st.upTo m with
      | false => rfl
      | true => exact absurd (hlast m h) hm
    rw [Function.update_of_ne hm, hno]
    simp

end Stage

variable {N G : Type} [DecidableEq N]

/-- How often a node has come to the stages of a kind. -/
def Shared.entered (x : Shared N G) (m : Stage) (n : N) : ℤ :=
  bif m.creates then (bif (x.calls n).isSome then 1 else 0)
  else (x.dispatched.count n : ℤ) - x.pool.count n

namespace Layout
variable {L : Layout N G} {x x' : Shared N G} {old new : List (Frame N G)}

omit [DecidableEq N] in
theorem Ends.awaits {u : N} {last : Work N} (h : L.Ends u last) (m : Stage) :
    Frame.awaits m (.work u last : Frame N G) = bif Stage.complete.upTo m then [u] else [] := by
  cases h <;> rfl

/-- A step in which a node passes a stage and comes to the next one. -/
theorem awaits_pass (st st' : Stage) {d n : N} {m : Stage} (hrank : st'.rank = st.rank + 1)
    (hcreates : st'.creates = st.creates)
    (hpassed : x'.passed = Function.update x.passed st (x.passed st ++ [d]))
    (hentered : x'.entered m n = x.entered m n)
    (hold : old.flatMap (Frame.awaits m) = bif st.upTo m then [d] else [])
    (hnew : new.flatMap (Frame.awaits m) = bif st'.upTo m then [d] else []) :
    ((x'.passed m).count n : ℤ) - x'.entered m n + weight (tally (Frame.awaits m) n) new =
      (x.passed m).count n - x.entered m n + weight (tally (Frame.awaits m) n) old := by
  have hpass := Stage.count_pass x.passed st st' hrank hcreates d n m
  rw [hpassed, hentered, weight_tally, weight_tally, hold, hnew]
  omega

/-- A step in which a node passes the last stage of its part. -/
theorem awaits_pass_last (st : Stage) {d n : N} {m : Stage} (hlast : ∀ m, st.upTo m = true → m = st)
    (hpassed : x'.passed = Function.update x.passed st (x.passed st ++ [d]))
    (hold : old.flatMap (Frame.awaits m) = bif st.upTo m then [d] else [])
    (hnew : ((new.flatMap (Frame.awaits m)).count n : ℤ) = x'.entered m n - x.entered m n) :
    ((x'.passed m).count n : ℤ) - x'.entered m n + weight (tally (Frame.awaits m) n) new =
      (x.passed m).count n - x.entered m n + weight (tally (Frame.awaits m) n) old := by
  have hpass := Stage.count_pass_last x.passed st hlast d n m
  rw [hpassed, weight_tally, weight_tally, hold, hnew]
  omega

/-- A worker that leaves has its next node, the one that is dispatched. -/
theorem awaits_left {u n : N} {m : Stage} (next : Option N) (hcalls : x'.calls = x.calls)
    (hpool : x'.pool = x.pool) (hdispatched : x'.dispatched = x.dispatched ++ next.toList) :
    ((([.work u (.left next)] : List (Frame N G)).flatMap (Frame.awaits m)).count n : ℤ) =
      x'.entered m n - x.entered m n := by
  simp only [flatMap_one, Frame.awaits, Shared.entered, Stage.finish_upTo, hcalls, hpool, hdispatched]
  cases m.creates <;> simp

variable [DecidableEq G]

theorem awaits_step (h : L.Effect x old x' new) (m : Stage) (n : N) :
    ((x'.passed m).count n : ℤ) - x'.entered m n + weight (tally (Frame.awaits m) n) new =
      (x.passed m).count n - x.entered m n + weight (tally (Frame.awaits m) n) old := by
  cases h
  case create d c hfree =>
    rw [weight_tally, weight_tally]
    simp only [Frame.awaits, Build.next, Shared.entered, flatMap_one, Stage.count_upTo]
    by_cases hn : n = d
    · subst hn
      cases m.creates <;> simp [hfree]
    · cases m.creates <;> simp [hn, Ne.symm hn]
  case take u hu =>
    rw [weight_tally, weight_tally]
    have hpos := List.count_pos_iff.mpr hu
    simp only [Frame.awaits, Work.next, Shared.entered, flatMap_one, Stage.finish_upTo]
    by_cases hn : n = u
    · subst hn
      cases m.creates <;> simp
      omega
    · cases m.creates <;> simp [hn, Ne.symm hn]
  case count d c => exact awaits_pass .count .store rfl rfl rfl rfl (flatMap_one _ _) (flatMap_one _ _)
  case store d c =>
    cases c <;> exact awaits_pass .store .arm rfl rfl rfl rfl (flatMap_one _ _) (flatMap_one _ _)
  case arm d required hne =>
    exact awaits_pass .arm .built rfl rfl rfl rfl (flatMap_one _ _) (flatMap_one _ _)
  case armNone d => exact awaits_pass .arm .built rfl rfl rfl rfl (flatMap_one _ _) (flatMap_one _ _)
  case checkZero d g hzero =>
    exact awaits_pass .arm .built rfl rfl rfl rfl (flatMap_one _ _) (flatMap_one _ _)
  case recheckZero d g hzero =>
    exact awaits_pass .arm .built rfl rfl rfl rfl (flatMap_one _ _) (flatMap_one _ _)
  case recheck d g hzero =>
    exact awaits_pass .arm .built rfl rfl rfl rfl (flatMap_one _ _) (flatMap_one _ _)
  case built d =>
    exact awaits_pass_last .built (by decide) rfl (flatMap_one _ _) (by simp [Shared.entered])
  case running u hst =>
    exact awaits_pass .finish .snapshot rfl rfl rfl rfl (flatMap_one _ _) (flatMap_one _ _)
  case snapshot u => exact awaits_pass .snapshot .drain rfl rfl rfl rfl (flatMap_one _ _) (flatMap_one _ _)
  case drain u notified =>
    exact awaits_pass .drain .decrement rfl rfl rfl rfl (flatMap_one _ _) (flatMap_one _ _)
  case countZero u notified hone =>
    exact awaits_pass .decrement .complete rfl rfl rfl rfl (flatMap_one _ _) (flatMap_one _ _)
  case countDown u notified others last hone hleaves =>
    rw [weight_tally, weight_tally]
    have hpass := Stage.count_pass x.passed .decrement .complete rfl rfl u n m
    have hlast := hleaves.ends.awaits m
    simp only [List.flatMap_append, List.flatMap_cons, List.flatMap_nil, hlast]
    simp [Frame.awaits, Work.next, Shared.entered, List.flatMap_map]
    omega
  case graphNotifyDone u notified others last hleaves =>
    rw [weight_tally, weight_tally]
    have hlast := hleaves.ends.awaits m
    simp only [List.flatMap_append, List.flatMap_cons, List.flatMap_nil, hlast]
    simp [Frame.awaits, Work.next, List.flatMap_map]
  case tryDequeueEmpty u temp hm =>
    exact awaits_pass_last .complete (by decide) rfl (flatMap_one _ _) (awaits_left temp rfl rfl rfl)
  case leave u next =>
    exact awaits_pass_last .complete (by decide) rfl (flatMap_one _ _) (awaits_left next rfl rfl rfl)
  case leavePopped u k =>
    exact awaits_pass_last .complete (by decide) rfl (flatMap_one _ _) (awaits_left (some k) rfl rfl rfl)
  case left u next hst =>
    rw [weight_tally, weight_tally]
    simp [Frame.awaits, Work.next, Shared.entered, List.flatMap_map]
    cases hm : Stage.finish.upTo m <;> simp
  all_goals rw [weight_tally, weight_tally]
  all_goals simp [Frame.awaits, Build.next, Work.next, Shared.entered, List.flatMap_map]

section Reached
variable {T : Type} [DecidableEq T] [Fintype T] {s : Config (Shared N G) (Frame N G) T}
  {ok : Config (Shared N G) (Frame N G) T → T × Option (Act N G) → Config (Shared N G) (Frame N G) T → Prop}

/-- Every node that comes to a stage passes it or is in a frame before it. -/
theorem passed_add (h : (L.system T).ReachedBy ok s) (m : Stage) (n : N) :
    ((s.shared.passed m).count n : ℤ) + total (tally (Frame.awaits m) n) s = s.shared.entered m n := by
  have hbal := balance (fun x => ((x.passed m).count n : ℤ) - x.entered m n)
    (fun _ => tally (Frame.awaits m) n)
    (fun _ _ _ _ _ _ htook => ⟨awaits_step (effect_of_moves htook.moves) m n, fun _ _ => rfl⟩) h
  have hzero : L.start.entered m n = 0 := by
    cases h : m.creates <;> simp [Shared.entered, start, h]
  have hstart : ((L.program.start.passed m).count n : ℤ) - L.program.start.entered m n = 0 := by
    show (([] : List N).count n : ℤ) - L.start.entered m n = 0
    rw [hzero]
    rfl
  omega

/-- A node with a frame before a stage of its `create_edges` has not passed it. -/
theorem not_passed (h : (L.system T).ReachedBy ok s) {m : Stage} (hm : m.creates = true)
    {f : Frame N G} (hf : s.HasFrame f) {n : N} (hn : n ∈ f.awaits m) :
    n ∉ s.shared.passed m ∧ (s.shared.calls n).isSome = true := by
  have hadd := passed_add h m n
  have hone := one_le_total hf hn
  simp only [Shared.entered, hm, cond_true] at hadd
  cases hcall : (s.shared.calls n).isSome <;> simp only [hcall, cond_true, cond_false] at hadd
  · omega
  · refine ⟨fun hmem => ?_, rfl⟩
    have := List.count_pos_iff.mpr hmem
    omega

theorem called (h : (L.system T).ReachedBy ok s) {m : Stage} (hm : m.creates = true) {n : N}
    (hn : n ∈ s.shared.passed m) : (s.shared.calls n).isSome = true := by
  have hadd := passed_add h m n
  have hpos := total_nonneg (tally_nonneg (Frame.awaits m) n) s
  have hcount := List.count_pos_iff.mpr hn
  simp only [Shared.entered, hm, cond_true] at hadd
  cases hcall : (s.shared.calls n).isSome <;> simp only [hcall, cond_true, cond_false] at hadd
  · omega
  · rfl

end Reached

/-! ### The queues -/

/-- How often a node is in its graph's self queue. -/
def queued (L : Layout N G) (x : Shared N G) (n : N) : ℤ := (x.limitQueue (L.graphOf n)).count n

/-- The self queue of a graph holds nodes of that graph. -/
def Sorted (L : Layout N G) (x : Shared N G) : Prop := ∀ g, ∀ n ∈ x.limitQueue g, L.graphOf n = g

theorem sorted_step (h : L.Effect x old x' new) (hs : L.Sorted x) : L.Sorted x' := by
  cases h
  case enqueue n =>
    intro g k hk
    by_cases hg : g = L.graphOf n
    · subst hg
      simp only [Function.update_self, List.mem_append, List.mem_singleton] at hk
      exact hk.elim (hs _ k) fun he => by rw [he]
    · simp only [Function.update_of_ne hg] at hk
      exact hs g k hk
  case pop u temp n queue hqueue =>
    intro g k hk
    by_cases hg : g = L.graphOf u
    · subst hg
      simp only [Function.update_self] at hk
      exact hs _ k (hqueue ▸ List.mem_cons_of_mem n hk)
    · simp only [Function.update_of_ne hg] at hk
      exact hs g k hk
  all_goals exact hs

theorem placing_step (h : L.Effect x old x' new) (hs : L.Sorted x) (n : N) :
    (x'.dispatched.count n : ℤ) + L.queued x' n - x'.handed.count n +
        weight (tally Frame.placing n) new =
      x.dispatched.count n + L.queued x n - x.handed.count n + weight (tally Frame.placing n) old := by
  rw [weight_tally, weight_tally]
  cases h
  case enqueue k =>
    by_cases hg : L.graphOf n = L.graphOf k
    · simp [Frame.placing, queued, hg]
      omega
    · have hk : k ≠ n := fun he => hg (by rw [he])
      simp [Frame.placing, queued, Function.update_of_ne hg, hk]
  case pop u temp k queue hqueue =>
    have hk : L.graphOf k = L.graphOf u := hs _ k (by rw [hqueue]; exact List.mem_cons_self)
    by_cases hg : L.graphOf n = L.graphOf u
    · simp [Frame.placing, queued, hg, hqueue, List.flatMap_map, List.count_cons]
      omega
    · have hne : k ≠ n := fun he => hg (by rw [← he, hk])
      simp [Frame.placing, queued, Function.update_of_ne hg, List.flatMap_map, hne]
  case countDown u notified others last hone hleaves =>
    cases hleaves.ends <;> simp [Frame.placing, queued, List.flatMap_map]
  case graphNotifyDone u notified others last hleaves =>
    cases hleaves.ends <;> simp [Frame.placing, queued, List.flatMap_map]
  all_goals simp [Frame.placing, queued, List.flatMap_map]
  all_goals omega

section Reached
variable {T : Type} [DecidableEq T] [Fintype T] {s : Config (Shared N G) (Frame N G) T}
  {ok : Config (Shared N G) (Frame N G) T → T × Option (Act N G) → Config (Shared N G) (Frame N G) T → Prop}

omit [Fintype T] in
theorem sorted (h : (L.system T).ReachedBy ok s) : L.Sorted s.shared :=
  (invariant (J := fun _ _ => True) (fun g n hn => by cases hn)
    (fun _ _ _ _ _ _ htook hI _ => ⟨sorted_step (effect_of_moves htook.moves) hI,
      fun _ _ => trivial, fun _ _ _ => trivial⟩) h).1

/-- Every node that is handed out is dispatched, in a self queue or on its way. -/
theorem dispatched_add (h : (L.system T).ReachedBy ok s) (n : N) :
    (s.shared.dispatched.count n : ℤ) + L.queued s.shared n + total (tally Frame.placing n) s =
      s.shared.handed.count n := by
  have hbal := balance
    (fun x => (x.dispatched.count n : ℤ) + L.queued x n - x.handed.count n)
    (fun _ => tally Frame.placing n)
    (fun _ _ _ _ _ _ htook =>
      ⟨placing_step (effect_of_moves htook.moves) (sorted htook.reached) n, fun _ _ => rfl⟩) h
  have hstart : (L.program.start.dispatched.count n : ℤ) + L.queued L.program.start n -
      L.program.start.handed.count n = 0 := rfl
  omega

end Reached
end Layout
end QuietFlow.Engine
