import QuietFlow.Reuse.Pending

/-! Who has a graph.

A graph is a user's, or the `sub_graph` that `get_graph` made for a node. `release` deletes the
`sub_graph` and then forgets it; in between the node points to a graph that is being deleted, but
no user has the node any more. This is so as long as `get_graph` is called for nodes in use (`uses`):
the `run` of a node that is already back in the pool makes a graph that the next `create` loses. -/
namespace QuietFlow.Reuse
open Runs Program

/-- Whether `delete` of the graph follows its `clear_graph`. -/
def Then.deletes (k : Then) (g : ℕ) : List ℕ :=
  match k with
  | .call => []
  | .release | .delete => [g]

/-- The graph that is being deleted. -/
def Frame.deleting : Frame → List ℕ
  | .clearGraph g k | .checkFinish g k | .getNodes g k | .setFinish g k _ | .await g k _ | .clear g k =>
    k.deletes g
  | .setDestroy g | .members g => [g]
  | _ => []

/-- The node that `release` is to set the `sub_graph` of. -/
def Frame.forgets : Frame → List ℕ
  | .forget _ _ n => [n]
  | _ => []

/-- The node that a thread has without a `sub_graph`. -/
def Frame.bare : Frame → List ℕ
  | .construct n | .create n | .countUp n | .tryEnqueue _ n | .destroy _ n => [n]
  | _ => []

/-- A node that a user may work with. -/
def Shared.inUse (x : Shared) (n : ℕ) : Bool := decide (n ∈ x.raw ∨ x.useCount n ≠ 0)

/-- `get_graph` is called for a node in use only. -/
def uses (x : Shared) : Option Call → Prop
  | some (.getGraph n) => x.inUse n
  | _ => True

instance (x : Shared) : ∀ a, Decidable (uses x a)
  | some (.getGraph n) => inferInstanceAs (Decidable (x.inUse n = true))
  | none | some (.new _) | some (.getFromPool _) | some .newGraph | some (.createEdges _ _)
  | some (.clearGraph _) | some (.deleteGraph _) | some (.delete _) | some (.reset _)
  | some (.setStatus _ _) | some (.poolFull _) => .isTrue trivial

namespace Shared
variable (x : Shared) (forgets : ℕ → ℤ) (g n : ℕ)

/-- A node has its `sub_graph` unless it is about to forget it. -/
def keeps : ℤ := if x.subGraph n = some g then 1 - forgets n else 0

def subGraphs : ℤ := ∑ n ∈ Finset.range x.nodes, x.keeps forgets g n

/-- The owners of a graph, when no thread deletes it. -/
def holders : ℤ :=
  x.owned.count g + x.subGraphs forgets g + x.graphsDestroyed.count g - if g < x.graphs then 1 else 0

end Shared

section Sums
variable {x x' : Shared} {F F' : ℕ → ℤ} {g m : ℕ}

theorem subGraphs_congr (hnodes : x'.nodes = x.nodes) (hsub : x'.subGraph = x.subGraph)
    (hF : ∀ n, F' n = F n) : x'.subGraphs F' g = x.subGraphs F g := by
  rw [Shared.subGraphs, Shared.subGraphs, hnodes]
  refine Finset.sum_congr rfl fun n _ => ?_
  rw [Shared.keeps, Shared.keeps, hsub, hF n]

/-- One node changes. -/
theorem subGraphs_one (hm : m < x.nodes) (hnodes : x'.nodes = x.nodes)
    (hsub : ∀ n, n ≠ m → x'.subGraph n = x.subGraph n) (hF : ∀ n, n ≠ m → F' n = F n) :
    x'.subGraphs F' g + x.keeps F g m = x.subGraphs F g + x'.keeps F' g m := by
  have hmem := Finset.mem_range.mpr hm
  have hsame : ∑ n ∈ (Finset.range x.nodes).erase m, x'.keeps F' g n =
      ∑ n ∈ (Finset.range x.nodes).erase m, x.keeps F g n := by
    refine Finset.sum_congr rfl fun n hn => ?_
    have hne := Finset.ne_of_mem_erase hn
    rw [Shared.keeps, Shared.keeps, hsub n hne, hF n hne]
  have hold := Finset.add_sum_erase (Finset.range x.nodes) (x.keeps F g) hmem
  have hnew := Finset.add_sum_erase (Finset.range x.nodes) (x'.keeps F' g) hmem
  rw [Shared.subGraphs, Shared.subGraphs, hnodes]
  omega

theorem holders_congr (hnodes : x'.nodes = x.nodes) (hsub : x'.subGraph = x.subGraph)
    (howned : x'.owned = x.owned) (hdestroyed : x'.graphsDestroyed = x.graphsDestroyed)
    (hgraphs : x'.graphs = x.graphs) (hF : ∀ n, F' n = F n) : x'.holders F' g = x.holders F g := by
  rw [Shared.holders, Shared.holders, subGraphs_congr hnodes hsub hF, howned, hdestroyed, hgraphs]

end Sums

section Weights
variable {n g : ℕ}

theorem weight_resets {X : Frame → List ℕ} (hX : ∀ who i, X (.reset who i) = []) (l : List ℕ) (who : By) :
    weight (tally X n) (l.map (.reset who)) = 0 :=
  weight_eq_zero fun f hf => by
    obtain ⟨i, -, rfl⟩ := List.mem_map.mp hf
    rw [tally, hX]
    rfl

theorem deleting_frames (k : Then) :
    weight (tally Frame.deleting n) (k.frames g) = (k.deletes g).count n := by
  cases k <;> simp [Then.frames, Then.deletes, Frame.deleting, tally]

theorem forgets_frames (k : Then) : weight (tally Frame.forgets n) (k.frames g) = 0 := by
  cases k <;> rfl

theorem deleting_released (d : Deleter) (who : By) (m : ℕ) : (d.released who m).deleting = [] := by
  cases d <;> rfl

theorem forgets_released (d : Deleter) (who : By) (m : ℕ) : (d.released who m).forgets = [] := by
  cases d <;> rfl

theorem deleting_deleter (r : Bool) (who : By) (m : ℕ) : (deleter r who m).deleting = [] := by
  cases r <;> rfl

theorem forgets_deleter (r : Bool) (who : By) (m : ℕ) : (deleter r who m).forgets = [] := by
  cases r <;> rfl

theorem bare_released (d : Deleter) (who : By) (m : ℕ) : (d.released who m).bare = [m] := by
  cases d <;> rfl

theorem bare_deleter (r : Bool) (who : By) (m : ℕ) : (deleter r who m).bare = [] := by
  cases r <;> rfl

theorem forgets_le (f : Frame) : tally Frame.forgets n f ≤ tally Frame.token n f := by
  cases f <;> first | exact le_rfl | exact Int.natCast_nonneg _

theorem forgets_token {f : Frame} (hn : n ∈ f.forgets) : n ∈ f.token := by
  cases f <;> first | exact hn | cases hn

theorem bare_token {f : Frame} (hn : n ∈ f.bare) : n ∈ f.token := by
  cases f <;> first | exact hn | cases hn

end Weights

/-! ### Nodes without a graph -/

section Step
variable {dump : Bool} {x x' : Shared} {a : Option Call} {old new : List Frame} {n : ℕ}

/-- Only `get_graph` gives a node a `sub_graph`. -/
theorem subGraph_step (h : Effect dump x a old x' new) (hn : x.subGraph n = none) :
    x'.subGraph n = none ∨ a = some (.getGraph n) := by
  have hkeep : ∀ m, Function.update x.subGraph m none n = none := fun m => by
    rw [Function.update_apply, hn, ite_self]
  cases h
  case new r => exact .inl (hkeep _)
  case create m => exact .inl (hkeep m)
  case forget d who m => exact .inl (hkeep m)
  case getGraph m hnode hsub =>
    by_cases hnm : n = m
    · exact .inr (hnm ▸ rfl)
    · left
      show Function.update x.subGraph m _ n = none
      rw [Function.update_of_ne hnm, hn]
  all_goals exact .inl hn

theorem pool_step (h : Effect dump x a old x' new) (hn : n ∈ x'.pool) :
    n ∈ x.pool ∨ ∃ who, old = [.tryEnqueue who n] := by
  cases h
  case getFromPool m hm => exact .inl (List.mem_of_mem_erase hn)
  case tryEnqueue who m =>
    rcases List.mem_append.mp hn with hn | hn
    · exact .inl hn
    · cases List.mem_singleton.mp hn
      exact .inr ⟨who, rfl⟩
  all_goals exact .inl hn

theorem destroyed_step (h : Effect dump x a old x' new) (hn : n ∈ x'.destroyed) :
    n ∈ x.destroyed ∨ ∃ who, old = [.destroy who n] := by
  cases h
  case destroy who m =>
    rcases List.mem_append.mp hn with hn | hn
    · exact .inl hn
    · cases List.mem_singleton.mp hn
      exact .inr ⟨who, rfl⟩
  all_goals exact .inl hn

theorem bare_resets {f : Frame} {l : List ℕ} {who : By} (hf : f ∈ l.map (.reset who)) : f.bare = [] := by
  obtain ⟨i, -, rfl⟩ := List.mem_map.mp hf
  rfl

theorem bare_frames {f : Frame} {k : Then} {g : ℕ} (hf : f ∈ k.frames g) : f.bare = [] := by
  cases k with
  | call => cases hf
  | release | delete =>
    cases List.mem_singleton.mp hf
    rfl

/-- A thread comes to a node without a `sub_graph` by making it, from the pool, or when it has
forgotten it. -/
theorem bare_new (h : Effect dump x a old x' new) (hpool : ∀ n ∈ x.pool, x.subGraph n = none)
    {f : Frame} (hf : f ∈ new) (hn : n ∈ f.bare) : x'.subGraph n = none := by
  cases h
  case new r =>
    cases List.mem_singleton.mp hf
    cases List.mem_singleton.mp hn
    exact Function.update_self ..
  case getFromPool m hm =>
    cases List.mem_singleton.mp hf
    cases List.mem_singleton.mp hn
    exact hpool _ hm
  case create m =>
    cases List.mem_singleton.mp hf
    cases List.mem_singleton.mp hn
    exact Function.update_self ..
  case release d who m hsub =>
    cases List.mem_singleton.mp hf
    rw [bare_released] at hn
    cases List.mem_singleton.mp hn
    exact hsub
  case forget d who m =>
    cases List.mem_singleton.mp hf
    rw [bare_released] at hn
    cases List.mem_singleton.mp hn
    exact Function.update_self ..
  case last who m hone =>
    cases List.mem_singleton.mp hf
    rw [bare_deleter] at hn
    cases hn
  case skip g k hk =>
    rw [bare_frames hf] at hn
    cases hn
  case clear g k =>
    rcases List.mem_append.mp hf with hf | hf
    · rw [bare_resets hf] at hn
      cases hn
    · rw [bare_frames hf] at hn
      cases hn
  case members g =>
    rw [bare_resets hf] at hn
    cases hn
  case releaseGraph d who m g hsub =>
    rcases List.mem_cons.mp hf with rfl | hf
    · cases hn
    · cases List.mem_singleton.mp hf
      cases hn
  all_goals
    first
    | exact absurd hf List.not_mem_nil
    | cases List.mem_singleton.mp hf
      cases hn

end Step

/-! ### One step of a graph -/

section Step
variable {dump : Bool} {x x' : Shared} {a : Option Call} {old new : List Frame} {F F' : ℕ → ℤ}

theorem holders_step (h : Effect dump x a old x' new)
    (hF : ∀ n, F' n + weight (tally Frame.forgets n) old = F n + weight (tally Frame.forgets n) new)
    (hget : ∀ n, a = some (.getGraph n) → n < x.nodes ∧ F n = 0)
    (hcreate : ∀ n, old = [.create n] → n < x.nodes ∧ x.subGraph n = none)
    (hrelease : ∀ d who n, old = [.release d who n] → n < x.nodes ∧ F n = 0)
    (hforget : ∀ d who n, old = [.forget d who n] → n < x.nodes ∧ F n = 1) (g : ℕ) :
    x'.holders F' g + weight (tally Frame.deleting g) new =
      x.holders F g + weight (tally Frame.deleting g) old := by
  have hsame : (∀ n, weight (tally Frame.forgets n) old = 0) →
      (∀ n, weight (tally Frame.forgets n) new = 0) → ∀ n, F' n = F n := fun hold hnew n => by
    have hn := hF n
    rw [hold n, hnew n] at hn
    simpa using hn
  cases h
  case new r =>
    have hF' := hsame (fun n => rfl) (fun n => rfl)
    have hnodes : (x.newNode r).subGraphs F' g = x.subGraphs F g := by
      show ∑ n ∈ Finset.range (x.nodes + 1), (x.newNode r).keeps F' g n = _
      have hlast : (x.newNode r).keeps F' g x.nodes = 0 := by simp [Shared.keeps]
      rw [Finset.sum_range_succ, hlast, add_zero]
      refine Finset.sum_congr rfl fun n hn => ?_
      have hne := Nat.ne_of_lt (Finset.mem_range.mp hn)
      simp [Shared.keeps, hF' n, hne]
    show x.owned.count g + (x.newNode r).subGraphs F' g + x.graphsDestroyed.count g -
      (if g < x.graphs then 1 else 0) + 0 = x.holders F g + 0
    rw [hnodes]
    rfl
  case newGraph =>
    have hF' := hsame (fun n => rfl) (fun n => rfl)
    have hsub : x.newGraph.subGraphs F' g = x.subGraphs F g := subGraphs_congr rfl rfl hF'
    have howned := count_snoc x.owned x.graphs g
    have hn := count_single x.graphs g
    have hlt : g < x.graphs + 1 ↔ g < x.graphs ∨ g = x.graphs := by omega
    show ((x.owned ++ [x.graphs]).count g + x.newGraph.subGraphs F' g + x.graphsDestroyed.count g -
      (if g < x.graphs + 1 then 1 else 0) + 0 : ℤ) = x.holders F g + 0
    rw [hsub, Shared.holders]
    simp only [hlt]
    split_ifs at * <;> omega
  case getGraph m hnode hsub =>
    obtain ⟨hm, hzero⟩ := hget m rfl
    have hF' := hsame (fun n => rfl) (fun n => rfl)
    have hlt : g < x.graphs + 1 ↔ g < x.graphs ∨ g = x.graphs := by omega
    generalize hx' : ({x.newGraph with subGraph := Function.update x.subGraph m (some x.graphs)} : Shared) = x'
    have hone : x'.subGraphs F' g + x.keeps F g m = x.subGraphs F g + x'.keeps F' g m :=
      subGraphs_one hm (hx' ▸ rfl) (fun n hne => hx' ▸ Function.update_of_ne hne ..) (fun n _ => hF' n)
    have hold : x.keeps F g m = 0 := by simp [Shared.keeps, hsub]
    have hnew : x'.keeps F' g m = if g = x.graphs then 1 else 0 := by
      subst hx'
      simp [Shared.keeps, hF' m, hzero, eq_comm]
    have hgraphs : x'.holders F' g = x.owned.count g + x'.subGraphs F' g + x.graphsDestroyed.count g -
        if g < x.graphs + 1 then 1 else 0 := by
      subst hx'
      rfl
    rw [hold, hnew, add_zero] at hone
    rw [weight_nil, hgraphs, hone, Shared.holders]
    simp only [hlt]
    split_ifs <;> omega
  case deleteGraph g' hg' =>
    have hF' := hsame (fun n => rfl) (fun n => rfl)
    have hsub : ({x with owned := x.owned.erase g'} : Shared).subGraphs F' g = x.subGraphs F g :=
      subGraphs_congr rfl rfl hF'
    have hcount := count_cons_erase hg' g
    show ((x.owned.erase g').count g + Shared.subGraphs _ F' g + x.graphsDestroyed.count g -
      (if g < x.graphs then 1 else 0) + (([g'] : List ℕ).count g + 0) : ℤ) = x.holders F g + 0
    rw [hsub, Shared.holders]
    omega
  case create m =>
    obtain ⟨-, hnone⟩ := hcreate m rfl
    have hsub : Function.update x.subGraph m none = x.subGraph := by rw [← hnone, Function.update_eq_self]
    have hF' := hsame (fun n => rfl) (fun n => rfl)
    exact congrArg₂ (· + ·) (holders_congr rfl hsub rfl rfl rfl hF') rfl
  case skip g' k hk =>
    have hF' := hsame (fun n => rfl) (fun n => forgets_frames k)
    rw [holders_congr rfl rfl rfl rfl rfl hF', deleting_frames]
    exact congrArg _ (add_zero _).symm
  case clear g' k =>
    have hF' := hsame (fun n => rfl) (fun n => by
      rw [weight_append, weight_resets (fun _ _ => rfl), forgets_frames]
      rfl)
    rw [holders_congr rfl rfl rfl rfl rfl hF', weight_append, weight_resets (fun _ _ => rfl), deleting_frames]
    show _ + (0 + _) = _ + (_ + 0)
    rw [zero_add, add_zero]
    rfl
  case members g' =>
    have hF' := hsame (fun n => rfl) (fun n => weight_resets (fun _ _ => rfl) _ _)
    have hsub : Shared.subGraphs {x.clear g' with graphsDestroyed := x.graphsDestroyed ++ [g']} F' g =
        x.subGraphs F g := subGraphs_congr rfl rfl hF'
    have hcount := count_snoc x.graphsDestroyed g' g
    rw [weight_resets (fun _ _ => rfl), Shared.holders, hsub, Shared.holders]
    show (x.owned.count g + x.subGraphs F g + (x.graphsDestroyed ++ [g']).count g -
      (if g < x.graphs then 1 else 0) + 0 : ℤ) = _ + ((([g'] : List ℕ).count g : ℤ) + 0)
    omega
  case last who m hone =>
    have hF' := hsame (fun n => rfl) (fun n => by
      rw [weight_cons, tally, forgets_deleter]
      rfl)
    rw [holders_congr rfl rfl rfl rfl rfl hF', weight_cons, tally, deleting_deleter]
    rfl
  case release d who m hnone =>
    have hF' := hsame (fun n => rfl) (fun n => by
      rw [weight_cons, tally, forgets_released]
      rfl)
    rw [holders_congr rfl rfl rfl rfl rfl hF', weight_cons, tally, deleting_released]
    rfl
  case releaseGraph d who m g' hsub =>
    obtain ⟨hm, hzero⟩ := hrelease d who m rfl
    have hF' : ∀ n, F' n + 0 = F n + (0 + ((([m] : List ℕ).count n : ℤ) + 0)) := hF
    have hFm : F' m = 1 := by
      have hn := hF' m
      rw [List.count_singleton_self, hzero] at hn
      simpa using hn
    have hone : x.subGraphs F' g + x.keeps F g m = x.subGraphs F g + x.keeps F' g m :=
      subGraphs_one hm rfl (fun _ _ => rfl) (fun n hne => by
        have hn := hF' n
        rw [count_single, if_neg hne] at hn
        simpa using hn)
    have hold : x.keeps F g m = ([g'] : List ℕ).count g := by
      rw [count_single]
      simp [Shared.keeps, hsub, hzero, eq_comm]
    have hnew : x.keeps F' g m = 0 := by simp [Shared.keeps, hFm]
    show x.holders F' g + ((([g'] : List ℕ).count g : ℤ) + (0 + 0)) = x.holders F g + (0 + 0)
    rw [Shared.holders, Shared.holders]
    omega
  case forget d who m =>
    obtain ⟨hm, hFm⟩ := hforget d who m rfl
    have hforgets : ∀ n, weight (tally Frame.forgets n) [d.released who m] = 0 := fun n => by
      rw [weight_cons, tally, forgets_released]
      rfl
    have hone : Shared.subGraphs {x with subGraph := Function.update x.subGraph m none} F' g +
        x.keeps F g m = x.subGraphs F g +
          Shared.keeps {x with subGraph := Function.update x.subGraph m none} F' g m :=
      subGraphs_one hm rfl (fun n hne => Function.update_of_ne hne ..) (fun n hne => by
        have hn : F' n + ((([m] : List ℕ).count n : ℤ) + 0) = F n + _ := hF n
        rw [hforgets, count_single, if_neg hne] at hn
        simpa using hn)
    have hold : x.keeps F g m = 0 := by simp [Shared.keeps, hFm]
    have hnew : Shared.keeps {x with subGraph := Function.update x.subGraph m none} F' g m = 0 := by
      simp [Shared.keeps]
    rw [hold, hnew] at hone
    rw [weight_cons, tally, deleting_released]
    show (x.owned.count g + Shared.subGraphs _ F' g + x.graphsDestroyed.count g -
      (if g < x.graphs then 1 else 0) + (0 + 0) : ℤ) = x.holders F g + (0 + 0)
    rw [Shared.holders]
    omega
  all_goals
    exact congrArg₂ (· + ·) (holders_congr rfl rfl rfl rfl rfl (hsame (fun n => rfl) (fun n => rfl))) rfl

end Step

/-! ### Along a run -/

section Run
variable {dump : Bool} {pooled : ℕ} {T : Type} [Fintype T] [DecidableEq T] {s : Config Shared Frame T} {n g : ℕ}

namespace Owners

omit [DecidableEq T] in
theorem token_le (h : Owners s) (n : ℕ) : total (tally Frame.token n) s ≤ 1 := by
  have hplace := h.place n
  rw [Shared.place] at hplace
  split_ifs at hplace <;> omega

omit [DecidableEq T] in
/-- A node that a user may work with is nowhere else. -/
theorem of_inUse (h : Owners s) (hn : s.shared.inUse n = true) : n < s.shared.nodes ∧
    n ∉ s.shared.pool ∧ n ∉ s.shared.destroyed ∧ total (tally Frame.token n) s = 0 := by
  have hplace := h.place n
  have htotal := total_nonneg (tally_nonneg Frame.token n) s
  have hin : (1 : ℤ) ≤ s.shared.raw.count n + if s.shared.useCount n = 0 then 0 else 1 := by
    rcases of_decide_eq_true hn with hraw | huse
    · have hpos := List.count_pos_iff.mpr hraw
      split <;> omega
    · rw [if_neg huse]
      omega
  rw [Shared.place] at hplace
  have hlt : n < s.shared.nodes := by
    by_contra hlt
    rw [if_neg hlt] at hplace
    omega
  rw [if_pos hlt] at hplace
  refine ⟨hlt, fun hmem => ?_, fun hmem => ?_, by omega⟩
  · have hpos := List.count_pos_iff.mpr hmem
    omega
  · have hpos := List.count_pos_iff.mpr hmem
    omega

omit [DecidableEq T] in
theorem not_inUse (h : Owners s) {f : Frame} (hf : s.HasFrame f) (hn : n ∈ f.token) :
    s.shared.inUse n = false := by
  by_contra huse
  have hzero := (h.of_inUse (Bool.eq_true_of_not_eq_false huse)).2.2.2
  have hone := one_le_total hf hn
  omega

end Owners

omit [DecidableEq T] in
theorem forgets_eq_zero (hn : total (tally Frame.token n) s = 0) : total (tally Frame.forgets n) s = 0 := by
  have hle := total_mono (s := s) fun f _ => forgets_le (n := n) f
  have hnonneg := total_nonneg (tally_nonneg Frame.forgets n) s
  omega

/-- The nodes that have no `sub_graph`. -/
structure Bare (s : Config Shared Frame T) : Prop where
  pool : ∀ n ∈ s.shared.pool, s.shared.subGraph n = none
  destroyed : ∀ n ∈ s.shared.destroyed, s.shared.subGraph n = none
  frames : ∀ f, s.HasFrame f → ∀ n ∈ f.bare, s.shared.subGraph n = none

theorem bare (h : ((program dump pooled).system T).ReachedBy (fun s l _ => uses s.shared l.2) s) : Bare s := by
  refine induct (I := Bare) ?_ (fun s t a old s' new htook ih => ?_) h
  · exact ⟨fun _ _ => rfl, fun _ _ => rfl, fun f ⟨t, ht⟩ => by cases ht⟩
  · have heff := effect_of_moves htook.moves
    have howners := owners htook.reached.reached
    have hkeep : ∀ n, s.shared.subGraph n = none → s.shared.inUse n = false →
        s'.shared.subGraph n = none := fun n hn hfree => by
      rcases subGraph_step heff hn with hnone | rfl
      · exact hnone
      · have huse : s.shared.inUse n = true := htook.ok
        rw [hfree] at huse
        cases huse
    have hframe : ∀ f, s.HasFrame f → ∀ n ∈ f.bare, s'.shared.subGraph n = none := fun f hf n hn =>
      hkeep n (ih.frames f hf n hn) (howners.not_inUse hf (bare_token hn))
    refine ⟨fun n hn => ?_, fun n hn => ?_, fun f hf n hn => ?_⟩
    · rcases pool_step heff hn with hpool | ⟨who, rfl⟩
      · exact hkeep n (ih.pool n hpool)
          (Bool.eq_false_of_not_eq_true fun huse => (howners.of_inUse huse).2.1 hpool)
      · exact hframe _ (htook.hasFrame (List.mem_singleton_self _)) n (List.mem_singleton_self _)
    · rcases destroyed_step heff hn with hdestroyed | ⟨who, rfl⟩
      · exact hkeep n (ih.destroyed n hdestroyed)
          (Bool.eq_false_of_not_eq_true fun huse => (howners.of_inUse huse).2.2.1 hdestroyed)
      · exact hframe _ (htook.hasFrame (List.mem_singleton_self _)) n (List.mem_singleton_self _)
    · rcases htook.hasFrame_cases hf with hnew | hold
      · exact bare_new heff ih.pool hnew hn
      · exact hframe f hold n hn

/-- The nodes that are about to forget their graph. -/
def forgotten (s : Config Shared Frame T) (n : ℕ) : ℤ := total (tally Frame.forgets n) s

theorem holders_eq (h : ((program dump pooled).system T).ReachedBy (fun s l _ => uses s.shared l.2) s) (g : ℕ) :
    s.shared.holders (forgotten s) g + total (tally Frame.deleting g) s = 0 := by
  refine induct (I := fun s => ∀ g, s.shared.holders (forgotten s) g + total (tally Frame.deleting g) s = 0)
    (fun g => ?_) (fun s t a old s' new htook ih g => ?_) h g
  · have hzero : total (tally Frame.deleting g) ((program dump pooled).system T).start = 0 :=
      total_eq_zero fun f ⟨t, ht⟩ => by cases ht
    rw [hzero]
    simp [Shared.holders, Shared.subGraphs, Shared.keeps, system, program]
  · have howners := owners htook.reached.reached
    have htotal := total_step htook (tally Frame.deleting g)
    have hstep : s'.shared.holders (forgotten s') g + weight (tally Frame.deleting g) new =
        s.shared.holders (forgotten s) g + weight (tally Frame.deleting g) old :=
      holders_step (effect_of_moves htook.moves) (fun n => ?_) (fun n huse => ?_) (fun n hold => ?_)
        (fun d who n hold => ?_) (fun d who n hold => ?_) g
    · have hg := ih g
      omega
    · have hforgets := total_step htook (tally Frame.forgets n)
      unfold forgotten
      omega
    · subst huse
      have huse := howners.of_inUse (show s.shared.inUse n = true from htook.ok)
      exact ⟨huse.1, forgets_eq_zero huse.2.2.2⟩
    · have hframe : s.HasFrame (.create n) := htook.hasFrame (hold ▸ List.mem_singleton_self _)
      exact ⟨(howners.of_token hframe (List.mem_singleton_self _)).1,
        (bare htook.reached).frames _ hframe n (List.mem_singleton_self _)⟩
    · have hframe : s.HasFrame (.release d who n) := htook.hasFrame (hold ▸ List.mem_singleton_self _)
      obtain ⟨hlt, -, honly⟩ := howners.of_token hframe (List.mem_singleton_self _)
      refine ⟨hlt, total_eq_zero fun f hf => ?_⟩
      have hnot : n ∉ f.forgets := fun hn => by
        rw [honly f hf (forgets_token hn)] at hn
        cases hn
      exact congrArg _ (List.count_eq_zero.mpr hnot)
    · have hframe : s.HasFrame (.forget d who n) := htook.hasFrame (hold ▸ List.mem_singleton_self _)
      have hone : 1 ≤ total (tally Frame.forgets n) s := one_le_total hframe (List.mem_singleton_self _)
      have hle := total_mono (s := s) fun f _ => forgets_le (n := n) f
      have htoken := howners.token_le n
      refine ⟨(howners.of_token hframe (List.mem_singleton_self _)).1, ?_⟩
      unfold forgotten
      omega

omit [DecidableEq T] in
theorem forgotten_le (h : Owners s) (n : ℕ) : forgotten s n ≤ 1 :=
  (total_mono fun f _ => forgets_le (n := n) f).trans (h.token_le n)

/-- Who has a graph that was made: a user, a node, the thread that deletes it, or nobody. -/
structure GraphsOwned (s : Config Shared Frame T) : Prop where
  deletedOnce : s.shared.graphsDestroyed.Nodup
  deleted : ∀ g ∈ s.shared.graphsDestroyed, g ∉ s.shared.owned ∧ (∀ f, s.HasFrame f → g ∉ f.deleting) ∧
    ∀ n, s.shared.inUse n = true → s.shared.subGraph n ≠ some g
  deleting : ∀ f, s.HasFrame f → ∀ g ∈ f.deleting, g ∉ s.shared.owned ∧
    (∀ f', s.HasFrame f' → g ∈ f'.deleting → f' = f) ∧
      ∀ n, s.shared.inUse n = true → s.shared.subGraph n ≠ some g
  apart : ∀ n m g, s.shared.inUse n = true → s.shared.inUse m = true → s.shared.subGraph n = some g →
    s.shared.subGraph m = some g → n = m ∧ g ∉ s.shared.owned
  /-- A node that was destroyed or is in the pool left no graph behind. -/
  released : ∀ n, n ∈ s.shared.pool ∨ n ∈ s.shared.destroyed → s.shared.subGraph n = none
  /-- No graph is lost. -/
  kept : ∀ g < s.shared.graphs, g ∈ s.shared.owned ∨ g ∈ s.shared.graphsDestroyed ∨
    (∃ f, s.HasFrame f ∧ g ∈ f.deleting) ∨ ∃ n < s.shared.nodes, s.shared.subGraph n = some g

omit [DecidableEq T] in
theorem keeps_nonneg (h : Owners s) (g n : ℕ) : 0 ≤ s.shared.keeps (forgotten s) g n := by
  have hle := forgotten_le h n
  rw [Shared.keeps]
  split <;> omega

omit [DecidableEq T] in
theorem keeps_of_inUse (h : Owners s) (hn : s.shared.inUse n = true) (hg : s.shared.subGraph n = some g) :
    n ∈ Finset.range s.shared.nodes ∧ s.shared.keeps (forgotten s) g n = 1 := by
  obtain ⟨hlt, -, -, htoken⟩ := h.of_inUse hn
  have hzero : forgotten s n = 0 := forgets_eq_zero htoken
  refine ⟨Finset.mem_range.mpr hlt, ?_⟩
  rw [Shared.keeps, if_pos hg, hzero, sub_zero]

omit [DecidableEq T] in
theorem one_le_subGraphs (h : Owners s) (hn : s.shared.inUse n = true) (hg : s.shared.subGraph n = some g) :
    1 ≤ s.shared.subGraphs (forgotten s) g := by
  obtain ⟨hmem, hone⟩ := keeps_of_inUse h hn hg
  rw [← hone]
  exact Finset.single_le_sum (fun m _ => keeps_nonneg h g m) hmem

omit [DecidableEq T] in
theorem two_le_subGraphs (h : Owners s) {m : ℕ} (hn : s.shared.inUse n = true) (hm : s.shared.inUse m = true)
    (hg : s.shared.subGraph n = some g) (hg' : s.shared.subGraph m = some g) (hne : n ≠ m) :
    2 ≤ s.shared.subGraphs (forgotten s) g := by
  obtain ⟨hmem, hone⟩ := keeps_of_inUse h hn hg
  obtain ⟨hmem', hone'⟩ := keeps_of_inUse h hm hg'
  have hle := Finset.add_le_sum (fun i _ => keeps_nonneg h g i) hmem hmem' hne
  rw [hone, hone'] at hle
  exact hle

theorem owned_once (h : ((program dump pooled).system T).ReachedBy (fun s l _ => uses s.shared l.2) s) (g : ℕ) :
    s.shared.owned.count g + s.shared.subGraphs (forgotten s) g + s.shared.graphsDestroyed.count g +
      total (tally Frame.deleting g) s = if g < s.shared.graphs then 1 else 0 := by
  have hg := holders_eq h g
  rw [Shared.holders] at hg
  omega

/-- No two kinds of owner have a graph. -/
theorem owned_le_one (h : ((program dump pooled).system T).ReachedBy (fun s l _ => uses s.shared l.2) s) (g : ℕ) :
    0 ≤ s.shared.subGraphs (forgotten s) g ∧ 0 ≤ total (tally Frame.deleting g) s ∧
      s.shared.owned.count g + s.shared.subGraphs (forgotten s) g + s.shared.graphsDestroyed.count g +
        total (tally Frame.deleting g) s ≤ 1 := by
  refine ⟨Finset.sum_nonneg fun n _ => keeps_nonneg (owners h.reached) g n,
    total_nonneg (tally_nonneg Frame.deleting g) s, ?_⟩
  rw [owned_once h g]
  split <;> omega

/-- **Every graph has one owner, is deleted once and is not lost**, in every run of the threads that
make nodes and graphs and give them up, and call `get_graph` for nodes in use. -/
theorem graphs_owned (h : ((program dump pooled).system T).ReachedBy (fun s l _ => uses s.shared l.2) s) :
    GraphsOwned s := by
  have howners := owners h.reached
  have hbare := bare h
  refine ⟨List.nodup_iff_count_le_one.mpr fun g => ?_, fun g hg => ?_, fun f hf g hg => ?_,
    fun n m g hn hm hng hmg => ?_, fun n hn => hn.elim (hbare.pool n) (hbare.destroyed n), fun g hg => ?_⟩
  · obtain ⟨hsub, hdeleting, hle⟩ := owned_le_one h g
    omega
  · obtain ⟨hsub, hdeleting, hle⟩ := owned_le_one h g
    have hpos := List.count_pos_iff.mpr hg
    refine ⟨fun hmem => ?_, fun f hf hmem => ?_, fun n hn hng => ?_⟩
    · have hpos' := List.count_pos_iff.mpr hmem
      omega
    · have hone := one_le_total hf hmem
      omega
    · have hone := one_le_subGraphs howners hn hng
      omega
  · obtain ⟨hsub, -, hle⟩ := owned_le_one h g
    have hone := one_le_total hf hg
    refine ⟨fun hmem => ?_, fun f' hf' hmem => ?_, fun n hn hng => ?_⟩
    · have hpos := List.count_pos_iff.mpr hmem
      omega
    · exact frame_unique (X := Frame.deleting) (b := g) (by omega) hf' hf hmem hg
    · have hone := one_le_subGraphs howners hn hng
      omega
  · obtain ⟨-, hdeleting, hle⟩ := owned_le_one h g
    have hone := one_le_subGraphs howners hn hng
    refine ⟨by_contra fun hne => ?_, fun hmem => ?_⟩
    · have htwo := two_le_subGraphs howners hn hm hng hmg hne
      omega
    · have hpos := List.count_pos_iff.mpr hmem
      omega
  · by_contra hlost
    push Not at hlost
    obtain ⟨howned, hdestroyed, hframes, hnodes⟩ := hlost
    have hone := owned_once h g
    have hzero : total (tally Frame.deleting g) s = 0 := total_eq_zero fun f hf =>
      congrArg _ (List.count_eq_zero.mpr (hframes f hf))
    have hnone : s.shared.subGraphs (forgotten s) g = 0 := Finset.sum_eq_zero fun n hn =>
      if_neg (hnodes n (Finset.mem_range.mp hn))
    rw [if_pos hg, hzero, hnone, List.count_eq_zero.mpr howned, List.count_eq_zero.mpr hdestroyed] at hone
    cases hone

/-- The sub-graph of node 1 is deleted with it; the graph it was stored in stays with its user. -/
theorem graphs_owned_recycling : ∃ s, ((program false 1).system (Fin 2)).Reached s ∧ GraphsOwned s ∧
    s.shared.graphs = 2 ∧ s.shared.owned = [0] ∧ s.shared.graphsDestroyed = [1] ∧ s.shared.pool = [0] ∧
      s.shared.destroyed = [1] := by
  obtain ⟨s, hs, hp⟩ := System.exists_reachedBy ((program false 1).system (Fin 2))
    (fun s l _ => uses s.shared l.2) recycling (fun s => s.shared.graphs = 2 ∧ s.shared.owned = [0] ∧
      s.shared.graphsDestroyed = [1] ∧ s.shared.pool = [0] ∧ s.shared.destroyed = [1]) (by decide)
  exact ⟨s, hs.reached, graphs_owned hs, hp⟩

end Run

end QuietFlow.Reuse
