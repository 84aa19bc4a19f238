import QuietFlow.Reuse.Node

/-! Who has a node.

A node is with a user as a raw pointer, behind `shared_ptr`s, in the pool, destroyed, or with
the one thread that makes it or gives it up. Its `use_count` is the number of the
`shared_ptr`s to it, with users, in graphs and about to go. -/
namespace QuietFlow.Reuse
open Runs Program

/-- The node that a thread makes or gives up. -/
def Frame.token : Frame → List ℕ
  | .construct n | .create n | .countUp n | .release _ _ n | .forget _ _ n | .tryEnqueue _ n
  | .destruct _ n | .countDown _ n | .destroy _ n => [n]
  | _ => []

/-- The `shared_ptr` that is about to go. -/
def Frame.pointer : Frame → List ℕ
  | .reset _ n => [n]
  | _ => []

namespace Shared
variable (x : Shared)

/-- Where a node is, when no thread has it. -/
def place (n : ℕ) : ℤ :=
  x.raw.count n + (if x.useCount n = 0 then 0 else 1) + x.pool.count n + x.destroyed.count n -
    if n < x.nodes then 1 else 0

def inGraphs (n : ℕ) : ℤ := ∑ g ∈ Finset.range x.graphs, ((x.stored g).count n : ℤ)

theorem inGraphs_nonneg (n : ℕ) : 0 ≤ x.inGraphs n := Finset.sum_nonneg fun _ _ => Int.natCast_nonneg _

theorem le_inGraphs {g : ℕ} (hg : g < x.graphs) (n : ℕ) : ((x.stored g).count n : ℤ) ≤ x.inGraphs n :=
  Finset.single_le_sum (f := fun g => ((x.stored g).count n : ℤ)) (fun _ _ => Int.natCast_nonneg _)
    (Finset.mem_range.mpr hg)

end Shared

section Weights
variable {n m g : ℕ}

theorem token_frames (k : Then) : weight (tally Frame.token n) (k.frames g) = 0 := by cases k <;> rfl

theorem pointer_frames (k : Then) : weight (tally Frame.pointer n) (k.frames g) = 0 := by cases k <;> rfl

theorem token_resets (l : List ℕ) (who : By) : weight (tally Frame.token n) (l.map (.reset who)) = 0 :=
  weight_eq_zero fun f hf => by
    obtain ⟨i, -, rfl⟩ := List.mem_map.mp hf
    rfl

theorem pointer_resets (l : List ℕ) (who : By) :
    weight (tally Frame.pointer n) (l.map (.reset who)) = l.count n := by
  rw [weight_tally, List.flatMap_map]
  show ((l.flatMap fun i => [i]).count n : ℤ) = _
  rw [List.flatMap_singleton']

theorem token_released (d : Deleter) (who : By) : (d.released who m).token = [m] := by cases d <;> rfl

theorem pointer_released (d : Deleter) (who : By) : (d.released who m).pointer = [] := by cases d <;> rfl

theorem token_deleter (r : Bool) (who : By) : (deleter r who m).token = [m] := by cases r <;> rfl

theorem pointer_deleter (r : Bool) (who : By) : (deleter r who m).pointer = [] := by cases r <;> rfl

theorem count_single (m n : ℕ) : (([m] : List ℕ).count n : ℤ) = if n = m then 1 else 0 := by
  rw [List.count_singleton]
  by_cases h : n = m
  · simp [h]
  · simp [h, Ne.symm h]

/-- What a graph stores changes. -/
theorem sum_update {f : ℕ → List ℕ} {graphs g : ℕ} (hg : g < graphs) (l : List ℕ) (n : ℕ) :
    ∑ i ∈ Finset.range graphs, ((Function.update f g l i).count n : ℤ) + (f g).count n =
      ∑ i ∈ Finset.range graphs, ((f i).count n : ℤ) + l.count n := by
  have hcomp : (fun i => ((Function.update f g l i).count n : ℤ)) =
      Function.update (fun i => ((f i).count n : ℤ)) g (l.count n) :=
    Function.comp_update (fun l : List ℕ => (l.count n : ℤ)) f g l
  have hmem := Finset.mem_range.mpr hg
  have hsplit := Finset.sum_sdiff (f := fun i => ((f i).count n : ℤ)) (Finset.singleton_subset_iff.mpr hmem)
  rw [Finset.sum_singleton] at hsplit
  rw [hcomp, Finset.sum_update_of_mem hmem]
  omega

end Weights

/-! ### One step -/

section Step
variable {dump : Bool} {x x' : Shared} {a : Option Call} {old new : List Frame}

theorem place_step (h : Effect dump x a old x' new) (hraw : ∀ n ∈ x.raw, x.useCount n = 0) (n : ℕ) :
    x'.place n + weight (tally Frame.token n) new = x.place n + weight (tally Frame.token n) old := by
  cases h
  case new r =>
    have hn := count_single x.nodes n
    have hlt : n < x.nodes + 1 ↔ n < x.nodes ∨ n = x.nodes := by omega
    simp only [Shared.place, Shared.newNode, weight_cons, weight_nil, tally, Frame.token, hlt, hn]
    split_ifs <;> omega
  case getFromPool m hm =>
    have hcount := count_cons_erase hm n
    simp only [Shared.place, weight_cons, weight_nil, tally, Frame.token]
    omega
  case createEdges g m hm hg =>
    have hcount := count_cons_erase hm n
    have hzero := hraw m hm
    have hn := count_single m n
    simp only [Shared.place, Shared.store, Shared.setUseCount, Shared.setGraphStatus, weight_nil,
      Function.update_apply]
    by_cases hnm : n = m
    · subst hnm
      rw [if_pos rfl] at hn
      simp only [hzero, if_true]
      simp only [OfNat.ofNat_ne_zero, if_false]
      omega
    · rw [if_neg hnm] at hn
      simp only [if_neg hnm]
      omega
  case delete m hm =>
    have hcount := count_cons_erase hm n
    simp only [Shared.place, weight_cons, weight_nil, tally, Frame.token]
    omega
  case construct m =>
    have hcount := count_snoc x.raw m n
    simp only [Shared.place, weight_cons, weight_nil, tally, Frame.token]
    omega
  case countUp m =>
    have hcount := count_snoc x.raw m n
    simp only [Shared.place, weight_cons, weight_nil, tally, Frame.token]
    omega
  case skip g k hk =>
    rw [token_frames]
    rfl
  case clear g k =>
    rw [weight_append, token_resets, token_frames]
    rfl
  case members g =>
    rw [token_resets]
    rfl
  case last who m hone =>
    have hn := count_single m n
    simp only [Shared.place, Shared.setUseCount, weight_cons, weight_nil, tally, token_deleter,
      Function.update_apply]
    show _ = _ + ((([] : List ℕ).count n : ℤ) + 0)
    by_cases hnm : n = m
    · subst hnm
      rw [if_pos rfl] at hn
      simp only [hone, if_true, hn, List.count_nil, one_ne_zero, if_false]
      omega
    · rw [if_neg hnm] at hn
      simp only [if_neg hnm, hn, List.count_nil]
      omega
  case reset who m count hcount =>
    simp only [Shared.place, Shared.setUseCount, weight_cons, weight_nil, tally, Frame.token,
      Function.update_apply]
    by_cases hnm : n = m
    · subst hnm
      simp only [if_true, hcount, Nat.add_eq_zero_iff, one_ne_zero, OfNat.ofNat_ne_zero, and_false, if_false]
      rfl
    · simp only [if_neg hnm]
      rfl
  case release d who m hsub =>
    rw [weight_cons, tally, token_released]
    rfl
  case forget d who m =>
    rw [weight_cons, tally, token_released]
    rfl
  case releaseGraph d who m g hsub =>
    simp only [weight_cons, weight_nil, tally, Frame.token, List.count_nil]
    omega
  case tryEnqueue who m =>
    have hcount := count_snoc x.pool m n
    simp only [Shared.place, weight_cons, weight_nil, tally, Frame.token, List.count_nil]
    push_cast
    omega
  case destroy who m =>
    have hcount := count_snoc x.destroyed m n
    simp only [Shared.place, Shared.setStatus, weight_cons, weight_nil, tally, Frame.token]
    omega
  all_goals rfl

theorem empty_step (h : Effect dump x a old x' new) (hempty : ∀ g, x.graphs ≤ g → x.stored g = []) (g : ℕ)
    (hg : x'.graphs ≤ g) : x'.stored g = [] := by
  cases h
  case newGraph => exact hempty g (Nat.le_of_succ_le hg)
  case getGraph => exact hempty g (Nat.le_of_succ_le hg)
  case createEdges g' n hn hg' =>
    have hlt := (of_decide_eq_true hg').1
    have hne : g ≠ g' := fun he => absurd hlt (Nat.not_lt.mpr (he ▸ hg))
    show Function.update x.stored g' _ g = []
    rw [Function.update_of_ne hne]
    exact hempty g hg
  case clear g' k =>
    show Function.update x.stored g' [] g = []
    rw [Function.update_apply, hempty g hg, ite_self]
  case members g' =>
    show Function.update x.stored g' [] g = []
    rw [Function.update_apply, hempty g hg, ite_self]
  all_goals exact hempty g hg

/-- The `shared_ptr`s that `use_count` counts, less those of users and of graphs. -/
def Shared.uses (x : Shared) (n : ℕ) : ℤ := x.useCount n - x.held.count n - x.inGraphs n

theorem inGraphs_new (hempty : ∀ g, x.graphs ≤ g → x.stored g = []) (n : ℕ) :
    ∑ g ∈ Finset.range (x.graphs + 1), ((x.stored g).count n : ℤ) = x.inGraphs n := by
  rw [Finset.sum_range_succ, hempty _ le_rfl, List.count_nil]
  exact add_zero _

theorem inGraphs_clear (hempty : ∀ g, x.graphs ≤ g → x.stored g = []) (g n : ℕ) :
    (x.clear g).inGraphs n + (x.stored g).count n = x.inGraphs n := by
  by_cases hg : g < x.graphs
  · have hsum := sum_update hg (f := x.stored) [] n
    rw [List.count_nil] at hsum
    simpa [Shared.inGraphs] using hsum
  · have hnil := hempty g (Nat.le_of_not_lt hg)
    have hsame : Function.update x.stored g [] = x.stored := by rw [← hnil, Function.update_eq_self]
    simp [Shared.inGraphs, hsame, hnil]

theorem uses_step (h : Effect dump x a old x' new) (hraw : ∀ n ∈ x.raw, x.useCount n = 0)
    (hempty : ∀ g, x.graphs ≤ g → x.stored g = []) (n : ℕ) :
    x'.uses n + weight (tally Frame.pointer n) old = x.uses n + weight (tally Frame.pointer n) new := by
  cases h
  case newGraph =>
    have hsum := inGraphs_new hempty n
    simp only [Shared.uses, weight_nil]
    show x.useCount n - x.held.count n - ∑ g ∈ Finset.range (x.graphs + 1), ((x.stored g).count n : ℤ) + 0 = _
    rw [hsum]
  case getGraph =>
    have hsum := inGraphs_new hempty n
    simp only [Shared.uses, weight_nil]
    show x.useCount n - x.held.count n - ∑ g ∈ Finset.range (x.graphs + 1), ((x.stored g).count n : ℤ) + 0 = _
    rw [hsum]
  case createEdges g m hm hg =>
    have hlt := (of_decide_eq_true hg).1
    have hsum := sum_update hlt (f := x.stored) (x.stored g ++ [m]) n
    have hstored := count_snoc (x.stored g) m n
    have hheld := count_snoc x.held m n
    have hn := count_single m n
    have hzero := hraw m hm
    have huse : (Function.update x.useCount m 2 n : ℤ) = x.useCount n + 2 * ([m] : List ℕ).count n := by
      rw [hn, Function.update_apply]
      by_cases hnm : n = m
      · simp [hnm, hzero]
      · simp [hnm]
    show (Function.update x.useCount m 2 n : ℤ) - (x.held ++ [m]).count n -
      ∑ i ∈ Finset.range x.graphs, ((Function.update x.stored g (x.stored g ++ [m]) i).count n : ℤ) + 0 =
        x.useCount n - x.held.count n - x.inGraphs n + 0
    unfold Shared.inGraphs
    omega
  case drop m hm =>
    have hcount := count_cons_erase hm n
    show x.useCount n - ((x.held.erase m).count n : ℤ) - x.inGraphs n + 0 =
      x.useCount n - x.held.count n - x.inGraphs n + ((([m] : List ℕ).count n : ℤ) + 0)
    omega
  case skip g k hk =>
    rw [pointer_frames]
    rfl
  case clear g k =>
    have hclear := inGraphs_clear hempty g n
    rw [weight_append, pointer_resets, pointer_frames]
    show x.useCount n - x.held.count n - (x.clear g).inGraphs n + ((([] : List ℕ).count n : ℤ) + 0) =
      x.useCount n - x.held.count n - x.inGraphs n + ((x.stored g).count n + 0)
    rw [List.count_nil]
    push_cast
    omega
  case members g =>
    have hclear := inGraphs_clear hempty g n
    rw [pointer_resets]
    show x.useCount n - x.held.count n - (x.clear g).inGraphs n + ((([] : List ℕ).count n : ℤ) + 0) =
      x.useCount n - x.held.count n - x.inGraphs n + (x.stored g).count n
    rw [List.count_nil]
    push_cast
    omega
  case last who m hone =>
    have hn := count_single m n
    have huse : (Function.update x.useCount m 0 n : ℤ) + ([m] : List ℕ).count n = x.useCount n := by
      rw [hn, Function.update_apply]
      by_cases hnm : n = m
      · simp [hnm, hone]
      · simp [hnm]
    rw [weight_cons, weight_cons, tally, tally, pointer_deleter]
    show (Function.update x.useCount m 0 n : ℤ) - x.held.count n - x.inGraphs n +
      ((([m] : List ℕ).count n : ℤ) + 0) =
        x.useCount n - x.held.count n - x.inGraphs n + ((([] : List ℕ).count n : ℤ) + 0)
    rw [List.count_nil]
    push_cast
    omega
  case reset who m count hcount =>
    have hn := count_single m n
    have huse : (Function.update x.useCount m (count + 1) n : ℤ) + ([m] : List ℕ).count n = x.useCount n := by
      rw [hn, Function.update_apply]
      by_cases hnm : n = m
      · simp only [hnm, if_true, hcount]
        push_cast
        omega
      · simp [hnm]
    show (Function.update x.useCount m (count + 1) n : ℤ) - x.held.count n - x.inGraphs n +
      ((([m] : List ℕ).count n : ℤ) + 0) = x.useCount n - x.held.count n - x.inGraphs n + 0
    omega
  case release d who m hsub =>
    rw [weight_cons, weight_cons, tally, tally, pointer_released]
    rfl
  case forget d who m =>
    rw [weight_cons, weight_cons, tally, tally, pointer_released]
    rfl
  all_goals rfl

end Step

/-! ### Along a run -/

section Run
variable {dump : Bool} {pooled : ℕ} {T : Type} [Fintype T] [DecidableEq T] {s : Config Shared Frame T}

structure Owners (s : Config Shared Frame T) : Prop where
  empty : ∀ g, s.shared.graphs ≤ g → s.shared.stored g = []
  place : ∀ n, s.shared.place n + total (tally Frame.token n) s = 0
  uses : ∀ n, s.shared.uses n = total (tally Frame.pointer n) s

namespace Owners

omit [DecidableEq T] in
theorem raw (h : Owners s) (n : ℕ) (hn : n ∈ s.shared.raw) : s.shared.useCount n = 0 := by
  have hplace := h.place n
  have htotal := total_nonneg (tally_nonneg Frame.token n) s
  have hpos := List.count_pos_iff.mpr hn
  by_contra hne
  rw [Shared.place, if_neg hne] at hplace
  split at hplace <;> omega

omit [DecidableEq T] in
theorem use_of_stored (h : Owners s) {g n : ℕ} (hn : n ∈ s.shared.stored g) : s.shared.useCount n ≠ 0 := by
  have hg : g < s.shared.graphs := by
    by_contra hg
    rw [h.empty g (Nat.le_of_not_lt hg)] at hn
    cases hn
  have huses := h.uses n
  have hle := s.shared.le_inGraphs hg n
  have hpos := List.count_pos_iff.mpr hn
  have htotal := total_nonneg (tally_nonneg Frame.pointer n) s
  rw [Shared.uses] at huses
  omega

omit [DecidableEq T] in
theorem use_of_pointer (h : Owners s) {f : Frame} (hf : s.HasFrame f) {n : ℕ} (hn : n ∈ f.pointer) :
    s.shared.useCount n ≠ 0 := by
  have huses := h.uses n
  have hone := one_le_total hf hn
  have hgraphs := s.shared.inGraphs_nonneg n
  rw [Shared.uses] at huses
  omega

omit [DecidableEq T] in
/-- A node behind a `shared_ptr` is not made or given up by any thread. -/
theorem of_use (h : Owners s) {n : ℕ} (hn : s.shared.useCount n ≠ 0) :
    n < s.shared.nodes ∧ ∀ f, s.HasFrame f → n ∉ f.token := by
  have hplace := h.place n
  have htotal := total_nonneg (tally_nonneg Frame.token n) s
  rw [Shared.place, if_neg hn] at hplace
  refine ⟨?_, fun f hf hmem => ?_⟩
  · by_contra hlt
    rw [if_neg hlt] at hplace
    omega
  · have hone := one_le_total hf hmem
    split at hplace <;> omega

omit [DecidableEq T] in
/-- A node that a thread makes or gives up has no other place. -/
theorem of_token (h : Owners s) {f : Frame} (hf : s.HasFrame f) {n : ℕ} (hn : n ∈ f.token) :
    n < s.shared.nodes ∧ n ∉ s.shared.destroyed ∧ ∀ f', s.HasFrame f' → n ∈ f'.token → f' = f := by
  have hplace := h.place n
  have hone := one_le_total hf hn
  rw [Shared.place] at hplace
  have hlt : n < s.shared.nodes := by
    by_contra hlt
    rw [if_neg hlt] at hplace
    split at hplace <;> omega
  rw [if_pos hlt] at hplace
  refine ⟨hlt, fun hmem => ?_, fun f' hf' hn' => ?_⟩
  · have hpos := List.count_pos_iff.mpr hmem
    split at hplace <;> omega
  · refine frame_unique (X := Frame.token) (b := n) ?_ hf' hf hn' hn
    split at hplace <;> omega

end Owners

theorem owners (h : ((program dump pooled).system T).Reached s) : Owners s := by
  refine induct (I := Owners) ?_ (fun s t a old s' new htook ih => ?_) h
  · refine ⟨fun _ _ => rfl, fun n => ?_, fun n => ?_⟩
    · have hzero : total (tally Frame.token n) ((program dump pooled).system T).start = 0 :=
        total_eq_zero fun f ⟨t, ht⟩ => by cases ht
      have hplace : (program dump pooled).start.place n = 0 := by
        by_cases hn : n < pooled <;> simp [Shared.place, program, List.nodup_range.count, hn]
      rw [hzero]
      exact (add_zero _).trans hplace
    · have hzero : total (tally Frame.pointer n) ((program dump pooled).system T).start = 0 :=
        total_eq_zero fun f ⟨t, ht⟩ => by cases ht
      rw [hzero]
      rfl
  · have heff := effect_of_moves htook.moves
    refine ⟨empty_step heff ih.empty, fun n => ?_, fun n => ?_⟩
    · have htotal := total_step htook (tally Frame.token n)
      have hstep := place_step heff ih.raw n
      have hplace := ih.place n
      omega
    · have htotal := total_step htook (tally Frame.pointer n)
      have hstep := uses_step heff ih.raw ih.empty n
      have huses := ih.uses n
      omega

end Run
end QuietFlow.Reuse
