import QuietFlow.Graph.Released

/-! The nodes that wait for a graph.

A graph's `wait_count` is the number of its nodes that are counted and not decremented
(`graphWaitCount_add`), so at zero every node of the graph is through its decrement
(`decremented_of_zero`). Whoever waits in the graph's `down_streams` is released, or the
count is not zero, or a worker that brought it to zero has yet to come to it (`Watched`):
no waiter is forgotten. -/
namespace QuietFlow.Engine
open Runs Program

variable {N G : Type} [DecidableEq N]

namespace Layout
variable [DecidableEq G] {L : Layout N G} {x x' : Shared N G} {old new : List (Frame N G)}

/-! ### The count of a graph -/

theorem graphWaitCount_step (h : L.Effect x old x' new) (g : G) :
    x'.graphWaitCount g - ((x'.passed .count).map L.graphOf).count g +
        ((x'.passed .decrement).map L.graphOf).count g =
      x.graphWaitCount g - ((x.passed .count).map L.graphOf).count g +
        ((x.passed .decrement).map L.graphOf).count g := by
  cases h
  case count d c =>
    by_cases hg : g = L.graphOf d
    · subst hg
      simp
    · simp [Function.update_of_ne hg, Ne.symm hg]
  case countZero u notified hone | countDown u notified others last hone hleaves =>
    by_cases hg : g = L.graphOf u
    · subst hg
      simp
      omega
    · simp [Function.update_of_ne hg, Ne.symm hg]
  all_goals simp

section Reached
variable {T : Type} [DecidableEq T] [Fintype T] {s s' : Config (Shared N G) (Frame N G) T}
  {ok : Config (Shared N G) (Frame N G) T → T × Option (Act N G) → Config (Shared N G) (Frame N G) T → Prop}
  {t : T} {a : Option (Act N G)} {g : G} {n : N}

theorem counted_of_decremented (h : (L.system T).ReachedBy ok s)
    (hn : n ∈ s.shared.passed .decrement) : n ∈ s.shared.passed .count := by
  have hpos := List.count_pos_iff.mpr hn
  have hdisp := passed_le_dispatched h (m := .decrement) rfl n
  have hhand := dispatched_le_handed h n
  exact counted_of_armed h (released_of_handed h (List.count_pos_iff.mp (by omega))).1

omit [Fintype T] in
/-- A graph counts its nodes, until they are decremented. -/
theorem graphWaitCount_add (h : (L.system T).ReachedBy ok s) (g : G) :
    s.shared.graphWaitCount g = ((s.shared.passed .count).map L.graphOf).count g -
      ((s.shared.passed .decrement).map L.graphOf).count g := by
  have hinv := (invariant (J := fun _ _ => True)
    (I := fun x : Shared N G => x.graphWaitCount g - ((x.passed .count).map L.graphOf).count g +
      ((x.passed .decrement).map L.graphOf).count g = 0) rfl
    (fun _ _ _ _ _ _ htook hI _ => ⟨(graphWaitCount_step (effect_of_moves htook.moves) g).trans hI,
      fun _ _ => trivial, fun _ _ _ => trivial⟩) h).1
  omega

/-- The nodes of a graph that are counted, one by one. -/
theorem graphWaitCount_sum (h : (L.system T).ReachedBy ok s) (g : G) :
    s.shared.graphWaitCount g =
      ∑ n ∈ (s.shared.passed .count).toFinset.filter fun n => L.graphOf n = g,
        (((s.shared.passed .count).count n : ℤ) - (s.shared.passed .decrement).count n) := by
  have hD : ∀ n ∈ (s.shared.passed .count).toFinset.filter fun n => L.graphOf n = g,
      L.graphOf n = g := fun n hn => (Finset.mem_filter.mp hn).2
  have hmem : ∀ n ∈ s.shared.passed .count, L.graphOf n = g →
      n ∈ (s.shared.passed .count).toFinset.filter fun n => L.graphOf n = g := fun n hn hg =>
    Finset.mem_filter.mpr ⟨List.mem_toFinset.mpr hn, hg⟩
  rw [graphWaitCount_add h g, Finset.sum_sub_distrib, sum_count hD _ hmem,
    sum_count hD _ fun n hn => hmem n (counted_of_decremented h hn)]

theorem decremented_le_counted (h : (L.system T).ReachedBy ok s) (n : N) :
    0 ≤ ((s.shared.passed .count).count n : ℤ) - (s.shared.passed .decrement).count n := by
  have hone := passed_le_one h .decrement n
  by_cases hn : n ∈ s.shared.passed .decrement
  · have hpos := List.count_pos_iff.mpr (counted_of_decremented h hn)
    omega
  · rw [List.count_eq_zero.mpr hn]
    omega

/-- **A graph whose count is zero has decremented every node it counted.** -/
theorem decremented_of_zero (h : (L.system T).ReachedBy ok s) (hzero : s.shared.graphWaitCount g = 0)
    (hn : n ∈ s.shared.passed .count) (hg : L.graphOf n = g) : n ∈ s.shared.passed .decrement := by
  rw [graphWaitCount_sum h g, Finset.sum_eq_zero_iff_of_nonneg fun n _ => decremented_le_counted h n]
    at hzero
  have hterm := hzero n (Finset.mem_filter.mpr ⟨List.mem_toFinset.mpr hn, hg⟩)
  have hpos := List.count_pos_iff.mpr hn
  exact List.count_pos_iff.mp (by omega)

end Reached

/-! ### Waiters are not forgotten -/

end Layout

/-- Part of `Graph::finish`, up to its return. -/
def Work.inGraphFinish : Work N → Bool
  | .graphCount _ | .graphDrain _ | .graphNotify _ _ | .tryEnqueue _ | .tryDequeue _ | .pop _
  | .leave _ | .leavePopped _ => true
  | _ => false

/-- The call creates a node in a graph or registers it to wait for the graph. -/
def Layout.callOn [DecidableEq G] (L : Layout N G) (x : Shared N G) (g : G) (d : N) : Bool :=
  decide (L.graphOf d = g) || decide (x.calls d = some (.graph g))

/-- Part of a `create_edges` or a `Graph::finish` on a graph. -/
def Layout.onGraph [DecidableEq G] (L : Layout N G) (x : Shared N G) (g : G) : Frame N G → Bool
  | .build d _ | .ready (.create d) _ => L.callOn x g d
  | .ready (.finish u) _ => decide (L.graphOf u = g)
  | .work u w => w.inGraphFinish && decide (L.graphOf u = g)
  | _ => false

/-- A worker that is yet to come to a waiter of a graph. -/
def Layout.Watches (L : Layout N G) (g : G) (w : N) : Frame N G → Prop
  | .work u (.graphDrain _) => L.graphOf u = g
  | .work u (.graphNotify list _) => L.graphOf u = g ∧ w ∈ list
  | _ => False

namespace Layout
variable [DecidableEq G] {L : Layout N G} {x x' : Shared N G} {old new : List (Frame N G)} {g : G}
  {w : N}

omit [DecidableEq N] [DecidableEq G] in
theorem Ends.inGraphFinish {u : N} {last : Work N} (h : L.Ends u last) :
    last.inGraphFinish = true := by
  cases h <;> rfl

section Reached
variable {T : Type} [DecidableEq T] [Fintype T] {s s' : Config (Shared N G) (Frame N G) T}
  {ok : Config (Shared N G) (Frame N G) T → T × Option (Act N G) → Config (Shared N G) (Frame N G) T → Prop}
  {t : T} {a : Option (Act N G)}

theorem calls_of_armed (h : (L.system T).ReachedBy ok s) : ∀ d ∈ s.shared.passed .arm,
    s.shared.calls d ≠ none := fun _ hd => Option.isSome_iff_ne_none.mp (called h rfl hd)

end Reached

/-- A waiter is released, its graph counts nodes, or a worker is yet to come to it. -/
def Watched (L : Layout N G) (x : Shared N G) (fs : Frame N G → Prop) (g : G) (w : N) : Prop :=
  x.waitCount w ≤ 0 ∨ 0 < x.graphWaitCount g ∨ ∃ f, fs f ∧ L.Watches g w f

/-- A frame has only those waiters in its hands that wait for a graph it is on. -/
def Carries (L : Layout N G) (x : Shared N G) (f : Frame N G) : Prop :=
  ∀ n ∈ f.pending, ∀ g, x.calls n = some (.graph g) → L.onGraph x g f = true

theorem carries_new (h : L.Effect x old x' new) (hk : L.Kept x) (hold : ∀ f ∈ old, L.Known x f)
    (hc : ∀ f ∈ old, L.Carries x f) : ∀ f ∈ new, L.Carries x' f := by
  have hself : ∀ d, ∀ f ∈ (x.woken d).map (Frame.ready (.create d)), L.Carries x' f := by
    intro d f hf n hn g hcall
    obtain ⟨k, hk, rfl⟩ := List.mem_map.mp hf
    have hkd : k = d := by
      rw [Shared.woken] at hk
      split at hk
      · exact List.mem_singleton.mp hk
      · cases hk
    have hnk : n = k := List.mem_singleton.mp hn
    rw [hnk, hkd] at hcall
    simp [onGraph, callOn, hcall]
  have hone : ∀ d, L.Carries x' (.ready (.create d) d) := fun d n hn g hcall => by
    rw [List.mem_singleton.mp hn] at hcall
    simp [onGraph, callOn, hcall]
  have hwoken : ∀ d, x.Requires d → ∀ n ∈ x.woken d, ∀ g, x.calls n ≠ some (.graph g) := by
    intro d hd n hn g hcall
    rw [Shared.woken] at hn
    split at hn
    · exact hd.ne hcall (List.mem_singleton.mp hn)
    · cases hn
  have hends : ∀ u notified others last, L.Leaves u notified others last →
      (∀ n ∈ notified, ∀ g, x.calls n = some (.graph g) → L.graphOf u = g) → x'.calls = x.calls →
      ∀ f ∈ (readyAll u others ++ [.work u last] : List (Frame N G)), L.Carries x' f := by
    intro u notified others last hleaves hfrom hcalls
    have hmem : ∀ n, n ∈ others ++ last.pending → n ∈ notified := fun n => hleaves.perm.mem_iff.mp
    simp only [readyAll, List.forall_mem_append, List.forall_mem_map, List.forall_mem_singleton]
    refine ⟨fun k hk n hn g hcall => ?_, fun n hn g hcall => ?_⟩
    · rw [List.mem_singleton.mp hn, hcalls] at hcall
      simp [onGraph, hfrom k (hmem k (List.mem_append_left _ hk)) g hcall]
    · rw [hcalls] at hcall
      simp [onGraph, hleaves.ends.inGraphFinish, hfrom n (hmem n (List.mem_append_right _ hn)) g hcall]
  have hwork : ∀ {u : N} {w : Work N}, old = [.work u w] → ∀ n ∈ w.pending, ∀ g,
      x.calls n = some (.graph g) → L.graphOf u = g ∧ w.inGraphFinish = true := by
    intro u w he n hn g hcall
    have hon := hc (.work u w) (he ▸ List.mem_cons_self) n hn g hcall
    simp only [onGraph, Bool.and_eq_true, decide_eq_true_eq] at hon
    exact hon.symm
  cases h
  case armNone d | checkZero d g hzero | recheckZero d g hzero =>
    exact List.forall_mem_cons.mpr ⟨hone d, by simp [Carries, Frame.pending]⟩
  case sub d r rest | dup d u rest =>
    simp only [List.forall_mem_append, List.forall_mem_singleton]
    exact ⟨hself d, by simp [Carries, Frame.pending]⟩
  case notifyBit u d idxs notified =>
    refine List.forall_mem_singleton.mpr fun n hn g hcall => ?_
    rcases List.mem_append.mp hn with hn | hn
    · exact absurd (hwork rfl n hn g hcall).2 (by simp [Work.inGraphFinish])
    · exact absurd hcall (hwoken d (hk.marked u d (hold _ List.mem_cons_self).1).1 n hn g)
  case notify u d list notified =>
    refine List.forall_mem_singleton.mpr fun n hn g hcall => ?_
    rcases List.mem_append.mp hn with hn | hn
    · exact absurd (hwork rfl n hn g hcall).2 (by simp [Work.inGraphFinish])
    · have hreq := (hk.down u d (hold _ List.mem_cons_self d List.mem_cons_self)).1
      exact absurd hcall (hwoken d hreq n hn g)
  case bitsDone u notified | notifyDone u notified | bits u idx idxs notified d hd =>
    refine List.forall_mem_singleton.mpr fun n hn g hcall => ?_
    exact absurd (hwork rfl n hn g hcall).2 (by simp [Work.inGraphFinish])
  case drain u notified =>
    refine List.forall_mem_singleton.mpr fun n hn g hcall => ?_
    exact absurd (hwork rfl n hn g hcall).2 (by simp [Work.inGraphFinish])
  case countZero u notified hcount | graphDrain u notified =>
    refine List.forall_mem_singleton.mpr fun n hn g hcall => ?_
    simp [onGraph, Work.inGraphFinish, (hwork rfl n hn g hcall).1]
  case graphNotify u w list notified =>
    refine List.forall_mem_singleton.mpr fun n hn g hcall => ?_
    rcases List.mem_append.mp hn with hn | hn
    · simp [onGraph, Work.inGraphFinish, (hwork rfl n hn g hcall).1]
    · rw [Shared.woken] at hn
      split at hn
      · have hcall' := (hk.waiter _ w (hold _ List.mem_cons_self w List.mem_cons_self)).2.2
        rw [List.mem_singleton.mp hn] at hcall
        cases hcall'.symm.trans hcall
        simp [onGraph, Work.inGraphFinish]
      · cases hn
  case countDown u notified others last hcount hleaves =>
    exact hends u notified others last hleaves (fun n hn g hcall => (hwork rfl n hn g hcall).1) rfl
  case graphNotifyDone u notified others last hleaves =>
    exact hends u notified others last hleaves (fun n hn g hcall => (hwork rfl n hn g hcall).1) rfl
  case tryEnqueueSlot u n hm =>
    refine List.forall_mem_singleton.mpr fun k hk g hcall => ?_
    simp [onGraph, Work.inGraphFinish, (hwork rfl k hk g hcall).1]
  case tryDequeue u temp hm =>
    refine List.forall_mem_singleton.mpr fun k hk g hcall => ?_
    simp [onGraph, Work.inGraphFinish, (hwork rfl k hk g hcall).1]
  case pop u temp n queue hqueue =>
    simp only [List.forall_mem_append, List.forall_mem_map, List.forall_mem_singleton]
    refine ⟨fun k hk m hm g hcall => ?_, by simp [Carries, Frame.pending, Work.pending]⟩
    rw [List.mem_singleton.mp hm] at hcall
    simp [onGraph, (hwork rfl k hk g hcall).1]
  all_goals simp [Carries, Frame.pending, Work.pending]

/-- A frame stays on the graphs it is on. -/
theorem onGraph_grows (hg : Grows x x') {f : Frame N G} (h : L.onGraph x g f = true) :
    L.onGraph x' g f = true := by
  have hcall : ∀ d, L.callOn x g d = true → L.callOn x' g d = true := fun d h => by
    simp only [callOn, Bool.or_eq_true, decide_eq_true_eq] at h ⊢
    exact h.imp_right (hg.calls d _)
  match f, h with
  | .build d _, h | .ready (.create d) _, h => exact hcall d h
  | .ready (.finish u) _, h | .work u _, h => exact h

section Reached
variable {T : Type} [DecidableEq T] [Fintype T] {s s' : Config (Shared N G) (Frame N G) T}
  {ok : Config (Shared N G) (Frame N G) T → T × Option (Act N G) → Config (Shared N G) (Frame N G) T → Prop}
  {t : T} {a : Option (Act N G)}

/-- A node in a frame's hands is armed. -/
theorem armed_of_pending (h : (L.system T).ReachedBy ok s) {f : Frame N G} (hf : s.HasFrame f)
    (hw : w ∈ f.pending) : w ∈ s.shared.passed .arm ∧ s.shared.waitCount w ≤ 0 := by
  have hadd := released_add h w
  have hone := one_le_total hf hw
  rw [Shared.released] at hadd
  split at hadd
  · next hrel => exact hrel
  · omega

theorem carries (h : (L.system T).ReachedBy ok s) : ∀ f, s.HasFrame f → L.Carries s.shared f := by
  refine (invariant (I := fun _ => True) trivial (fun s t a old s' new htook _ hj => ?_) h).2
  obtain ⟨hk, hknown⟩ := kept htook.reached
  refine ⟨trivial, carries_new (effect_of_moves htook.moves) hk
    (fun f hf => hknown f (htook.hasFrame hf)) fun f hf => hj f (htook.hasFrame hf), ?_⟩
  intro f hf hcarry n hn g hcall
  have hg := grows htook
  obtain ⟨c, hc⟩ := Option.ne_none_iff_exists'.mp
    (calls_of_armed htook.reached n (armed_of_pending htook.reached hf hn).1)
  have hsame := hg.calls n c hc
  rw [hcall] at hsame
  rw [← hsame] at hc
  exact onGraph_grows hg (hcarry n hn g hc)

end Reached
end Layout
/-! ### Two nodes and two waiters -/

/-- Nodes 0 and 1 are of the graph that nodes 2 and 3 wait for. -/
def waitedFor : Layout (Fin 4) Bool where
  graphOf n := decide (n.val < 2)
  limit _ := none

section Runs
variable (t : Fin 2)

/-- A node without required nodes is created. -/
abbrev creating (d : Fin 4) : List (Fin 2 × Option (Act (Fin 4) Bool)) := steps t (.create d (.edges [])) 6

/-- A waiter is registered. -/
abbrev registering (w : Fin 4) : List (Fin 2 × Option (Act (Fin 4) Bool)) :=
  steps t (.create w (.graph true)) 5

end Runs

end QuietFlow.Engine
