import QuietFlow.Graph.Waiters

/-! Waiters over several rounds of a graph.

A graph's count may come to zero and rise again, and its `down_streams` are walked later
than the decrement that reached zero and never cleared. So a walk may come to a waiter
that was registered after that decrement and release it early, and every further walk
decrements the waiters of earlier rounds again. Runs in which no waiter is registered
while a walk is due (`calm`), and runs in which a graph that has had waiters begins no
further round (`single`), are free of the one and of the other. -/
namespace QuietFlow.Engine
open Runs Program

variable {N G : Type} [DecidableEq N]

/-- Every node that was created when the waiter's call began is decremented. -/
def Shared.Clear (x : Shared N G) (w : N) : Prop := ∀ n ∈ x.before w, n ∈ x.passed .decrement

/-- One, if the graph counts nodes. -/
def Shared.counting (x : Shared N G) (g : G) : ℤ := if x.graphWaitCount g = 0 then 0 else 1

/-- Waiters a walk has yet to come to. -/
def Frame.walks : Frame N G → List N
  | .work _ (.graphNotify list _) => list
  | _ => []

namespace Layout
variable [DecidableEq G] (L : Layout N G)

/-- A walk of a graph's `down_streams` is due. -/
def draining (g : G) : Frame N G → Bool
  | .work u (.graphDrain _) => decide (L.graphOf u = g)
  | _ => false

/-- The step registers no waiter while a walk of its graph is due, unless what it waits for is
decremented. -/
def calm {T : Type} (s : Config (Shared N G) (Frame N G) T) (l : T × Option (Act N G)) : Prop :=
  match l.2, (s.stack l.1).head? with
  | none, some (.build d (.recheck g)) =>
    s.shared.graphWaitCount g = 0 ∨ s.Without (L.draining g) ∨ s.shared.Clear d
  | _, _ => True

/-- The step begins a round of a graph, whose count it takes from zero, only before the graph has
had waiters, and not while a walk of the last round is due. -/
def single {T : Type} (s : Config (Shared N G) (Frame N G) T) (l : T × Option (Act N G)) : Prop :=
  match l.2, (s.stack l.1).head? with
  | none, some (.build d (.count _)) => s.shared.graphWaitCount (L.graphOf d) = 0 →
    s.shared.graphDownStreams (L.graphOf d) = [] ∧ s.Without (L.draining (L.graphOf d))
  | _, _ => True

/-- The step begins no walk over a waiter that is released or that another walk has yet to
come to. -/
def fresh {T : Type} (s : Config (Shared N G) (Frame N G) T) (l : T × Option (Act N G)) : Prop :=
  match l.2, (s.stack l.1).head? with
  | none, some (.work u (.graphDrain _)) => ∀ w ∈ s.shared.graphDownStreams (L.graphOf u),
    s.shared.waitCount w = 1 ∧ s.Without fun f => decide (w ∈ f.walks)
  | _, _ => True

instance (x : Shared N G) (w : N) : Decidable (x.Clear w) :=
  inferInstanceAs (Decidable (∀ n ∈ x.before w, n ∈ x.passed .decrement))

section Decidable
variable {T : Type} [Fintype T] (s : Config (Shared N G) (Frame N G) T) (l : T × Option (Act N G))

instance : Decidable (L.calm s l) := by
  unfold calm
  split <;> infer_instance

instance : Decidable (L.single s l) := by
  unfold single
  split <;> infer_instance

end Decidable

variable {L} {x x' : Shared N G} {old new : List (Frame N G)} {g : G} {w : N}

/-- Who waits in a graph's `down_streams`: who did before, or who is registered in the step. -/
theorem registered_step (h : L.Effect x old x' new) (hw : w ∈ x'.graphDownStreams g) :
    w ∈ x.graphDownStreams g ∨ old = [.build w (.recheck g)] ∧ x.graphWaitCount g ≠ 0 := by
  cases h
  case recheck d g' hne =>
    rcases mem_push_cases hw with hw | ⟨rfl, rfl⟩
    · exact .inl hw
    · exact .inr ⟨rfl, hne⟩
  all_goals exact .inl hw

/-! ### Waiting for what was there before -/

theorem before_step (h : L.Effect x old x' new) (hw : x.calls w ≠ none) :
    x'.before w = x.before w := by
  cases h
  case create d c hfree =>
    have hne : w ≠ d := fun he => hw (he ▸ hfree)
    exact Function.update_of_ne hne _ _
  all_goals rfl

omit [DecidableEq N] [DecidableEq G] in
theorem clear_grows (hg : Grows x x') (hbefore : x'.before w = x.before w) (h : x.Clear w) :
    x'.Clear w := fun n hn => by
  rw [hbefore] at hn
  exact hg.passed _ n (h n hn)

/-- Whoever is released waits for nothing any more. -/
def ReleasedClear (x : Shared N G) : Prop := ∀ w g, x.calls w = some (.graph g) →
  w ∈ x.passed .arm → x.waitCount w ≤ 0 → x.Clear w

/-- Whoever a worker is to release waits for nothing any more. -/
def WatchedClear (L : Layout N G) (x : Shared N G) (f : Frame N G) : Prop :=
  ∀ g, ∀ w ∈ x.graphDownStreams g, L.Watches g w f → x.Clear w

theorem releasedClear_step (h : L.Effect x old x' new) (hk : L.Kept x)
    (hold : ∀ f ∈ old, L.Known x f) (hcalled : ∀ d ∈ x.passed .arm, x.calls d ≠ none)
    (harm : ∀ d b, old = [.build d b] → b.next = .arm → d ∉ x.passed .arm) (hwaits : Waits x)
    (hg : Grows x x')
    (hzero : ∀ g, x.graphWaitCount g = 0 → ∀ w, x.calls w = some (.graph g) → x.Clear w)
    (hrel : ReleasedClear x) (hwatch : ∀ f ∈ old, L.WatchedClear x f) : ReleasedClear x' := by
  intro w g hcall harmed hcount
  by_cases hnot : w ∈ x.passed .arm ∧ x.waitCount w ≤ 0
  · have hsome := hcalled w hnot.1
    obtain ⟨c, hc⟩ := Option.ne_none_iff_exists'.mp hsome
    have hsame := hg.calls w c hc
    rw [hcall] at hsame
    rw [← hsame] at hc
    exact clear_grows hg (before_step h hsome) (hrel w g hc hnot.1 hnot.2)
  cases h
  case create d c hfree =>
    exact absurd ⟨harmed, hcount⟩ hnot
  case sub d r rest =>
    rw [Shared.waitCount_pay (hold _ List.mem_cons_self) hcall] at hcount
    exact absurd ⟨harmed, hcount⟩ hnot
  case dup d u rest =>
    rw [Shared.waitCount_pay (hold _ List.mem_cons_self).1 hcall] at hcount
    exact absurd ⟨harmed, hcount⟩ hnot
  case notifyBit u d idxs notified =>
    rw [Shared.waitCount_pay (hk.marked u d (hold _ List.mem_cons_self).1).1 hcall] at hcount
    exact absurd ⟨harmed, hcount⟩ hnot
  case notify u d list notified =>
    rw [Shared.waitCount_pay (hk.down u d (hold _ List.mem_cons_self d List.mem_cons_self)).1 hcall] at hcount
    exact absurd ⟨harmed, hcount⟩ hnot
  case arm d required hne =>
    have hne : w ≠ d := Shared.ne_of_calls hcall (hold _ List.mem_cons_self).2
    simp [hne] at harmed hcount
    exact absurd ⟨harmed, hcount⟩ hnot
  case armNone d =>
    have hne : w ≠ d := Shared.ne_of_calls hcall (hold _ List.mem_cons_self).2
    simp [hne] at harmed
    exact absurd ⟨harmed, hcount⟩ hnot
  case checkZero d g' hgraph | recheckZero d g' hgraph =>
    have hcall' : x.calls d = some (.graph g') := (hold _ List.mem_cons_self).2
    by_cases hne : w = d
    · subst hne
      exact clear_grows hg rfl (hzero g' hgraph w hcall')
    · simp [hne] at harmed
      exact absurd ⟨harmed, hcount⟩ hnot
  case recheck d g' hgraph =>
    by_cases hne : w = d
    · subst hne
      have hidle := (hwaits.idle w (harm w _ rfl rfl)).1
      simp [hidle] at hcount
    · simp [hne] at harmed hcount
      exact absurd ⟨harmed, hcount⟩ hnot
  case graphNotify u v list notified =>
    by_cases hne : w = v
    · subst hne
      have hmem := hold _ List.mem_cons_self w List.mem_cons_self
      exact clear_grows hg rfl (hwatch _ List.mem_cons_self _ w hmem ⟨rfl, List.mem_cons_self⟩)
    · simp [hne] at hcount
      exact absurd ⟨harmed, hcount⟩ hnot
  case count | store | built | running | snapshot | drain | countZero | countDown | leave
      | leavePopped | tryDequeueEmpty =>
    simp at harmed
    exact absurd ⟨harmed, hcount⟩ hnot
  all_goals exact absurd ⟨harmed, hcount⟩ hnot

theorem watchedClear_new (h : L.Effect x old x' new)
    (hwaiter : ∀ g, ∀ w ∈ x.graphDownStreams g, x.calls w = some (.graph g))
    (hzero : ∀ g, x'.graphWaitCount g = 0 → ∀ w, x'.calls w = some (.graph g) → x'.Clear w)
    (hwatch : ∀ f ∈ old, L.WatchedClear x f) : ∀ f ∈ new, L.WatchedClear x' f := by
  cases h
  case countZero u notified hone =>
    refine List.forall_mem_singleton.mpr fun g w hw hu => ?_
    have hu : L.graphOf u = g := hu
    exact hzero g (by simp [← hu, hone]) w (hwaiter g w hw)
  case graphDrain u notified =>
    refine List.forall_mem_singleton.mpr fun g w hw hu => ?_
    exact hwatch _ List.mem_cons_self g w hw hu.1
  case graphNotify u v list notified =>
    refine List.forall_mem_singleton.mpr fun g w hw hu => ?_
    exact hwatch _ List.mem_cons_self g w hw ⟨hu.1, List.mem_cons_of_mem v hu.2⟩
  case countDown u notified others last hone hleaves | graphNotifyDone u notified others last hleaves =>
    simp only [readyAll, List.forall_mem_append, List.forall_mem_map, List.forall_mem_singleton]
    exact ⟨fun _ _ _ _ _ h => h.elim, by cases hleaves.ends <;> exact fun _ _ _ h => h.elim⟩
  case sub d r rest | dup d u rest | pop =>
    simp only [List.forall_mem_append, List.forall_mem_map, List.forall_mem_singleton]
    exact ⟨fun _ _ _ _ _ h => h.elim, fun _ _ _ h => h.elim⟩
  case left u next hst =>
    simp only [List.forall_mem_map]
    exact fun _ _ _ _ _ h => h.elim
  all_goals simp [WatchedClear, Watches]

section Reached
variable {T : Type} [DecidableEq T] [Fintype T] {s s' : Config (Shared N G) (Frame N G) T}
  {ok : Config (Shared N G) (Frame N G) T → T × Option (Act N G) → Config (Shared N G) (Frame N G) T → Prop}
  {t : T} {a : Option (Act N G)}

/-- A waiter waits for nodes that its graph counted. -/
theorem before_counted (h : (L.system T).ReachedBy ok s) : ∀ w g, s.shared.calls w = some (.graph g) →
    ∀ n ∈ s.shared.before w, n ∈ s.shared.passed .count ∧ L.graphOf n = g := by
  refine (invariant (J := fun _ _ => True) (I := fun x : Shared N G => ∀ w g,
    x.calls w = some (.graph g) → ∀ n ∈ x.before w, n ∈ x.passed .count ∧ L.graphOf n = g)
    (fun w g hcall => by cases hcall) (fun s t a old s' new htook ih _ => ?_) h).1
  refine ⟨fun w g hcall n hn => ?_, fun _ _ => trivial, fun _ _ _ => trivial⟩
  have heff := effect_of_moves htook.moves
  have hg := grows htook
  cases hc : s.shared.calls w with
  | some c =>
    have hsome : s.shared.calls w ≠ none := by rw [hc]; exact Option.some_ne_none c
    have hsame := hg.calls w c hc
    rw [hcall] at hsame
    rw [before_step heff hsome] at hn
    obtain ⟨hcount, hgraph⟩ := ih w g (hc.trans hsame.symm) n hn
    exact ⟨hg.passed _ n hcount, hgraph⟩
  | none =>
    generalize s'.shared = x' at heff hcall hn hg
    cases heff
    case create d c hfree =>
      have hwd : w = d := by
        by_contra hne
        simp only [Function.update_of_ne hne, hc] at hcall
        cases hcall
      subst hwd
      simp only [Function.update_self, Option.some.injEq] at hcall hn
      subst hcall
      simp only [List.mem_filter, decide_eq_true_eq] at hn
      exact ⟨passed_mono htook.reached rfl hn.1, hn.2⟩
    all_goals
      have hcall : s.shared.calls w = some (.graph g) := hcall
      rw [hc] at hcall
      cases hcall

theorem clear_of_zero (h : (L.system T).ReachedBy ok s) : ∀ g, s.shared.graphWaitCount g = 0 →
    ∀ w, s.shared.calls w = some (.graph g) → s.shared.Clear w := fun g hzero w hcall n hn => by
  obtain ⟨hcount, hgraph⟩ := before_counted h w g hcall n hn
  exact decremented_of_zero h hzero hcount hgraph

theorem clear (h : (L.system T).ReachedBy (fun s l _ => L.calm s l) s) :
    ReleasedClear s.shared ∧ ∀ f, s.HasFrame f → L.WatchedClear s.shared f := by
  refine invariant (fun w g hcall => by cases hcall) (fun s t a old s' new htook hrel hwatch => ?_) h
  obtain ⟨hk, hknown⟩ := kept htook.reached
  have heff := effect_of_moves htook.moves
  have hg := grows htook
  have hold : ∀ f ∈ old, L.WatchedClear s.shared f := fun f hf => hwatch f (htook.hasFrame hf)
  have hwaiter : ∀ g, ∀ w ∈ s.shared.graphDownStreams g, s.shared.calls w = some (.graph g) :=
    fun g w hw => (hk.waiter g w hw).2.2
  refine ⟨releasedClear_step heff hk (fun f hf => hknown f (htook.hasFrame hf))
    (calls_of_armed htook.reached) (not_armed htook) (waits htook.reached) hg
    (clear_of_zero htook.reached) hrel hold,
    watchedClear_new heff hwaiter (clear_of_zero htook.reached_next) hold, ?_⟩
  intro f hf hclear g w hw hwatches
  have hkeep : w ∈ s.shared.graphDownStreams g → s'.shared.Clear w := fun hmem =>
    clear_grows hg (before_step heff (by rw [hwaiter g w hmem]; exact Option.some_ne_none _))
      (hclear g w hmem hwatches)
  rcases registered_step heff hw with hmem | ⟨rfl, hne⟩
  · exact hkeep hmem
  · have hframe := htook.hasFrame List.mem_cons_self
    have hcall : s.shared.calls w = some (.graph g) := (hknown _ hframe).2
    obtain ⟨rfl, htop⟩ := htook.exec
    have hok := htook.ok
    simp only [calm, htop] at hok
    rcases hok with hzero | hnone | hclear
    · exact absurd hzero hne
    · match f, hwatches with
      | .work u (.graphDrain _), hu =>
        have hu : L.graphOf u = g := hu
        have hno := hnone.eq_false hf
        simp [draining, hu] at hno
      | .work u (.graphNotify list _), hu =>
        have hlist : w ∈ s.shared.graphDownStreams (L.graphOf u) := hknown _ hf w hu.2
        exact hkeep (hu.1 ▸ hlist)
    · exact clear_grows hg (before_step heff (by rw [hcall]; exact Option.some_ne_none _)) hclear

/-- **A waiter is handed out when the nodes it waits for are decremented, as long as no waiter is
registered while a walk of its graph is due.** -/
theorem clear_of_handed (h : (L.system T).ReachedBy (fun s l _ => L.calm s l) s)
    (hcall : s.shared.calls w = some (.graph g)) (hw : w ∈ s.shared.handed) :
    ∀ n ∈ s.shared.before w, n ∈ s.shared.passed .decrement := by
  obtain ⟨harm, hcount⟩ := released_of_handed h hw
  exact (clear h).1 w g hcall harm hcount

end Reached

/-! ### Released once -/

/-- The graphs whose walk is due. -/
def drains (L : Layout N G) : Frame N G → List G
  | .work u (.graphDrain _) => [L.graphOf u]
  | _ => []

variable (L) in
/-- The walks of a graph's `down_streams` that are due, and one if the graph counts nodes. -/
def live {T : Type} [Fintype T] (g : G) (s : Config (Shared N G) (Frame N G) T) : ℤ :=
  total (tally L.drains g) s + s.shared.counting g

/-- Only a step that begins a round makes a graph live. -/
theorem live_step (h : L.Effect x old x' new) (hpos : 0 ≤ x.graphWaitCount g) (hpos' : 0 ≤ x'.graphWaitCount g)
    (hcount : ∀ d c, old = [.build d (.count c)] → L.graphOf d = g → x.graphWaitCount g ≠ 0) :
    weight (tally L.drains g) new + x'.counting g ≤ weight (tally L.drains g) old + x.counting g := by
  rw [weight_tally, weight_tally]
  cases h
  case count d c =>
    by_cases hg : L.graphOf d = g
    · have hne := hcount d c rfl hg
      subst hg
      have hne' : x.graphWaitCount (L.graphOf d) + 1 ≠ 0 := by omega
      simp [drains, Shared.counting, hne, hne']
    · simp [drains, Shared.counting, Function.update_of_ne (Ne.symm hg)]
  case countZero u notified hone =>
    by_cases hg : L.graphOf u = g
    · subst hg
      simp [drains, Shared.counting, hone]
    · simp [drains, Shared.counting, hg, Function.update_of_ne (Ne.symm hg)]
  case countDown u notified others last hone hleaves =>
    by_cases hg : L.graphOf u = g
    · subst hg
      have hne : x.graphWaitCount (L.graphOf u) ≠ 0 := fun h => by simp [h] at hpos'
      have hne' : x.graphWaitCount (L.graphOf u) - 1 ≠ 0 := by omega
      cases hleaves.ends <;> simp [drains, List.flatMap_map, Shared.counting, hne, hne']
    · cases hleaves.ends <;>
        simp [drains, List.flatMap_map, Shared.counting, Function.update_of_ne (Ne.symm hg)]
  case graphDrain u notified => simp [drains]
  case graphNotifyDone u notified others last hleaves =>
    cases hleaves.ends <;> simp [drains, List.flatMap_map]
  all_goals refine add_le_add (le_of_eq ?_) (le_of_eq rfl)
  all_goals simp [drains, List.flatMap_map]

section Reached
variable {T : Type} [DecidableEq T] [Fintype T] {s s' : Config (Shared N G) (Frame N G) T}
  {ok : Config (Shared N G) (Frame N G) T → T × Option (Act N G) → Config (Shared N G) (Frame N G) T → Prop}
  {t : T} {a : Option (Act N G)}

end Reached
end Layout
/-! ### Two nodes and two waiters -/

/-- A waiter is handed out while a node that was created before its call is not decremented: the
node and the waiter came between the decrement that reached zero and the walk. -/
theorem handed_not_clear : ∃ s, (waitedFor.system (Fin 2)).Reached s ∧
    s.shared.calls 2 = some (.graph true) ∧ 2 ∈ s.shared.handed ∧ 1 ∈ s.shared.before 2 ∧
      1 ∉ s.shared.passed .decrement :=
  System.exists_reachedBy _ (fun _ _ _ => True)
    (creating 0 0 ++ steps 0 (.take 0) 8 ++ creating 1 1 ++ registering 1 2 ++
      List.replicate 4 (0, none)) _ (by decide)

theorem clear_of_handed_round : ∃ s, (waitedFor.system (Fin 2)).Reached s ∧
    0 ∈ s.shared.before 2 ∧ 2 ∈ s.shared.handed ∧
      ∀ n ∈ s.shared.before 2, n ∈ s.shared.passed .decrement := by
  obtain ⟨s, hs, hcall, hbefore, hhand⟩ := System.exists_reachedBy (waitedFor.system (Fin 2))
    (fun s l _ => waitedFor.calm s l) (creating 0 0 ++ registering 0 2 ++ steps 1 (.take 0) 12)
    (fun s => s.shared.calls 2 = some (.graph true) ∧ 0 ∈ s.shared.before 2 ∧ 2 ∈ s.shared.handed)
    (by decide)
  exact ⟨s, hs.reached, hbefore, hhand, Layout.clear_of_handed hs hcall hhand⟩

/-- A second round decrements the waiter of the first. -/
theorem decremented_again : ∃ s, (waitedFor.system (Fin 2)).Reached s ∧
    s.shared.calls 2 = some (.graph true) ∧ 2 ∈ s.shared.handed ∧ s.shared.waitCount 2 = -1 :=
  System.exists_reachedBy _ (fun _ _ _ => True)
    (creating 0 0 ++ registering 0 2 ++ steps 1 (.take 0) 25 ++ creating 0 1 ++
      steps 0 (.take 1) 10) _ (by decide)

end QuietFlow.Engine
