import QuietFlow.Reuse.Owners

/-! What `clear_graph` gives up.

It waits for the nodes that `get_nodes` saw and then clears the whole vectors. An ordinary
node that was stored in between waits once more, in `~Node`; a `ReuseNode` does not. -/
namespace QuietFlow.Reuse
open Runs Program

/-- The graph that a frame of `clear_graph` or `~Graph` is about. -/
def Frame.clearing : Frame → List ℕ
  | .clearGraph g _ | .checkFinish g _ | .getNodes g _ | .setFinish g _ _ | .await g _ _ | .clear g _
  | .setDestroy g | .members g => [g]
  | _ => []

/-- The same, past its `get_nodes`. -/
def Frame.closing : Frame → List ℕ
  | .setFinish g _ _ | .await g _ _ | .clear g _ | .setDestroy g | .members g => [g]
  | _ => []

/-- The node that is released, returned to the pool or deleted for a `clear_graph`. -/
def Frame.recycled : Frame → List ℕ
  | .release _ .clear n | .forget _ .clear n | .tryEnqueue .clear n | .countDown .clear n
  | .destroy .clear n => [n]
  | _ => []

/-- The step stores no `ReuseNode` in a graph that is being cleared, past the `get_nodes`, and
begins no second clearing of a graph; when graphs are to be dumped, where `clear_graph` waits
for nothing, `~Graph` finds its `ReuseNode`s `Recoverable`. -/
def undisturbed {T : Type} (enableQfDumpGraph : Bool) (s : Config Shared Frame T)
    (l : T × Option Call) : Prop :=
  match l.2, (s.stack l.1).head? with
  | some (.createEdges g n), _ => enableQfDumpGraph = false → s.shared.reuse n = true →
    s.Without fun f => decide (g ∈ f.closing)
  | some (.clearGraph g), _ | some (.deleteGraph g), _ => s.Without fun f => decide (g ∈ f.clearing)
  | none, some (.release _ _ n) =>
    match s.shared.subGraph n with
    | some g => s.Without fun f => decide (g ∈ f.clearing)
    | none => True
  | none, some (.members g) => enableQfDumpGraph = true →
    ∀ n ∈ s.shared.stored g, s.shared.reuse n = true → s.shared.status n = .recoverable
  | _, _ => True

instance {T : Type} [Fintype T] (dump : Bool) (s : Config Shared Frame T) (l : T × Option Call) :
    Decidable (undisturbed dump s l) := by
  unfold undisturbed
  split
  case h_4 => split <;> infer_instance
  all_goals infer_instance

namespace Shared
variable (x : Shared)

def Settled (g : ℕ) : Prop := ∀ n ∈ x.stored g, x.reuse n = true → x.status n = .recoverable

end Shared

/-- What the frames of a clearing have waited for. -/
def Frame.Waited (dump : Bool) (x : Shared) : Frame → Prop
  | .checkFinish _ _ | .getNodes _ _ => dump = false
  | .setFinish g _ required | .await g _ required => dump = false ∧ ∀ n ∈ x.stored g, x.reuse n = true →
    n ∈ required ∨ x.status n = .recoverable
  | .clear g _ => dump = false ∧ x.Settled g
  | .setDestroy g | .members g => dump = false → x.Settled g
  | .reset .clear n => x.reuse n = true → x.status n = .recoverable
  | .release _ .clear n | .forget _ .clear n | .tryEnqueue .clear n | .countDown .clear n
  | .destroy .clear n => x.status n = .recoverable
  | _ => True

/-! ### One step -/

section Step
variable {dump : Bool} {x x' : Shared} {a : Option Call} {old new : List Frame} {n g : ℕ}

/-- `Recoverable` stays, but for a node that is taken from the pool or destroyed. -/
theorem status_step (h : Effect dump x a old x' new) (hn : n < x.nodes)
    (hstatus : x.status n = .recoverable) : x'.status n = .recoverable ∨ old = [.create n] ∨
      ∃ who, old = [.destroy who n] := by
  have hkeep : ∀ (m : ℕ) (v : RunningStatus), n ≠ m → Function.update x.status m v n = .recoverable :=
    fun m v hne => by rwa [Function.update_of_ne hne]
  cases h
  case new r => exact .inl (hkeep _ _ (Nat.ne_of_lt hn))
  case setStatus m v hlt hv =>
    refine .inl (hkeep m v fun he => ?_)
    rw [← he, hstatus] at hlt
    exact absurd hlt (lt_irrefl _)
  case create m =>
    by_cases hnm : n = m
    · subst hnm
      exact .inr (.inl rfl)
    · exact .inl (hkeep m _ hnm)
  case destroy who m =>
    by_cases hnm : n = m
    · subst hnm
      exact .inr (.inr ⟨who, rfl⟩)
    · exact .inl (hkeep m _ hnm)
  all_goals exact .inl hstatus

theorem reuse_step (h : Effect dump x a old x' new) (hn : n < x.nodes) : x'.reuse n = x.reuse n := by
  cases h
  case new r =>
    show Function.update x.reuse x.nodes r n = x.reuse n
    rw [Function.update_of_ne (Nat.ne_of_lt hn)]
  all_goals rfl

theorem stored_step (h : Effect dump x a old x' new) (hn : n ∈ x'.stored g) :
    n ∈ x.stored g ∨ a = some (.createEdges g n) ∧ n ∈ x.raw := by
  have hkeep : ∀ g', n ∈ Function.update x.stored g' [] g → n ∈ x.stored g := fun g' hn => by
    by_cases hg : g = g'
    · subst hg
      rw [Function.update_self] at hn
      cases hn
    · rwa [Function.update_of_ne hg] at hn
  cases h
  case createEdges g' m hm hg' =>
    have hn : n ∈ Function.update x.stored g' (x.stored g' ++ [m]) g := hn
    by_cases hg : g = g'
    · subst hg
      rw [Function.update_self] at hn
      rcases List.mem_append.mp hn with hn | hn
      · exact .inl hn
      · cases List.mem_singleton.mp hn
        exact .inr ⟨rfl, hm⟩
    · rw [Function.update_of_ne hg] at hn
      exact .inl hn
  case clear g' k => exact .inl (hkeep g' hn)
  case members g' => exact .inl (hkeep g' hn)
  all_goals exact .inl hn

theorem graphStatus_step (h : Effect dump x a old x' new) (hg : x'.graphStatus g = .finish) :
    (x.graphStatus g = .finish ∧ ∀ n, a ≠ some (.createEdges g n)) ∨ ∃ k r, old = [.setFinish g k r] := by
  have hkeep : ∀ (g' : ℕ) (v : RunningStatus), v ≠ .finish →
      Function.update x.graphStatus g' v g = .finish → g ≠ g' ∧ x.graphStatus g = .finish :=
    fun g' v hv hg => by
      by_cases he : g = g'
      · rw [he, Function.update_self] at hg
        exact absurd hg hv
      · rw [Function.update_of_ne he] at hg
        exact ⟨he, hg⟩
  cases h
  case newGraph =>
    exact .inl ⟨(hkeep x.graphs .initing (by decide) hg).2, fun n hn => by cases hn⟩
  case getGraph =>
    exact .inl ⟨(hkeep x.graphs .initing (by decide) hg).2, fun n hn => by cases hn⟩
  case createEdges g' m hm hg' =>
    obtain ⟨hne, hfinish⟩ := hkeep g' .running (by decide) hg
    exact .inl ⟨hfinish, fun n hn => by cases hn; exact hne rfl⟩
  case setDestroy g' =>
    exact .inl ⟨(hkeep g' .destroy (by decide) hg).2, fun n hn => by cases hn⟩
  case setFinish g' k r =>
    by_cases he : g = g'
    · subst he
      exact .inr ⟨k, r, rfl⟩
    · refine .inl ⟨?_, fun n hn => by cases hn⟩
      have hg : Function.update x.graphStatus g' .finish g = .finish := hg
      rwa [Function.update_of_ne he] at hg
  all_goals exact .inl ⟨hg, fun n hn => by cases hn⟩

/-- A clearing goes on as one frame; what begins one is in the condition. -/
theorem clearing_step (h : Effect dump x a old x' new) (g : ℕ) :
    weight (tally Frame.clearing g) new ≤ weight (tally Frame.clearing g) old ∨
      weight (tally Frame.clearing g) new ≤ 1 ∧ (a = some (.clearGraph g) ∨ a = some (.deleteGraph g) ∨
        ∃ d who n, old = [.release d who n] ∧ x.subGraph n = some g) := by
  have hresets : ∀ (l : List ℕ) (who : By), weight (tally Frame.clearing g) (l.map (.reset who)) = 0 :=
    fun l who => weight_eq_zero fun f hf => by
      obtain ⟨i, -, rfl⟩ := List.mem_map.mp hf
      rfl
  have hframes : ∀ (k : Then) (g' : ℕ), weight (tally Frame.clearing g) (k.frames g') ≤
      ([g'] : List ℕ).count g := fun k g' => by
    cases k
    · exact Int.natCast_nonneg _
    all_goals exact le_of_eq (add_zero _)
  have hsingle : ∀ g', ((([g'] : List ℕ).count g : ℤ) + 0) ≤ 1 := fun g' => by
    have hn := count_single g' g
    split at hn <;> omega
  have hbegin : ∀ g', g' ≠ g → ((([g'] : List ℕ).count g : ℤ) + 0) = 0 := fun g' hne => by
    rw [count_single, if_neg (Ne.symm hne), add_zero]
  cases h
  case callClear g' hg' =>
    by_cases hg : g' = g
    · subst hg
      exact .inr ⟨hsingle g', .inl rfl⟩
    · exact .inl (hbegin g' hg).le
  case deleteGraph g' hg' =>
    by_cases hg : g' = g
    · subst hg
      exact .inr ⟨hsingle g', .inr (.inl rfl)⟩
    · exact .inl (hbegin g' hg).le
  case releaseGraph d who n g' hsub =>
    by_cases hg : g' = g
    · subst hg
      exact .inr ⟨hsingle g', .inr (.inr ⟨d, who, n, rfl, hsub⟩)⟩
    · exact .inl (hbegin g' hg).le
  case skip g' k hk => exact .inl ((hframes k g').trans (le_of_eq (add_zero _).symm))
  case clear g' k =>
    rw [weight_append, hresets, zero_add]
    exact .inl ((hframes k g').trans (le_of_eq (add_zero _).symm))
  case members g' =>
    rw [hresets]
    exact .inl (weight_nonneg (tally_nonneg Frame.clearing g) _)
  case last who n hn =>
    cases hr : x.reuse n <;> exact .inl (le_refl (0 : ℤ))
  case release d who n hn => cases d <;> exact .inl (le_refl (0 : ℤ))
  case forget d who n => cases d <;> exact .inl (le_refl (0 : ℤ))
  all_goals exact .inl (le_refl _)

/-- A clearing past its `get_nodes` stays so until the graph is empty. -/
theorem closing_step (h : Effect dump x a old x' new) {f : Frame} (hf : f ∈ old) (hg : g ∈ f.closing) :
    (∃ f' ∈ new, g ∈ f'.closing) ∨ x'.stored g = [] := by
  cases h
  case setFinish | await | awaited | setDestroy =>
    cases List.mem_singleton.mp hf
    exact .inl ⟨_, List.mem_cons_self, hg⟩
  case clear g' k =>
    cases List.mem_singleton.mp hf
    cases List.mem_singleton.mp hg
    exact .inr (Function.update_self ..)
  case members g' =>
    cases List.mem_singleton.mp hf
    cases List.mem_singleton.mp hg
    exact .inr (Function.update_self ..)
  all_goals first
    | cases List.mem_singleton.mp hf
      cases hg
    | cases hf

theorem settled_empty (h : x.stored g = []) : x.Settled g := fun n hn => by
  rw [h] at hn
  cases hn

/-- What a clearing goes on with. -/
theorem waited_frames {k : Then} (h : dump = false → x.Settled g) : ∀ f ∈ k.frames g, f.Waited dump x := by
  intro f hf
  cases k with
  | call => cases hf
  | release =>
    cases List.mem_singleton.mp hf
    trivial
  | delete =>
    cases List.mem_singleton.mp hf
    exact h

theorem waited_resets (hsettled : x.Settled g) (hstatus : x'.status = x.status) (hreuse : x'.reuse = x.reuse) :
    ∀ f ∈ (x.stored g).map (Frame.reset .clear), f.Waited dump x' := by
  intro f hf
  obtain ⟨n, hn, rfl⟩ := List.mem_map.mp hf
  intro hr
  rw [hreuse] at hr
  rw [hstatus]
  exact hsettled n hn hr

theorem waited_released {d : Deleter} {who : By} (h : Frame.Waited dump x (.release d who n))
    (hstatus : x'.status = x.status) : (d.released who n).Waited dump x' := by
  cases who with
  | user => cases d <;> trivial
  | clear =>
    have hn : x.status n = .recoverable := h
    rw [← hstatus] at hn
    cases d <;> exact hn

/-- What a step goes on with has been waited for. -/
theorem waited_step (h : Effect dump x a old x' new) (hold : ∀ f ∈ old, f.Waited dump x)
    (hfinish : ∀ g k, old = [.checkFinish g k] → x.graphStatus g = .finish → x.Settled g)
    (hiniting : ∀ g, x.graphStatus g = .initing → x.stored g = [])
    (hmembers : ∀ g, old = [.members g] → dump = true → x.Settled g)
    (hdestruct : ∀ who n, old = [.destruct who n] → x.status n ≠ .destroy) :
    ∀ f ∈ new, f.Waited dump x' := by
  have hone : ∀ {f : Frame}, f.Waited dump x' → ∀ f' ∈ [f], f'.Waited dump x' := fun hf f' hf' => by
    cases List.mem_singleton.mp hf'
    exact hf
  cases h
  case skip g k hskip =>
    refine waited_frames fun hdump => ?_
    rcases hskip with hd | hg
    · rw [hdump] at hd
      cases hd
    · exact settled_empty (hiniting g hg)
  case clearGraph g k hdump => exact hone hdump
  case finished g k hg => exact hone ⟨hold _ List.mem_cons_self, hfinish g k rfl hg⟩
  case checkFinish g k => exact hone (hold (.checkFinish g k) List.mem_cons_self)
  case getNodes g k => exact hone ⟨hold _ List.mem_cons_self, fun n hn _ => .inl hn⟩
  case setFinish g k r => exact hone (hold (.setFinish g k r) List.mem_cons_self)
  case await g k i r hi =>
    obtain ⟨hdump, hall⟩ := hold (.await g k (i :: r)) List.mem_cons_self
    refine hone ⟨hdump, fun n hn hr => ?_⟩
    rcases hall n hn hr with hmem | hstatus
    · rcases List.mem_cons.mp hmem with he | hmem
      · exact .inr (he ▸ hi)
      · exact .inl hmem
    · exact .inr hstatus
  case awaited g k =>
    obtain ⟨hdump, hall⟩ := hold (.await g k []) List.mem_cons_self
    exact hone ⟨hdump, fun n hn hr => (hall n hn hr).resolve_left fun hmem => by cases hmem⟩
  case clear g k =>
    have hsettled := (hold (.clear g k) List.mem_cons_self).2
    exact List.forall_mem_append.mpr ⟨waited_resets hsettled rfl rfl,
      waited_frames fun _ => settled_empty (Function.update_self ..)⟩
  case setDestroy g => exact hone (hold (.setDestroy g) List.mem_cons_self)
  case members g =>
    refine waited_resets ?_ rfl rfl
    cases hd : dump with
    | false => exact hold (.members g) List.mem_cons_self hd
    | true => exact hmembers g rfl hd
  case last who n hn =>
    have hreset := hold (.reset who n) List.mem_cons_self
    refine hone ?_
    unfold deleter
    split
    · next hr =>
      cases who with
      | user => trivial
      | clear => exact hreset hr
    · trivial
  case release d who n hn => exact hone (waited_released (hold _ List.mem_cons_self) rfl)
  case releaseGraph d who n g hn =>
    have hrelease := hold (.release d who n) List.mem_cons_self
    refine List.forall_mem_cons.mpr ⟨trivial, hone ?_⟩
    cases who with
    | user => trivial
    | clear => exact hrelease
  case forget d who n =>
    have hforget := hold (.forget d who n) List.mem_cons_self
    refine hone (waited_released (x := x) ?_ rfl)
    cases who with
    | user => trivial
    | clear => exact hforget
  case destruct who n hge =>
    refine hone ?_
    cases who with
    | user => trivial
    | clear =>
      have hne := hdestruct .clear n rfl
      show x.status n = .recoverable
      revert hge hne
      cases x.status n <;> decide
  case countDown who n =>
    have hcount := hold (.countDown who n) List.mem_cons_self
    refine hone ?_
    cases who with
    | user => trivial
    | clear => exact hcount
  case new | getFromPool | callClear | deleteGraph | delete | drop | create | rejected | tryEnqueue =>
    exact hone trivial
  all_goals exact fun f hf => by cases hf

end Step

/-! ### Along a run -/

section Run
variable {dump : Bool} {pooled : ℕ} {T : Type} [Fintype T] [DecidableEq T] {s : Config Shared Frame T}

/-- One thread at a time clears a graph. -/
theorem clearing_le_one (h : ((program dump pooled).system T).ReachedBy (fun s l _ => undisturbed dump s l) s)
    (g : ℕ) : total (tally Frame.clearing g) s ≤ 1 := by
  refine induct (I := fun s => total (tally Frame.clearing g) s ≤ 1) ?_
    (fun s t a old s' new htook ih => ?_) h
  · have hzero : total (tally Frame.clearing g) ((program dump pooled).system T).start = 0 :=
      total_eq_zero fun f ⟨t, ht⟩ => by cases ht
    rw [hzero]
    decide
  · have htotal := total_step htook (tally Frame.clearing g)
    have hold := weight_nonneg (tally_nonneg Frame.clearing g) old
    have hzero : (s.Without fun f => decide (g ∈ f.clearing)) → total (tally Frame.clearing g) s = 0 :=
      fun hwithout => total_eq_zero fun f hf => by
        have hmem := of_decide_eq_false (hwithout.eq_false hf)
        rw [tally, List.count_eq_zero.mpr hmem]
        rfl
    have hok := htook.ok
    rcases clearing_step (effect_of_moves htook.moves) g with hle | ⟨hle, ha | ha | ⟨d, who, n, hrel, hsub⟩⟩
    · omega
    · subst ha
      have hs := hzero hok
      omega
    · subst ha
      have hs := hzero hok
      omega
    · subst hrel
      obtain ⟨ha, hhead⟩ := htook.exec
      subst ha
      rw [undisturbed, hhead] at hok
      simp only [hsub] at hok
      have hs := hzero hok
      omega

/-- A graph that stores nodes is not `Initing`. -/
theorem not_initing (h : ((program dump pooled).system T).Reached s) (g : ℕ)
    (hg : s.shared.graphStatus g = .initing) : s.shared.stored g = [] := by
  have hall : ∀ g, s.shared.graphStatus g = .initing → s.shared.stored g = [] := by
    refine induct (I := fun s => ∀ g, s.shared.graphStatus g = .initing → s.shared.stored g = []) (fun _ _ => rfl)
      (fun s t a old s' new htook ih g hg => ?_) h
    have heff := effect_of_moves htook.moves
    have hempty := (owners htook.reached).empty
    generalize s.shared = x, s'.shared = x' at heff hempty ih hg
    have hkeep : ∀ (g' : ℕ) (v : RunningStatus), Function.update x.graphStatus g' v g = .initing →
        g ≠ g' ∧ x.graphStatus g = .initing ∨ g = g' ∧ v = .initing := fun g' v hg => by
      by_cases he : g = g'
      · rw [he, Function.update_self] at hg
        exact .inr ⟨he, hg⟩
      · rw [Function.update_of_ne he] at hg
        exact .inl ⟨he, hg⟩
    cases heff
    case newGraph =>
      rcases hkeep x.graphs .initing hg with ⟨-, hg⟩ | ⟨rfl, -⟩
      · exact ih g hg
      · exact hempty _ le_rfl
    case getGraph =>
      rcases hkeep x.graphs .initing hg with ⟨-, hg⟩ | ⟨rfl, -⟩
      · exact ih g hg
      · exact hempty _ le_rfl
    case createEdges g' n hn hg' =>
      rcases hkeep g' .running hg with ⟨hne, hg⟩ | ⟨-, hv⟩
      · show Function.update x.stored g' _ g = []
        rw [Function.update_of_ne hne]
        exact ih g hg
      · cases hv
    case setFinish g' k r =>
      rcases hkeep g' .finish hg with ⟨-, hg⟩ | ⟨-, hv⟩
      · exact ih g hg
      · cases hv
    case setDestroy g' =>
      rcases hkeep g' .destroy hg with ⟨-, hg⟩ | ⟨-, hv⟩
      · exact ih g hg
      · cases hv
    case clear g' k =>
      show Function.update x.stored g' [] g = []
      rw [Function.update_apply, ih g hg, ite_self]
    case members g' =>
      show Function.update x.stored g' [] g = []
      rw [Function.update_apply, ih g hg, ite_self]
    all_goals exact ih g hg
  exact hall g hg

omit [Fintype T] in
theorem destroyed_of_status (h : ((program dump pooled).system T).Reached s) (n : ℕ)
    (hn : s.shared.status n = .destroy) : n ∈ s.shared.destroyed := by
  have hall : ∀ n, s.shared.status n = .destroy → n ∈ s.shared.destroyed := by
    refine induct (I := fun s => ∀ n, s.shared.status n = .destroy → n ∈ s.shared.destroyed)
      (fun n hn => by cases hn) (fun s t a old s' new htook ih n hn => ?_) h
    have heff := effect_of_moves htook.moves
    generalize s.shared = x, s'.shared = x' at heff ih hn
    have hkeep : ∀ (m : ℕ) (v : RunningStatus), v ≠ .destroy → Function.update x.status m v n = .destroy →
        n ∈ x.destroyed := fun m v hv hn => by
      by_cases he : n = m
      · rw [he, Function.update_self] at hn
        exact absurd hn hv
      · rw [Function.update_of_ne he] at hn
        exact ih n hn
    cases heff
    case new r => exact hkeep _ _ (by decide) hn
    case setStatus m v hlt hv => exact hkeep m v hv hn
    case create m => exact hkeep m _ (by decide) hn
    case destroy who m =>
      by_cases he : n = m
      · subst he
        exact List.mem_append_right _ List.mem_cons_self
      · have hn : Function.update x.status m .destroy n = .destroy := hn
        rw [Function.update_of_ne he] at hn
        exact List.mem_append_left _ (ih n hn)
    all_goals exact ih n hn
  exact hall n hn

structure Cleared (dump : Bool) (s : Config Shared Frame T) : Prop where
  finished : ∀ g, s.shared.graphStatus g = .finish → (∀ f, s.HasFrame f → g ∉ f.closing) →
    s.shared.Settled g
  frames : ∀ f, s.HasFrame f → f.Waited dump s.shared

section Took
variable {t : T} {a : Option Call} {old new : List Frame} {s' : Config Shared Frame T}
  (htook : (program dump pooled).Took (fun s l _ => undisturbed dump s l) s t a old s' new)
include htook

/-- `Recoverable` stays for a node behind a `shared_ptr`. -/
theorem recoverable_of_use {n : ℕ} (hn : s.shared.useCount n ≠ 0)
    (hstatus : s.shared.status n = .recoverable) : s'.shared.status n = .recoverable := by
  obtain ⟨hlt, htoken⟩ := (owners htook.reached.reached).of_use hn
  rcases status_step (effect_of_moves htook.moves) hlt hstatus with hkeep | hold | ⟨who, hold⟩
  · exact hkeep
  · subst hold
    exact absurd List.mem_cons_self (htoken _ (htook.hasFrame List.mem_cons_self))
  · subst hold
    exact absurd List.mem_cons_self (htoken _ (htook.hasFrame List.mem_cons_self))

/-- `Recoverable` stays for the node that another frame gives up. -/
theorem recoverable_of_token {f : Frame} (hf : s.HasFrame f) (hf' : s'.HasFrame f) {n : ℕ} (hn : n ∈ f.token)
    (hcreate : f ≠ .create n) (hstatus : s.shared.status n = .recoverable) :
    s'.shared.status n = .recoverable := by
  obtain ⟨hlt, -, honly⟩ := (owners htook.reached.reached).of_token hf hn
  have heff := effect_of_moves htook.moves
  rcases status_step heff hlt hstatus with hkeep | hold | ⟨who, hold⟩
  · exact hkeep
  · subst hold
    exact absurd (honly _ (htook.hasFrame List.mem_cons_self) List.mem_cons_self).symm hcreate
  · subst hold
    -- the executed frame is `f`, and the node it destroyed has no frame left
    obtain ⟨-, hdestroyed, -⟩ := (owners htook.reached_next.reached).of_token hf' hn
    refine absurd ?_ hdestroyed
    generalize s.shared = x, s'.shared = x' at heff
    cases heff
    exact List.mem_append_right _ List.mem_cons_self

/-- What a graph stores after a step: what it stored before, as it was, or a new node. -/
theorem stored_cases {g n : ℕ} (hn : n ∈ s'.shared.stored g) (hr : s'.shared.reuse n = true) :
    s.shared.reuse n = true ∧ (a = some (.createEdges g n) ∨ n ∈ s.shared.stored g ∧
      (s.shared.status n = .recoverable → s'.shared.status n = .recoverable)) := by
  have heff := effect_of_moves htook.moves
  have howners := owners htook.reached.reached
  rcases stored_step heff hn with hold | ⟨ha, hraw⟩
  · have huse := howners.use_of_stored hold
    exact ⟨by rw [← hr, reuse_step heff (howners.of_use huse).1], .inr ⟨hold, recoverable_of_use htook huse⟩⟩
  · refine ⟨?_, .inl ha⟩
    subst ha
    generalize s.shared = x, s'.shared = x' at heff hr
    cases heff
    exact hr

theorem settled_step {g : ℕ} (hsettled : s.shared.Settled g)
    (ha : ∀ n, s.shared.reuse n = true → a ≠ some (.createEdges g n)) : s'.shared.Settled g := by
  intro n hn hr
  obtain ⟨hreuse, hnew | ⟨hold, hkeep⟩⟩ := stored_cases htook hn hr
  · exact absurd hnew (ha n hreuse)
  · exact hkeep (hsettled n hold hreuse)

omit [Fintype T] in
/-- No `ReuseNode` is stored in a graph that is being cleared. -/
theorem not_created (hdump : dump = false) {f : Frame} (hf : s.HasFrame f) {g : ℕ} (hg : g ∈ f.closing) (n : ℕ)
    (hn : s.shared.reuse n = true) : a ≠ some (.createEdges g n) := by
  intro ha
  subst ha
  have hok := htook.ok
  exact absurd hg (of_decide_eq_false ((hok hdump hn).eq_false hf))

/-- A frame that stays has waited for what it had waited for. -/
theorem waited_keep {f : Frame} (hf : s.HasFrame f) (hf' : s'.HasFrame f) (hw : f.Waited dump s.shared) :
    f.Waited dump s'.shared := by
  have htoken : ∀ n, n ∈ f.token → f ≠ .create n → s.shared.status n = .recoverable →
      s'.shared.status n = .recoverable := fun n hn hne => recoverable_of_token htook hf hf' hn hne
  have hawait : ∀ (g : ℕ) (required : List ℕ), g ∈ f.closing → (dump = false ∧ ∀ n ∈ s.shared.stored g,
      s.shared.reuse n = true → n ∈ required ∨ s.shared.status n = .recoverable) →
        dump = false ∧ ∀ n ∈ s'.shared.stored g, s'.shared.reuse n = true →
          n ∈ required ∨ s'.shared.status n = .recoverable := fun g required hg ⟨hdump, hall⟩ =>
    ⟨hdump, fun n hn hr => by
      obtain ⟨hreuse, hnew | ⟨hold, hkeep⟩⟩ := stored_cases htook hn hr
      · exact absurd hnew (not_created htook hdump hf hg n hreuse)
      · exact (hall n hold hreuse).imp_right hkeep⟩
  have hsettled : ∀ g, g ∈ f.closing → dump = false → s.shared.Settled g → s'.shared.Settled g :=
    fun g hg hdump hs => settled_step htook hs (not_created htook hdump hf hg)
  cases f with
  | checkFinish | getNodes => exact hw
  | setFinish g k required => exact hawait g required List.mem_cons_self hw
  | await g k required => exact hawait g required List.mem_cons_self hw
  | clear g k => exact ⟨hw.1, hsettled g List.mem_cons_self hw.1 hw.2⟩
  | setDestroy g => exact fun hdump => hsettled g List.mem_cons_self hdump (hw hdump)
  | members g => exact fun hdump => hsettled g List.mem_cons_self hdump (hw hdump)
  | reset who n =>
    cases who with
    | user => trivial
    | clear =>
      have howners := owners htook.reached.reached
      have huse := howners.use_of_pointer hf List.mem_cons_self
      intro hr
      rw [reuse_step (effect_of_moves htook.moves) (howners.of_use huse).1] at hr
      exact recoverable_of_use htook huse (hw hr)
  | release d who n =>
    cases who with
    | user => trivial
    | clear => exact htoken n List.mem_cons_self (fun he => by cases he) hw
  | forget d who n =>
    cases who with
    | user => trivial
    | clear => exact htoken n List.mem_cons_self (fun he => by cases he) hw
  | tryEnqueue who n =>
    cases who with
    | user => trivial
    | clear => exact htoken n List.mem_cons_self (fun he => by cases he) hw
  | countDown who n =>
    cases who with
    | user => trivial
    | clear => exact htoken n List.mem_cons_self (fun he => by cases he) hw
  | destroy who n =>
    cases who with
    | user => trivial
    | clear => exact htoken n List.mem_cons_self (fun he => by cases he) hw
  | _ => trivial

theorem finished_step (ih : Cleared dump s) {g : ℕ} (hg : s'.shared.graphStatus g = .finish)
    (hclosing : ∀ f, s'.HasFrame f → g ∉ f.closing) : s'.shared.Settled g := by
  have heff := effect_of_moves htook.moves
  by_cases hold : ∃ f ∈ old, g ∈ f.closing
  · obtain ⟨f, hf, hfg⟩ := hold
    rcases closing_step heff hf hfg with ⟨f', hf', hfg'⟩ | hempty
    · exact absurd hfg' (hclosing f' (htook.hasFrame_new hf'))
    · exact settled_empty hempty
  · have hbefore : ∀ f, s.HasFrame f → g ∉ f.closing := fun f hf hfg =>
      hclosing f (htook.hasFrame_keep hf fun hmem => hold ⟨f, hmem, hfg⟩) hfg
    rcases graphStatus_step heff hg with ⟨hfinish, ha⟩ | ⟨k, r, hset⟩
    · exact settled_step htook (ih.finished g hfinish hbefore) fun n _ => ha n
    · subst hset
      exact absurd ⟨_, List.mem_cons_self, List.mem_cons_self⟩ hold

theorem cleared_step (ih : Cleared dump s) : Cleared dump s' := by
  refine ⟨fun g hg hclosing => finished_step htook ih hg hclosing, fun f hf => ?_⟩
  rcases htook.hasFrame_cases hf with hnew | hold
  · have hr := htook.reached.reached
    refine waited_step (effect_of_moves htook.moves) (fun f hf => ih.frames f (htook.hasFrame hf))
      (fun g k ho hg => ?_) (not_initing hr) (fun g ho hdump => ?_) (fun who n ho hn => ?_) f hnew
    · -- no other frame clears `g`, so none is past its `get_nodes`
      subst ho
      refine ih.finished g hg fun f hf hfg => ?_
      have hclearing : g ∈ f.clearing := by
        cases f <;> first | exact hfg | cases hfg
      have hsame := frame_unique (X := Frame.clearing) (clearing_le_one htook.reached g) hf
        (htook.hasFrame List.mem_cons_self) hclearing List.mem_cons_self
      rw [hsame] at hfg
      cases hfg
    · subst ho
      obtain ⟨ha, hhead⟩ := htook.exec
      subst ha
      have hok := htook.ok
      rw [undisturbed, hhead] at hok
      exact hok hdump
    · subst ho
      exact ((owners hr).of_token (htook.hasFrame List.mem_cons_self) List.mem_cons_self).2.1
        (destroyed_of_status hr n hn)
  · exact waited_keep htook hold hf (ih.frames f hold)

end Took

theorem cleared (h : ((program dump pooled).system T).ReachedBy (fun s l _ => undisturbed dump s l) s) :
    Cleared dump s :=
  induct (I := Cleared dump) ⟨(fun g hg => by cases hg), (fun f ⟨t, ht⟩ => by cases ht)⟩
    (fun _ _ _ _ _ _ htook ih => cleared_step htook ih) h

/-- **`clear_graph` gives up `Recoverable` nodes only**, in the runs in which no `ReuseNode` is
stored in a graph between the `get_nodes` of its clearing and the end of it. -/
theorem recycled_recoverable
    (h : ((program dump pooled).system T).ReachedBy (fun s l _ => undisturbed dump s l) s) :
    ∀ f, s.HasFrame f → ∀ n ∈ f.recycled, s.shared.status n = .recoverable := by
  intro f hf n hn
  have hw := (cleared h).frames f hf
  cases f with
  | release d who m =>
    cases who with
    | user => cases hn
    | clear =>
      cases List.mem_singleton.mp hn
      exact hw
  | forget d who m =>
    cases who with
    | user => cases hn
    | clear =>
      cases List.mem_singleton.mp hn
      exact hw
  | tryEnqueue who m =>
    cases who with
    | user => cases hn
    | clear =>
      cases List.mem_singleton.mp hn
      exact hw
  | countDown who m =>
    cases who with
    | user => cases hn
    | clear =>
      cases List.mem_singleton.mp hn
      exact hw
  | destroy who m =>
    cases who with
    | user => cases hn
    | clear =>
      cases List.mem_singleton.mp hn
      exact hw
  | _ => cases hn

end Run

/-- A lambda node runs to its end in a graph that is then cleared. -/
theorem recycled_of_clear : ∃ s, ((program false 0).system (Fin 1)).ReachedBy
    (fun s l _ => undisturbed false s l) s ∧ s.stack 0 = [.tryEnqueue .clear 0] ∧
      s.shared.status 0 = .recoverable := by
  obtain ⟨s, hs, hstack⟩ := System.exists_reachedBy ((program false 0).system (Fin 1))
    (fun s l _ => undisturbed false s l)
    ([(0, some .newGraph), (0, some (.new true)), (0, none), (0, some (.createEdges 0 0)), (0, some (.reset 0)),
      (0, none), (0, some (.setStatus 0 .recoverable)), (0, some (.clearGraph 0))] ++
        List.replicate 9 (0, none))
    (fun s => s.stack 0 = [.tryEnqueue .clear 0]) (by decide)
  exact ⟨s, hs, hstack, recycled_recoverable hs _ ⟨0, hstack ▸ List.mem_cons_self⟩ 0 List.mem_cons_self⟩

/-- Thread 0 clears a graph with node 0. Before node 0 ends, it creates the lambda node 1, which
thread 0 then recycles while it runs. -/
theorem recycled_running : ∃ s, ((program false 0).system (Fin 2)).Reached s ∧
    s.stack 0 = [.tryEnqueue .clear 1] ∧ s.shared.status 1 = .running :=
  System.exists_reachedBy ((program false 0).system (Fin 2)) (fun _ _ _ => True)
    ([(0, some .newGraph), (1, some (.new false)), (1, none), (1, some (.createEdges 0 0)), (1, some (.reset 0)),
      (1, none), (1, some (.setStatus 0 .running)), (0, some (.clearGraph 0)), (0, none), (0, none), (0, none),
      (1, some (.new true)), (1, none), (1, some (.createEdges 0 1)), (1, some (.reset 1)), (1, none),
      (1, some (.setStatus 1 .running)), (1, some (.setStatus 0 .recoverable))] ++ List.replicate 11 (0, none))
    (fun s => s.stack 0 = [.tryEnqueue .clear 1] ∧ s.shared.status 1 = .running) (by decide)

end QuietFlow.Reuse
