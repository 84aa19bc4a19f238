import QuietFlow.Schedule.Hands

/-! Every task completes its life.

A step of one thread keeps all tasks and threads in agreement (`Kept`), as long as no ghost task
is made: a ghost task of `add_root_task` has no graph to finish in, and one that has a graph waits
in `~Node` for its own `run_task`. -/
namespace QuietFlow.RunTask
open Runs

variable {T : Type}

/-- The last `shared_ptr` of the task may go: the task is over, or it is no `ReuseNode` and its `run`
is over. -/
def Node.MayGo (x : Node T) : Prop :=
  x.status = .recoverable ∧ x.locked = false ∨ x.reuse = false ∧ x.ran = true

instance (x : Node T) : Decidable x.MayGo := inferInstanceAs (Decidable (_ ∨ _))

namespace Kept
variable [DecidableEq T] {s s' : State T} {t : T} {n m : ℕ} {p : Pc} {x : Node T}

/-- Every access of a thread keeps the tasks and the threads in agreement. -/
theorem advance (h : Kept s) (hgoes : ∀ k n, s.pc t = .leave k n → (s.nodes n).MayGo)
    (hs : s.advance t = some s') : Kept s' := by
  cases hpc : s.pc t with
  | outside | dequeue | parent n | failed => simp [State.advance, hpc] at hs
  | taken n =>
    have hstatus : (s.nodes n).status = .initing := congrArg Prod.fst (h.unset hpc rfl).1
    simp only [State.advance, hpc, hstatus, if_true, Option.some.injEq] at hs
    subst hs
    exact h.setStatus hpc rfl rfl rfl rfl rfl rfl (by simp) (.inl rfl) rfl (by simp) fun _ _ => trivial
  | resume n =>
    have hstatus : (s.nodes n).status = .ready := congrArg Prod.fst (h.unset hpc rfl).1
    simp only [State.advance, hpc, hstatus, if_true, Option.some.injEq] at hs
    subst hs
    exact h.setStatus hpc rfl rfl rfl rfl rfl rfl (by simp) (.inl rfl) rfl (by simp) fun _ _ => trivial
  | run n =>
    simp only [State.advance, hpc] at hs
    split at hs <;> cases hs
    · next hback =>
      obtain ⟨hstage, -⟩ := h.unset hpc rfl
      refine h.work hpc rfl rfl rfl rfl (fun _ _ => trivial) ?_ rfl rfl ⟨rfl, id, id, fun _ => rfl, rfl⟩
        ⟨?_, .inr (by rw [hback]; rfl)⟩ (by simp)
      · obtain ⟨hfirst, hchain, hlast⟩ := (h.fits n).own.follows
        exact (h.fits n).own.held (h.held_of hpc rfl) rfl rfl rfl rfl rfl rfl (fun _ => rfl) rfl
          ⟨hfirst, hchain, hlast⟩
      · simp only [Node.stage, Pc.stage, Prod.mk.injEq] at hstage ⊢
        exact ⟨hstage.1, hstage.2.1, trivial⟩
    · next a hback =>
      exact h.walk hpc rfl rfl rfl rfl rfl (.inr (by rw [hback]; rfl)) (by simp) fun _ _ => trivial
  | finish n =>
    obtain ⟨hstage, hback⟩ := h.unset hpc rfl
    have hstatus : (s.nodes n).status = .running := congrArg Prod.fst hstage
    simp only [State.advance, hpc, hstatus, if_true, Option.some.injEq] at hs
    subst hs
    have hnone : (s.nodes n).backTask.isSome = false := by simpa [Pc.back] using hback
    exact h.setStatus hpc rfl rfl rfl rfl rfl rfl (by simp) (.inr (by rw [hnone]; rfl)) (by rw [hnone]; rfl)
      (by simp) fun _ _ => trivial
  | notify n =>
    simp only [State.advance, hpc, Option.some.injEq] at hs
    subst hs
    exact h.walk hpc rfl rfl rfl rfl rfl (h.unset hpc rfl).2 (by simp) fun _ _ => trivial
  | ghost n next =>
    have hghost := (h.fits n).own.plain
    simp only [State.advance, hpc, hghost, Bool.false_eq_true, if_false, Option.some.injEq] at hs
    subst hs
    exact h.walk hpc rfl rfl rfl rfl rfl (h.unset hpc rfl).2 (by simp) fun _ _ => trivial
  | check n next =>
    have hstatus : (s.nodes n).status = .finish := congrArg Prod.fst (h.unset hpc rfl).1
    simp only [State.advance, hpc, hstatus, if_true, Option.some.injEq] at hs
    subst hs
    exact h.walk hpc rfl rfl rfl rfl rfl (h.unset hpc rfl).2 (by simp) fun _ _ => trivial
  | lock n k =>
    simp only [State.advance, hpc] at hs
    split at hs <;> cases hs
    obtain ⟨hstage, hback⟩ := h.unset hpc rfl
    obtain ⟨hfirst, hchain, hlast⟩ := (h.fits n).own.follows
    have hown : ({s.nodes n with locked := true} : Node T).Own :=
      (h.fits n).own.held (h.held_of hpc rfl) rfl rfl rfl rfl rfl rfl id rfl ⟨hfirst, hchain, hlast⟩
    cases k with
    | next next | back =>
      refine h.work hpc rfl rfl rfl rfl (fun _ _ => trivial) hown rfl rfl ⟨rfl, id, id, id, rfl⟩
        ⟨?_, hback⟩ (by simp)
      simp only [Node.stage, Pc.stage, Prod.mk.injEq] at hstage ⊢
      exact ⟨hstage.1, trivial, hstage.2.2⟩
  | store n k =>
    simp only [State.advance, hpc, Option.some.injEq] at hs
    subst hs
    obtain ⟨hstage, hback⟩ := h.unset hpc rfl
    cases k with
    | next next =>
      have hnone : (s.nodes n).backTask.isSome = false := by simpa [Pc.back] using hback
      exact h.setStatus hpc rfl rfl rfl rfl rfl rfl (by simp) hback (by rw [hnone]; rfl) (by simp)
        fun _ _ => trivial
    | back =>
      have hsome : (s.nodes n).backTask.isSome = true := by simpa [Pc.back] using hback
      exact h.setStatus hpc rfl rfl rfl rfl rfl rfl (by simp) hback (by rw [hsome]; rfl) (by simp)
        fun _ _ => trivial
  | unlock n k =>
    cases k with
    | next next =>
      cases next with
      | none =>
        simp only [State.advance, hpc, Option.some.injEq] at hs
        subst hs
        exact h.past hpc (.inl ⟨rfl, rfl⟩)
      | some m =>
        simp only [State.advance, hpc, Option.some.injEq] at hs
        subst hs
        exact h.past hpc (.inr ⟨m, rfl, rfl⟩)
    | back =>
      simp only [State.advance, hpc, Option.some.injEq] at hs
      subst hs
      obtain ⟨hstage, hback⟩ := h.unset hpc rfl
      obtain ⟨hfirst, hchain, hlast⟩ := (h.fits n).own.follows
      refine h.work hpc rfl rfl rfl rfl (fun _ _ => trivial) ?_ rfl rfl ⟨rfl, id, id, id, rfl⟩
        ⟨?_, hback⟩ (by simp)
      · exact (h.fits n).own.held (h.held_of hpc rfl) rfl rfl rfl rfl rfl rfl id rfl ⟨hfirst, hchain, hlast⟩
      · simp only [Node.stage, Pc.stage, Prod.mk.injEq] at hstage ⊢
        exact ⟨hstage.1, trivial, hstage.2.2⟩
  | spin b =>
    simp only [State.advance, hpc] at hs
    split at hs
    · cases hs
    · next a hback =>
      split at hs <;> cases hs
      · next hplace => exact h.revive hpc hback hplace
      · exact h
  | yield a b =>
    simp only [State.advance, hpc, Option.some.injEq] at hs
    subst hs
    obtain ⟨hstage, hback⟩ := h.unset hpc rfl
    have hnone : (s.nodes a).backTask.isSome = false := by simpa [Pc.back] using hback
    exact h.setStatus hpc rfl rfl rfl rfl rfl rfl (by simp) hback (by rw [hnone]; rfl) (by simp) fun _ hy => hy
  | swap a b =>
    simp only [State.advance, hpc, Option.some.injEq] at hs
    subst hs
    exact h.suspend hpc
  | resumed a b =>
    simp only [State.advance, hpc, Option.some.injEq] at hs
    subst hs
    exact h.walk hpc rfl rfl rfl rfl rfl (h.unset hpc rfl).2 (by simp) fun _ hy => hy
  | again a b =>
    simp only [State.advance, hpc, Option.some.injEq] at hs
    subst hs
    obtain ⟨hstage, hback⟩ := h.unset hpc rfl
    have hnone : (s.nodes a).backTask.isSome = false := by simpa [Pc.back] using hback
    exact h.setStatus hpc rfl rfl rfl rfl rfl rfl (by simp) hback (by rw [hnone]; rfl) (by simp)
      fun y hy => ⟨trivial, .inl hy.2⟩
  | await k n =>
    have hcleared := h.cleared_of hpc rfl
    simp only [State.advance, hpc] at hs
    split at hs <;> cases hs
    · next hstatus =>
      exact h.glide hpc rfl rfl rfl rfl rfl rfl ⟨hcleared.1, hcleared.2, hstatus⟩ (by simp)
    · exact h
  | handshake k n =>
    obtain ⟨hplain, hplace, hstatus⟩ := h.cleared_of hpc rfl
    simp only [State.advance, hpc] at hs
    split at hs <;> cases hs
    next hlocked =>
    have hover := (h.fits n).over_of_recoverable hstatus (Bool.eq_false_iff.mpr hlocked) hplace
    exact h.glide hpc rfl rfl rfl rfl rfl rfl ⟨hplain, .inl hover⟩ (by simp)
  | leave k n =>
    obtain ⟨hplain, hplace⟩ := h.cleared_of hpc rfl
    have hfits := h.fits n
    have hdone : (s.nodes n).place = .past ∨ (s.nodes n).backTask = none ∧ (s.nodes n).ran = true ∧
        (s.nodes n).reuse = false := by
      rcases hgoes k n hpc with ⟨hstatus, hlocked⟩ | ⟨hreuse, hran⟩
      · exact .inl (hfits.over_of_recoverable hstatus hlocked hplace)
      · exact hplace.imp_right fun hback => ⟨hback, hran, hreuse⟩
    simp only [State.advance, hpc] at hs
    split at hs <;> cases hs
    · next hreuse =>
      have hover := hdone.resolve_right fun hr => by rw [hr.2.2] at hreuse; cases hreuse
      exact h.glide hpc rfl rfl rfl rfl rfl rfl ⟨hplain, hover⟩ (by simp)
    · refine h.sweep hpc rfl rfl rfl rfl rfl rfl ?_ rfl rfl rfl rfl ?_ (by simp)
      · exact hfits.own.destruct (hdone.symm.imp_left fun hr => hr.2.1)
      · exact ⟨hplain, hdone.imp_right fun hr => ⟨hr.1, hr.2.1⟩⟩
  | recycle k n =>
    obtain ⟨hplain, hplace⟩ := h.cleared_of hpc rfl
    simp only [State.advance, hpc, Option.some.injEq] at hs
    subst hs
    exact h.settle hpc rfl hplain rfl rfl rfl ((h.fits n).own.forget hplace (h.fits n).own.follows) rfl rfl
      (by simp) (.inl rfl)
  | loop k n =>
    obtain ⟨hplain, hplace⟩ := h.cleared_of hpc rfl
    simp only [State.advance, hpc] at hs
    split at hs <;> cases hs
    · exact h
    · next hvalue =>
      have hkeeper : (s.nodes n).keeper = .thread t := ((h.fits n).kept t).mp (by rw [hpc]; rfl)
      have hstatus : (s.nodes n).status = .recoverable := by
        have hne := (h.fits n).status_ne_destroy (by rw [hkeeper]; simp)
        revert hvalue hne
        cases (s.nodes n).status <;> decide
      exact h.glide hpc rfl rfl rfl rfl rfl rfl ⟨hplain, hplace.imp_right And.left, hstatus⟩ (by simp)
  | release k n =>
    have hcleared := h.cleared_of hpc rfl
    simp only [State.advance, hpc, Option.some.injEq] at hs
    subst hs
    exact h.glide hpc rfl rfl rfl rfl rfl rfl hcleared (by simp)
  | destroy k n =>
    obtain ⟨hplain, hplace, hstatus⟩ := h.cleared_of hpc rfl
    simp only [State.advance, hpc] at hs
    split at hs <;> cases hs
    next hlocked =>
    have hover := (h.fits n).over_of_recoverable hstatus (Bool.eq_false_iff.mpr hlocked) hplace
    have hfollows := (h.fits n).own.follows.setStatus (v := .destroy)
      (by rw [hstatus]; cases (s.nodes n).backTask <;> rfl)
    exact h.settle hpc rfl hplain rfl rfl rfl ((h.fits n).own.forget hover hfollows) rfl rfl (by simp) (.inr hover)

theorem clear (h : Kept s) (hs : s.clear t n = some s') : Kept s' := by
  obtain ⟨k, hk, hs⟩ := Option.bind_eq_some_iff.mp hs
  split at hs <;> cases hs
  next hif =>
  have hshared := (h.fits n).own.shared hif.1
  exact h.claim hk hif.1 rfl rfl rfl (by cases k <;> rfl) rfl (fun hplain => ⟨hplain, .inr hshared⟩) nofun

theorem drop (h : Kept s) (hs : s.drop t n = some s') : Kept s' := by
  obtain ⟨k, hk, hs⟩ := Option.bind_eq_some_iff.mp hs
  split at hs <;> cases hs
  next hkeeper =>
  have hshared := (h.fits n).own.shared hkeeper
  exact h.claim hk hkeeper rfl rfl rfl (by cases k <;> rfl) rfl (fun hplain => ⟨hplain, .inr hshared⟩) nofun

theorem keep (h : Kept s) (hs : s.keep t = some s') : Kept s' := by
  unfold State.keep at hs
  split at hs
  · next k n hpc =>
    split at hs <;> cases hs
    next hback =>
    have hplain := (h.cleared_of hpc rfl).1
    have hkeeper : (s.nodes n).keeper = .thread t := ((h.fits n).kept t).mp (by rw [hpc]; rfl)
    exact h.settle hpc rfl hplain rfl rfl rfl
      ((h.fits n).own.keep (by rw [hkeeper]; nofun) nofun fun _ => hback) rfl rfl nofun (.inl rfl)
  · cases hs

theorem full (h : Kept s) (hs : s.full t = some s') : Kept s' := by
  unfold State.full at hs
  split at hs <;> cases hs
  next k n hpc =>
  obtain ⟨hplain, hplace⟩ := h.cleared_of hpc rfl
  exact h.sweep hpc rfl rfl rfl rfl rfl rfl ((h.fits n).own.destruct (.inr hplace)) rfl rfl rfl rfl
    ⟨hplain, .inl hplace⟩ nofun

theorem ready (h : Kept s) (hs : s.ready n = some s') : Kept s' := by
  unfold State.ready at hs
  split at hs <;> cases hs
  next hif =>
  obtain ⟨hplace, -⟩ := hif
  have hfits := h.fits n
  have hown := hfits.own
  have hnew : Fits s.pc n {s.nodes n with place := .queued} := by
    have hrests := hown.rests
    rw [Node.Rests, hplace] at hrests
    refine hfits.quiet ⟨hrests, hown.plain, ?_, hown.shared, ?_, hown.deleted, fun hg => ?_,
      hown.follows.first, hown.follows.chain, hown.follows.last⟩ (fun t => ⟨by rw [hplace]; simp, by simp⟩)
      (fun _ => .rfl) (.inl ⟨rfl, id, fun he => ?_, id, rfl⟩)
    · exact .inr (hown.parent.resolve_left (by rw [hplace]; simp))
    · exact fun hd => .inl ((hown.destructed hd).resolve_right (by rw [hplace]; simp))
    · rw [hown.gone hg] at hplace
      cases hplace
    · rw [hplace] at he
      cases he
  refine ⟨fun m => ?_, h.fresh_set (.inl (h.lt_made (by rw [hplace]; simp))),
    h.saved_set (.inr (by simp)) (.inl ⟨rfl, rfl⟩), h.safe⟩
  show Fits s.pc m (Function.update s.nodes n _ m)
  by_cases hm : m = n
  · subst hm
    rw [Function.update_self]
    exact hnew
  · rw [Function.update_of_ne hm]
    exact h.fits m

omit [DecidableEq T] in
/-- A new task changes nothing for the others. -/
theorem make (h : Kept s) {pc : T → Pc} (hplace : x.place = .waiting) (hnew : Fits pc s.made x)
    (hfits : ∀ m, m ≠ s.made → Fits pc m (s.nodes m)) (hsafe : ∀ t, pc t ≠ .failed) :
    Kept {s.make x with pc := pc} := by
  obtain ⟨-, hraw⟩ := h.fresh s.made le_rfl
  refine ⟨fun m => ?_, fun m hm => ?_, h.saved_set (.inr (by rw [hplace]; nofun)) (.inr (by rw [hraw]; nofun)),
    hsafe⟩
  · show Fits pc m (Function.update s.nodes s.made x m)
    by_cases hm : m = s.made
    · subst hm
      rw [Function.update_self]
      exact hnew
    · rw [Function.update_of_ne hm]
      exact hfits m hm
  · have hm : s.made + 1 ≤ m := hm
    show (Function.update s.nodes s.made x m).place = _ ∧ (Function.update s.nodes s.made x m).keeper = _
    rw [Function.update_of_ne (by omega)]
    exact h.fresh m (by omega)

omit [DecidableEq T] in
theorem createEdges {graph : ℕ} {reuse : Bool} (h : Kept s)
    (hs : s.createEdges t graph false reuse = some s') : Kept s' := by
  obtain ⟨k, -, rfl⟩ := Option.map_eq_some_iff.mp hs
  obtain ⟨hplace, hraw⟩ := h.fresh s.made le_rfl
  refine h.make rfl ((h.fits s.made).quiet ?_ (fun t => ?_) (fun t => ?_) (.inr fun t => ?_))
    (fun m _ => h.fits m) h.safe
  · exact Node.own_new rfl rfl rfl (.inr ⟨rfl, nofun⟩) (fun _ => rfl) nofun rfl rfl
  · rw [hplace]
    exact ⟨nofun, nofun⟩
  · rw [hraw]
    exact ⟨nofun, nofun⟩
  · rw [hraw]
    nofun

theorem wait {graph : ℕ} (h : Kept s) (hs : s.wait t graph = some s') : Kept s' := by
  unfold State.wait at hs
  split at hs <;> cases hs
  next a hk =>
  obtain ⟨-, hpc, hrun⟩ := h.caller_spec (n := 0) hk
  have hpc : s.pc t = .run a := hpc
  obtain ⟨hstage, hback⟩ := hrun a rfl
  have hheld := h.held_of hpc rfl
  obtain ⟨hplace, hraw⟩ := h.fresh s.made le_rfl
  have ha : a ≠ s.made := by
    rintro rfl
    rw [hplace] at hheld
    cases hheld
  refine h.make rfl ?_ (fun m hm => ?_) (h.safe_goto nofun)
  · refine (h.fits s.made).turn
      (Node.own_new rfl rfl rfl (.inr ⟨rfl, nofun⟩) nofun nofun rfl rfl)
      ⟨fun hn => ?_, nofun⟩ ⟨fun _ => rfl, fun _ => rfl⟩ (fun t' _ => ?_) (fun t' ht => ?_)
      (.inr fun t' _ => ?_) (.inr fun t' _ => ?_) (fun hn => ?_) nofun (fun _ => rfl)
    · rcases hn with hn | hn
      · exact absurd (Option.some.inj hn) ha
      · cases hn
    · rw [hplace]
      exact ⟨nofun, nofun⟩
    · rw [hraw]
      exact ⟨fun he => absurd (Keeper.thread.inj he).symm ht, nofun⟩
    · rw [hplace]
      nofun
    · rw [hraw]
      nofun
    · exact absurd (Option.some.inj hn) ha
  · refine (h.fits m).stay ?_ ?_ (fun hn => ?_) nofun (fun he => absurd (Option.some.inj he).symm hm)
    · rw [hpc]
      rfl
    · rw [hpc]
      exact ⟨fun he => absurd (Option.some.inj he).symm hm, nofun⟩
    · cases hn
      exact ⟨hstage, .inr (by rw [hback]; rfl)⟩

end Kept

/-! ### Runs -/

variable [DecidableEq T]

/-- No ghost task is made, and a task whose last `shared_ptr` goes may go. -/
def sound (s : State T) (a : Act T) : Prop :=
  match a with
  | .createEdges _ _ ghost _ => ghost = false
  | .addRootTask _ => False
  | .step t =>
    match s.pc t with
    | .leave _ n => (s.nodes n).MayGo
    | _ => True
  | _ => True

instance (s : State T) (a : Act T) : Decidable (sound s a) := by
  unfold sound
  split
  · infer_instance
  · infer_instance
  · split <;> infer_instance
  · infer_instance

/-- A ghost task that is in a graph waits in `~Node` for the worker that waits. -/
theorem stuck_of_ghost : ∃ s : State (Fin 2), (threads fun t : Fin 2 => t = 0).Reached s ∧
    s.pc 0 = .loop (.runTask none) 0 ∧ s.advance 0 = some s := by
  obtain ⟨s, hreach, hpc, hstatus⟩ := System.exists_reachedBy (threads fun t : Fin 2 => t = 0)
    (fun _ _ _ => True) (.createEdges 1 0 true false :: .ready 0 :: .dequeue 0 0 ::
      List.replicate 5 (.step 0) ++ [.finish 0 none, .step 0])
    (fun s => s.pc 0 = .loop (.runTask none) 0 ∧ (s.nodes 0).status = .finish) (by decide)
  refine ⟨s, hreach, hpc, ?_⟩
  simp only [State.advance, hpc, hstatus]
  rfl

end QuietFlow.RunTask
