import QuietFlow.Aspect.Ending
import QuietFlow.Aspect.Upstreams

/-! Circular waits.

A call can close a circle in four ways that the check does not see: `create_edges` of a node
with a required node that waits for it; `create_edges` into a graph that somebody waits for;
`wait_graph`, which asks nothing; and `require_node` where only a `wait_graph` leads back, for
a graph leaves nothing in `up_streams`. In the runs without these no wait is circular. -/
namespace QuietFlow.Aspect
open Runs Relation

/-- The calls that close no circle, or one that the check can see. -/
def foreseen (s : State) : Act → Prop
  | .createEdges g n required => ∀ r, some r ∈ required → s.unfinished r → ∀ t,
      ReflTransGen (WaitsFor s) r t → t ≠ n ∧ ∀ back, s.waiting t ≠ some (.graph back g)
  | .requireNode t nodes => ∀ n, some n ∈ nodes → s.unfinished n → ReflTransGen (WaitsFor s) n t →
      ∃ m, some m ∈ nodes ∧ s.unfinished m ∧ ReflTransGen (Mirrored s) m t
  | .waitGraph t g => s.parentGraph t ≠ some g → ∀ m ∈ s.unfinishedIn g, ¬ ReflTransGen (WaitsFor s) m t
  | _ => True

namespace State
variable {s : State} {n g : ℕ}

theorem mem_unfinishedIn : n ∈ s.unfinishedIn g ↔
    n < s.nodes ∧ s.parentGraph n = some g ∧ s.unfinished n = true := by
  simp [unfinishedIn]

end State

/-! ### What a call does to the waits -/

section Step
variable {s : State} {a b : ℕ}

theorem waitsFor_new (hm : Mirror s) (h : WaitsFor (s.newNode true []) a b) : WaitsFor s a b := by
  have hstatus : ∀ m, (s.newNode true []).status m = if m = s.nodes then .initing else s.status m :=
    fun m => Function.update_apply ..
  have hun : ∀ m, m < s.nodes → (s.newNode true []).unfinished m = s.unfinished m := fun m hlt => by
    simp [State.unfinished, hstatus, Nat.ne_of_lt hlt]
  have hlt : ∀ m, s.isTask m = true → m < s.nodes := fun m h => ((s.isTask_iff m).mp h).1
  cases h with
  | required htask hs hmem hunb =>
    have hmem : some b ∈ Function.update s.required s.nodes [] a := hmem
    have hne : a ≠ s.nodes := fun he => by
      rw [he, Function.update_self] at hmem
      cases hmem
    rw [Function.update_of_ne hne] at hmem
    rw [hstatus, if_neg hne] at hs
    have hta : s.isTask a = true := by
      have htask := (State.isTask_iff _ a).mp htask
      have hlt : a < s.nodes + 1 := htask.1
      have htask : Function.update s.task s.nodes true a = true := htask.2
      rw [Function.update_of_ne hne] at htask
      exact (s.isTask_iff a).mpr ⟨by omega, htask⟩
    have hb := hlt b (hm.required a b hta hmem).1
    exact .required hta hs hmem (by rwa [hun b hb] at hunb)
  | node hwait hmem hunb =>
    have hb := hlt b (((hm.waiting a _ hwait).nodes _ _ rfl b).2 hmem)
    exact .node hwait hmem (by rwa [hun b hb] at hunb)
  | graph hwait hmem =>
    obtain ⟨hlt, hgraph, hunb⟩ := State.mem_unfinishedIn.mp hmem
    have hgraph : Function.update s.parentGraph s.nodes none b = some _ := hgraph
    have hlt : b < s.nodes + 1 := hlt
    have hne : b ≠ s.nodes := fun he => by
      rw [he, Function.update_self] at hgraph
      cases hgraph
    rw [Function.update_of_ne hne] at hgraph
    rw [hun b (by omega)] at hunb
    exact .graph hwait (State.mem_unfinishedIn.mpr ⟨by omega, hgraph, hunb⟩)

/-- A wait was there before, if what it rests on was. -/
theorem WaitsFor.before {s' : State} (h : WaitsFor s' a b) (hun : s'.unfinished b → s.unfinished b)
    (hreq : s'.isTask a → s'.status a = .initing → some b ∈ s'.required a →
      s.isTask a ∧ s.status a = .initing ∧ some b ∈ s.required a)
    (hwait : ∀ w, s'.waiting a = some w → s.waiting a = some w)
    (hgraph : ∀ g, b < s'.nodes → s'.parentGraph b = some g → b < s.nodes ∧ s.parentGraph b = some g) :
    WaitsFor s a b := by
  cases h with
  | required htask hstatus hmem hunb =>
    obtain ⟨htask, hstatus, hmem⟩ := hreq htask hstatus hmem
    exact .required htask hstatus hmem (hun hunb)
  | node hw hmem hunb => exact .node (hwait _ hw) hmem (hun hunb)
  | @graph back g hw hmem =>
    obtain ⟨hlt, hg, hunb⟩ := State.mem_unfinishedIn.mp hmem
    obtain ⟨hlt, hg⟩ := hgraph g hlt hg
    exact .graph (hwait _ hw) (State.mem_unfinishedIn.mpr ⟨hlt, hg, hun hunb⟩)

theorem waitsFor_start {n : ℕ} (hstatus : s.status n = .initing)
    (h : WaitsFor {s with status := Function.update s.status n .running} a b) : WaitsFor s a b := by
  refine h.before (fun hun => ?_) (fun htask hs hmem => ?_) (fun _ hw => hw) fun _ hlt hg => ⟨hlt, hg⟩
  · by_cases hb : b = n
    · exact unfinished_of_status (.inl (hb ▸ hstatus))
    · simpa [State.unfinished, hb] using hun
  · have hs : Function.update s.status n .running a = .initing := hs
    have hne : a ≠ n := fun he => by
      rw [he, Function.update_self] at hs
      cases hs
    rw [Function.update_of_ne hne] at hs
    exact ⟨htask, hs, hmem⟩

theorem waitsFor_finish {n : ℕ} {f : ℕ → Bool}
    (h : WaitsFor {s with status := Function.update s.status n .finish, notified := f} a b) :
    WaitsFor s a b := by
  refine h.before (fun hun => ?_) (fun htask hs hmem => ?_) (fun _ hw => hw) fun _ hlt hg => ⟨hlt, hg⟩
  · by_cases hb : b = n
    · simp [State.unfinished, hb, RunningStatus.ended, RunningStatus.value] at hun
    · simpa [State.unfinished, hb] using hun
  · have hs : Function.update s.status n .finish a = .initing := hs
    have hne : a ≠ n := fun he => by
      rw [he, Function.update_self] at hs
      cases hs
    rw [Function.update_of_ne hne] at hs
    exact ⟨htask, hs, hmem⟩

theorem waitsFor_append {t : ℕ} {nodes : List (Option ℕ)} (h : WaitsFor (s.append t nodes) a b) :
    WaitsFor s a b :=
  h.before (fun hun => hun) (fun htask hs hmem => ⟨htask, hs, hmem⟩) (fun _ hw => hw)
    fun _ hlt hg => ⟨hlt, hg⟩

theorem waitsFor_back {t : ℕ} {wait : Wait} (hm : Mirror s) (ht : s.waiting t = some wait)
    (h : WaitsFor {s.append t [some wait.back] with
      status := Function.update (Function.update s.status wait.back .recoverable) t .running
      waiting := Function.update s.waiting t none} a b) : WaitsFor s a b := by
  have hw := hm.waiting t wait ht
  refine h.before (fun hun => ?_) (fun htask hs hmem => ?_) (fun w hu => ?_) fun _ hlt hg => ⟨hlt, hg⟩
  · by_cases hbt : b = t
    · exact unfinished_of_status (.inr (.inr (hbt ▸ hw.status)))
    · by_cases hbb : b = wait.back
      · exact unfinished_of_status (.inl (hbb ▸ hw.backStatus))
      · simpa [State.unfinished, hbt, hbb] using hun
  · have hs : Function.update (Function.update s.status wait.back .recoverable) t .running a = .initing := hs
    have hat : a ≠ t := fun he => by
      rw [he, Function.update_self] at hs
      cases hs
    rw [Function.update_of_ne hat] at hs
    have hab : a ≠ wait.back := fun he => by
      rw [he, Function.update_self] at hs
      cases hs
    rw [Function.update_of_ne hab] at hs
    exact ⟨htask, hs, hmem⟩
  · have hu : Function.update s.waiting t none a = some w := hu
    by_cases hat : a = t
    · rw [hat, Function.update_self] at hu
      cases hu
    · rwa [Function.update_of_ne hat] at hu

/-- A new node waits for its required nodes, and whoever waits for the graph for it. -/
theorem waitsFor_createEdges {g n : ℕ} {required : List (Option ℕ)} (hm : Mirror s) (htask : s.isTask n)
    (hnull : s.parentGraph n = none)
    (h : WaitsFor {s.append n (State.recorded required) with
      parentGraph := Function.update s.parentGraph n (some g)
      required := Function.update s.required n required} a b) :
    (a ≠ n → WaitsFor s a b ∨ b = n ∧ ∃ back, s.waiting a = some (.graph back g)) ∧
      (a = n → some b ∈ required ∧ s.unfinished b) := by
  have hstatus := (hm.fresh n htask hnull).1
  have hno : ∀ wait, s.waiting n ≠ some wait := fun wait hwait => by
    have hs := (hm.waiting n wait hwait).status
    rw [hstatus] at hs
    cases hs
  cases h with
  | required hta hs hmem hunb =>
    have hmem : some b ∈ Function.update s.required n required a := hmem
    refine ⟨fun hne => ?_, fun he => ?_⟩
    · rw [Function.update_of_ne hne] at hmem
      exact .inl (.required hta hs hmem hunb)
    · rw [he, Function.update_self] at hmem
      exact ⟨hmem, hunb⟩
  | node hw hmem hunb => exact ⟨fun _ => .inl (.node hw hmem hunb), fun he => absurd hw (he ▸ hno _)⟩
  | @graph back g' hw hmem =>
    refine ⟨fun _ => ?_, fun he => absurd hw (he ▸ hno _)⟩
    obtain ⟨hlt, hg, hunb⟩ := State.mem_unfinishedIn.mp hmem
    have hg : Function.update s.parentGraph n (some g) b = some g' := hg
    by_cases hb : b = n
    · rw [hb, Function.update_self] at hg
      cases hg
      exact .inr ⟨hb, back, hw⟩
    · rw [Function.update_of_ne hb] at hg
      exact .inl (.graph hw (State.mem_unfinishedIn.mpr ⟨hlt, hg, hunb⟩))

/-- A suspension gives only the task new waits: those of its call. -/
theorem waitsFor_suspend {t : ℕ} {wait : Wait} {upStreams : List (Option ℕ)} (hm : Mirror s)
    (htask : s.isTask t) (hstatus : s.status t = .running) (h : WaitsFor (s.suspend t wait upStreams) a b) :
    (a ≠ t → WaitsFor s a b) ∧ (a = t →
      (∀ back l, wait = .nodes back l → (∀ m, some m ∈ l → s.isTask m) → some b ∈ l ∧ s.unfinished b) ∧
      ∀ back g, wait = .graph back g → b ∈ s.unfinishedIn g) := by
  have hlt : ∀ m, s.isTask m = true → m < s.nodes := fun m h => ((s.isTask_iff m).mp h).1
  have hne := Nat.ne_of_lt (hlt t htask)
  have hun : ∀ m, m < s.nodes → (s.suspend t wait upStreams).unfinished m = s.unfinished m := fun m hlt => by
    by_cases hmt : m = t
    · simp [State.unfinished, s.suspend_status, hmt, hstatus, RunningStatus.ended, RunningStatus.value]
    · simp [State.unfinished, s.suspend_status, hmt, Nat.ne_of_lt hlt]
  have hin : ∀ g, b ∈ (s.suspend t wait upStreams).unfinishedIn g → b ∈ s.unfinishedIn g := fun g hmem => by
    obtain ⟨hlt, hgraph, hunb⟩ := State.mem_unfinishedIn.mp hmem
    rw [s.suspend_parentGraph] at hgraph
    have hlt : b < s.nodes + 1 := hlt
    have hne : b ≠ s.nodes := fun he => by
      rw [if_pos he] at hgraph
      cases hgraph
    rw [if_neg hne] at hgraph
    rw [hun b (by omega)] at hunb
    exact State.mem_unfinishedIn.mpr ⟨by omega, hgraph, hunb⟩
  cases h with
  | required hta hs hmem hunb =>
    rw [s.suspend_status] at hs
    rw [s.suspend_required] at hmem
    have hat : a ≠ t := fun he => by
      rw [if_pos he] at hs
      cases hs
    have han : a ≠ s.nodes := fun he => by
      rw [if_pos he] at hmem
      cases hmem
    rw [if_neg hat, if_neg han] at hs
    rw [if_neg han] at hmem
    have hta' : s.isTask a = true := by
      obtain ⟨hlt, htask⟩ := (State.isTask_iff _ a).mp hta
      rw [s.suspend_task, if_neg han] at htask
      have hlt : a < s.nodes + 1 := hlt
      exact (s.isTask_iff a).mpr ⟨by omega, htask⟩
    refine ⟨fun _ => .required hta' hs hmem ?_, fun he => absurd he hat⟩
    rwa [hun b (hlt b (hm.required a b hta' hmem).1)] at hunb
  | node hwait hmem hunb =>
    rw [s.suspend_waiting] at hwait
    refine ⟨fun hat => ?_, fun hat => ⟨?_, ?_⟩⟩
    · rw [if_neg hat] at hwait
      have hb := hlt b (((hm.waiting a _ hwait).nodes _ _ rfl b).2 hmem)
      exact .node hwait hmem (by rwa [hun b hb] at hunb)
    · rw [if_pos hat] at hwait
      rintro back l rfl hl
      cases hwait
      exact ⟨hmem, by rwa [hun b (hlt b (hl b hmem))] at hunb⟩
    · rw [if_pos hat] at hwait
      rintro back g rfl
      cases hwait
  | graph hwait hmem =>
    rw [s.suspend_waiting] at hwait
    refine ⟨fun hat => ?_, fun hat => ⟨?_, ?_⟩⟩
    · rw [if_neg hat] at hwait
      exact .graph hwait (hin _ hmem)
    · rw [if_pos hat] at hwait
      rintro back l rfl hl
      cases hwait
    · rw [if_pos hat] at hwait
      rintro back g rfl
      cases hwait
      exact hin _ hmem

end Step

/-! ### No circle is closed -/

section Acyclic
variable {s : State}

/-- The new node gets its edges last: without them it is a sink. -/
theorem acyclic_createEdges {g n : ℕ} {required : List (Option ℕ)} (hm : Mirror s) (hac : Acyclic (WaitsFor s))
    (htask : s.isTask n) (hnull : s.parentGraph n = none)
    (hfor : ∀ r, some r ∈ required → s.unfinished r → ∀ t, ReflTransGen (WaitsFor s) r t →
      t ≠ n ∧ ∀ back, s.waiting t ≠ some (.graph back g)) :
    Acyclic (WaitsFor {s.append n (State.recorded required) with
      parentGraph := Function.update s.parentGraph n (some g)
      required := Function.update s.required n required}) := by
  set s' : State := {s.append n (State.recorded required) with
    parentGraph := Function.update s.parentGraph n (some g)
    required := Function.update s.required n required}
  have hwaits := fun a b (h : WaitsFor s' a b) => waitsFor_createEdges hm htask hnull h
  -- a path of the waits without those of `n` was there before, up to its last edge
  have hpath : ∀ a b, ReflTransGen (fun a b => WaitsFor s' a b ∧ a ≠ n) a b → b ≠ n →
      ReflTransGen (WaitsFor s) a b := by
    intro a b h
    induction h with
    | refl => exact fun _ => .refl
    | @tail c b _ hcb ih =>
      intro hb
      rcases (hwaits c b hcb.1).1 hcb.2 with hold | ⟨he, -⟩
      · exact (ih hcb.2).tail hold
      · exact absurd he hb
  have hsink : Acyclic fun a b => WaitsFor s' a b ∧ a ≠ n := by
    intro a ha
    obtain ⟨c, hac', hlast⟩ := TransGen.tail'_iff.mp ha
    obtain ⟨d, hfirst, -⟩ := TransGen.head'_iff.mp ha
    rcases (hwaits c a hlast.1).1 hlast.2 with hold | ⟨he, -⟩
    · exact hac a (TransGen.tail' (hpath a c hac' hlast.2) hold)
    · exact hfirst.2 he
  refine hsink.add_out (t := n) (fun a b hab hne => ⟨hab, hne⟩) fun b hnb hbn => ?_
  obtain ⟨hmem, hun⟩ := (hwaits n b hnb).2 rfl
  rcases ReflTransGen.cases_tail hbn with he | ⟨c, hbc, hcn, hc⟩
  · exact (hfor b hmem hun b .refl).1 he.symm
  · have hbc := hpath b c hbc hc
    rcases (hwaits c n hcn).1 hc with hold | ⟨-, back, hwait⟩
    · exact (hfor b hmem hun n (hbc.tail hold)).1 rfl
    · exact (hfor b hmem hun c hbc).2 back hwait

/-- Mirrored waits lead the check to the caller. -/
theorem chain_of_mirrored (hm : Mirror s) {nodes : List (Option ℕ)} {t m : ℕ} (hmem : some m ∈ nodes)
    (hun : s.unfinished m) (h : ReflTransGen (Mirrored s) m t) : Chain s.status s.upStreams nodes t := by
  refine ⟨m, hmem, (s.unfinished_iff m).mp hun, ?_⟩
  induction h with
  | refl => exact .refl
  | tail _ hab ih => exact ih.trans (upstream_of_mirrored hm hab).to_reflTransGen

theorem acyclic_step {s' : State} {a : Act} (h : Effect s a s') (hm : Mirror s)
    (hac : Acyclic (WaitsFor s)) (hfor : foreseen s a) : Acyclic (WaitsFor s') := by
  cases h with
  | new => exact hac.mono fun _ _ h => waitsFor_new hm h
  | createEdges htask hgraph _ => exact acyclic_createEdges hm hac htask hgraph hfor
  | start _ hstatus _ _ => exact hac.mono fun _ _ h => waitsFor_start hstatus h
  | finish _ _ => exact hac.mono fun _ _ h => waitsFor_finish h
  | same => exact hac
  | append _ _ _ => exact hac.mono fun _ _ h => waitsFor_append h
  | @requireNode t nodes htask hstatus hnodes hcheck =>
    refine hac.add_out (fun a b h => (waitsFor_suspend hm htask hstatus h).1) fun b h hpath => ?_
    obtain ⟨hmem, hun⟩ := ((waitsFor_suspend hm htask hstatus h).2 rfl).1 _ _ rfl hnodes
    obtain ⟨m, hmem, hun, hpath⟩ := hfor b hmem hun hpath
    have hchain := chain_of_mirrored hm hmem hun hpath
    rw [State.checkCircle, checkCircle] at hcheck
    split at hcheck
    · cases hcheck
    · have hfalse := (doCheckCircle_iff hcheck).mpr hchain
      cases hfalse
  | @waitGraph t g htask hstatus hgraph =>
    refine hac.add_out (fun a b h => (waitsFor_suspend hm htask hstatus h).1) fun b h hpath => ?_
    exact hfor hgraph b (((waitsFor_suspend hm htask hstatus h).2 rfl).2 _ _ rfl) hpath
  | back hwait => exact hac.mono fun _ _ h => waitsFor_back hm hwait h

/-- A call that waits in a circle is seen: the search ends, and finds the caller. -/
theorem checkCircle_of_foreseen (hm : Mirror s) (hac : Acyclic (WaitsFor s)) {t : ℕ}
    {nodes : List (Option ℕ)} (hnodes : ∀ n, some n ∈ nodes → s.isTask n) (hnull : none ∉ nodes)
    (hnulls : ∀ n, none ∉ s.upStreams n) {m : ℕ} (hmem : some m ∈ nodes) (hun : s.unfinished m)
    (hpath : ReflTransGen (Mirrored s) m t) : s.checkCircle t nodes = .ok true := by
  have hends : s.checkCircle t nodes ≠ .error .running := by
    rw [State.checkCircle, checkCircle]
    split
    · simp
    · rcases checkNodes_spec s.status nodes with ⟨hnone, -⟩ | ⟨-, level, hfold, hlevel⟩
      · exact absurd hnone hnull
      · rw [doCheckCircle, hfold]
        refine ends_of_acyclic (r := Upstream s) (s := Finset.range s.nodes) (p := fun n => n < s.nodes)
          (acyclic_upstream hm hac) (fun a b _ hab => ?_) fun n hn => ?_
        · have hlt := hm.up a b ((s.upstream_iff a b).mp hab).1
          exact ⟨hlt, hab, Finset.mem_range.mpr hlt⟩
        · have hlt := ((s.isTask_iff n).mp (hnodes n ((hlevel n).mp hn).1)).1
          refine ⟨hlt, ?_⟩
          simpa using descendants_card_lt (acyclic_upstream hm hac) (Finset.mem_range.mpr hlt)
  have hsafe : s.checkCircle t nodes ≠ .error .nullRead :=
    checkCircle_ne_null hnulls (fun hnone => absurd hnone hnull) _
  rw [State.checkCircle, checkCircle] at hends hsafe ⊢
  split
  · rfl
  · next hself =>
    rw [if_neg hself] at hends hsafe
    cases hresult : doCheckCircle s.status s.upStreams t (s.nodes + 1) nodes with
    | ok b => rw [(doCheckCircle_iff hresult).mpr (chain_of_mirrored hm hmem hun hpath)]
    | error e =>
      cases e with
      | running => exact absurd hresult hends
      | nullRead => exact absurd hresult hsafe

end Acyclic

/-! ### Runs -/

/-- What the check is for: no circular wait, and an exception instead of one. -/
structure NoCircularWait (s : State) : Prop where
  acyclic : Acyclic (WaitsFor s)
  throws : ∀ t nodes, (∀ n, some n ∈ nodes → s.isTask n) → none ∉ nodes → (∀ n, none ∉ s.upStreams n) →
    foreseen s (.requireNode t nodes) →
    ∀ n, some n ∈ nodes → s.unfinished n → ReflTransGen (WaitsFor s) n t → s.checkCircle t nodes = .ok true

theorem reached_mirror {s : State} (h : system.ReachedBy (fun s a _ => foreseen s a) s) :
    Mirror s ∧ Acyclic (WaitsFor s) := by
  refine h.induct (I := fun s => Mirror s ∧ Acyclic (WaitsFor s)) ⟨mirror_start_state, fun a ha => ?_⟩
    fun s a s' _ ⟨hm, hac⟩ hs hfor => ?_
  · obtain ⟨b, hab, -⟩ := TransGen.head'_iff.mp ha
    cases hab with
    | required htask _ _ _ => simp [State.isTask, system] at htask
    | node hwait _ _ => cases hwait
    | graph hwait _ => cases hwait
  · have heffect := effect_of_step hs
    refine ⟨mirror_step heffect hm ?_, acyclic_step heffect hm hac hfor⟩
    rintro g n required rfl htask hgraph hself
    exact (hfor n hself (unfinished_of_status (.inl (hm.fresh n htask hgraph).1)) n .refl).1 rfl

/-- **No circular wait** in the runs whose calls are foreseen. -/
theorem no_circular_wait {s : State} (h : system.ReachedBy (fun s a _ => foreseen s a) s) :
    NoCircularWait s := by
  obtain ⟨hm, hac⟩ := reached_mirror h
  refine ⟨hac, fun t nodes hnodes hnull hnulls hfor n hmem hun hpath => ?_⟩
  obtain ⟨m, hmem, hun, hpath⟩ := hfor n hmem hun hpath
  exact checkCircle_of_foreseen hm hac hnodes hnull hnulls hmem hun hpath

/-- Calls that only wait for nodes without waits of their own. -/
def shallow (s : State) : Act → Prop
  | .createEdges _ _ required => required = []
  | .requireNode t nodes => ∀ n ∈ nodes, n.all fun m =>
      decide (m ≠ t) && decide (s.waiting m = none) && decide (s.required m = [])
  | .waitGraph _ _ => False
  | _ => True

instance (s : State) : ∀ a, Decidable (shallow s a)
  | .createEdges _ _ required => inferInstanceAs (Decidable (required = []))
  | .requireNode _ nodes => inferInstanceAs (Decidable (∀ n ∈ nodes, _))
  | .waitGraph _ _ => .isFalse id
  | .new | .start _ | .finish _ | .back _ => .isTrue trivial

theorem foreseen_of_shallow {s : State} {a : Act} (h : shallow s a) : foreseen s a := by
  cases a with
  | createEdges g n required =>
    obtain rfl : required = [] := h
    exact fun r hr => absurd hr List.not_mem_nil
  | requireNode t nodes =>
    intro n hmem _ hpath
    obtain ⟨⟨hne, hwait⟩, hreq⟩ := by simpa using h (some n) hmem
    rcases ReflTransGen.cases_head hpath with he | ⟨c, hnc, -⟩
    · exact absurd he hne
    · cases hnc with
      | required _ _ hmem _ =>
        rw [hreq] at hmem
        cases hmem
      | node hw _ _ =>
        rw [hwait] at hw
        cases hw
      | graph hw _ =>
        rw [hwait] at hw
        cases hw
  | waitGraph t g => exact h.elim
  | _ => trivial

theorem no_circular_wait_of_one : ∃ s, NoCircularWait s ∧ s.waiting 1 = some (.nodes 3 [some 2]) := by
  obtain ⟨s, hs, hwait⟩ := System.exists_reachedBy system (fun s a _ => shallow s a)
    [.new, .createEdges 0 1 [], .start 1, .new, .createEdges 0 2 [], .requireNode 1 [some 2]]
    (fun s => s.waiting 1 = some (.nodes 3 [some 2])) (by decide)
  exact ⟨s, no_circular_wait (hs.mono fun _ _ _ _ _ h => foreseen_of_shallow h), hwait⟩

/-- A task waits for a graph with a node that requires the task. -/
theorem circular_wait_graph : ¬ ∀ s, system.Reached s → Acyclic (WaitsFor s) := by
  intro h
  obtain ⟨s, hs, hwait, hmem, htask, hstatus, hreq, hun⟩ := System.exists_reachedBy system
    (fun _ _ _ => True)
    [.new, .createEdges 0 1 [], .start 1, .new, .createEdges 1 2 [some 1], .waitGraph 1 1]
    (fun s => s.waiting 1 = some (.graph 3 1) ∧ 2 ∈ s.unfinishedIn 1 ∧ s.isTask 2 ∧
      s.status 2 = .initing ∧ some 1 ∈ s.required 2 ∧ s.unfinished 1) (by decide)
  exact h s hs 1 (.head (.graph hwait hmem) (.single (.required htask hstatus hreq hun)))

end QuietFlow.Aspect
