import QuietFlow.Aspect.Waits
import QuietFlow.Runs.Cycles

/-! What `up_streams` says about the waits.

While a node is not finished, its unfinished upstreams are what it waits for: the required
nodes of a node that has not started, nothing for a running one, and for one that waits its
`BackNode`, whose own upstreams are the nodes of `require_node`, and none for a graph. -/
namespace QuietFlow.Aspect
open Runs Relation

namespace State
variable (s : State) (t n m : ℕ) (wait : Wait) (nodes : List (Option ℕ))

/-- An entry of `up_streams` other than `flag_node`. -/
def lists (n m : ℕ) : Prop := some m ∈ s.upStreams n ∧ m ≠ flagNode

theorem isTask_iff : s.isTask n = true ↔ n < s.nodes ∧ s.task n = true := by
  simp [isTask]

theorem unfinished_iff : s.unfinished n = true ↔ (s.status n).ended = false := by
  simp [unfinished]

theorem upstream_iff : Upstream s n m ↔ s.lists n m ∧ s.unfinished m = true := by
  simp only [Upstream, Follows, lists, unfinished_iff, and_assoc]

theorem mem_recorded : some m ∈ recorded nodes ∧ m ≠ flagNode ↔ some m ∈ nodes ∧ m ≠ flagNode := by
  simp only [recorded, List.mem_append, List.mem_filter, Option.isSome_some, and_true, List.mem_singleton,
    Option.some_inj]
  grind

theorem lists_append : (s.append t nodes).lists n m ↔
    s.lists n m ∨ n = t ∧ some m ∈ nodes ∧ m ≠ flagNode := by
  simp only [lists, append, Function.update_apply]
  grind

theorem lists_newNode {task : Bool} : (s.newNode task nodes).lists n m ↔
    if n = s.nodes then some m ∈ nodes ∧ m ≠ flagNode else s.lists n m := by
  simp only [lists, newNode, Function.update_apply]
  grind

theorem suspend_status : (s.suspend t wait nodes).status n =
    if n = t then .yield else if n = s.nodes then .initing else s.status n := by
  simp only [suspend, append, newNode, Function.update_apply]

theorem suspend_lists (ht : t ≠ s.nodes) : (s.suspend t wait nodes).lists n m ↔
    if n = s.nodes then some m ∈ nodes ∧ m ≠ flagNode
    else s.lists n m ∨ n = t ∧ m = s.nodes ∧ m ≠ flagNode := by
  have happend := (s.newNode false nodes).lists_append t n m [some s.nodes]
  rw [lists_newNode] at happend
  rw [show (s.suspend t wait nodes).lists n m = ((s.newNode false nodes).append t [some s.nodes]).lists n m
    from rfl, happend]
  grind

theorem suspend_waiting : (s.suspend t wait nodes).waiting n =
    if n = t then some wait else s.waiting n := by
  simp only [suspend, append, newNode, Function.update_apply]

theorem suspend_task : (s.suspend t wait nodes).task n = if n = s.nodes then false else s.task n := by
  simp only [suspend, append, newNode, Function.update_apply]

theorem suspend_parentGraph : (s.suspend t wait nodes).parentGraph n =
    if n = s.nodes then none else s.parentGraph n := by
  simp only [suspend, append, newNode, Function.update_apply]

theorem suspend_required : (s.suspend t wait nodes).required n =
    if n = s.nodes then [] else s.required n := by
  simp only [suspend, append, newNode, Function.update_apply]

end State

/-- A wait, as `up_streams` shows it. -/
structure Waiting (s : State) (t : ℕ) (wait : Wait) : Prop where
  task : s.isTask t
  status : s.status t = .yield
  lt : wait.back < s.nodes
  notTask : s.task wait.back = false
  backStatus : s.status wait.back = .initing
  mem : s.lists t wait.back
  only : ∀ m, s.lists t m → m = wait.back ∨ s.unfinished m = false
  nodes : ∀ b l, wait = .nodes b l → ∀ m, (s.lists b m ↔ some m ∈ l) ∧ (some m ∈ l → s.isTask m)
  ofGraph : ∀ b g, wait = .graph b g → ∀ m, ¬ s.lists b m

structure Mirror (s : State) : Prop where
  flag : flagNode < s.nodes ∧ s.task flagNode = false
  absent : ∀ n, s.nodes ≤ n → s.status n = .destroy ∧ (∀ m, ¬ s.lists n m) ∧ s.waiting n = none
  status : ∀ n, s.isTask n → s.status n = .initing ∨ s.status n = .running ∨ s.status n = .finish ∨
    s.waiting n ≠ none
  up : ∀ n m, s.lists n m → m < s.nodes
  fresh : ∀ n, s.isTask n → s.parentGraph n = none → s.status n = .initing ∧ s.required n = []
  required : ∀ n m, s.isTask n → some m ∈ s.required n → s.isTask m ∧ m ≠ n
  initing : ∀ n, s.isTask n → s.status n = .initing → ∀ m, s.lists n m ↔ some m ∈ s.required n
  running : ∀ n, s.isTask n → s.status n = .running → ∀ m, s.lists n m → s.unfinished m = false
  waiting : ∀ t wait, s.waiting t = some wait → Waiting s t wait
  owner : ∀ t t' wait wait', s.waiting t = some wait → s.waiting t' = some wait' →
    wait.back = wait'.back → t = t'
  back : ∀ b, b < s.nodes → s.task b = false → b ≠ flagNode → s.unfinished b →
    ∃ t wait, s.waiting t = some wait ∧ wait.back = b

theorem Waiting.lists_back {s : State} {t : ℕ} {wait : Wait} (h : Waiting s t wait) (s' : State) {b : ℕ}
    (hb : wait.back = b) (hlists : ∀ m, s'.lists b m ↔ s.lists b m)
    (htask : ∀ m, s.isTask m → s'.isTask m) :
    (∀ b l, wait = .nodes b l → ∀ m, (s'.lists b m ↔ some m ∈ l) ∧ (some m ∈ l → s'.isTask m)) ∧
      ∀ b g, wait = .graph b g → ∀ m, ¬ s'.lists b m := by
  subst hb
  refine ⟨?_, ?_⟩
  · rintro b l rfl m
    exact ⟨(hlists m).trans (h.nodes b l rfl m).1, fun hm => htask m ((h.nodes b l rfl m).2 hm)⟩
  · rintro b g rfl m hm
    exact h.ofGraph b g rfl m ((hlists m).mp hm)

theorem mirror_start_state : Mirror system.start := by
  have hlists : ∀ n m, ¬ system.start.lists n m := fun n m h => absurd h.1 List.not_mem_nil
  have hstatus : ∀ n, system.start.status n = if n = flagNode then .initing else .destroy := fun _ => rfl
  have hnodes : system.start.nodes = flagNode + 1 := rfl
  have htask : ∀ n, system.start.isTask n = false := fun n => by simp [State.isTask, system]
  have hwait : ∀ n, system.start.waiting n = none := fun _ => rfl
  have hun : ∀ n, system.start.unfinished n = decide (n = flagNode) := by
    intro n
    by_cases h : n = flagNode <;>
      simp [State.unfinished, hstatus, h, RunningStatus.ended, RunningStatus.value]
  refine ⟨⟨?_, rfl⟩, ?_, ?_, ?_, ?_, ?_, ?_, ?_, ?_, ?_, ?_⟩ <;> grind

section Step
variable {s s' : State} {a : Act}

theorem mirror_start {n : ℕ} (hm : Mirror s) (htask : s.isTask n) (hstatus : s.status n = .initing)
    (hgraph : s.parentGraph n ≠ none)
    (hreq : ∀ m, some m ∈ s.required n → m = n ∨ s.unfinished m = false) :
    Mirror {s with status := Function.update s.status n .running} := by
  obtain ⟨hflag, habsent, hst, hup, hfresh, hrequired, hiniting, hrunning, hwaiting, howner, hback⟩ := hm
  have hlists : ∀ a m, State.lists {s with status := Function.update s.status n .running} a m ↔
      s.lists a m := fun _ _ => Iff.rfl
  have htask' : ∀ m, State.isTask {s with status := Function.update s.status n .running} m = s.isTask m :=
    fun _ => rfl
  have hun : ∀ m, State.unfinished {s with status := Function.update s.status n .running} m = s.unfinished m := by
    intro m
    by_cases h : m = n
    · subst h
      simp [State.unfinished, hstatus, RunningStatus.ended, RunningStatus.value]
    · simp [State.unfinished, h]
  refine ⟨hflag, ?_, ?_, hup, ?_, hrequired, ?_, ?_, ?_, howner, ?_⟩
  · grind [State.isTask_iff]
  · grind
  · grind
  · grind
  · grind
  · intro t wait ht
    have hw := hwaiting t wait ht
    obtain ⟨hnodes, hofGraph⟩ := hw.lists_back {s with status := Function.update s.status n .running}
      rfl (fun _ => Iff.rfl) fun _ h => h
    obtain ⟨h1, h2, h3, h4, h5, h6, h7, -, -⟩ := hw
    refine ⟨h1, ?_, h3, h4, ?_, h6, ?_, hnodes, hofGraph⟩
    · grind
    · grind [State.isTask_iff]
    · grind
  · grind

theorem mirror_finish {n : ℕ} {f : ℕ → Bool} (hm : Mirror s) (htask : s.isTask n)
    (hstatus : s.status n = .running) :
    Mirror {s with status := Function.update s.status n .finish, notified := f} := by
  obtain ⟨hflag, habsent, hst, hup, hfresh, hrequired, hiniting, hrunning, hwaiting, howner, hback⟩ := hm
  have hlists : ∀ a m, State.lists {s with status := Function.update s.status n .finish, notified := f} a m ↔
      s.lists a m := fun _ _ => Iff.rfl
  have htask' : ∀ m, State.isTask {s with status := Function.update s.status n .finish, notified := f} m =
      s.isTask m := fun _ => rfl
  have hun : ∀ m, State.unfinished {s with status := Function.update s.status n .finish, notified := f} m =
      (s.unfinished m && decide (m ≠ n)) := by
    intro m
    by_cases h : m = n
    · subst h
      simp [State.unfinished, RunningStatus.ended, RunningStatus.value]
    · simp [State.unfinished, h]
  refine ⟨hflag, ?_, ?_, hup, ?_, hrequired, ?_, ?_, ?_, howner, ?_⟩
  · grind [State.isTask_iff]
  · grind
  · grind
  · grind
  · grind
  · intro t wait ht
    have hw := hwaiting t wait ht
    obtain ⟨hnodes, hofGraph⟩ := hw.lists_back
      {s with status := Function.update s.status n .finish, notified := f}
      rfl (fun _ => Iff.rfl) fun _ h => h
    obtain ⟨h1, h2, h3, h4, h5, h6, h7, -, -⟩ := hw
    refine ⟨h1, ?_, h3, h4, ?_, h6, ?_, hnodes, hofGraph⟩
    · grind
    · grind [State.isTask_iff]
    · grind
  · grind

theorem mirror_append {t : ℕ} {nodes : List (Option ℕ)} (hm : Mirror s) (htask : s.isTask t)
    (hstatus : s.status t = .running)
    (hnodes : ∀ n, some n ∈ nodes → n < s.nodes ∧ s.unfinished n = false) : Mirror (s.append t nodes) := by
  obtain ⟨hflag, habsent, hst, hup, hfresh, hrequired, hiniting, hrunning, hwaiting, howner, hback⟩ := hm
  have hun : ∀ m, State.unfinished (s.append t nodes) m = s.unfinished m := fun _ => rfl
  have hlists := fun n m => s.lists_append t n m nodes
  have hlt := (s.isTask_iff t).mp htask
  refine ⟨hflag, ?_, hst, ?_, hfresh, hrequired, ?_, ?_, ?_, howner, hback⟩
  · intro n hn
    obtain ⟨hs, hl, hw⟩ := habsent n hn
    refine ⟨hs, fun m hm => ?_, hw⟩
    rcases (hlists n m).mp hm with hm | ⟨rfl, -⟩
    · exact hl m hm
    · exact absurd hlt.1 (Nat.not_lt.mpr hn)
  · intro n m hm
    rcases (hlists n m).mp hm with hm | ⟨-, hm, -⟩
    · exact hup n m hm
    · exact (hnodes m hm).1
  · intro n hn hs m
    have hne : n ≠ t := fun he => by
      have hs : s.status n = .initing := hs
      rw [he, hstatus] at hs
      cases hs
    rw [hlists, or_iff_left fun h => hne h.1]
    exact hiniting n hn hs m
  · intro n hn hs m hm
    rcases (hlists n m).mp hm with hm | ⟨-, hm, -⟩
    · exact hrunning n hn hs m hm
    · exact (hnodes m hm).2
  · intro u wait hu
    have hw := hwaiting u wait hu
    have hne : u ≠ t := fun he => by
      have hs := hw.status
      rw [he, hstatus] at hs
      cases hs
    have hback : wait.back ≠ t := fun he => by
      have hs := hw.backStatus
      rw [he, hstatus] at hs
      cases hs
    obtain ⟨hnodes', hofGraph⟩ := hw.lists_back (s.append t nodes) rfl
      (fun m => by simp [hlists, hback]) fun _ h => h
    refine ⟨hw.task, hw.status, hw.lt, hw.notTask, hw.backStatus, ?_, ?_, hnodes', hofGraph⟩
    · exact (hlists u _).mpr (.inl hw.mem)
    · intro m hm
      rcases (hlists u m).mp hm with hm | ⟨he, -⟩
      · exact hw.only m hm
      · exact absurd he hne

/-- The task runs again; its `BackNode` has ended. -/
theorem mirror_resume {t : ℕ} {wait : Wait} (hm : Mirror s) (ht : s.waiting t = some wait) :
    Mirror {s with
      status := Function.update (Function.update s.status wait.back .recoverable) t .running
      waiting := Function.update s.waiting t none} := by
  obtain ⟨hflag, habsent, hst, hup, hfresh, hrequired, hiniting, hrunning, hwaiting, howner, hback⟩ := hm
  have hw := hwaiting t wait ht
  obtain ⟨h1, h2, h3, h4, h5, h6, h7, h8, h9⟩ := hw
  have hne : wait.back ≠ t := fun he => by
    rw [he, h2] at h5
    cases h5
  have hun : ∀ m, State.unfinished {s with
      status := Function.update (Function.update s.status wait.back .recoverable) t .running
      waiting := Function.update s.waiting t none} m = (s.unfinished m && decide (m ≠ wait.back)) := by
    intro m
    by_cases h : m = t
    · subst h
      simp [State.unfinished, h2, Ne.symm hne, RunningStatus.ended, RunningStatus.value]
    · by_cases hb : m = wait.back
      · simp [State.unfinished, hb, hne, RunningStatus.ended, RunningStatus.value]
      · simp [State.unfinished, h, hb]
  have htask' : ∀ m, State.isTask {s with
      status := Function.update (Function.update s.status wait.back .recoverable) t .running
      waiting := Function.update s.waiting t none} m = s.isTask m := fun _ => rfl
  have hlists : ∀ a m, State.lists {s with
      status := Function.update (Function.update s.status wait.back .recoverable) t .running
      waiting := Function.update s.waiting t none} a m ↔ s.lists a m := fun _ _ => Iff.rfl
  have hlt := (s.isTask_iff t).mp h1
  refine ⟨hflag, ?_, ?_, hup, ?_, hrequired, ?_, ?_, ?_, ?_, ?_⟩
  · grind
  · grind [State.isTask_iff]
  · grind [State.isTask_iff]
  · grind [State.isTask_iff]
  · grind [State.isTask_iff]
  · intro u wait' hu
    have hu : Function.update s.waiting t none u = some wait' := hu
    have hut : u ≠ t := fun he => by
      rw [he, Function.update_self] at hu
      cases hu
    have hu : s.waiting u = some wait' := by rwa [Function.update_of_ne hut] at hu
    have hneb : wait'.back ≠ wait.back := fun he => hut (howner u t wait' wait hu ht he)
    obtain ⟨k1, k2, k3, k4, k5, k6, k7, k8, k9⟩ := hwaiting u wait' hu
    refine ⟨k1, ?_, k3, k4, ?_, k6, ?_, k8, k9⟩
    · grind [State.isTask_iff]
    · grind [State.isTask_iff]
    · grind
  · grind
  · intro b hb hgraph hflag hunb
    rw [hun, Bool.and_eq_true, decide_eq_true_eq] at hunb
    obtain ⟨u, wait', hu, hub⟩ := hback b hb hgraph hflag hunb.1
    have hut : u ≠ t := fun he => by
      rw [he, ht] at hu
      cases hu
      exact hunb.2 hub.symm
    exact ⟨u, wait', (Function.update_of_ne hut ..).trans hu, hub⟩

theorem mirror_back {t : ℕ} {wait : Wait} (hm : Mirror s) (ht : s.waiting t = some wait) :
    Mirror {s.append t [some wait.back] with
      status := Function.update (Function.update s.status wait.back .recoverable) t .running
      waiting := Function.update s.waiting t none} := by
  have hw := hm.waiting t wait ht
  have hne : wait.back ≠ t := fun he => by
    have h5 := hw.backStatus
    rw [he, hw.status] at h5
    cases h5
  refine mirror_append (s := {s with
    status := Function.update (Function.update s.status wait.back .recoverable) t .running
    waiting := Function.update s.waiting t none}) (mirror_resume hm ht) hw.task
    (Function.update_self ..) ?_
  intro n hn
  obtain rfl : n = wait.back := by simpa using hn
  refine ⟨hw.lt, ?_⟩
  simp [State.unfinished, hne, RunningStatus.ended, RunningStatus.value]

theorem mirror_new (hm : Mirror s) : Mirror (s.newNode true []) := by
  obtain ⟨hflag, habsent, hst, hup, hfresh, hrequired, hiniting, hrunning, hwaiting, howner, hback⟩ := hm
  have hstatus : ∀ m, (s.newNode true []).status m = if m = s.nodes then .initing else s.status m :=
    fun m => Function.update_apply ..
  have hgraph : ∀ m, (s.newNode true []).parentGraph m = if m = s.nodes then none else s.parentGraph m :=
    fun m => Function.update_apply ..
  have hrequired' : ∀ m, (s.newNode true []).required m = if m = s.nodes then [] else s.required m :=
    fun m => Function.update_apply ..
  have htask' : ∀ m, (s.newNode true []).task m = if m = s.nodes then true else s.task m :=
    fun m => Function.update_apply ..
  have hlists : ∀ n m, (s.newNode true []).lists n m ↔ n ≠ s.nodes ∧ s.lists n m := fun n m => by
    rw [State.lists_newNode]
    grind
  have hnodes : (s.newNode true []).nodes = s.nodes + 1 := rfl
  have hwait : (s.newNode true []).waiting = s.waiting := rfl
  have htask : ∀ m, (s.newNode true []).isTask m = true ↔ s.isTask m = true ∨ m = s.nodes := fun m => by
    grind [State.isTask_iff]
  have hun : ∀ m, (s.newNode true []).unfinished m = if m = s.nodes then true else s.unfinished m :=
    fun m => by
    by_cases h : m = s.nodes
    · simp [State.unfinished, hstatus, h, RunningStatus.ended, RunningStatus.value]
    · simp [State.unfinished, hstatus, h]
  have hlt : ∀ m, s.isTask m = true → m < s.nodes := fun m h => ((s.isTask_iff m).mp h).1
  refine ⟨?_, ?_, ?_, ?_, ?_, ?_, ?_, ?_, ?_, howner, ?_⟩
  · grind
  · grind
  · grind
  · grind
  · grind
  · grind
  · grind
  · grind
  · intro t wait ht
    have hw := hwaiting t wait ht
    have hb : wait.back ≠ s.nodes := Nat.ne_of_lt hw.lt
    obtain ⟨hnodes', hofGraph⟩ := hw.lists_back (s.newNode true []) rfl
      (fun m => by simp [hlists, hb]) fun m h => (htask m).mpr (.inl h)
    obtain ⟨k1, k2, k3, k4, k5, k6, k7, -, -⟩ := hw
    have hne := hlt t k1
    refine ⟨?_, ?_, ?_, ?_, ?_, ?_, ?_, hnodes', hofGraph⟩ <;> grind
  · intro b hb htaskb hflagb hub
    rw [htask'] at htaskb
    have hne : b ≠ s.nodes := fun he => by simp [he] at htaskb
    rw [if_neg hne] at htaskb
    rw [hun, if_neg hne] at hub
    have hb : b < s.nodes + 1 := hb
    exact hback b (by omega) htaskb hflagb hub

theorem mirror_createEdges {g n : ℕ} {required : List (Option ℕ)} (hm : Mirror s) (htask : s.isTask n)
    (hnull : s.parentGraph n = none) (hreq : ∀ m, some m ∈ required → s.isTask m)
    (hself : some n ∉ required) :
    Mirror {s.append n (State.recorded required) with
      parentGraph := Function.update s.parentGraph n (some g)
      required := Function.update s.required n required} := by
  obtain ⟨hflag, habsent, hst, hup, hfresh, hrequired, hiniting, hrunning, hwaiting, howner, hback⟩ := hm
  obtain ⟨hstatus, hnone⟩ := hfresh n htask hnull
  have hnot : ∀ m, some m ∈ required → m ≠ flagNode := fun m hm he => by
    have h := ((s.isTask_iff m).mp (hreq m hm)).2
    rw [he, hflag.2] at h
    cases h
  have hlists : ∀ a m, State.lists {s.append n (State.recorded required) with
      parentGraph := Function.update s.parentGraph n (some g)
      required := Function.update s.required n required} a m ↔
        s.lists a m ∨ a = n ∧ some m ∈ required := fun a m => by
    refine (s.lists_append n a m (State.recorded required)).trans (or_congr_right (and_congr_right fun _ => ?_))
    rw [State.mem_recorded, and_iff_left_iff_imp]
    exact hnot m
  have hlt := (s.isTask_iff n).mp htask
  have hun : ∀ m, State.unfinished {s.append n (State.recorded required) with
      parentGraph := Function.update s.parentGraph n (some g)
      required := Function.update s.required n required} m = s.unfinished m := fun _ => rfl
  have htask' : ∀ m, State.isTask {s.append n (State.recorded required) with
      parentGraph := Function.update s.parentGraph n (some g)
      required := Function.update s.required n required} m = s.isTask m := fun _ => rfl
  have hnodes : ∀ m, s.isTask m = true → m < s.nodes := fun m h => ((s.isTask_iff m).mp h).1
  refine ⟨hflag, ?_, hst, ?_, ?_, ?_, ?_, ?_, ?_, howner, hback⟩
  · intro a ha
    obtain ⟨h1, h2, h3⟩ := habsent a ha
    have ha : s.nodes ≤ a := ha
    refine ⟨h1, fun m hm => ?_, h3⟩
    rcases (hlists a m).mp hm with hm | ⟨rfl, -⟩
    · exact h2 m hm
    · omega
  · intro a m hm
    rcases (hlists a m).mp hm with hm | ⟨-, hm⟩
    · exact hup a m hm
    · exact hnodes m (hreq m hm)
  · intro a ha hga
    have hga : Function.update s.parentGraph n (some g) a = none := hga
    have hne : a ≠ n := fun he => by
      rw [he, Function.update_self] at hga
      cases hga
    rw [Function.update_of_ne hne] at hga
    exact ⟨(hfresh a ha hga).1, (Function.update_of_ne hne ..).trans (hfresh a ha hga).2⟩
  · intro a m ha hm
    have hm : some m ∈ Function.update s.required n required a := hm
    by_cases hne : a = n
    · rw [hne, Function.update_self] at hm
      exact ⟨hreq m hm, fun he => hself (by rw [← hne, ← he]; exact hm)⟩
    · rw [Function.update_of_ne hne] at hm
      exact hrequired a m ha hm
  · intro a ha hs m
    rw [hlists, hiniting a ha hs]
    show some m ∈ s.required a ∨ _ ↔ some m ∈ Function.update s.required n required a
    by_cases hne : a = n
    · rw [hne, Function.update_self, hnone]
      simp
    · rw [Function.update_of_ne hne]
      simp [hne]
  · intro a ha hs m hm
    rcases (hlists a m).mp hm with hm | ⟨rfl, -⟩
    · exact hrunning a ha hs m hm
    · have hs : s.status a = .running := hs
      rw [hstatus] at hs
      cases hs
  · intro t wait ht
    have hw := hwaiting t wait ht
    have hne : t ≠ n := fun he => by
      have hs := hw.status
      rw [he, hstatus] at hs
      cases hs
    have hb : wait.back ≠ n := fun he => by
      have hb := hw.notTask
      rw [he, hlt.2] at hb
      cases hb
    obtain ⟨hnodes', hofGraph⟩ := hw.lists_back {s.append n (State.recorded required) with
      parentGraph := Function.update s.parentGraph n (some g)
      required := Function.update s.required n required} rfl (fun m => by simp [hlists, hb]) fun _ h => h
    refine ⟨hw.task, hw.status, hw.lt, hw.notTask, hw.backStatus, ?_, ?_, hnodes', hofGraph⟩
    · exact (hlists t _).mpr (.inl hw.mem)
    · intro m hm
      rcases (hlists t m).mp hm with hm | ⟨he, -⟩
      · exact hw.only m hm
      · exact absurd he hne

theorem mirror_suspend {t : ℕ} {wait : Wait} {upStreams : List (Option ℕ)} (hm : Mirror s)
    (htask : s.isTask t) (hstatus : s.status t = .running) (hb : wait.back = s.nodes)
    (hups : ∀ m, some m ∈ upStreams ∧ m ≠ flagNode → s.isTask m)
    (hnodes : ∀ b l, wait = .nodes b l → ∀ m, (some m ∈ upStreams ∧ m ≠ flagNode ↔ some m ∈ l))
    (hgraph : ∀ b g, wait = .graph b g → ∀ m, ¬ (some m ∈ upStreams ∧ m ≠ flagNode)) :
    Mirror (s.suspend t wait upStreams) := by
  obtain ⟨hflag, habsent, hst, hup, hfresh, hrequired, hiniting, hrunning, hwaiting, howner, hback⟩ := hm
  have hlt := ((s.isTask_iff t).mp htask).1
  have hne : t ≠ s.nodes := Nat.ne_of_lt hlt
  have hstatus' := fun n => s.suspend_status t n wait upStreams
  have hlists := fun n m => s.suspend_lists t n m wait upStreams hne
  have hwait' := fun n => s.suspend_waiting t n wait upStreams
  have hgraph' := fun n => s.suspend_parentGraph t n wait upStreams
  have hrequired' := fun n => s.suspend_required t n wait upStreams
  have htaskn := fun n => s.suspend_task t n wait upStreams
  have hnodes' : (s.suspend t wait upStreams).nodes = s.nodes + 1 := rfl
  have htask' : ∀ m, (s.suspend t wait upStreams).isTask m = true ↔ s.isTask m = true := fun m => by
    grind [State.isTask_iff]
  have hun : ∀ m, (s.suspend t wait upStreams).unfinished m =
      if m = s.nodes then true else s.unfinished m := fun m => by
    by_cases ht : m = t
    · simp [State.unfinished, hstatus', ht, hne, hstatus, RunningStatus.ended, RunningStatus.value]
    · by_cases h : m = s.nodes
      · simp [State.unfinished, hstatus', h, Ne.symm hne, RunningStatus.ended, RunningStatus.value]
      · simp [State.unfinished, hstatus', h, ht]
  have hlt' : ∀ m, s.isTask m = true → m < s.nodes := fun m h => ((s.isTask_iff m).mp h).1
  have hnf : s.nodes ≠ flagNode := (Nat.ne_of_lt hflag.1).symm
  have hold : ∀ u w, s.waiting u = some w → u ≠ t ∧ u ≠ s.nodes ∧ w.back < s.nodes ∧ w.back ≠ t := fun u w hu => by
    have hw := hwaiting u w hu
    refine ⟨fun he => ?_, Nat.ne_of_lt (hlt' u hw.task), hw.lt, fun he => ?_⟩
    · have hs := hw.status
      rw [he, hstatus] at hs
      cases hs
    · have hs := hw.backStatus
      rw [he, hstatus] at hs
      cases hs
  refine ⟨?_, ?_, ?_, ?_, ?_, ?_, ?_, ?_, ?_, ?_, ?_⟩
  · grind
  · grind
  · grind
  · grind
  · grind
  · grind
  · grind
  · grind
  · intro u w hu
    rw [hwait'] at hu
    split at hu
    · next hut =>
      cases hu
      subst hut
      refine ⟨(htask' u).mpr htask, ?_, ?_, ?_, ?_, ?_, ?_, ?_, ?_⟩
      · grind
      · grind
      · grind
      · grind
      · grind
      · grind
      · intro b l hw m
        have hbn : b = s.nodes := by rw [← hb, hw]; rfl
        rw [hlists, if_pos hbn, hnodes b l hw m]
        exact ⟨Iff.rfl, fun hm => (htask' m).mpr (hups m ((hnodes b l hw m).mpr hm))⟩
      · intro b g hw m
        have hbn : b = s.nodes := by rw [← hb, hw]; rfl
        rw [hlists, if_pos hbn]
        exact hgraph b g hw m
    · next hut =>
      have hw := hwaiting u w hu
      obtain ⟨-, hun', hbl, hbt⟩ := hold u w hu
      have hb' : w.back ≠ s.nodes := Nat.ne_of_lt hbl
      obtain ⟨hnodes', hofGraph⟩ := hw.lists_back (s.suspend t wait upStreams) rfl
        (fun m => by simp [hlists, hb', hbt]) fun m h => (htask' m).mpr h
      obtain ⟨k1, k2, k3, k4, k5, k6, k7, -, -⟩ := hw
      refine ⟨(htask' u).mpr k1, ?_, ?_, ?_, ?_, ?_, ?_, hnodes', hofGraph⟩ <;> grind
  · grind
  · intro b hbn hgb hflagb hub
    rw [hun] at hub
    rw [htaskn] at hgb
    by_cases hbn' : b = s.nodes
    · exact ⟨t, wait, by rw [hwait', if_pos rfl], by rw [hb, hbn']⟩
    · rw [if_neg hbn'] at hub hgb
      have hbn : b < s.nodes + 1 := hbn
      obtain ⟨u, w, hu, hwb⟩ := hback b (by omega) hgb hflagb hub
      exact ⟨u, w, by rw [hwait', if_neg (hold u w hu).1]; exact hu, hwb⟩

theorem mirror_step (h : Effect s a s') (hm : Mirror s)
    (hself : ∀ g n required, a = .createEdges g n required → s.isTask n → s.parentGraph n = none →
      some n ∉ required) : Mirror s' := by
  cases h with
  | new => exact mirror_new hm
  | createEdges htask hgraph hreq => exact mirror_createEdges hm htask hgraph hreq (hself _ _ _ rfl htask hgraph)
  | start htask hstatus hgraph hreq => exact mirror_start hm htask hstatus hgraph hreq
  | finish htask hstatus => exact mirror_finish hm htask hstatus
  | same => exact hm
  | append htask hstatus hnodes =>
    exact mirror_append hm htask hstatus fun n hn =>
      ⟨((s.isTask_iff n).mp (hnodes n hn).1).1, (hnodes n hn).2⟩
  | @requireNode t nodes htask hstatus hnodes hcheck =>
    have hrec : ∀ m, some m ∈ State.recorded nodes ∧ m ≠ flagNode ↔ some m ∈ nodes := fun m => by
      rw [State.mem_recorded, and_iff_left_iff_imp]
      intro hm' he
      have htask := ((s.isTask_iff m).mp (hnodes m hm')).2
      rw [he, hm.flag.2] at htask
      cases htask
    refine mirror_suspend hm htask hstatus rfl (fun m hm' => hnodes m ((hrec m).mp hm')) ?_ ?_
    · intro b l hw m
      cases hw
      exact hrec m
    · intro b g hw
      cases hw
  | waitGraph htask hstatus hgraph =>
    refine mirror_suspend hm htask hstatus rfl (fun m hm => absurd hm.1 List.not_mem_nil) ?_
      (fun _ _ _ m hm => absurd hm.1 List.not_mem_nil)
    intro b l hw
    cases hw
  | back hwait => exact mirror_back hm hwait

end Step

/-! ### The check sees the waits -/

section Paths
variable {s : State}

theorem unfinished_of_status {n : ℕ} (h : s.status n = .initing ∨ s.status n = .running ∨ s.status n = .yield) :
    s.unfinished n = true := by
  rcases h with h | h | h <;> simp [State.unfinished, h, RunningStatus.ended, RunningStatus.value]

/-- A wait that is not in `wait_graph` is a path of unfinished upstreams. -/
theorem upstream_of_mirrored (hm : Mirror s) {a b : ℕ} (h : Mirrored s a b) : TransGen (Upstream s) a b := by
  obtain ⟨hw, hgraph⟩ := h
  cases hw with
  | required htask hstatus hmem hun =>
    exact .single ((s.upstream_iff a b).mpr ⟨(hm.initing a htask hstatus b).mpr hmem, hun⟩)
  | @node back nodes hwait hmem hun =>
    have hw := hm.waiting a _ hwait
    have hback : Upstream s a back :=
      (s.upstream_iff a back).mpr ⟨hw.mem, unfinished_of_status (.inl hw.backStatus)⟩
    have hnext : Upstream s back b :=
      (s.upstream_iff back b).mpr ⟨((hw.nodes back nodes rfl b).1).mpr hmem, hun⟩
    exact .head hback (.single hnext)
  | @graph back g hwait hmem => exact absurd hwait (hgraph back g)

/-- An unfinished upstream of a node is what it waits for, or its own `BackNode`. -/
theorem waits_of_upstream (hm : Mirror s) {a b : ℕ} (htask : s.isTask a) (hun : s.unfinished a)
    (h : Upstream s a b) :
    WaitsFor s a b ∧ s.isTask b = true ∨ ∃ wait, s.waiting a = some wait ∧ wait.back = b := by
  obtain ⟨hmem, hunb⟩ := (s.upstream_iff a b).mp h
  rcases hm.status a htask with hstatus | hstatus | hstatus | hwait
  · have hreq := (hm.initing a htask hstatus b).mp hmem
    exact .inl ⟨.required htask hstatus hreq hunb, (hm.required a b htask hreq).1⟩
  · rw [hm.running a htask hstatus b hmem] at hunb
    cases hunb
  · rw [State.unfinished, hstatus] at hun
    cases hun
  · obtain ⟨wait, hwait⟩ := Option.ne_none_iff_exists'.mp hwait
    rcases (hm.waiting a wait hwait).only b hmem with hb | hfin
    · exact .inr ⟨wait, hwait, hb.symm⟩
    · rw [hfin] at hunb
      cases hunb

theorem isTask_or_back (hm : Mirror s) {a b : ℕ} (h : Upstream s a b) :
    s.isTask b = true ∨ ∃ t wait, s.waiting t = some wait ∧ wait.back = b := by
  obtain ⟨hlists, hun⟩ := (s.upstream_iff a b).mp h
  have hlt := hm.up a b hlists
  by_cases htask : s.task b = true
  · exact .inl ((s.isTask_iff b).mpr ⟨hlt, htask⟩)
  · exact .inr (hm.back b hlt (Bool.eq_false_iff.mpr htask) hlists.2 hun)

/-- The upstreams of a `BackNode` are what its task waits for. -/
theorem waits_of_back (hm : Mirror s) {t b : ℕ} {wait : Wait} (hwait : s.waiting t = some wait)
    (h : Upstream s wait.back b) : WaitsFor s t b ∧ s.isTask b = true := by
  have hw := hm.waiting t wait hwait
  obtain ⟨hlists, hun⟩ := (s.upstream_iff _ b).mp h
  cases wait with
  | nodes back nodes =>
    obtain ⟨hiff, htask⟩ := hw.nodes back nodes rfl b
    have hmem := hiff.mp hlists
    exact ⟨.node hwait hmem hun, htask hmem⟩
  | graph back g => exact absurd hlists (hw.ofGraph back g rfl b)

theorem waits_of_path (hm : Mirror s) {x y : ℕ} (h : TransGen (Upstream s) x y) (hy : s.isTask y) :
    (s.isTask x = true → s.unfinished x = true → TransGen (WaitsFor s) x y) ∧
      ∀ t wait, s.waiting t = some wait → wait.back = x → TransGen (WaitsFor s) t y := by
  induction h using TransGen.head_induction_on with
  | @single x hxy =>
    refine ⟨fun hx hun => ?_, fun t wait hwait hback => ?_⟩
    · rcases waits_of_upstream hm hx hun hxy with ⟨hw, -⟩ | ⟨wait, hwait, hback⟩
      · exact .single hw
      · -- a task is no `BackNode`
        have htask := (hm.waiting x wait hwait).notTask
        rw [hback, ((s.isTask_iff y).mp hy).2] at htask
        cases htask
    · subst hback
      exact .single (waits_of_back hm hwait hxy).1
  | @head x z hxz hzy ih =>
    have hunz := ((s.upstream_iff x z).mp hxz).2
    refine ⟨fun hx hun => ?_, fun t wait hwait hback => ?_⟩
    · rcases waits_of_upstream hm hx hun hxz with ⟨hw, hz⟩ | ⟨wait, hwait, hback⟩
      · exact .head hw (ih.1 hz hunz)
      · exact ih.2 x wait hwait hback
    · subst hback
      obtain ⟨hw, hz⟩ := waits_of_back hm hwait hxz
      exact .head hw (ih.1 hz hunz)

/-- Without a circular wait the upstreams have no cycle. -/
theorem acyclic_upstream (hm : Mirror s) (h : Acyclic (WaitsFor s)) : Acyclic (Upstream s) := by
  have htasks : ∀ x, s.isTask x = true → ¬ TransGen (Upstream s) x x := fun x hx hcycle => by
    obtain ⟨z, -, hlast⟩ := TransGen.tail'_iff.mp hcycle
    exact h x ((waits_of_path hm hcycle hx).1 hx ((s.upstream_iff z x).mp hlast).2)
  intro x hcycle
  obtain ⟨z, hpath, hlast⟩ := TransGen.tail'_iff.mp hcycle
  rcases isTask_or_back hm hlast with hx | ⟨t, wait, hwait, hback⟩
  · exact htasks x hx hcycle
  · -- a `BackNode` leads to a task of the cycle
    obtain ⟨b, hxb, hbx⟩ := TransGen.head'_iff.mp hcycle
    subst hback
    exact htasks b (waits_of_back hm hwait hxb).2 (TransGen.tail' hbx hxb)

end Paths
end QuietFlow.Aspect
