import QuietFlow.Graph.Dispatch
import QuietFlow.Graph.Edges
import QuietFlow.Graph.Limits

/-! No assertion of a worker fails, and without limited graphs no run gets stuck.

A worker asserts the status of its node before each status it stores, and `add_new_task`
that of a node before it is queued; `get_node` dereferences an entry of `fast_nodes`.
`in_status` ties the status of every node to the one worker that has it, so all of these
pass in every state, and what a frame can wait for is a self queue (`exec_eq_none_iff`).
Only frames of limited graphs use one, so without limited graphs every frame that any
thread has can be executed (`progress`). -/
namespace QuietFlow.Engine
open Runs Program

variable {N G : Type}

/-- The status a worker has given its node. -/
def Work.status : Work N → RunningStatus
  | .taken => .initing
  | .resume => .ready
  | .running => .running
  | _ => .finish

/-- The node of a worker that has given it a status. -/
def Frame.inStatus (k : RunningStatus) : Frame N G → List N
  | .work u w => bif w.status == k then [u] else []
  | _ => []

/-- Nodes have the statuses that workers store. -/
def Plain (x : Shared N G) : Prop :=
  ∀ n, x.status n = .initing ∨ x.status n = .ready ∨ x.status n = .running ∨
    (x.status n).ended = true

namespace Layout
variable [DecidableEq N] [DecidableEq G] {L : Layout N G} {x x' : Shared N G}
  {old new : List (Frame N G)}

omit [DecidableEq N] [DecidableEq G] in
theorem Ends.status {u : N} {last : Work N} (h : L.Ends u last) : last.status = .finish := by
  cases h <;> rfl

/-- A status between the first and the last is stored when a worker comes to it, and replaced when
that worker goes on. -/
theorem inStatus_step (h : L.Effect x old x' new) {k : RunningStatus} (hfirst : k ≠ .initing)
    (hlast : k ≠ .recoverable) (n : N) :
    -(bif x'.status n == k then 1 else 0 : ℤ) + weight (tally (Frame.inStatus k) n) new =
      -(bif x.status n == k then 1 else 0) + weight (tally (Frame.inStatus k) n) old := by
  have hstore : ∀ {u : N} {st : RunningStatus} (next : RunningStatus), x.status u = st →
      -(bif Function.update x.status u next n == k then 1 else 0 : ℤ) +
          (bif next == k then [u] else []).count n =
        -(bif x.status n == k then 1 else 0) + (bif st == k then [u] else []).count n := by
    intro u st next hst
    by_cases hn : n = u
    · subst hn
      rw [Function.update_self, hst]
      cases next == k <;> cases st == k <;> simp
    · have hno : ∀ b : Bool, (bif b then [u] else []).count n = 0 := fun b => by
        cases b <;> simp [Ne.symm hn]
      rw [Function.update_of_ne hn, hno, hno]
  have hleave : ∀ {u : N} {others : List N} {last : Work N}, L.Ends u last →
      (readyAll u others ++ [.work u last] : List (Frame N G)).flatMap (Frame.inStatus k) =
        bif RunningStatus.finish == k then [u] else [] := fun hends => by
    cases hends <;> simp [Frame.inStatus, Work.status, List.flatMap_map]
  have hzero : (RunningStatus.initing == k) = false := beq_eq_false_iff_ne.mpr hfirst.symm
  rw [weight_tally, weight_tally]
  cases h
  case taken u hst | resume u hst | running u hst =>
    rw [flatMap_one, flatMap_one]
    exact hstore _ hst
  case left u next hst =>
    have hnext : (next.toList.map fun n => (Frame.work n .taken : Frame N G)).flatMap
        (Frame.inStatus k) = [] := by
      cases next <;> simp [Frame.inStatus, Work.status, hzero]
    have hlast' := hstore .recoverable hst
    rw [beq_eq_false_iff_ne.mpr hlast.symm] at hlast'
    rw [hnext, flatMap_one]
    exact hlast'
  case countDown u notified others last hone hleaves =>
    rw [hleave hleaves.ends, flatMap_one]
    rfl
  case graphNotifyDone u notified others last hleaves =>
    rw [hleave hleaves.ends, flatMap_one]
    rfl
  all_goals simp [Frame.inStatus, Work.status, hzero, List.flatMap_map]

theorem plain_step (h : L.Effect x old x' new) (hp : Plain x) : Plain x' := by
  have hstore : ∀ (u : N) (st : RunningStatus),
      st = .initing ∨ st = .ready ∨ st = .running ∨ st.ended = true →
      Plain {x with status := Function.update x.status u st} := fun u st hst n => by
    by_cases hn : n = u
    · subst hn
      simpa using hst
    · simpa [Function.update_of_ne hn] using hp n
  cases h
  case taken u _ => exact hstore u .ready (.inr (.inl rfl))
  case resume u _ => exact hstore u .running (.inr (.inr (.inl rfl)))
  case running u _ => exact hstore u .finish (.inr (.inr (.inr rfl)))
  case left u next _ => exact hstore u .recoverable (.inr (.inr (.inr rfl)))
  all_goals exact hp

/-- What works on a self queue is of a limited graph. -/
def OfLimited (L : Layout N G) : Frame N G → Prop
  | .enqueue n | .work _ (.tryEnqueue n) | .work n (.tryDequeue _) | .work n (.pop _) =>
    L.limited (L.graphOf n) = true
  | _ => True

theorem ofLimited_step (h : L.Effect x old x' new) (hold : ∀ f ∈ old, L.OfLimited f) :
    ∀ f ∈ new, L.OfLimited f := by
  have hready : ∀ (c : Caller N) (ns : List N), ∀ f ∈ ns.map (Frame.ready (G := G) c), L.OfLimited f :=
    fun c ns f hf => by
      obtain ⟨n, -, rfl⟩ := List.mem_map.mp hf
      trivial
  have hfinish : ∀ {u : N} {others : List N} {last : Work N}, L.Ends u last →
      ∀ f ∈ readyAll u others ++ [.work u last], L.OfLimited f := by
    intro u others last hends f hf
    rcases List.mem_append.mp hf with hf | hf
    · exact hready _ _ f hf
    · rw [List.mem_singleton.mp hf]
      cases hends with
      | tryEnqueue _ hlim | tryDequeue hlim => exact hlim
      | _ => trivial
  cases h
  case readyFull c n hlim _ => simpa [OfLimited] using hlim
  case tryEnqueueFull u n _ =>
    have hlim : L.limited (L.graphOf n) = true := hold _ List.mem_cons_self
    simp [OfLimited, hlim]
  case tryDequeue u temp _ =>
    have hlim : L.limited (L.graphOf u) = true := hold _ List.mem_cons_self
    simp [OfLimited, hlim]
  case countDown u notified others last _ hleaves => exact hfinish hleaves.ends
  case graphNotifyDone u notified others last hleaves => exact hfinish hleaves.ends
  case left u next _ => cases next <;> simp [OfLimited]
  case pop u temp n queue _ => cases temp <;> simp [OfLimited]
  case sub d r rest => simp [or_imp, forall_and, OfLimited]
  case dup d u rest => simp [or_imp, forall_and, OfLimited]
  all_goals simp [OfLimited]

/-- What keeps a frame from being executed: a full self queue, or one that is empty. -/
def Blocked (L : Layout N G) (x : Shared N G) : Frame N G → Prop
  | .enqueue n => ∃ l, L.limit (L.graphOf n) = some l ∧
      alignSize l.queueSize ≤ (x.limitQueue (L.graphOf n)).length
  | .work u (.pop _) => x.limitQueue (L.graphOf u) = []
  | _ => False

section Reached
variable {T : Type} [DecidableEq T] [Fintype T] {s s' : Config (Shared N G) (Frame N G) T}
  {ok : Config (Shared N G) (Frame N G) T → T × Option (Act N G) → Config (Shared N G) (Frame N G) T → Prop}
  {t : T} {a : Option (Act N G)} {n u : N}

omit [Fintype T] in
theorem plain (h : (L.system T).ReachedBy ok s) : Plain s.shared :=
  (invariant (I := Plain) (J := fun _ _ => True) (fun _ => .inl rfl)
    (fun _ _ _ _ _ _ htook hp _ =>
      ⟨plain_step (effect_of_moves htook.moves) hp, fun _ _ => trivial, fun _ _ _ => trivial⟩) h).1

omit [Fintype T] in
theorem ofLimited (h : (L.system T).ReachedBy ok s) : ∀ f, s.HasFrame f → L.OfLimited f :=
  (invariant (I := fun _ => True) (J := fun _ f => L.OfLimited f) trivial
    (fun _ _ _ _ _ _ htook _ hall => ⟨trivial, ofLimited_step (effect_of_moves htook.moves)
      fun f hf => hall f (htook.hasFrame hf), fun _ _ hf => hf⟩) h).2

/-- **A node has a status between the first and the last as long as one worker keeps it there.** -/
theorem inStatus_add (h : (L.system T).ReachedBy ok s) {k : RunningStatus} (hfirst : k ≠ .initing)
    (hlast : k ≠ .recoverable) (n : N) :
    total (tally (Frame.inStatus k) n) s = bif s.shared.status n == k then 1 else 0 := by
  have hbal := balance (fun x => -(bif x.status n == k then 1 else 0 : ℤ))
    (fun _ => tally (Frame.inStatus k) n)
    (fun s t a old s' new htook =>
      ⟨inStatus_step (effect_of_moves htook.moves) hfirst hlast n, fun _ _ => rfl⟩) h
  have hstart : (L.program.start.status n == k) = false := beq_eq_false_iff_ne.mpr hfirst.symm
  rw [hstart] at hbal
  simp only [cond_false, neg_zero] at hbal
  omega

theorem status_of_work (h : (L.system T).ReachedBy ok s) {w : Work N}
    (hf : s.HasFrame (.work u w)) (hw : w ≠ .taken) : s.shared.status u = w.status := by
  have hk : w.status ≠ .initing ∧ w.status ≠ .recoverable := by
    cases w <;> simp [Work.status] at hw ⊢
  have hadd := inStatus_add h hk.1 hk.2 u
  have hone : 1 ≤ total (tally (Frame.inStatus w.status) u) s :=
    one_le_total hf (by simp [Frame.inStatus])
  cases hst : s.shared.status u == w.status with
  | true => exact beq_iff_eq.mp hst
  | false =>
    rw [hst, cond_false] at hadd
    omega

omit [DecidableEq G] in
/-- A worker before `finish` awaits it. -/
theorem begun_le_awaits (n : N) (f : Frame N G) :
    tally (Frame.inStatus .initing) n f +
      (tally (Frame.inStatus .ready) n f + tally (Frame.inStatus .running) n f) ≤
        tally (Frame.awaits .finish) n f := by
  cases f with
  | work u w =>
    cases w <;> simp [tally, Frame.inStatus, Work.status, Frame.awaits, Work.next, Stage.upTo,
      Stage.creates, Stage.rank, Bool.beq_eq_decide_eq]
  | _ => simp [tally, Frame.inStatus]

/-- A node that is not begun has its first status. -/
theorem initing_of_waiting (h : (L.system T).ReachedBy ok s)
    (hwait : s.shared.entered .finish n ≤ total (tally (Frame.inStatus .initing) n) s) :
    s.shared.status n = .initing := by
  have hadd := passed_add h .finish n
  have hready := inStatus_add h (k := .ready) (by simp) (by simp) n
  have hrunning := inStatus_add h (k := .running) (by simp) (by simp) n
  have hle := total_mono (s := s) fun f _ => begun_le_awaits n f
  rw [total_add, total_add] at hle
  have hpassed : (0 : ℤ) ≤ (s.shared.passed .finish).count n := Int.natCast_nonneg _
  rcases plain h n with hst | hst | hst | hst
  · exact hst
  · rw [hst] at hready
    have : total (tally (Frame.inStatus .ready) n) s = 1 := hready
    have := total_nonneg (tally_nonneg (Frame.inStatus .running) n) s
    omega
  · rw [hst] at hrunning
    have : total (tally (Frame.inStatus .running) n) s = 1 := hrunning
    have := total_nonneg (tally_nonneg (Frame.inStatus .ready) n) s
    omega
  · have := List.count_pos_iff.mpr (((finished h).status n).mp hst)
    have := total_nonneg (tally_nonneg (Frame.inStatus .ready) n) s
    have := total_nonneg (tally_nonneg (Frame.inStatus .running) n) s
    omega

theorem initing_of_taken (h : (L.system T).ReachedBy ok s) (hf : s.HasFrame (.work n .taken)) :
    s.shared.status n = .initing := by
  refine initing_of_waiting h ?_
  have hone : 1 ≤ total (tally (Frame.inStatus .initing) n) s :=
    one_le_total hf (by simp [Frame.inStatus, Work.status])
  have hdisp := (dispatched_le_handed h n).trans (handed_le_one h n)
  simp only [Shared.entered, Stage.creates, Stage.rank]
  simp
  omega

theorem initing_of_dispatch (h : (L.system T).ReachedBy ok s) (hf : s.HasFrame (.dispatch n)) :
    s.shared.status n = .initing := by
  refine initing_of_waiting h ?_
  have hadd := dispatched_add h n
  have hone : 1 ≤ total (tally Frame.placing n) s := one_le_total hf (by simp [Frame.placing])
  have hhanded := handed_le_one h n
  have hqueued : 0 ≤ L.queued s.shared n := Int.natCast_nonneg _
  have hpos := total_nonneg (tally_nonneg (Frame.inStatus .initing) n) s
  simp only [Shared.entered, Stage.creates, Stage.rank]
  simp
  omega

/-- `get_node` finds the node of every bit that `finish` has saved. -/
theorem found_of_bits (h : (L.system T).ReachedBy ok s) {idx : ℕ} {idxs : List ℕ} {notified : List N}
    (hf : s.HasFrame (.work u (.bits (idx :: idxs) notified))) :
    ∃ d, s.shared.fastNodes (L.graphOf u) idx = some d := by
  obtain ⟨hk, hknown⟩ := kept h
  obtain ⟨d, hd, rfl⟩ := (hknown _ hf : ∀ i ∈ idx :: idxs, _) idx List.mem_cons_self
  obtain ⟨hreq, -, hg, hlt⟩ := hk.marked u d hd
  exact ⟨d, by rw [← hg]; exact (hk.stored d hreq.1).2 hlt⟩

/-- **A frame that cannot be executed pushes to a full self queue or pops from an empty one: the
assertions on statuses pass, and no null entry is dereferenced.** -/
theorem exec_eq_none_iff (h : (L.system T).ReachedBy ok s) {f : Frame N G} (hf : s.HasFrame f) :
    L.exec s.shared f = none ↔ L.Blocked s.shared f := by
  cases f with
  | build d b => simp [exec, Blocked]
  | ready c n => simp [exec, Blocked]
  | enqueue n =>
    have hlim : L.limited (L.graphOf n) = true := ofLimited h _ hf
    obtain ⟨l, hl⟩ := Option.isSome_iff_exists.mp hlim
    simp [exec, enqueue, Blocked, hl]
  | dispatch n => simp [exec, Shared.addNewTask, Blocked, initing_of_dispatch h hf]
  | work u w =>
    cases w with
    | taken => simp [exec, runTask, Blocked, initing_of_taken h hf]
    | resume | running | left next =>
      have hst := status_of_work h hf (by simp)
      simp [exec, runTask, Blocked, hst, Work.status]
    | bits idxs notified =>
      cases idxs with
      | nil => simp [exec, runTask, Blocked]
      | cons idx idxs =>
        obtain ⟨d, hd⟩ := found_of_bits h hf
        simp [exec, runTask, Blocked, hd]
    | pop temp => cases hq : s.shared.limitQueue (L.graphOf u) <;> simp [exec, runTask, Blocked, hq]
    | notify list notified => cases list <;> simp [exec, runTask, Blocked]
    | graphNotify list notified => cases list <;> simp [exec, runTask, Blocked]
    | tryEnqueue n =>
      simp only [exec, runTask, Blocked]
      split <;> simp
    | _ => simp [exec, runTask, Blocked]

omit [Fintype T] in
theorem step_of_exec {f : Frame N G} (htop : (s.stack t).head? = some f)
    (hexec : L.exec s.shared f ≠ none) : ∃ s', (L.system T).step s (t, none) = some s' := by
  obtain ⟨rest, hstack⟩ := List.head?_eq_some_iff.mp htop
  obtain ⟨⟨x', new⟩, hx⟩ := Option.ne_none_iff_exists'.mp hexec
  refine ⟨⟨x', Function.update s.stack t (new ++ rest)⟩, ?_⟩
  simp only [system, Program.system, Program.step, hstack]
  exact congrArg (Option.map _) hx

omit [Fintype T] in
/-- Without limited graphs nothing waits for a self queue. -/
theorem not_blocked (hlim : ∀ g, L.limit g = none) (h : (L.system T).ReachedBy ok s) {f : Frame N G}
    (hf : s.HasFrame f) : ¬L.Blocked s.shared f := by
  have hused := ofLimited h f hf
  have hno : ∀ n, L.limited (L.graphOf n) ≠ true := fun n hn => by
    rw [limited, hlim] at hn
    cases hn
  cases f with
  | enqueue n => exact absurd hused (hno n)
  | work u w =>
    cases w with
    | pop temp => exact absurd hused (hno u)
    | _ => exact id
  | _ => exact id

/-- **Without limited graphs no run gets stuck: whatever a thread has left to do can be done, so no
assertion of a worker fails, and every thread with something left to do can go on.** -/
theorem progress (hlim : ∀ g, L.limit g = none) (h : (L.system T).ReachedBy ok s) :
    (∀ f, s.HasFrame f → L.exec s.shared f ≠ none) ∧
      ∀ t, s.stack t ≠ [] → ∃ s', (L.system T).step s (t, none) = some s' := by
  have hexec : ∀ f, s.HasFrame f → L.exec s.shared f ≠ none := fun f hf hnone =>
    not_blocked hlim h hf ((exec_eq_none_iff h hf).mp hnone)
  refine ⟨hexec, fun t ht => ?_⟩
  obtain ⟨f, rest, hstack⟩ := List.exists_cons_of_ne_nil ht
  exact step_of_exec (by rw [hstack]; rfl) (hexec f ⟨t, by rw [hstack]; exact List.mem_cons_self⟩)

end Reached
end Layout

/-- A worker of node 0 has yet to decrement node 1 by its bit, while node 2 is being created. -/
theorem progress_bits : ∃ s, (oneGraph.system (Fin 3)).Reached s ∧
    s.HasFrame (.work 0 (.bits [1] [])) ∧ oneGraph.exec s.shared (.work 0 (.bits [1] [])) ≠ none ∧
      ∃ s', (oneGraph.system (Fin 3)).step s (2, none) = some s' := by
  obtain ⟨s, hs, hbits, hbuild⟩ := System.exists_reachedBy (oneGraph.system (Fin 3))
    (fun _ _ _ => True) (steps 0 (.create 0 (.edges [])) 6 ++ steps 0 (.create 1 (.edges [some 0])) 11 ++
      steps 1 (.take 0) 4 ++ steps 2 (.create 2 (.edges [some 1])) 2)
    (fun s => s.stack 1 = [.work 0 (.bits [1] [])] ∧ s.stack 2 ≠ []) (by decide)
  have hf : s.HasFrame (.work 0 (.bits [1] [])) := ⟨1, by rw [hbits]; exact List.mem_cons_self⟩
  obtain ⟨hexec, hmoves⟩ := Layout.progress (fun _ => rfl) hs
  exact ⟨s, hs, hf, hexec _ hf, hmoves 2 hbuild⟩

end QuietFlow.Engine
