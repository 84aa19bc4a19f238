import QuietFlow.Graph.Dispatch
import QuietFlow.Graph.Waiters

/-! Where `Graph::finish` puts the nodes it is notified of.

A call is followed through its own steps only (`Finishes`): each step may find the shared
state in any condition, so whatever other threads do between two steps is covered. What
a step moves is read off the states before and after it (`Placed`). -/
namespace QuietFlow.Engine
open Runs Program

/-- What the steps of a call move: waiters whose count its walk brings to zero, nodes given to
the task queue, nodes stored in self queues, and nodes taken from the graph's own. -/
structure Moved (N : Type) where
  released : List N
  pooled : List N
  stored : List N
  popped : List N

namespace Moved
variable {N : Type}

def none : Moved N := ⟨[], [], [], []⟩

def append (m m' : Moved N) : Moved N :=
  ⟨m.released ++ m'.released, m.pooled ++ m'.pooled, m.stored ++ m'.stored, m.popped ++ m'.popped⟩

end Moved

variable {N G : Type}

/-- Part of a `Graph::finish`, with the calls of `Graph::ready` it makes. -/
def Frame.ofFinish : Frame N G → Bool
  | .ready _ _ | .enqueue _ | .dispatch _ => true
  | .work _ w => w.inGraphFinish
  | .build _ _ => false

/-- The waiter that a step of the walk releases. -/
def Frame.wakes [DecidableEq N] (x : Shared N G) : Frame N G → List N
  | .work _ (.graphNotify (w :: _) _) => x.woken w
  | _ => []

/-- What a frame holds and has not placed. -/
def Frame.holding : Frame N G → List N
  | .work _ (.left next) => next.toList
  | f => f.pending ++ f.placing

namespace Layout
variable [DecidableEq G] (L : Layout N G)

/-- The nodes a step moves, from the queues before and after it. A node is stored in the self
queue of its own graph. -/
structure Placed (g : G) (x x' : Shared N G) (m : Moved N) : Prop where
  pool : x'.pool = x.pool ++ m.pooled
  queues : ∀ g', (if g' = g then m.popped else []) ++ x'.limitQueue g' =
    x.limitQueue g' ++ m.stored.filter fun n => L.graphOf n = g'
  either : m.stored = [] ∨ m.popped = []

/-- The steps of a call of `Graph::finish` on `g`, each in a shared state of its own. -/
inductive Finishes [DecidableEq N] (g : G) : List (Frame N G) → Moved N → List (Frame N G) → Prop where
  | refl {fs} : Finishes g fs .none fs
  | step {x x' f fs new m m' last} : f.ofFinish = true → L.exec x f = some (x', new) →
    L.Placed g x x' m → m.released = f.wakes x → Finishes g (new ++ fs) m' last →
    Finishes g (f :: fs) (m.append m') last

variable {L} {x x' : Shared N G} {g : G} {m : Moved N} {n : N} {new : List (Frame N G)}

namespace Placed

theorem pooled_eq {ns : List N} (h : L.Placed g x x' m) (hpool : x'.pool = x.pool ++ ns) :
    m.pooled = ns :=
  (List.append_cancel_left (hpool.symm.trans h.pool)).symm

theorem keep (h : L.Placed g x x' m) (hqueue : x'.limitQueue = x.limitQueue) :
    m.stored = [] ∧ m.popped = [] := by
  have hlength : ∀ g', (if g' = g then m.popped else []).length =
      (m.stored.filter fun n => L.graphOf n = g').length := fun g' => by
    have hq := congrArg List.length (h.queues g')
    rw [hqueue, List.length_append, List.length_append] at hq
    omega
  rcases h.either with hstored | hpopped
  · have hg := hlength g
    rw [hstored, if_pos rfl] at hg
    exact ⟨hstored, List.eq_nil_of_length_eq_zero hg⟩
  · refine ⟨List.eq_nil_iff_forall_not_mem.mpr fun n hn => ?_, hpopped⟩
    have hg := hlength (L.graphOf n)
    rw [hpopped, ite_self] at hg
    have hmem : n ∈ m.stored.filter fun k => L.graphOf k = L.graphOf n :=
      List.mem_filter.mpr ⟨hn, decide_eq_true rfl⟩
    rw [List.eq_nil_of_length_eq_zero hg.symm] at hmem
    cases hmem

theorem push (h : L.Placed g x x' m) (hqueue : x'.limitQueue =
    Function.update x.limitQueue (L.graphOf n) (x.limitQueue (L.graphOf n) ++ [n])) :
    m.stored = [n] ∧ m.popped = [] := by
  have hpopped : m.popped = [] := by
    refine h.either.elim (fun hstored => ?_) id
    have hq := congrArg List.length (h.queues (L.graphOf n))
    simp [hqueue, hstored] at hq
    omega
  have hfilter : ∀ g', (m.stored.filter fun k => L.graphOf k = g') =
      if g' = L.graphOf n then [n] else [] := fun g' => by
    have hq := h.queues g'
    rw [hpopped, ite_self, List.nil_append, hqueue] at hq
    by_cases hg : g' = L.graphOf n
    · subst hg
      rw [Function.update_self] at hq
      rw [if_pos rfl]
      exact (List.append_cancel_left hq).symm
    · rw [Function.update_of_ne hg] at hq
      rw [if_neg hg]
      exact List.append_cancel_left ((hq.symm.trans (List.append_nil _).symm))
  refine ⟨?_, hpopped⟩
  have hall : (m.stored.filter fun k => L.graphOf k = L.graphOf n) = m.stored := by
    refine List.filter_eq_self.mpr fun k hk => decide_eq_true ?_
    by_contra hne
    have hmem : k ∈ m.stored.filter fun j => L.graphOf j = L.graphOf k :=
      List.mem_filter.mpr ⟨hk, decide_eq_true rfl⟩
    rw [hfilter, if_neg hne] at hmem
    cases hmem
  rw [← hall, hfilter, if_pos rfl]

theorem pop {queue : List N} (h : L.Placed g x x' m) (hbefore : x.limitQueue g = n :: queue)
    (hqueue : x'.limitQueue = Function.update x.limitQueue g queue) :
    m.stored = [] ∧ m.popped = [n] := by
  have hq := h.queues g
  rw [if_pos rfl, hqueue, Function.update_self, hbefore] at hq
  have hstored : m.stored = [] := by
    refine h.either.elim id fun hpopped => ?_
    have hlength := congrArg List.length hq
    rw [hpopped, List.nil_append, List.length_append, List.length_cons] at hlength
    omega
  refine ⟨hstored, ?_⟩
  rw [hstored, List.filter_nil, List.append_nil] at hq
  exact List.append_cancel_right (hq : m.popped ++ queue = [n] ++ queue)

end Placed

variable [DecidableEq N]

theorem holding_step {f : Frame N G} (hf : f.ofFinish = true) (h : L.Effect x [f] x' new)
    (hgraph : ∀ u w, f = .work u w → L.graphOf u = g) (hp : L.Placed g x x' m)
    (hr : m.released = f.wakes x) (n : N) :
    (new.flatMap Frame.holding).count n + m.pooled.count n + m.stored.count n =
      f.holding.count n + m.released.count n + m.popped.count n := by
  have hpool : x'.pool = x.pool → m.pooled = [] := fun hsame =>
    hp.pooled_eq (hsame.trans (List.append_nil _).symm)
  have hkeep : x'.pool = x.pool → x'.limitQueue = x.limitQueue → f.wakes x = [] →
      (new.flatMap Frame.holding).count n = f.holding.count n →
      (new.flatMap Frame.holding).count n + m.pooled.count n + m.stored.count n =
        f.holding.count n + m.released.count n + m.popped.count n := fun h1 h2 h3 h4 => by
    rw [hpool h1, (hp.keep h2).1, (hp.keep h2).2, hr, h3, h4]
  have hready : ∀ c (ns : List N),
      (ns.map (Frame.ready c) : List (Frame N G)).flatMap Frame.holding = ns := by
    intro c ns
    induction ns with
    | nil => rfl
    | cons k rest ih =>
      rw [List.map_cons, List.flatMap_cons, ih]
      rfl
  cases h
  case ready | readyFull | readySlot => exact hkeep rfl rfl rfl (by simp [Frame.holding, Frame.pending, Frame.placing])
  case enqueue k =>
    rw [hpool rfl, (hp.push rfl).1, (hp.push rfl).2, hr]
    simp [Frame.holding, Frame.pending, Frame.placing, Frame.wakes]
  case dispatch k hst =>
    rw [hp.pooled_eq rfl, (hp.keep rfl).1, (hp.keep rfl).2, hr]
    simp [Frame.holding, Frame.pending, Frame.placing, Frame.wakes]
  case countZero u notified hone =>
    exact hkeep rfl rfl rfl (by simp [Frame.holding, Frame.pending, Frame.placing, Work.pending])
  case countDown u notified others last hone hleaves | graphNotifyDone u notified others last hleaves =>
    refine hkeep rfl rfl rfl ?_
    have hperm := hleaves.perm.count_eq n
    have hlast : Frame.holding (.work u last : Frame N G) = last.pending := by
      cases hleaves.ends <;> simp [Frame.holding, Frame.pending, Frame.placing]
    rw [List.flatMap_append, readyAll, hready, flatMap_one, hlast, hperm]
    simp [Frame.holding, Frame.pending, Frame.placing, Work.pending]
  case graphDrain u notified =>
    exact hkeep rfl rfl rfl (by simp [Frame.holding, Frame.pending, Frame.placing, Work.pending])
  case graphNotify u w list notified =>
    rw [hpool rfl, (hp.keep rfl).1, (hp.keep rfl).2, hr]
    simp [Frame.holding, Frame.pending, Frame.placing, Work.pending, Frame.wakes]
  case tryEnqueueFull | tryEnqueueSlot | tryDequeue | tryDequeueEmpty | leave | leavePopped =>
    exact hkeep rfl rfl rfl (by simp [Frame.holding, Frame.pending, Frame.placing, Work.pending])
  case pop u temp k queue hqueue =>
    have hg := hgraph u _ rfl
    rw [hg] at hqueue
    have hboth := hp.pop hqueue (by rw [← hg])
    rw [hpool rfl, hboth.1, hboth.2, hr, List.flatMap_append, hready]
    simp [Frame.holding, Frame.pending, Frame.placing, Work.pending, Frame.wakes]
  all_goals cases hf

/-- What a call pops, in all, and returns, from where its worker is. -/
def Outcome (popped : List N) (next : Option N) : Work N → Prop
  | .leavePopped n => popped = [] ∧ next = some n
  | .left k => popped = [] ∧ next = k
  | _ => popped = [] ∨ ∃ n, popped = [n] ∧ next = some n

omit [DecidableEq G] [DecidableEq N] in
theorem Ends.outcome {u : N} {last : Work N} (h : L.Ends u last) {popped : List N} {next : Option N}
    (ho : Outcome popped next last) : popped = [] ∨ ∃ n, popped = [n] ∧ next = some n := by
  cases h <;> exact ho

theorem outcome_step {u : N} {w : Work N} (hf : w.inGraphFinish = true)
    (h : L.Effect x [.work u w] x' new) (hg : L.graphOf u = g) (hp : L.Placed g x x' m) :
    ∃ calls w', new = calls ++ [.work u w'] ∧ (∀ c ∈ calls, c.inReady = true) ∧
      ∀ popped next, Outcome popped next w' → Outcome (m.popped ++ popped) next w := by
  have hready : ∀ (ns : List N), ∀ c ∈ (readyAll u ns : List (Frame N G)), c.inReady = true := by
    intro ns c hc
    obtain ⟨n, -, rfl⟩ := List.mem_map.mp hc
    rfl
  have hnone : ∀ c ∈ ([] : List (Frame N G)), c.inReady = true := fun c hc => by cases hc
  have hpopped : x'.limitQueue = x.limitQueue → ∀ popped : List N, m.popped ++ popped = popped :=
    fun hsame popped => by rw [(hp.keep hsame).2, List.nil_append]
  cases h
  case countZero notified hone =>
    refine ⟨[], .graphDrain notified, rfl, hnone, fun popped next ho => ?_⟩
    rw [hpopped rfl]
    exact ho
  case countDown notified others last hone hleaves =>
    refine ⟨readyAll u others, last, rfl, hready others, fun popped next ho => ?_⟩
    rw [hpopped rfl]
    exact hleaves.ends.outcome ho
  case graphNotifyDone notified others last hleaves =>
    refine ⟨readyAll u others, last, rfl, hready others, fun popped next ho => ?_⟩
    rw [hpopped rfl]
    exact hleaves.ends.outcome ho
  case graphDrain notified =>
    refine ⟨[], _, rfl, hnone, fun popped next ho => ?_⟩
    rw [hpopped rfl]
    exact ho
  case graphNotify k list notified =>
    refine ⟨[], _, rfl, hnone, fun popped next ho => ?_⟩
    rw [hpopped rfl]
    exact ho
  case tryEnqueueFull k hm =>
    refine ⟨[.enqueue k], .leave none, rfl, List.forall_mem_singleton.mpr rfl, fun popped next ho => ?_⟩
    rw [hpopped rfl]
    exact ho
  case tryEnqueueSlot k hm =>
    refine ⟨[], .leave (some k), rfl, hnone, fun popped next ho => ?_⟩
    rw [hpopped rfl]
    exact ho
  case tryDequeue temp hm =>
    refine ⟨[], .pop temp, rfl, hnone, fun popped next ho => ?_⟩
    rw [hpopped rfl]
    exact ho
  case tryDequeueEmpty temp hm =>
    refine ⟨[], .left temp, rfl, hnone, fun popped next ho => ?_⟩
    rw [hpopped rfl]
    exact .inl ho.1
  case leave k =>
    refine ⟨[], .left k, rfl, hnone, fun popped next ho => ?_⟩
    rw [hpopped rfl]
    exact .inl ho.1
  case leavePopped k =>
    refine ⟨[], .left (some k), rfl, hnone, fun popped next ho => ?_⟩
    rw [hpopped rfl]
    exact ho
  case pop temp k queue hqueue =>
    refine ⟨temp.toList.map (.ready (.finish u)), .leavePopped k, rfl, hready temp.toList,
      fun popped next ho => .inr ⟨k, ?_, ho.2⟩⟩
    rw [hg] at hqueue
    rw [(hp.pop hqueue (by rw [← hg])).2, ho.1]
    rfl
  all_goals cases hf

theorem finishes_outcome {u : N} {next : Option N} {fs last : List (Frame N G)}
    (h : L.Finishes g fs m last) (hlast : last = [.work u (.left next)]) (hg : L.graphOf u = g) :
    ∀ calls w, fs = calls ++ [.work u w] → (∀ c ∈ calls, c.inReady = true) → Outcome m.popped next w ∧
      ∀ n, (fs.flatMap Frame.holding).count n + m.released.count n + m.popped.count n =
        next.toList.count n + m.pooled.count n + m.stored.count n := by
  induction h with
  | refl =>
    intro calls w hfs hcalls
    have hw : w = .left next := by
      rw [hlast] at hfs
      have hlen := congrArg List.length hfs
      simp only [List.length_append, List.length_singleton] at hlen
      have hnil := List.eq_nil_of_length_eq_zero (by omega : calls.length = 0)
      subst hnil
      cases hfs
      rfl
    rw [hlast, hw]
    exact ⟨⟨rfl, rfl⟩, fun n => by simp [Frame.holding, Moved.none]⟩
  | @step x x' f fs new m m' last hf hexec hp hr _ ih =>
    intro calls w hfs hcalls
    have heff := effect_of_moves (L := L) (.exec hexec)
    have hcount : ∀ n, (new.flatMap Frame.holding).count n + m.pooled.count n + m.stored.count n =
        f.holding.count n + m.released.count n + m.popped.count n := by
      refine holding_step hf heff (fun v v' hv => ?_) hp hr
      subst hv
      cases calls with
      | nil =>
        obtain ⟨he, -⟩ := List.cons.inj hfs
        cases he
        exact hg
      | cons c calls =>
        obtain ⟨he, -⟩ := List.cons.inj hfs
        have hready := hcalls c List.mem_cons_self
        rw [← he] at hready
        cases hready
    have hboth : Outcome (m.popped ++ m'.popped) next w ∧
        ∀ n, ((new ++ fs).flatMap Frame.holding).count n + m'.released.count n + m'.popped.count n =
          next.toList.count n + m'.pooled.count n + m'.stored.count n := by
      cases calls with
      | nil =>
        obtain ⟨rfl, rfl⟩ := List.cons.inj hfs
        obtain ⟨calls', w', rfl, hready, hout⟩ := outcome_step hf heff hg hp
        obtain ⟨ho, hrest⟩ := ih hlast calls' w' (List.append_nil _) hready
        exact ⟨hout _ _ ho, hrest⟩
      | cons c calls =>
        obtain ⟨rfl, rfl⟩ := List.cons.inj hfs
        obtain ⟨hready, hcalls⟩ := List.forall_mem_cons.mp hcalls
        have hnew := (ordered_new heff).2.1 hready
        obtain ⟨ho, hrest⟩ := ih hlast (new ++ calls) w (List.append_assoc _ _ _).symm
          (List.forall_mem_append.mpr ⟨hnew, hcalls⟩)
        have hpopped : m.popped = [] := by
          generalize hold : [f] = old at heff
          cases heff
          case enqueue k => exact (hp.push rfl).2
          case ready | readyFull | readySlot | dispatch => exact (hp.keep rfl).2
          all_goals cases hold <;> cases hready
        rw [hpopped, List.nil_append]
        exact ⟨ho, hrest⟩
    refine ⟨hboth.1, fun n => ?_⟩
    have hc := hcount n
    have hb := hboth.2 n
    simp only [Moved.append, List.flatMap_append, List.flatMap_cons, List.count_append] at hb ⊢
    omega

/-- **`Graph::finish` places every node it is notified of once**: it returns it, gives it to the
task queue or stores it in the self queue of its own graph, and if it returns another node
it has taken that one from its graph's self queue. -/
theorem finish_places {u : N} {notified : List N} {next : Option N}
    (h : L.Finishes (L.graphOf u) [.work u (.graphCount notified)] m [.work u (.left next)]) :
    m.popped = [] ∧ (notified ++ m.released).Perm (next.toList ++ m.pooled ++ m.stored) ∨
      ∃ n, next = some n ∧ m.popped = [n] ∧ (notified ++ m.released).Perm (m.pooled ++ m.stored) := by
  obtain ⟨ho, hcount⟩ := finishes_outcome h rfl rfl [] (.graphCount notified) rfl (by simp)
  have hnotified : ∀ n, ((Frame.work u (.graphCount notified) : Frame N G).holding).count n =
      notified.count n := fun n => by simp [Frame.holding, Frame.pending, Frame.placing, Work.pending]
  simp only [flatMap_one, hnotified] at hcount
  rcases ho with hpopped | ⟨k, hpopped, hnext⟩
  · refine .inl ⟨hpopped, List.perm_iff_count.mpr fun n => ?_⟩
    have hn := hcount n
    rw [hpopped, List.count_nil] at hn
    simp only [List.count_append]
    omega
  · refine .inr ⟨k, hnext, hpopped, List.perm_iff_count.mpr fun n => ?_⟩
    have hn := hcount n
    rw [hpopped, hnext, Option.toList_some] at hn
    simp only [List.count_append]
    omega

end Layout
/-- Node 0 finishes and is notified of nodes 1 and 2: it returns node 2. -/
theorem finish_places_two : ∃ m : Moved (Fin 3),
    oneGraph.Finishes () [.work 0 (.graphCount [1, 2])] m [.work 0 (.left (some 2))] ∧
      m.pooled = [1] ∧ ([1, 2] : List (Fin 3)).Perm ([2] ++ [1]) := by
  have hcall : oneGraph.Finishes () [.work 0 (.graphCount [1, 2])]
      (Moved.none.append (Moved.none.append (Moved.append ⟨[], [1], [], []⟩ (Moved.none.append .none))))
      [.work 0 (.left (some 2))] :=
    .step (x := oneGraph.start) (m := .none) rfl rfl ⟨rfl, fun _ => rfl, .inl rfl⟩ rfl
      (.step (x := oneGraph.start) (m := .none) rfl rfl ⟨rfl, fun _ => rfl, .inl rfl⟩ rfl
        (.step (x := oneGraph.start) (m := ⟨[], [1], [], []⟩) rfl rfl ⟨rfl, fun _ => rfl, .inl rfl⟩ rfl
          (.step (x := oneGraph.start) (m := .none) rfl rfl ⟨rfl, fun _ => rfl, .inl rfl⟩ rfl .refl)))
  refine ⟨_, hcall, rfl, ?_⟩
  rcases Layout.finish_places hcall with ⟨-, hperm⟩ | ⟨n, -, hpopped, -⟩
  · exact hperm
  · cases hpopped

end QuietFlow.Engine
