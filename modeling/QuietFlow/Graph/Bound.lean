import Mathlib.Tactic.Linarith
import QuietFlow.Graph.Outcome
import QuietFlow.Runs.Costs

/-! How much work nodes make.

Every step of the engine spends something that was paid for, when its node was created,
handed out or dispatched, and nodes are handed out and dispatched once. So the number of
steps of a run is bounded by what it creates, however they are interleaved, and without
limited graphs, where no frame waits, a run that cannot go on has come to rest
(`length_le`). A node pays for the walks of its worker over `down_streams`, of which
there are at most as many entries as there are required nodes in the run, and over the
waiters of its graph. What a call of the schedule's task queue does inside is not
counted, and neither are the loops of a self queue. -/
namespace QuietFlow.Engine
open Runs Program

variable {N G T : Type}

/-! ### What a run creates -/

/-- The required nodes a label lists. -/
def Act.listed : Option (Act N G) → List (Option N)
  | some (.create _ c) => c.required
  | _ => []

def Act.creates : Option (Act N G) → List N
  | some (.create d _) => [d]
  | _ => []

/-- The nodes a run creates. -/
def created (ls : List (T × Option (Act N G))) : List N := ls.flatMap fun l => Act.creates l.2

/-- The nodes they require. -/
def listed (ls : List (T × Option (Act N G))) : List (Option N) := ls.flatMap fun l => Act.listed l.2

theorem sum_length {α β : Type} (f : α → List β) (as : List α) :
    (as.map fun a => ((f a).length : ℤ)).sum = (as.flatMap f).length := by
  induction as with
  | nil => rfl
  | cons a rest ih =>
    rw [List.map_cons, List.sum_cons, ih, List.flatMap_cons, List.length_append]
    exact (Nat.cast_add _ _).symm

theorem sum_fees (ls : List (T × Option (Act N G))) :
    (ls.map fun l => 6 * ((Act.creates l.2).length : ℤ) + 8 * (Act.listed l.2).length - 1).sum =
      6 * (created ls).length + 8 * (listed ls).length - ls.length := by
  induction ls with
  | nil => rfl
  | cons l rest ih =>
    rw [List.map_cons, List.sum_cons, ih]
    simp only [created, listed, List.flatMap_cons, List.length_append, List.length_cons, Nat.cast_add,
      Nat.cast_one]
    omega

theorem flatMap_length_le {α β : Type} (f : α → List β) {as ls : List α} (h : as <+: ls) :
    (as.flatMap f).length ≤ (ls.flatMap f).length := by
  obtain ⟨rest, rfl⟩ := h
  rw [List.flatMap_append, List.length_append]
  exact Nat.le_add_right _ _

/-! ### What a frame can cost -/

/-- How many steps of `add_downstream` are left, with the decrement after them. -/
def Edge.cost : Edge → ℤ
  | .status => 7
  | .sameGraph => 6
  | .testBit => 5
  | .loadBits => 4
  | .dup | .storeBits _ => 3
  | .readBak | .lock => 2

def Build.cost : Build N G → ℤ
  | .count c => 5 + 8 * c.required.length
  | .store c => 4 + 8 * c.required.length
  | .arm required => 2 + 8 * required.length
  | .edges rest => 1 + 8 * rest.length
  | .sub _ rest => 2 + 8 * rest.length
  | .edge _ e rest => 1 + e.cost + 8 * rest.length
  | .check _ => 3
  | .recheck _ => 2

theorem weight_ready {w : Frame N G → ℤ} (hw : ∀ c n, w (.ready c n) = 0) (c : Caller N) (ns : List N) :
    weight w (ns.map (.ready c)) = 0 :=
  weight_eq_zero fun f hf => by
    obtain ⟨n, -, rfl⟩ := List.mem_map.mp hf
    exact hw c n

section Cost
variable (e n : ℤ)

/-- What a worker can cost whose walks visit at most `e` downstream nodes and `n` waiters. The nodes
in its hands are paid for where they are handed out and dispatched. -/
def Work.cost : Work N → ℤ
  | .taken => 140 + e + n
  | .resume => 139 + e + n
  | .running => 138 + e + n
  | .snapshot => 137 + e + n
  | .bits idxs _ => 10 + e + n + 2 * idxs.length
  | .notifyBit _ idxs _ => 11 + e + n + 2 * idxs.length
  | .drain _ => 9 + e + n
  | .notify list _ => 8 + n + list.length
  | .graphCount _ => 7 + n
  | .graphDrain _ => 6 + n
  | .graphNotify list _ => 5 + list.length
  | .tryDequeue _ => 4
  | .pop _ => 3
  | .tryEnqueue _ => 2
  | .leave next => 2 - 2 * next.toList.length
  | .leavePopped _ => 2
  | .left next => 1 + (140 + e + n) * next.toList.length

def Frame.cost : Frame N G → ℤ
  | .build _ b => b.cost
  | .ready _ _ => 0
  | .enqueue _ | .dispatch _ => 1
  | .work _ w => w.cost e n

/-- What is paid for the nodes that are queued, less what the nodes handed out and dispatched so
far were paid. -/
def Shared.cost (x : Shared N G) : ℤ :=
  (141 + e + n) * x.pool.length - (141 + e + n) * x.dispatched.length - 2 * x.handed.length

variable {e n}

theorem Frame.cost_nonneg (he : 0 ≤ e) (hn : 0 ≤ n) (f : Frame N G) : 0 ≤ f.cost e n := by
  have hmul : ∀ next : Option N, 0 ≤ (140 + e + n) * (next.toList.length : ℤ) := fun next =>
    Int.mul_nonneg (by omega) (Int.natCast_nonneg _)
  cases f with
  | build d b =>
    cases b with
    | edge u s rest =>
      cases s <;> (simp only [Frame.cost, Build.cost, Edge.cost]; omega)
    | _ =>
      simp only [Frame.cost, Build.cost]
      omega
  | work u w =>
    cases w with
    | leave next => cases next <;> simp [Frame.cost, Work.cost]
    | left next =>
      have := hmul next
      simp only [Frame.cost, Work.cost]
      omega
    | _ =>
      simp only [Frame.cost, Work.cost]
      omega
  | _ => simp [Frame.cost]

namespace Layout
variable [DecidableEq N] [DecidableEq G] {L : Layout N G} {x x' : Shared N G} {new : List (Frame N G)}

omit [DecidableEq N] [DecidableEq G] in
theorem length_bitMapIdx (word : BitVec 64) : (bitMapIdx word fastNodeMaxNum).length ≤ 63 := by
  refine (List.length_filter_le _ _).trans ?_
  rw [List.length_range]
  exact le_refl 63

omit [DecidableEq N] [DecidableEq G] in
theorem cost_ready (c : Caller N) (ns : List N) :
    weight (Frame.cost e n) (ns.map (.ready c) : List (Frame N G)) = 0 := weight_ready (fun _ _ => rfl) c ns

omit [DecidableEq N] [DecidableEq G] in
theorem Ends.cost_le {u : N} {last : Work N} (h : L.Ends u last) (others : List N) :
    weight (Frame.cost e n) (readyAll u others ++ [.work u last] : List (Frame N G)) ≤ 4 := by
  rw [weight_append, readyAll, cost_ready]
  cases h <;> simp [Frame.cost, Work.cost]

/-- **Every step of a thread spends something.** -/
theorem cost_step {f : Frame N G} (h : L.Effect x [f] x' new)
    (hdown : ∀ u, ((x.downStreams u).length : ℤ) ≤ e)
    (hwait : ∀ g, ((x.graphDownStreams g).length : ℤ) ≤ n) :
    x'.cost e n + weight (Frame.cost e n) new + 1 ≤ x.cost e n + f.cost e n := by
  generalize hold : [f] = old at h
  cases h
  case create | take => cases hold
  case snapshot u =>
    cases hold
    have := length_bitMapIdx (x.fastDownStrams u)
    simp [Shared.cost, Frame.cost, Work.cost]
    omega
  case drain u notified =>
    cases hold
    have := hdown u
    simp [Shared.cost, Frame.cost, Work.cost]
    omega
  case graphDrain u notified =>
    cases hold
    have := hwait (L.graphOf u)
    simp [Shared.cost, Frame.cost, Work.cost]
    omega
  case countDown u notified others last hone hleaves =>
    cases hold
    have hlast := hleaves.ends.cost_le others (e := e) (n := n)
    have hn : (0 : ℤ) ≤ n := (Int.natCast_nonneg _).trans (hwait (L.graphOf u))
    simp only [Shared.cost, Shared.pass, Frame.cost, Work.cost]
    omega
  case graphNotifyDone u notified others last hleaves =>
    cases hold
    have hlast := hleaves.ends.cost_le others (e := e) (n := n)
    simp only [Frame.cost, Work.cost, List.length_nil]
    omega
  case store d c =>
    cases hold
    cases c <;> simp only [Shared.cost, Shared.pass, storeNode, Call.first, Call.required, weight_cons,
      weight_nil, Frame.cost, Build.cost, List.length_nil, Nat.cast_zero]
    all_goals omega
  case left u next hst =>
    cases hold
    cases next <;> simp only [Shared.cost, Shared.setStatus, Option.toList_none, Option.toList_some,
      List.map_nil, List.map_cons, weight_cons, weight_nil, Frame.cost, Work.cost, List.length_nil,
      List.length_cons, Nat.cast_add, Nat.cast_zero, Nat.cast_one]
    all_goals linarith
  all_goals
    cases hold
    simp only [Shared.cost, Shared.pass, Shared.pay, Shared.hand, Shared.setStatus, Shared.complete, admits,
      weight_append, weight_cons, weight_nil, cost_ready, Frame.cost, Build.cost, Edge.cost, Work.cost,
      Option.toList_none, Option.toList_some, List.length_append, List.length_cons, List.length_nil,
      Nat.cast_add, Nat.cast_zero, Nat.cast_one, mul_add]
  all_goals linarith

end Layout
end Cost

/-! ### How long the lists get -/

/-- The entries a frame has yet to settle as part of a `create_edges`. -/
def Frame.entries : Frame N G → List (Option N)
  | .build _ b => b.entries
  | _ => []

def Frame.load (f : Frame N G) : ℤ := f.entries.length

/-- One for a waiter whose call has not come to the graph it waits for. -/
def Frame.arms (f : Frame N G) : ℤ := (f.awaits .arm).length

namespace Layout
variable [DecidableEq N] [DecidableEq G] {L : Layout N G} {x x' : Shared N G} {new : List (Frame N G)}

omit [DecidableEq N] [DecidableEq G] in
theorem load_ready (c : Caller N) (ns : List N) :
    weight Frame.load (ns.map (.ready c) : List (Frame N G)) = 0 := weight_ready (fun _ _ => rfl) c ns

omit [DecidableEq N] [DecidableEq G] in
theorem arms_ready (c : Caller N) (ns : List N) :
    weight Frame.arms (ns.map (.ready c) : List (Frame N G)) = 0 := weight_ready (fun _ _ => rfl) c ns

theorem load_step {f : Frame N G} (h : L.Effect x [f] x' new) (u : N) :
    ((x'.downStreams u).length : ℤ) + weight Frame.load new ≤ (x.downStreams u).length + f.load := by
  generalize hold : [f] = old at h
  cases h
  case create | take => cases hold
  case lock d v rest hst =>
    cases hold
    by_cases hu : u = v
    · subst hu
      simp [Frame.load, Frame.entries, Build.entries]
      omega
    · simp [Frame.load, Frame.entries, Build.entries, hu]
  case store d c =>
    cases hold
    cases c <;> simp [Frame.load, Frame.entries, Build.entries, Call.first, Call.required]
  case left v next hst =>
    cases hold
    cases next <;> simp [Frame.load, Frame.entries]
  all_goals
    cases hold
    simp [Frame.load, Frame.entries, Build.entries, load_ready]

theorem arms_step {f : Frame N G} (h : L.Effect x [f] x' new) (g : G) :
    ((x'.graphDownStreams g).length : ℤ) + weight Frame.arms new ≤
      (x.graphDownStreams g).length + f.arms := by
  generalize hold : [f] = old at h
  cases h
  case create | take => cases hold
  case recheck d k hne =>
    cases hold
    by_cases hg : g = k
    · subst hg
      simp [Frame.arms, Frame.awaits, Build.next, Stage.upTo, Stage.creates, Stage.rank]
    · simp [Frame.arms, Frame.awaits, Build.next, Stage.upTo, Stage.creates, Stage.rank, hg]
  case store d c =>
    cases hold
    cases c <;> simp [Frame.arms, Frame.awaits, Build.next, Stage.upTo, Stage.creates, Stage.rank, Call.first]
  case left v next hst =>
    cases hold
    cases next <;> simp [Frame.arms, Frame.awaits, Work.next, Stage.upTo, Stage.creates, Stage.rank]
  case countDown u notified others last _ hleaves | graphNotifyDone u notified others last hleaves =>
    cases hold
    cases hleaves.ends <;>
      simp [Frame.arms, Frame.awaits, Work.next, Stage.upTo, Stage.creates, Stage.rank, arms_ready]
  all_goals
    cases hold
    simp [Frame.arms, Frame.awaits, Build.next, Work.next, Stage.upTo, Stage.creates, Stage.rank, arms_ready]

/-- What begins a call: a node is created, or one is taken from the task queue. -/
theorem moves_cases {a : Option (Act N G)} {old : List (Frame N G)}
    (h : L.program.Moves x a old x' new) :
    (∃ d c before, a = some (.create d c) ∧ old = [] ∧ new = [.build d (.count c)] ∧
      x' = {x with calls := Function.update x.calls d (some c), before := before}) ∨
    (∃ u ∈ x.pool, a = some (.take u) ∧ old = [] ∧ new = [.work u .taken] ∧
      x' = {x with pool := x.pool.erase u}) ∨
    ∃ f, a = none ∧ old = [f] ∧ L.Effect x [f] x' new := by
  cases h with
  | @call a top _ _ hcall =>
    cases a with
    | create d c =>
      obtain ⟨-, h⟩ := Option.ite_none_right_eq_some.mp hcall
      cases h
      exact .inl ⟨d, c, _, rfl, rfl, rfl, rfl⟩
    | take u =>
      obtain ⟨hmem, h⟩ := Option.ite_none_right_eq_some.mp hcall
      cases h
      exact .inr (.inl ⟨u, hmem.2, rfl, rfl, rfl, rfl⟩)
  | @exec f _ _ hexec => exact .inr (.inr ⟨f, rfl, rfl, effect_of_moves (.exec hexec)⟩)

theorem calls_step {f : Frame N G} (h : L.Effect x [f] x' new) : x'.calls = x.calls := by
  generalize hold : [f] = old at h
  cases h
  case create => cases hold
  all_goals rfl

/-! ### Runs -/

section Run
variable [DecidableEq T] {s : Config (Shared N G) (Frame N G) T} {ls : List (T × Option (Act N G))}

theorem mem_created (h : (L.system T).run (L.system T).start ls = some s) {d : N}
    (hd : (s.shared.calls d).isSome = true) : d ∈ created ls := by
  induction ls using List.reverseRecOn generalizing s with
  | nil =>
    cases h
    cases hd
  | append_singleton as l ih =>
    obtain ⟨m, hm, hstep⟩ := run_snoc h
    rw [created, List.flatMap_append]
    refine List.mem_append.mpr ?_
    by_cases hold : (m.shared.calls d).isSome = true
    · exact .inl (ih hm hold)
    · obtain ⟨old, new, rest, -, hmove, -⟩ := step_cases (t := l.1) (a := l.2) hstep
      refine .inr ?_
      rcases moves_cases hmove with ⟨d', c, before, hl, -, -, hs⟩ | ⟨u, -, -, -, -, hs⟩ | ⟨f, -, rfl, heff⟩
      · by_cases hdd : d = d'
        · subst hdd
          simp [hl, Act.creates]
        · rw [hs] at hd
          simp only [Function.update_of_ne hdd] at hd
          exact absurd hd hold
      · rw [hs] at hd
        exact absurd hd hold
      · rw [calls_step heff] at hd
        exact absurd hd hold

variable [Fintype T]

/-- A quantity and the frames' weights, along a run: what creating and taking a node add. -/
theorem le_fees (Φ : Shared N G → ℤ) (w : Frame N G → ℤ) (fee : Option (Act N G) → ℤ)
    (create : ∀ x d c before, Φ {x with
        calls := Function.update x.calls d (some c), before := before} + w (.build d (.count c)) ≤
      Φ x + fee (some (.create d c)))
    (take : ∀ x : Shared N G, ∀ u ∈ x.pool,
      Φ {x with pool := x.pool.erase u} + w (.work u .taken) ≤ Φ x + fee (some (.take u)))
    (exec : ∀ as m f x' new, (L.system T).run (L.system T).start as = some m → as <+: ls →
      L.Effect m.shared [f] x' new → Φ x' + weight w new ≤ Φ m.shared + w f + fee none)
    (h : (L.system T).run (L.system T).start ls = some s) :
    Φ s.shared + total w s ≤ Φ L.start + (ls.map fun l => fee l.2).sum := by
  refine total_le_fees (P := L.program) Φ w fee (fun as m t a old m' new hm has htook => ?_) h
  rcases moves_cases htook.moves with
    ⟨d, c, before, rfl, rfl, rfl, hs⟩ | ⟨u, hu, rfl, rfl, rfl, hs⟩ | ⟨f, rfl, rfl, heff⟩
  · have := create m.shared d c before
    rw [hs]
    simpa using this
  · have := take m.shared u hu
    rw [hs]
    simpa using this
  · have := exec as m f _ new hm has heff
    simpa using this

theorem length_downStreams_le (h : (L.system T).run (L.system T).start ls = some s) (u : N) :
    (s.shared.downStreams u).length ≤ (listed ls).length := by
  have hle := le_fees (fun x => ((x.downStreams u).length : ℤ)) Frame.load
    (fun a => ((Act.listed a).length : ℤ)) (fun x d c before => le_refl _)
    (fun x v _ => by simp [Frame.load, Frame.entries, Act.listed])
    (fun as m f x' new _ _ heff => by simpa [Act.listed] using load_step heff u) h
  rw [sum_length (fun l : T × Option (Act N G) => Act.listed l.2)] at hle
  have hpos := total_nonneg (w := Frame.load) (fun f => Int.natCast_nonneg _) s
  have hstart : ((L.start.downStreams u).length : ℤ) = 0 := rfl
  rw [listed]
  omega

theorem length_graphDownStreams_le (h : (L.system T).run (L.system T).start ls = some s) (g : G) :
    (s.shared.graphDownStreams g).length ≤ (created ls).length := by
  have hle := le_fees (fun x => ((x.graphDownStreams g).length : ℤ)) Frame.arms
    (fun a => ((Act.creates a).length : ℤ)) (fun x d c before => le_refl _)
    (fun x v _ => by simp [Frame.arms, Frame.awaits, Work.next, Stage.upTo, Stage.creates, Stage.rank, Act.creates])
    (fun as m f x' new _ _ heff => by simpa [Act.creates] using arms_step heff g) h
  rw [sum_length (fun l : T × Option (Act N G) => Act.creates l.2)] at hle
  have hpos := total_nonneg (w := Frame.arms) (fun f => Int.natCast_nonneg _) s
  have hstart : ((L.start.graphDownStreams g).length : ℤ) = 0 := rfl
  rw [created]
  omega

/-- Nodes are handed out once, and are among those that the run creates. -/
theorem length_le_created (h : (L.system T).run (L.system T).start ls = some s) {ns : List N}
    (hcount : ∀ n, ns.count n ≤ s.shared.handed.count n) : ns.length ≤ (created ls).length := by
  have hr : (L.system T).Reached s := reached_run h
  have hnodup : ns.Nodup := List.nodup_iff_count_le_one.mpr fun n => (hcount n).trans (handed_le_one hr n)
  refine (hnodup.subperm fun n hn => ?_).length_le
  have hhanded : n ∈ s.shared.handed := by
    have hpos := List.count_pos_iff.mpr hn
    exact List.count_pos_iff.mp (hpos.trans_le (hcount n))
  exact mem_created h (called hr rfl (released_of_handed hr hhanded).1)

/-- A run takes no more steps than the nodes it creates and the entries they require pay for, whatever
waits for a self queue or fails at one. -/
theorem length_le_fees (h : (L.system T).run (L.system T).start ls = some s) :
    ls.length ≤ (created ls).length * (149 + (listed ls).length + (created ls).length) +
      8 * (listed ls).length := by
  have hhanded := length_le_created h (fun n => le_refl (s.shared.handed.count n))
  have hdispatched := length_le_created h (fun n => dispatched_le_handed (reached_run h) n)
  have hle := le_fees (Shared.cost (listed ls).length (created ls).length)
    (Frame.cost (listed ls).length (created ls).length)
    (fun a => 6 * (Act.creates a).length + 8 * (Act.listed a).length - 1)
    (fun x d c before => by
      simp only [Shared.cost, Frame.cost, Build.cost, Act.creates, Act.listed, List.length_cons,
        List.length_nil, Nat.cast_add, Nat.cast_zero, Nat.cast_one]
      omega)
    (fun x u hu => by
      have hpos := List.length_pos_of_mem hu
      simp only [Shared.cost, Frame.cost, Work.cost, Act.creates, Act.listed, List.length_nil,
        List.length_erase_of_mem hu, Nat.cast_sub hpos, Nat.succ_eq_add_one, zero_add, Nat.cast_zero,
        Nat.cast_one]
      linarith)
    (fun as m f x' new hm has heff => by
      have hcost := cost_step (e := (listed ls).length) (n := (created ls).length) heff
        (fun u => by
          exact_mod_cast (length_downStreams_le hm u).trans (flatMap_length_le _ has))
        (fun g => by
          exact_mod_cast (length_graphDownStreams_le hm g).trans (flatMap_length_le _ has))
      simp only [Act.creates, Act.listed, List.length_nil, Nat.cast_zero]
      omega) h
  rw [sum_fees] at hle
  have hframes := total_nonneg (w := Frame.cost ((listed ls).length : ℤ) (created ls).length)
    (Frame.cost_nonneg (Int.natCast_nonneg _) (Int.natCast_nonneg _)) s
  have hstart : Shared.cost (listed ls).length (created ls).length L.start = 0 := by
    simp [Shared.cost, start]
  have hrate : (0 : ℤ) ≤ 141 + (listed ls).length + (created ls).length := by omega
  have hpool := Int.mul_nonneg hrate (Int.natCast_nonneg s.shared.pool.length)
  have hpaid := mul_le_mul_of_nonneg_left (Int.ofNat_le.mpr hdispatched) hrate
  simp only [Shared.cost] at hle hstart
  zify
  linarith

/-- No thread can move, but to create nodes. -/
def Stopped (L : Layout N G) (s : Config (Shared N G) (Frame N G) T) : Prop :=
  ∀ t, (L.system T).step s (t, none) = none ∧ ∀ u, (L.system T).step s (t, some (.take u)) = none

theorem idle_of_stopped [Nonempty T] (hlim : ∀ g, L.limit g = none) (h : (L.system T).Reached s)
    (hstop : L.Stopped s) : Idle s := by
  have hstack : ∀ t, s.stack t = [] := by
    intro t
    by_contra hne
    obtain ⟨s', hstep⟩ := (progress hlim h).2 t hne
    rw [(hstop t).1] at hstep
    cases hstep
  refine ⟨hstack, ?_⟩
  by_contra hpool
  obtain ⟨u, hu⟩ := List.exists_mem_of_ne_nil _ hpool
  obtain ⟨t⟩ := (inferInstance : Nonempty T)
  have hstep := (hstop t).2 u
  simp [system, Program.system, Program.step, program, call, hstack t, hu] at hstep

/-- **Without limited graphs, a run takes no more steps than the nodes it creates and the entries they
require pay for, and when it cannot go on but by creating nodes, nobody has anything left to
do.** -/
theorem length_le [Nonempty T] (hlim : ∀ g, L.limit g = none)
    (h : (L.system T).run (L.system T).start ls = some s) :
    ls.length ≤ (created ls).length * (149 + (listed ls).length + (created ls).length) +
      8 * (listed ls).length ∧ (L.Stopped s → Idle s) :=
  ⟨length_le_fees h, idle_of_stopped hlim (reached_run h)⟩

end Run

end Layout

/-- Two nodes, one of which requires the other, run to the end. -/
theorem length_le_chain : ∃ ls : List (Fin 3 × Option (Act (Fin 3) Unit)), ∃ s,
    (oneGraph.system (Fin 3)).run (oneGraph.system (Fin 3)).start ls = some s ∧
      created ls = [0, 1] ∧ s.shared.passed .complete = [0, 1] ∧
        ls.length ≤ 2 * (149 + 1 + 2) + 8 * 1 ∧ Layout.Idle s := by
  have hrun : (((oneGraph.system (Fin 3)).run (oneGraph.system (Fin 3)).start
      (steps 0 (.create 0 (.edges [])) 6 ++ steps 0 (.create 1 (.edges [some 0])) 11 ++
        steps 1 (.take 0) 24)).any fun s => decide (s.shared.passed .complete = [0, 1] ∧
          s.shared.pool = [] ∧ ∀ t, s.stack t = [])) = true := by decide
  obtain ⟨s, hs, hend⟩ := (Option.any_eq_true _ _).mp hrun
  obtain ⟨hcomplete, hpool, hstack⟩ := of_decide_eq_true hend
  obtain ⟨hle, hidle⟩ := Layout.length_le (fun _ => rfl) hs
  refine ⟨_, s, hs, rfl, hcomplete, hle, hidle fun t => ⟨?_, fun u => ?_⟩⟩
  · simp [Layout.system, Program.system, Program.step, hstack t]
  · simp [Layout.system, Program.system, Program.step, Layout.program, Layout.call, hpool]

end QuietFlow.Engine
