import QuietFlow.Graph.Parallel

/-! The limits of limited graphs.

Slots are held by the nodes that are dispatched and unfinished, so `slots_add` bounds
their number from above, up to nodes returned without admission, and from below while
the self queue is not empty. -/
namespace QuietFlow.Engine
open Runs Program

variable {N G : Type} [DecidableEq N] [DecidableEq G]

/-- Part of `Graph::ready` or of the push after it. -/
def Frame.inReady : Frame N G → Bool
  | .ready _ _ | .enqueue _ | .dispatch _ => true
  | _ => false

/-- Part of `Node::finish`. -/
def Frame.inFinish : Frame N G → Bool
  | .work _ .taken | .work _ .resume | .work _ .running | .work _ (.left _) => false
  | .work _ _ => true
  | _ => false

namespace Layout
variable (L : Layout N G)

/-- The nodes of a graph that are dispatched and have not completed `Graph::finish`. -/
def unfinished (x : Shared N G) (g : G) : Finset N :=
  x.dispatched.toFinset.filter fun n => L.graphOf n = g ∧ n ∉ x.passed .complete

/-- The step is not a `try_dequeue` at the end of `Graph::finish` that finds no queued node and
returns a node of another limited graph. -/
def admitting {T : Type} (s : Config (Shared N G) (Frame N G) T) (l : T × Option (Act N G)) : Bool :=
  match l.2, (s.stack l.1).head? with
  | none, some (.work u (.tryDequeue (some n))) =>
    decide (s.shared.mCount (L.graphOf u) > 0) || !L.limited (L.graphOf n)
  | _, _ => true

variable {L} {x x' : Shared N G} {old new : List (Frame N G)}

section Reached
variable {T : Type} [DecidableEq T] [Fintype T] {s : Config (Shared N G) (Frame N G) T}
  {ok : Config (Shared N G) (Frame N G) T → T × Option (Act N G) → Config (Shared N G) (Frame N G) T → Prop}

/-- The unfinished nodes are in the task queue or with a worker. -/
theorem card_unfinished (h : (L.system T).ReachedBy ok s) (g : G) :
    ((L.unfinished s.shared g).card : ℤ) = (s.shared.pool.map L.graphOf).count g +
      total (tally (fun f => (f.awaits .complete).map L.graphOf) g) s := by
  have hcount : ∀ n, (s.shared.dispatched.count n : ℤ) - (s.shared.passed .complete).count n =
      s.shared.pool.count n + total (tally (Frame.awaits .complete) n) s := by
    intro n
    have hadd := passed_add h .complete n
    simp only [Shared.entered, Stage.creates, Stage.rank] at hadd
    simp at hadd
    omega
  set D := s.shared.dispatched.toFinset.filter fun n => L.graphOf n = g with hDdef
  have hD : ∀ n ∈ D, L.graphOf n = g := fun n hn => (Finset.mem_filter.mp hn).2
  have hcard : ((L.unfinished s.shared g).card : ℤ) = ∑ n ∈ D,
      ((s.shared.dispatched.count n : ℤ) - (s.shared.passed .complete).count n) := by
    have hsub : L.unfinished s.shared g = D.filter fun n => n ∉ s.shared.passed .complete := by
      rw [hDdef, Finset.filter_filter]
      rfl
    rw [hsub, Finset.card_filter, Nat.cast_sum]
    refine Finset.sum_congr rfl fun n hn => ?_
    have hmem := List.mem_toFinset.mp (Finset.mem_filter.mp hn).1
    have hpos := List.count_pos_iff.mpr hmem
    have hone := (dispatched_le_handed h n).trans (handed_le_one h n)
    have hle := passed_le_dispatched h (m := .complete) rfl n
    split
    · next hno =>
      rw [List.count_eq_zero.mpr hno]
      omega
    · next hyes =>
      have hcomplete := List.count_pos_iff.mpr (not_not.mp hyes)
      omega
  have hsome : ∀ n, 0 < s.shared.pool.count n ∨ 0 < total (tally (Frame.awaits .complete) n) s →
      L.graphOf n = g → n ∈ D := by
    intro n hn hg
    have hpool : (0 : ℤ) ≤ s.shared.pool.count n := Int.natCast_nonneg _
    have htotal := total_nonneg (tally_nonneg (Frame.awaits .complete) n) s
    have hdisp : 0 < s.shared.dispatched.count n := by
      have := hcount n
      omega
    exact Finset.mem_filter.mpr ⟨List.mem_toFinset.mpr (List.count_pos_iff.mp hdisp), hg⟩
  have hframes : total (fun f => ∑ n ∈ D, tally (Frame.awaits .complete) n f) s =
      total (tally (fun f => (f.awaits .complete).map L.graphOf) g) s :=
    total_congr fun f hf => sum_count hD _ fun n hn =>
      hsome n (.inr (lt_of_lt_of_le Int.one_pos (one_le_total hf hn)))
  rw [hcard, Finset.sum_congr rfl fun n _ => hcount n, Finset.sum_add_distrib, ← total_sum, hframes,
    sum_count hD _ fun n hn => hsome n (.inl (List.count_pos_iff.mpr hn))]

omit [DecidableEq N] in
/-- A worker that has not completed holds a slot of its graph, if that is limited. -/
theorem awaits_le_slots {f : Frame N G} (hf : L.Passes f) {g : G} (hlim : L.limited g = true) :
    tally (fun f => (f.awaits .complete).map L.graphOf) g f ≤
      tally (fun f => f.slots.map L.graphOf) g f := by
  have hfree : ∀ {u}, L.limited (L.graphOf u) = false → L.graphOf u ≠ g := fun h he => by
    rw [he, hlim] at h
    cases h
  cases f with
  | build d b => cases b <;> simp [tally, Frame.awaits, Frame.slots, Build.next, Stage.upTo, Stage.creates, Stage.rank]
  | ready c n => simp [tally, Frame.awaits]
  | enqueue n => simp [tally, Frame.awaits]
  | dispatch n => simp [tally, Frame.awaits]
  | work u w =>
    cases w with
    | leave next =>
      cases next with
      | none => simp [tally, Frame.awaits, Frame.slots, Work.next, Stage.upTo, hfree hf]
      | some n =>
        cases hu : L.limited (L.graphOf u) with
        | true => simp [tally, Frame.awaits, Frame.slots, Work.next, Stage.upTo, hf hu]
        | false => simp [tally, Frame.awaits, Frame.slots, Work.next, Stage.upTo, hfree hu]
    | leavePopped n =>
      have hg : L.graphOf n = L.graphOf u := hf
      simp [tally, Frame.awaits, Frame.slots, Work.next, Stage.upTo, hg]
    | tryEnqueue n => simp [tally, Frame.awaits, Frame.slots, Work.next, Stage.upTo, hfree hf]
    | _ => simp [tally, Frame.awaits, Frame.slots, Work.next, Stage.upTo, Stage.creates, Stage.rank]

omit [DecidableEq N] in
/-- Away from `ready` and `finish`, the slots are held by the unfinished nodes. -/
theorem slots_le_awaits {f : Frame N G} (hready : f.inReady = false) (hfinish : f.inFinish = false)
    (g : G) : tally (fun f => f.slots.map L.graphOf) g f ≤
      tally (fun f => (f.awaits .complete).map L.graphOf) g f := by
  cases f with
  | build d b => simp [tally, Frame.slots]
  | ready c n => cases hready
  | enqueue n => cases hready
  | dispatch n => cases hready
  | work u w =>
    cases w with
    | taken | resume | running | left next =>
      simp [tally, Frame.awaits, Frame.slots, Work.next, Stage.upTo, Stage.creates, Stage.rank]
    | _ => cases hfinish

omit [Fintype T] in
/-- With every step admitting, nothing is returned without admission. -/
theorem bypassed_eq_zero (h : (L.system T).ReachedBy (fun s l _ => L.admitting s l = true) s) (g : G) :
    s.shared.bypassed g = 0 := by
  refine (invariant (I := fun x => x.bypassed g = 0) (J := fun _ _ => True) rfl
    (fun s t a old s' new htook hzero _ => ⟨?_, fun _ _ => trivial, fun _ _ _ => trivial⟩) h).1
  have heff := effect_of_moves htook.moves
  generalize s'.shared = x' at heff
  cases heff
  case tryDequeueEmpty u temp hm =>
    obtain ⟨rfl, htop⟩ := htook.exec
    have hok := htook.ok
    cases temp with
    | none => simpa using hzero
    | some n =>
      simp only [admitting, htop, Bool.or_eq_true, decide_eq_true_eq, Bool.not_eq_true'] at hok
      have hlim := hok.resolve_left (by omega)
      have hne : ¬(L.graphOf n = g ∧ L.limited g = true) := fun hb => by
        rw [hb.1, hb.2] at hlim
        cases hlim
      simpa [hne] using hzero
  all_goals exact hzero

/-- **A limited graph runs at most `parallel` nodes at once, as long as no `try_dequeue` at the end
of another graph's `finish` finds no queued node and returns one of its nodes.** -/
theorem unfinished_le_parallel (h : (L.system T).ReachedBy (fun s l _ => L.admitting s l = true) s)
    {g : G} {l : Limit} (hl : L.limit g = some l) : (L.unfinished s.shared g).card ≤ l.parallel := by
  have hlim : L.limited g = true := by rw [limited, hl]; rfl
  have hcard := card_unfinished h g
  have hslots := slots_add h hl
  have hzero := bypassed_eq_zero h g
  have hle : total (tally (fun f => (f.awaits .complete).map L.graphOf) g) s ≤
      total (tally (fun f => f.slots.map L.graphOf) g) s :=
    total_mono fun f hf => awaits_le_slots (passes h f hf) hlim
  rw [hzero] at hslots
  push_cast at hslots
  omega

/-- Away from `ready` and `finish`, the self queue of a limited graph, a FIFO, holds what `m_count`
counts, and if it is not empty at least `parallel` nodes of the graph are unfinished. -/
theorem served_fifo (h : (L.system T).Reached s) (hready : s.Without Frame.inReady)
    (hfinish : s.Without Frame.inFinish) {g : G} {l : Limit} (hl : L.limit g = some l) :
    ((s.shared.limitQueue g).length : ℤ) = max 0 (s.shared.mCount g) ∧
      (s.shared.limitQueue g ≠ [] → l.parallel ≤ (L.unfinished s.shared g).card) := by
  have hqueue := queue_add h g
  have hidle : total (fun f => tally (fun f => f.pushes.map L.graphOf) g f -
      tally (fun f => f.pops.map L.graphOf) g f) s = 0 := by
    refine total_eq_zero fun f hf => ?_
    have h1 := hready.eq_false hf
    have h2 := hfinish.eq_false hf
    cases f with
    | enqueue n => cases h1
    | work u w =>
      cases w with
      | pop temp => cases h2
      | _ => simp [tally, Frame.pushes, Frame.pops]
    | _ => simp [tally, Frame.pushes, Frame.pops]
  refine ⟨by omega, fun hne => ?_⟩
  have hpos := List.length_pos_iff.mpr hne
  have hcard := card_unfinished h g
  have hslots := slots_add h hl
  have hle : total (tally (fun f => f.slots.map L.graphOf) g) s ≤
      total (tally (fun f => (f.awaits .complete).map L.graphOf) g) s :=
    total_mono fun f hf => slots_le_awaits (hready.eq_false hf) (hfinish.eq_false hf) g
  have hbypassed : (0 : ℤ) ≤ s.shared.bypassed g := Int.natCast_nonneg _
  omega

end Reached
end Layout

/-! ### Two limited graphs -/

/-- Nodes 1 and 2 are of one graph and node 0 of another; both run one node at a time. -/
def twoLimits : Layout (Fin 3) Bool where
  graphOf n := decide (n ≠ 0)
  limit _ := some ⟨1, 2, by decide, by decide⟩

/-- One thread creates a node and takes so many steps. -/
def createRun (d : Fin 3) (required : List (Option (Fin 3))) (steps : ℕ) :
    List (Unit × Option (Act (Fin 3) Bool)) :=
  ((), some (.create d (.edges required))) :: List.replicate steps ((), none)

/-- A limited graph comes to run two nodes where it admits one: node 2 runs when node 0 of the
other graph finishes and returns node 1. -/
theorem unfinished_exceeds : ∃ s, (twoLimits.system Unit).Reached s ∧
    ∃ l, twoLimits.limit true = some l ∧ 1 ≤ l.parallel ∧ 2 ≤ l.queueSize ∧
      l.parallel < (twoLimits.unfinished s.shared true).card := by
  obtain ⟨s, hs, hcard⟩ := System.exists_reachedBy (twoLimits.system Unit) (fun _ _ _ => True)
    (createRun 2 [] 6 ++ createRun 0 [] 6 ++ createRun 1 [some 0] 8 ++
      (((), some (.take 0)) :: List.replicate 12 ((), none)))
    (fun s => 1 < (twoLimits.unfinished s.shared true).card) (by decide)
  exact ⟨s, hs, _, rfl, le_refl 1, le_refl 2, hcard⟩

theorem unfinished_le_parallel_queued : ∃ s, (twoLimits.system Unit).Reached s ∧
    s.shared.limitQueue true = [1] ∧ (twoLimits.unfinished s.shared true).card ≤ 1 := by
  obtain ⟨s, hs, hqueue⟩ := System.exists_reachedBy (twoLimits.system Unit)
    (fun s l _ => twoLimits.admitting s l = true) (createRun 2 [] 6 ++ createRun 1 [] 6)
    (fun s => s.shared.limitQueue true = [1]) (by decide)
  exact ⟨s, hs.reached, hqueue, Layout.unfinished_le_parallel hs rfl⟩

end QuietFlow.Engine
