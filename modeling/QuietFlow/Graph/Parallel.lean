import QuietFlow.Graph.Released

/-! The slots of a limited graph.

`m_count` starts at `-parallel`, counts slots while it is negative and queued nodes while
it is positive. A slot is taken in `ready`, passed on to another node of the graph at the
end of `Graph::finish`, or given back: `slots_add` balances the slots with `m_count`, up
to the nodes another graph's `finish` returned without admission, and `queue_add` the
self queue with `m_count`. -/
namespace QuietFlow.Engine
open Runs Program

variable {N G : Type}

/-- Nodes that hold a slot of their graph. -/
def Frame.slots : Frame N G → List N
  | .dispatch n | .work _ (.leavePopped n) => [n]
  | .work _ (.leave next) | .work _ (.left next) => next.toList
  | .work _ (.tryEnqueue _) => []
  | .work u _ => [u]
  | _ => []

/-- Nodes admitted to the self queue and not pushed yet. -/
def Frame.pushes : Frame N G → List N
  | .enqueue n => [n]
  | _ => []

/-- Workers that are to pop a node from their graph's self queue. -/
def Frame.pops : Frame N G → List N
  | .work u (.pop _) => [u]
  | _ => []

namespace Layout
variable (L : Layout N G) {x x' : Shared N G} {old new : List (Frame N G)}

/-- A worker leaves with its slot passed on. -/
def Passes : Frame N G → Prop
  | .work u (.leave none) | .work u (.tryEnqueue _) => L.limited (L.graphOf u) = false
  | .work u (.leave (some n)) => L.limited (L.graphOf u) = true → L.graphOf n = L.graphOf u
  | .work u (.leavePopped n) => L.graphOf n = L.graphOf u
  | _ => True

variable {L}

theorem Ends.passes {u : N} {w : Work N} (h : L.Ends u w) : L.Passes (.work u w) := by
  cases h with
  | none hlim => exact hlim
  | next hsame _ => exact hsame
  | tryEnqueue hlim _ => exact hlim
  | tryDequeue _ => trivial

variable [DecidableEq N] [DecidableEq G]

theorem passes_step (h : L.Effect x old x' new) (hs : L.Sorted x) (hold : ∀ f ∈ old, L.Passes f) :
    ∀ f ∈ new, L.Passes f := by
  cases h
  case countDown u notified others last hone hleaves =>
    simp only [readyAll, List.forall_mem_append, List.forall_mem_map, List.forall_mem_singleton]
    exact ⟨fun _ _ => trivial, hleaves.ends.passes⟩
  case graphNotifyDone u notified others last hleaves =>
    simp only [readyAll, List.forall_mem_append, List.forall_mem_map, List.forall_mem_singleton]
    exact ⟨fun _ _ => trivial, hleaves.ends.passes⟩
  case tryEnqueueFull u n hm =>
    have hlim : L.limited (L.graphOf u) = false := hold _ List.mem_cons_self
    exact List.forall_mem_cons.mpr ⟨trivial, List.forall_mem_singleton.mpr hlim⟩
  case tryEnqueueSlot u n hm =>
    have hlim : L.limited (L.graphOf u) = false := hold _ List.mem_cons_self
    exact List.forall_mem_singleton.mpr fun h => by rw [hlim] at h; cases h
  case pop u temp n queue hqueue =>
    simp only [List.forall_mem_append, List.forall_mem_map, List.forall_mem_singleton]
    exact ⟨fun _ _ => trivial, hs _ n (by rw [hqueue]; exact List.mem_cons_self)⟩
  case left u next hst =>
    simp only [List.forall_mem_map]
    exact fun _ _ => trivial
  case sub d r rest | dup d u rest =>
    simp only [List.forall_mem_append, List.forall_mem_map, List.forall_mem_singleton]
    exact ⟨fun _ _ => trivial, trivial⟩
  all_goals simp [Passes]

/-! ### Slots -/

omit [DecidableEq N] in
/-- A worker passes its slot on to the node it leaves with. -/
theorem Ends.slots {u : N} {w : Work N} (h : L.Ends u w) {g : G} (hlim : L.limited g = true) :
    ((Frame.work u w : Frame N G).slots.map L.graphOf).count g = [L.graphOf u].count g := by
  cases h with
  | none hfree =>
    have hg : L.graphOf u ≠ g := fun he => by rw [he, hlim] at hfree; cases hfree
    simp [Frame.slots, hg]
  | @next n hsame hfree =>
    cases hu : L.limited (L.graphOf u) with
    | true => simp [Frame.slots, hsame hu]
    | false =>
      have hg : L.graphOf u ≠ g := fun he => by rw [he, hlim] at hu; cases hu
      have hgn : L.graphOf n ≠ g := fun he => by
        have hn := hfree hu
        rw [he, hlim] at hn
        cases hn
      simp [Frame.slots, hg, hgn]
  | tryEnqueue hfree _ =>
    have hg : L.graphOf u ≠ g := fun he => by rw [he, hlim] at hfree; cases hfree
    simp [Frame.slots, hg]
  | tryDequeue _ => rfl

theorem slots_step (h : L.Effect x old x' new) (hs : L.Sorted x) {g : G}
    (hlim : L.limited g = true) :
    ((x'.pool.map L.graphOf).count g : ℤ) - min 0 (x'.mCount g) - x'.bypassed g +
        weight (tally (fun f => f.slots.map L.graphOf) g) new =
      (x.pool.map L.graphOf).count g - min 0 (x.mCount g) - x.bypassed g +
        weight (tally (fun f => f.slots.map L.graphOf) g) old := by
  rw [weight_tally, weight_tally]
  cases h
  case take u hu =>
    have hperm := ((List.perm_cons_erase hu).map L.graphOf).count_eq g
    by_cases hg : L.graphOf u = g
    · simp [Frame.slots, hg] at hperm ⊢
      omega
    · simp [Frame.slots, hg] at hperm ⊢
      omega
  case ready c n hfree =>
    have hg : L.graphOf n ≠ g := fun he => by rw [he, hlim] at hfree; cases hfree
    simp [Frame.slots, hg]
  case readyFull c n hlim' hm =>
    by_cases hg : g = L.graphOf n
    · subst hg
      simp [Frame.slots]
      omega
    · simp [Frame.slots, Function.update_of_ne hg]
  case readySlot c n hlim' hm =>
    by_cases hg : g = L.graphOf n
    · subst hg
      simp [Frame.slots]
      omega
    · simp [Frame.slots, Function.update_of_ne hg, Ne.symm hg]
  case countDown u notified others last hone hleaves =>
    have hslots := hleaves.ends.slots hlim
    simp [Frame.slots, List.flatMap_map] at hslots ⊢
    omega
  case graphNotifyDone u notified others last hleaves =>
    have hslots := hleaves.ends.slots hlim
    simp [Frame.slots, List.flatMap_map] at hslots ⊢
    omega
  case tryEnqueueFull u n hm =>
    by_cases hg : g = L.graphOf n
    · subst hg
      simp [Frame.slots]
      omega
    · simp [Frame.slots, Function.update_of_ne hg]
  case tryEnqueueSlot u n hm =>
    by_cases hg : g = L.graphOf n
    · subst hg
      simp [Frame.slots]
      omega
    · simp [Frame.slots, Function.update_of_ne hg, Ne.symm hg]
  case tryDequeue u temp hm =>
    by_cases hg : g = L.graphOf u
    · subst hg
      simp [Frame.slots]
      omega
    · simp [Frame.slots, Function.update_of_ne hg]
  case tryDequeueEmpty u temp hm =>
    have hslot : ((temp.toList.map L.graphOf).count g : ℤ) =
        if (temp.map L.graphOf) = some g ∧ L.limited g = true then 1 else 0 := by
      cases temp with
      | none => simp
      | some n => by_cases hn : L.graphOf n = g <;> simp [hn, hlim]
    by_cases hg : g = L.graphOf u
    · subst hg
      simp [Frame.slots] at hslot ⊢
      split_ifs at hslot ⊢ <;> omega
    · simp [Frame.slots, Function.update_of_ne hg, Ne.symm hg] at hslot ⊢
      split_ifs at hslot ⊢ <;> omega
  case pop u temp n queue hqueue =>
    have hn : L.graphOf n = L.graphOf u := hs _ n (by rw [hqueue]; exact List.mem_cons_self)
    simp [Frame.slots, List.flatMap_map, hn]
  case left u next hst => cases next <;> simp [Frame.slots]
  all_goals simp [Frame.slots, List.flatMap_map]
  all_goals omega

/-! ### The self queue -/

theorem queue_step (h : L.Effect x old x' new) (g : G) :
    ((x'.limitQueue g).length : ℤ) - max 0 (x'.mCount g) +
        weight (fun f => tally (fun f => f.pushes.map L.graphOf) g f -
          tally (fun f => f.pops.map L.graphOf) g f) new =
      (x.limitQueue g).length - max 0 (x.mCount g) +
        weight (fun f => tally (fun f => f.pushes.map L.graphOf) g f -
          tally (fun f => f.pops.map L.graphOf) g f) old := by
  rw [weight_sub, weight_sub, weight_tally, weight_tally, weight_tally, weight_tally]
  cases h
  case readyFull c n hlim hm | readySlot c n hlim hm | tryEnqueueFull u n hm
      | tryEnqueueSlot u n hm =>
    by_cases hg : g = L.graphOf n
    · subst hg
      simp [Frame.pushes, Frame.pops]
      omega
    · simp [Frame.pushes, Frame.pops, Function.update_of_ne hg, Ne.symm hg]
  case enqueue n =>
    by_cases hg : g = L.graphOf n
    · subst hg
      simp [Frame.pushes, Frame.pops]
      omega
    · simp [Frame.pushes, Frame.pops, Function.update_of_ne hg, Ne.symm hg]
  case tryDequeue u temp hm | tryDequeueEmpty u temp hm =>
    by_cases hg : g = L.graphOf u
    · subst hg
      simp [Frame.pushes, Frame.pops]
      omega
    · simp [Frame.pushes, Frame.pops, Function.update_of_ne hg, Ne.symm hg]
  case pop u temp n queue hqueue =>
    by_cases hg : g = L.graphOf u
    · subst hg
      simp [Frame.pushes, Frame.pops, hqueue, List.flatMap_map]
      omega
    · simp [Frame.pushes, Frame.pops, Function.update_of_ne hg, Ne.symm hg, List.flatMap_map]
  case countDown u notified others last hone hleaves =>
    cases hleaves.ends <;> simp [Frame.pushes, Frame.pops, List.flatMap_map]
  case graphNotifyDone u notified others last hleaves =>
    cases hleaves.ends <;> simp [Frame.pushes, Frame.pops, List.flatMap_map]
  all_goals simp [Frame.pushes, Frame.pops, List.flatMap_map]

section Reached
variable {T : Type} [DecidableEq T] [Fintype T] {s : Config (Shared N G) (Frame N G) T}
  {ok : Config (Shared N G) (Frame N G) T → T × Option (Act N G) → Config (Shared N G) (Frame N G) T → Prop}

omit [Fintype T] in
theorem passes (h : (L.system T).ReachedBy ok s) : ∀ f, s.HasFrame f → L.Passes f :=
  (invariant (I := fun _ => True) (J := fun _ => L.Passes) trivial
    (fun _ _ _ _ _ _ htook _ hj => ⟨trivial,
      passes_step (effect_of_moves htook.moves) (sorted htook.reached) fun f hf =>
        hj f (htook.hasFrame hf), fun _ _ hf => hf⟩) h).2

/-- The nodes of a limited graph that hold a slot, and the slots that are free, are as many as
the graph admits in parallel and as were returned without admission. -/
theorem slots_add (h : (L.system T).ReachedBy ok s) {g : G} {l : Limit} (hl : L.limit g = some l) :
    ((s.shared.pool.map L.graphOf).count g : ℤ) + total (tally (fun f => f.slots.map L.graphOf) g) s =
      l.parallel + min 0 (s.shared.mCount g) + s.shared.bypassed g := by
  have hlim : L.limited g = true := by rw [limited, hl]; rfl
  have hbal := balance
    (fun x => ((x.pool.map L.graphOf).count g : ℤ) - min 0 (x.mCount g) - x.bypassed g)
    (fun _ => tally (fun f => f.slots.map L.graphOf) g)
    (fun _ _ _ _ _ _ htook =>
      ⟨slots_step (effect_of_moves htook.moves) (sorted htook.reached) hlim, fun _ _ => rfl⟩) h
  have hstart : ((L.program.start.pool.map L.graphOf).count g : ℤ) -
      min 0 (L.program.start.mCount g) - L.program.start.bypassed g = l.parallel := by
    simp [program, start, hl]
  omega

/-- The self queue holds what `m_count` counts, up to pushes and pops to come. -/
theorem queue_add (h : (L.system T).ReachedBy ok s) (g : G) :
    ((s.shared.limitQueue g).length : ℤ) + total (fun f => tally (fun f => f.pushes.map L.graphOf) g f -
      tally (fun f => f.pops.map L.graphOf) g f) s = max 0 (s.shared.mCount g) := by
  have hbal := balance (fun x => ((x.limitQueue g).length : ℤ) - max 0 (x.mCount g))
    (fun _ f => tally (fun f => f.pushes.map L.graphOf) g f - tally (fun f => f.pops.map L.graphOf) g f)
    (fun _ _ _ _ _ _ htook => ⟨queue_step (effect_of_moves htook.moves) g, fun _ _ => rfl⟩) h
  have hstart : ((L.program.start.limitQueue g).length : ℤ) - max 0 (L.program.start.mCount g) = 0 := by
    simp only [program, start]
    cases L.limit g <;> simp
  omega

end Reached
end Layout
end QuietFlow.Engine
