import QuietFlow.Graph.Edges

/-! `Node::add_downstream` and `Node::finish` with nobody in between, and the variant that
keeps every registration in `down_streams`.

The bitmap holds back one decrement for each node and settles the other registrations at
once; the list holds all of them back. `Bitmap` and `Vector` say what is left of the state
before the first call in each variant, by how often each node was registered. -/
namespace QuietFlow.Engine
open Runs Program

variable {N G : Type} [DecidableEq N]

namespace Shared
variable {u : N}

/-- `d->sub_wait_count()` on behalf of `u`, with the node that `ready` is called for. -/
def sub (s : Shared N G) (u d : N) : Shared N G × List N := (s.pay (some u) d, s.woken d)

def mark (s : Shared N G) (u d : N) : Shared N G :=
  {s with
    fastDownStrams :=
      Function.update s.fastDownStrams u (bitMapSet (s.fastDownStrams u) (s.nodeId d) fastNodeMaxNum)
    marked := Function.update s.marked u (s.marked u ++ [d])}

/-- What a call does once the bit is set: it decrements the count if the bitmap was saved
without the bit. -/
def settle (s : Shared N G) (u d : N) : Shared N G × List N :=
  if s.fastDownStramsBak u = bakInit ∨
      bitMapGet (s.fastDownStramsBak u) (s.nodeId d) fastNodeMaxNum then (s, [])
  else s.sub u d

def push (s : Shared N G) (u d : N) : Shared N G :=
  {s with downStreams := Function.update s.downStreams u (s.downStreams u ++ [d])}

def save (s : Shared N G) (u : N) : Shared N G :=
  {s with
    fastDownStramsBak :=
      Function.update s.fastDownStramsBak u (s.fastDownStrams u)}.pass .snapshot u

@[simp] theorem save_bak (s : Shared N G) (u : N) :
    (s.save u).fastDownStramsBak u = s.fastDownStrams u := Function.update_self u _ _

/-- `sub_wait_count` of each node, adding those whose count it brings to zero. -/
def notifyAll (s : Shared N G) (u : N) : List N → List N → Shared N G × List N
  | [], notified => (s, notified)
  | d :: list, notified => notifyAll (s.pay (some u) d) u list (notified ++ s.woken d)

theorem notifyAll_waitCount (list : List N) (s : Shared N G) (notified : List N) (d : N) :
    (s.notifyAll u list notified).1.waitCount d = s.waitCount d - list.count d := by
  induction list generalizing s notified with
  | nil => simp [Shared.notifyAll]
  | cons n list ih =>
    rw [Shared.notifyAll, ih, List.count_cons]
    by_cases hn : n = d
    · subst hn
      simp only [Shared.pay, Function.update_self, beq_self_eq_true, if_true]
      push_cast
      omega
    · simp [Function.update_of_ne (Ne.symm hn), hn]

/-- A node is notified once if the decrements reach its count. -/
theorem count_notifyAll (list : List N) (s : Shared N G) (notified : List N) (d : N) :
    (s.notifyAll u list notified).2.count d =
      notified.count d + if 1 ≤ s.waitCount d ∧ s.waitCount d ≤ list.count d then 1 else 0 := by
  induction list generalizing s notified with
  | nil =>
    have hnone : ¬ (1 ≤ s.waitCount d ∧ s.waitCount d ≤ ([] : List N).count d) := by simp; omega
    rw [Shared.notifyAll, if_neg hnone, Nat.add_zero]
  | cons n list ih =>
    rw [Shared.notifyAll, ih, List.count_append, List.count_cons]
    by_cases hn : n = d
    · subst hn
      have hwoken : (s.woken n).count n = if s.waitCount n = 1 then 1 else 0 := by
        unfold Shared.woken
        split <;> simp
      simp only [hwoken, Shared.pay, Function.update_self, beq_self_eq_true, if_true]
      split_ifs <;> push_cast at * <;> omega
    · have hwoken : (s.woken n).count d = 0 := by
        unfold Shared.woken
        split <;> simp [hn]
      simp [hwoken, Function.update_of_ne (Ne.symm hn), hn]

theorem notifyAll_downStreams (list : List N) (s : Shared N G) (notified : List N) :
    (s.notifyAll u list notified).1.downStreams = s.downStreams := by
  induction list generalizing s notified with
  | nil => rfl
  | cons d list ih => exact ih _ _

end Shared

/-- A call of `add_downstream`: the status its node has by then, and the argument. -/
structure Registration (N : Type) where
  status : RunningStatus
  node : N

namespace Layout
variable [DecidableEq G] (L : Layout N G)

/-- `u->add_downstream(d)`. -/
def addDownstreamAlone (s : Shared N G) (u d : N) : Shared N G × List N :=
  if u = d then s.sub u d
  else if (s.status u).ended then s.sub u d
  else if s.parentSet u ∧ L.graphOf u = L.graphOf d ∧ s.nodeId d < fastNodeMaxNum then
    let early :=
      if bitMapGet (s.fastDownStrams u) (s.nodeId d) fastNodeMaxNum then s.sub u d
      else (s.mark u d, [])
    let late := early.1.settle u d
    (late.1, early.2 ++ late.2)
  else if (s.status u).ended then s.sub u d
  else (s.push u d, [])

/-- The variant without the bitmap: what `add_downstream` does for a node of another graph. -/
def addDownstreamVector (s : Shared N G) (u d : N) : Shared N G × List N :=
  if u = d then s.sub u d
  else if (s.status u).ended then s.sub u d
  else (s.push u d, [])

/-- The loop over the saved bitmap in `Node::finish`. -/
def notifyBits (s : Shared N G) (u : N) : List ℕ → List N → Option (Shared N G × List N)
  | [], notified => some (s, notified)
  | idx :: idxs, notified => (s.fastNodes (L.graphOf u) idx).bind fun d =>
    notifyBits (s.pay (some u) d) u idxs (notified ++ s.woken d)

/-- `u->finish()`, up to the call of `Graph::finish`, with the nodes passed to it. -/
def finishAlone (s : Shared N G) (u : N) : Option (Shared N G × List N) :=
  if s.status u = .running then
    let saved := ((s.setStatus u .finish).pass .finish u).save u
    (L.notifyBits saved u (bitMapIdx (saved.fastDownStramsBak u) fastNodeMaxNum) []).map
      fun (s, notified) => (s.pass .drain u).notifyAll u (s.downStreams u) notified
  else none

/-- Calls of `add_downstream` on `u` one after the other, with the nodes that each brings to
zero. -/
def registerAll (add : Shared N G → N → N → Shared N G × List N) (u : N) :
    List (Registration N) → Shared N G → Shared N G × List (List N)
  | [], s => (s, [])
  | r :: rest, s =>
    let after := add (s.setStatus u r.status) u r.node
    let last := registerAll add u rest after.1
    (last.1, after.2 :: last.2)

/-! ### The steps of a thread that nobody interrupts -/

/-- The top frame of a thread takes steps, with the nodes that `c` calls `ready` for. -/
inductive Alone (c : Caller N) : Shared N G → Frame N G → List N → Shared N G → Frame N G → Prop where
  | refl {x f} : Alone c x f [] x f
  | step {x f y g z h ns ms} : L.exec x f = some (y, ns.map (.ready c) ++ [g]) →
    Alone c y g ms z h → Alone c x f (ns ++ ms) z h

variable {L} {s : Shared N G} {u d : N}

namespace Alone
variable {c : Caller N} {x y z : Shared N G} {f g h : Frame N G} {ns : List N}

/-- A step that calls nothing. -/
theorem silent (hexec : L.exec x f = some (y, [g])) (hrest : L.Alone c y g ns z h) :
    L.Alone c x f ns z h :=
  .step (show _ = some (y, [].map _ ++ [g]) from hexec) hrest

theorem one (hexec : L.exec x f = some (y, ns.map (.ready c) ++ [g])) : L.Alone c x f ns y g := by
  have hstep := Alone.step hexec .refl
  rwa [List.append_nil] at hstep

theorem trans {ms : List N} (hfirst : L.Alone c x f ns y g) (hrest : L.Alone c y g ms z h) :
    L.Alone c x f (ns ++ ms) z h := by
  induction hfirst with
  | refl => exact hrest
  | step hexec _ ih =>
    rw [List.append_assoc]
    exact .step hexec (ih hrest)

end Alone

/-- A thread that nobody interrupts computes `addDownstreamAlone`. -/
theorem alone_addDownstream (s : Shared N G) (u d : N) (rest : List (Option N)) :
    L.Alone (.create d) s (.build d (.edges (some u :: rest))) (L.addDownstreamAlone s u d).2
      (L.addDownstreamAlone s u d).1 (.build d (.edges rest)) := by
  have hsub : ∀ x : Shared N G, L.Alone (.create d) x (.build d (.sub (some u) rest)) (x.sub u d).2
      (x.sub u d).1 (.build d (.edges rest)) := fun x => .one rfl
  have hsettle : ∀ x : Shared N G, L.Alone (.create d) x (.build d (.edge u .readBak rest))
      (x.settle u d).2 (x.settle u d).1 (.build d (.edges rest)) := by
    intro x
    unfold Shared.settle
    split
    · next hb => exact .silent (by simp only [exec, createEdges, addDownstream, if_pos hb]) .refl
    · next hb =>
      exact .silent (y := x) (by simp only [exec, createEdges, addDownstream, if_neg hb]) (hsub x)
  unfold addDownstreamAlone
  by_cases hself : u = d
  · rw [if_pos hself]
    exact .silent (y := s) (g := .build d (.sub (some u) rest))
      (by simp only [exec, createEdges, if_pos hself]) (hsub s)
  rw [if_neg hself]
  refine .silent (y := s) (g := .build d (.edge u .status rest))
    (by simp only [exec, createEdges, if_neg hself]) ?_
  by_cases hended : (s.status u).ended = true
  · rw [if_pos hended]
    exact .silent (y := s) (by simp only [exec, createEdges, addDownstream, if_pos hended]) (hsub s)
  rw [if_neg hended]
  refine .silent (y := s) (g := .build d (.edge u .sameGraph rest))
    (by simp only [exec, createEdges, addDownstream, if_neg hended]) ?_
  by_cases hnear : s.parentSet u ∧ L.graphOf u = L.graphOf d ∧ s.nodeId d < fastNodeMaxNum
  · rw [if_pos hnear]
    refine .silent (y := s) (g := .build d (.edge u .testBit rest))
      (by simp only [exec, createEdges, addDownstream, if_pos hnear]) ?_
    by_cases hbit : bitMapGet (s.fastDownStrams u) (s.nodeId d) fastNodeMaxNum = true
    · rw [if_pos hbit]
      refine .silent (y := s) (g := .build d (.edge u .dup rest))
        (by simp only [exec, createEdges, addDownstream, if_pos hbit]) ?_
      exact .step (y := (s.sub u d).1) rfl (hsettle _)
    · rw [if_neg hbit]
      refine .silent (y := s) (g := .build d (.edge u .loadBits rest))
        (by simp only [exec, createEdges, addDownstream, if_neg hbit]) ?_
      refine .silent (y := s) (g := .build d (.edge u (.storeBits (s.fastDownStrams u)) rest)) rfl ?_
      exact .silent (y := s.mark u d) rfl (hsettle _)
  · rw [if_neg hnear, if_neg hended]
    refine .silent (y := s) (g := .build d (.edge u .lock rest))
      (by simp only [exec, createEdges, addDownstream, if_neg hnear]) ?_
    exact .silent (y := s.push u d)
      (by simp only [exec, createEdges, addDownstream, if_neg hended, Shared.push]) .refl

theorem alone_notifyBits (idxs : List ℕ) {s x : Shared N G} {notified notified' : List N}
    (h : L.notifyBits s u idxs notified = some (x, notified')) :
    L.Alone (.finish u) s (.work u (.bits idxs notified)) [] x (.work u (.bits [] notified')) := by
  induction idxs generalizing s notified with
  | nil =>
    cases h
    exact .refl
  | cons idx idxs ih =>
    obtain ⟨d, hd, hrest⟩ := Option.bind_eq_some_iff.mp h
    refine .silent (y := s) (g := .work u (.notifyBit d idxs notified)) ?_
      (.silent (y := s.pay (some u) d) rfl (ih hrest))
    rw [exec, runTask, hd, Option.map_some]

theorem alone_notifyAll (list : List N) (s : Shared N G) (notified : List N) :
    L.Alone (.finish u) s (.work u (.notify list notified)) [] (s.notifyAll u list notified).1
      (.work u (.notify [] (s.notifyAll u list notified).2)) := by
  induction list generalizing s notified with
  | nil => exact .refl
  | cons d list ih => exact .silent (y := s.pay (some u) d) rfl (ih _ _)

/-- A thread that nobody interrupts computes `finishAlone`. -/
theorem alone_finish {x : Shared N G} {notified : List N}
    (h : L.finishAlone s u = some (x, notified)) :
    L.Alone (.finish u) s (.work u .running) [] x (.work u (.graphCount notified)) := by
  unfold finishAlone at h
  split at h
  · next hrunning =>
    obtain ⟨⟨y, marked⟩, hbits, hlast⟩ := Option.map_eq_some_iff.mp h
    have hlast : (y.pass .drain u).notifyAll u (y.downStreams u) marked = (x, notified) := hlast
    rw [Shared.save_bak] at hbits
    refine .silent (y := (s.setStatus u .finish).pass .finish u) (g := .work u .snapshot) ?_ ?_
    · rw [exec, runTask, if_pos hrunning]
    refine .silent (y := ((s.setStatus u .finish).pass .finish u).save u) rfl ?_
    refine (alone_notifyBits _ hbits).trans (.silent (y := y) (g := .work u (.drain marked)) rfl ?_)
    refine .silent (y := y.pass .drain u) (g := .work u (.notify (y.downStreams u) marked)) rfl ?_
    have hall := alone_notifyAll (u := u) (L := L) (y.downStreams u) (y.pass .drain u) marked
    rw [hlast] at hall
    exact hall.trans (.silent rfl .refl)
  · cases h

omit [DecidableEq G] in
/-- The loop over the bits decrements the nodes that `get_node` finds. -/
theorem notifyBits_eq (idxs : List ℕ) (s : Shared N G) (notified : List N)
    (hfound : ∀ i ∈ idxs, (s.fastNodes (L.graphOf u) i).isSome) :
    L.notifyBits s u idxs notified =
      some (s.notifyAll u (idxs.filterMap (s.fastNodes (L.graphOf u))) notified) := by
  induction idxs generalizing s notified with
  | nil => rfl
  | cons i idxs ih =>
    obtain ⟨d, hd⟩ := Option.isSome_iff_exists.mp (hfound i List.mem_cons_self)
    rw [notifyBits, hd, Option.bind_some, ih (s.pay (some u) d) _ fun j hj => hfound j (List.mem_cons_of_mem i hj),
      List.filterMap_cons_some hd]
    rfl

/-! ### What each variant keeps back -/

/-- `add_downstream` uses the bitmap. -/
def Fast (L : Layout N G) (s : Shared N G) (u d : N) : Prop :=
  u ≠ d ∧ s.parentSet u ∧ L.graphOf u = L.graphOf d ∧ s.nodeId d < fastNodeMaxNum

instance (s : Shared N G) (u d : N) : Decidable (L.Fast s u d) := by
  unfold Fast
  infer_instance

/-- How often `d` was decremented when the nodes `ds` were registered with the bitmap. -/
def settled (L : Layout N G) (s : Shared N G) (u : N) (ds : List N) (d : N) : ℕ :=
  if u = d then ds.count d else if L.Fast s u d then ds.count d - 1 else 0

/-- A state after the nodes `ds` were registered in a state `o`. -/
structure Bitmap (L : Layout N G) (o s : Shared N G) (u : N) (ds : List N) : Prop where
  count : ∀ d, s.waitCount d = o.waitCount d - L.settled o u ds d
  word : ∀ i, (s.fastDownStrams u).getLsbD i = true ↔ ∃ d ∈ ds, L.Fast o u d ∧ o.nodeId d = i
  list : s.downStreams u = ds.filter fun d => u ≠ d ∧ ¬ L.Fast o u d
  bak : s.fastDownStramsBak u = bakInit
  parentSet : s.parentSet = o.parentSet
  nodeId : s.nodeId = o.nodeId
  fastNodes : s.fastNodes = o.fastNodes

/-- The same in the variant without the bitmap. -/
structure Listed (o s : Shared N G) (u : N) (ds : List N) : Prop where
  count : ∀ d, s.waitCount d = o.waitCount d - if u = d then ds.count d else 0
  list : s.downStreams u = ds.filter fun d => u ≠ d
  word : s.fastDownStrams u = 0

/-- Whom a call of `add_downstream` on a node that has not finished brings to zero: the node
itself, if it waits for itself. -/
def early (o : Shared N G) (u : N) (ds : List N) (d : N) : List N :=
  if u = d ∧ o.waitCount d - ds.count d = 1 then [d] else []

variable {o : Shared N G} {ds : List N}

/-- The last registration is kept back. -/
theorem settled_lt (hself : u ≠ d) (hd : d ∈ ds) : L.settled o u ds d < ds.count d := by
  have hpos : 0 < ds.count d := List.count_pos_iff.mpr hd
  rw [settled, if_neg hself]
  split <;> omega

theorem settled_other {n : N} (hne : n ≠ d) : L.settled o u (ds ++ [d]) n = L.settled o u ds n := by
  have hcount : (ds ++ [d]).count n = ds.count n := by simp [Ne.symm hne]
  rw [settled, hcount]
  rfl

namespace Bitmap

/-- A decrement at once, for the node itself or for a bit that is set. -/
theorem sub (h : L.Bitmap o s u ds) (hsettled : L.settled o u (ds ++ [d]) d = L.settled o u ds d + 1)
    (hkept : u = d ∨ L.Fast o u d) (hmem : L.Fast o u d → d ∈ ds) :
    L.Bitmap o (s.sub u d).1 u (ds ++ [d]) where
  count n := by
    by_cases hn : n = d
    · subst hn
      simp only [Shared.sub, Shared.pay, Function.update_self, h.count, hsettled]
      push_cast
      omega
    · simp only [Shared.sub, Shared.pay, Function.update_of_ne hn, h.count, settled_other hn]
  word i := by
    refine (h.word i).trans ⟨fun hn => ?_, fun hn => ?_⟩
    · obtain ⟨n, hn, hrest⟩ := hn
      exact ⟨n, List.mem_append_left _ hn, hrest⟩
    · obtain ⟨n, hn, hrest⟩ := hn
      refine ⟨n, (List.mem_append.mp hn).elim id fun hd => ?_, hrest⟩
      cases List.mem_singleton.mp hd
      exact hmem hrest.1
  list := by
    have hdrop : ¬ (u ≠ d ∧ ¬ L.Fast o u d) := fun hboth => hkept.elim hboth.1 hboth.2
    rw [List.filter_append, List.filter_singleton, decide_eq_false hdrop, cond_false, List.append_nil]
    exact h.list
  bak := h.bak
  parentSet := h.parentSet
  nodeId := h.nodeId
  fastNodes := h.fastNodes

/-- The first registration with the bitmap. -/
theorem mark (h : L.Bitmap o s u ds) (hfast : L.Fast o u d) (hd : d ∉ ds) :
    L.Bitmap o (s.mark u d) u (ds ++ [d]) where
  count n := by
    rw [show (s.mark u d).waitCount = s.waitCount from rfl, h.count n]
    by_cases hn : n = d
    · subst hn
      simp [settled, hfast.1, hfast, List.count_eq_zero.mpr hd]
    · rw [settled_other hn]
  word i := by
    simp only [Shared.mark, Function.update_self, getLsbD_bitMapSet, Bool.or_eq_true, h.word i,
      decide_eq_true_eq, h.nodeId]
    constructor
    · intro hi
      rcases hi with ⟨n, hn, hrest⟩ | ⟨hid, -⟩
      · exact ⟨n, List.mem_append_left _ hn, hrest⟩
      · exact ⟨d, List.mem_append_right _ List.mem_cons_self, hfast, hid⟩
    · intro hi
      obtain ⟨n, hn, hnfast, hid⟩ := hi
      rcases List.mem_append.mp hn with hn | hn
      · exact .inl ⟨n, hn, hnfast, hid⟩
      · cases List.mem_singleton.mp hn
        exact .inr ⟨hid, hfast.2.2.2⟩
  list := by
    rw [List.filter_append, List.filter_singleton,
      decide_eq_false (fun hboth => hboth.2 hfast), cond_false, List.append_nil]
    exact h.list
  bak := h.bak
  parentSet := h.parentSet
  nodeId := h.nodeId
  fastNodes := h.fastNodes

theorem push (h : L.Bitmap o s u ds) (hself : u ≠ d) (hslow : ¬ L.Fast o u d) :
    L.Bitmap o (s.push u d) u (ds ++ [d]) where
  count n := by
    rw [show (s.push u d).waitCount = s.waitCount from rfl, h.count n]
    by_cases hn : n = d
    · subst hn
      simp [settled, hself, hslow]
    · rw [settled_other hn]
  word i := by
    rw [show (s.push u d).fastDownStrams = s.fastDownStrams from rfl, h.word i]
    simp [hslow]
  list := by simp [Shared.push, h.list, hself, hslow]
  bak := h.bak
  parentSet := h.parentSet
  nodeId := h.nodeId
  fastNodes := h.fastNodes

/-- A call of `add_downstream` on a node that has not finished. -/
theorem add (h : L.Bitmap o s u ds) (hst : (s.status u).ended = false)
    (hunique : ∀ n ∈ ds, L.Fast o u n → L.Fast o u d → o.nodeId n = o.nodeId d → n = d)
    (hcount : ds.count d < o.waitCount d) :
    L.Bitmap o (L.addDownstreamAlone s u d).1 u (ds ++ [d]) ∧
      (L.addDownstreamAlone s u d).2 = early o u ds d := by
  have hend : ¬ (s.status u).ended = true := by rw [hst]; exact Bool.false_ne_true
  have hsettle : ∀ x : Shared N G, L.Bitmap o x u (ds ++ [d]) → x.settle u d = (x, []) :=
    fun x hx => if_pos (.inl hx.bak)
  unfold addDownstreamAlone
  by_cases hself : u = d
  · rw [if_pos hself]
    refine ⟨h.sub (by simp [settled, hself]) (.inl hself) fun hfast => absurd hself hfast.1, ?_⟩
    simp [Shared.sub, Shared.woken, early, h.count, settled, hself]
  have hearly : early o u ds d = [] := if_neg fun hboth => hself hboth.1
  rw [if_neg hself, if_neg hend, hearly]
  have hnear : (s.parentSet u ∧ L.graphOf u = L.graphOf d ∧ s.nodeId d < fastNodeMaxNum) ↔
      L.Fast o u d := by
    rw [h.parentSet, h.nodeId]
    exact ⟨fun hnear => ⟨hself, hnear⟩, fun hfast => hfast.2⟩
  by_cases hfast : L.Fast o u d
  · rw [if_pos (hnear.mpr hfast)]
    have hbit : bitMapGet (s.fastDownStrams u) (s.nodeId d) fastNodeMaxNum = true ↔ d ∈ ds := by
      rw [bitMapGet_eq, Bool.and_eq_true, decide_eq_true_eq, h.word, h.nodeId]
      refine ⟨fun hb => ?_, fun hd => ⟨hfast.2.2.2, d, hd, hfast, rfl⟩⟩
      obtain ⟨-, n, hn, hnfast, hid⟩ := hb
      exact hunique n hn hnfast hfast hid ▸ hn
    by_cases hd : d ∈ ds
    · have hpos : 0 < ds.count d := List.count_pos_iff.mpr hd
      have hsettled : L.settled o u ds d = ds.count d - 1 := by simp [settled, hself, hfast]
      have hnext : L.settled o u (ds ++ [d]) d = L.settled o u ds d + 1 := by
        simp [settled, hself, hfast]
        omega
      have hsub := h.sub hnext (.inr hfast) fun _ => hd
      -- the registrations not settled yet keep the count above one
      have hne : s.waitCount d ≠ 1 := by
        rw [h.count d, hsettled]
        omega
      rw [if_pos (hbit.mpr hd)]
      simp only [hsettle _ hsub]
      exact ⟨hsub, by simp [Shared.sub, Shared.woken, hne]⟩
    · rw [if_neg (fun hb => hd (hbit.mp hb))]
      simp only [hsettle _ (h.mark hfast hd)]
      exact ⟨h.mark hfast hd, rfl⟩
  · rw [if_neg (fun hb => hfast (hnear.mp hb)), if_neg hend]
    exact ⟨h.push hself hfast, rfl⟩

end Bitmap

omit [DecidableEq G] in
/-- A call in the variant without the bitmap. -/
theorem Listed.add (h : Listed o s u ds) (hst : (s.status u).ended = false) :
    Listed o (addDownstreamVector s u d).1 u (ds ++ [d]) ∧
      (addDownstreamVector s u d).2 = early o u ds d := by
  have hend : ¬ (s.status u).ended = true := by rw [hst]; exact Bool.false_ne_true
  unfold addDownstreamVector
  by_cases hself : u = d
  · subst hself
    rw [if_pos rfl]
    refine ⟨⟨fun n => ?_, by simpa [Shared.sub] using h.list, h.word⟩, ?_⟩
    · by_cases hn : n = u
      · subst hn
        simp [Shared.sub, h.count]
        omega
      · simp [Shared.sub, Function.update_of_ne hn, h.count, Ne.symm hn]
    · simp [Shared.sub, Shared.woken, early, h.count]
  · rw [if_neg hself, if_neg hend]
    refine ⟨⟨fun n => ?_, by simp [Shared.push, h.list, hself], h.word⟩, ?_⟩
    · rw [show (s.push u d).waitCount = s.waitCount from rfl, h.count n]
      by_cases hn : u = n
      · subst hn
        simp [Ne.symm hself]
      · simp [hn]
    · exact (if_neg fun hboth => hself hboth.1).symm

/-! ### Runs of calls -/

/-- `get_node` finds a node under its id. -/
def Found (L : Layout N G) (s : Shared N G) (d : N) : Prop :=
  s.nodeId d < fastNodeMaxNum → s.fastNodes (L.graphOf d) (s.nodeId d) = some d

omit [DecidableEq N] [DecidableEq G] in
/-- Every node that is stored is found. -/
theorem Kept.found {x : Shared N G} (hk : L.Kept x) (hd : d ∈ x.passed .store) : L.Found x d :=
  (hk.stored d hd).2

variable {t : Shared N G} {rs : List (Registration N)}

theorem registerAll_early (hs : L.Bitmap o s u ds) (ht : Listed o t u ds)
    (hst : ∀ r ∈ rs, r.status.ended = false)
    (hunique : ∀ n ∈ ds ++ rs.map Registration.node, ∀ n' ∈ ds ++ rs.map Registration.node,
      L.Fast o u n → L.Fast o u n' → o.nodeId n = o.nodeId n' → n = n')
    (hcount : ∀ d ∈ rs.map Registration.node,
      ((ds ++ rs.map Registration.node).count d : ℤ) ≤ o.waitCount d) :
    L.Bitmap o (registerAll L.addDownstreamAlone u rs s).1 u (ds ++ rs.map Registration.node) ∧
      Listed o (registerAll addDownstreamVector u rs t).1 u (ds ++ rs.map Registration.node) ∧
      (registerAll L.addDownstreamAlone u rs s).2 = (registerAll addDownstreamVector u rs t).2 := by
  induction rs generalizing s t ds with
  | nil =>
    rw [List.map_nil, List.append_nil]
    exact ⟨hs, ht, rfl⟩
  | cons r rs ih =>
    obtain ⟨st, d⟩ := r
    have hend : st.ended = false := hst _ List.mem_cons_self
    have hassoc : ds ++ (Registration.mk st d :: rs).map Registration.node =
        (ds ++ [d]) ++ rs.map Registration.node := by simp
    rw [hassoc] at hunique hcount ⊢
    have hroom : ds.count d < o.waitCount d := by
      have hd := hcount d List.mem_cons_self
      rw [List.count_append, List.count_append, List.count_singleton_self] at hd
      push_cast at hd
      omega
    have hfast : L.Bitmap o (s.setStatus u st) u ds :=
      ⟨hs.count, hs.word, hs.list, hs.bak, hs.parentSet, hs.nodeId, hs.fastNodes⟩
    have hlist : Listed o (t.setStatus u st) u ds := ⟨ht.count, ht.list, ht.word⟩
    have hmem : ∀ n, n ∈ ds → n ∈ (ds ++ [d]) ++ rs.map Registration.node := fun n hn =>
      List.mem_append_left _ (List.mem_append_left _ hn)
    have hlast : d ∈ (ds ++ [d]) ++ rs.map Registration.node :=
      List.mem_append_left _ (List.mem_append_right _ List.mem_cons_self)
    obtain ⟨hs', hearly⟩ := hfast.add (by simpa using hend)
      (fun n hn => hunique n (hmem n hn) d hlast) hroom
    obtain ⟨ht', hearly'⟩ := hlist.add (d := d) (by simpa using hend)
    obtain ⟨hbitmap, hlisted, hrest⟩ := ih hs' ht' (fun r hr => hst r (List.mem_cons_of_mem _ hr))
      hunique (fun n hn => hcount n (List.mem_cons_of_mem _ hn))
    refine ⟨hbitmap, hlisted, ?_⟩
    rw [registerAll, registerAll, hrest, hearly, hearly']

/-- After `finish` both variants decrement at once. -/
theorem registerAll_late (hsame : s.waitCount = t.waitCount)
    (hst : ∀ r ∈ rs, r.status.ended = true) :
    (registerAll L.addDownstreamAlone u rs s).2 = (registerAll addDownstreamVector u rs t).2 ∧
      (registerAll L.addDownstreamAlone u rs s).1.waitCount =
        (registerAll addDownstreamVector u rs t).1.waitCount := by
  induction rs generalizing s t with
  | nil => exact ⟨rfl, hsame⟩
  | cons r rs ih =>
    obtain ⟨st, d⟩ := r
    have hend : st.ended = true := hst _ List.mem_cons_self
    have hfast : L.addDownstreamAlone (s.setStatus u st) u d = (s.setStatus u st).sub u d := by
      simp [addDownstreamAlone, hend]
    have hlist : addDownstreamVector (t.setStatus u st) u d = (t.setStatus u st).sub u d := by
      simp [addDownstreamVector, hend]
    have hwoken : ((s.setStatus u st).sub u d).2 = ((t.setStatus u st).sub u d).2 := by
      have hd : (s.setStatus u st).waitCount d = (t.setStatus u st).waitCount d := congrFun hsame d
      rw [Shared.sub, Shared.sub, Shared.woken, Shared.woken, hd]
    obtain ⟨hrest, hcount⟩ := ih (s := ((s.setStatus u st).sub u d).1)
      (t := ((t.setStatus u st).sub u d).1) (by simp [Shared.sub, hsame])
      fun r hr => hst r (List.mem_cons_of_mem _ hr)
    rw [registerAll, registerAll, hfast, hlist]
    exact ⟨by rw [hwoken, hrest], hcount⟩

omit [DecidableEq G] in
/-- What `finish` decrements and whom it notifies. -/
theorem finishAlone_spec (hrunning : s.status u = .running)
    (hfound : ∀ i, (s.fastDownStrams u).getLsbD i = true → (s.fastNodes (L.graphOf u) i).isSome)
    {marked : List N} (hmarked : (bitMapIdx (s.fastDownStrams u) fastNodeMaxNum).filterMap
      (s.fastNodes (L.graphOf u)) = marked) :
    ∃ x notified, L.finishAlone s u = some (x, notified) ∧
      (∀ d, x.waitCount d = s.waitCount d - (marked ++ s.downStreams u).count d) ∧
      ∀ d, notified.count d = if 1 ≤ s.waitCount d ∧
        s.waitCount d ≤ (marked ++ s.downStreams u).count d then 1 else 0 := by
  have hbits := notifyBits_eq (L := L) (u := u) (bitMapIdx (s.fastDownStrams u) fastNodeMaxNum)
    (((s.setStatus u .finish).pass .finish u).save u) [] fun i hi => hfound i (mem_bitMapIdx.mp hi).2
  change _ = some (Shared.notifyAll _ u ((bitMapIdx (s.fastDownStrams u) fastNodeMaxNum).filterMap
    (s.fastNodes (L.graphOf u))) []) at hbits
  rw [hmarked] at hbits
  set y := (((s.setStatus u .finish).pass .finish u).save u).notifyAll u marked []
  have hdown : y.1.downStreams = s.downStreams := Shared.notifyAll_downStreams _ _ _
  have hwait : ∀ d, y.1.waitCount d = s.waitCount d - marked.count d := fun d =>
    Shared.notifyAll_waitCount _ _ _ d
  have hcount : ∀ d, y.2.count d =
      ([] : List N).count d + if 1 ≤ s.waitCount d ∧ s.waitCount d ≤ marked.count d then 1 else 0 :=
    fun d => Shared.count_notifyAll _ _ _ d
  have hfinish : L.finishAlone s u =
      some ((y.1.pass .drain u).notifyAll u (s.downStreams u) y.2) := by
    rw [finishAlone, if_pos hrunning]
    dsimp only
    rw [Shared.save_bak]
    show Option.map _ (L.notifyBits _ u (bitMapIdx (s.fastDownStrams u) fastNodeMaxNum) []) = _
    rw [hbits, Option.map_some, ← hdown]
  refine ⟨_, _, hfinish, fun d => ?_, fun d => ?_⟩
  · rw [Shared.notifyAll_waitCount, List.count_append]
    have hd : (y.1.pass .drain u).waitCount d = _ := hwait d
    push_cast
    omega
  · rw [Shared.count_notifyAll, hcount d, List.count_append, List.count_nil]
    have hd : (y.1.pass .drain u).waitCount d = _ := hwait d
    push_cast
    split_ifs <;> omega

theorem count_filter (p : N → Bool) (ds : List N) (d : N) :
    (ds.filter p).count d = if p d then ds.count d else 0 := by
  split
  · next hp => exact List.count_filter hp
  · next hp => exact List.count_eq_zero.mpr fun hd => hp (List.mem_filter.mp hd).2

/-- Both variants notify the nodes that were registered as often as their count says. -/
def notifiedOf (o : Shared N G) (u : N) (ds : List N) (d : N) : ℕ :=
  if u ≠ d ∧ d ∈ ds ∧ o.waitCount d = ds.count d then 1 else 0

theorem Bitmap.finish (h : L.Bitmap o s u ds)
    (hfound : ∀ d ∈ ds, L.Fast o u d → o.fastNodes (L.graphOf u) (o.nodeId d) = some d)
    (hcount : ∀ d ∈ ds, (ds.count d : ℤ) ≤ o.waitCount d) :
    ∃ x notified, L.finishAlone (s.setStatus u .running) u = some (x, notified) ∧
      (∀ d, x.waitCount d = o.waitCount d - ds.count d) ∧ ∀ d, notified.count d = notifiedOf o u ds d := by
  have hset : ∀ i, (s.fastDownStrams u).getLsbD i = true →
      ∃ n ∈ ds.filter fun d => L.Fast o u d, o.nodeId n = i := fun i hi => by
    obtain ⟨n, hn, hfast, hid⟩ := (h.word i).mp hi
    exact ⟨n, List.mem_filter.mpr ⟨hn, decide_eq_true hfast⟩, hid⟩
  have hmarks : ∀ n ∈ ds.filter fun d => L.Fast o u d, o.nodeId n < 63 ∧
      (s.fastDownStrams u).getLsbD (o.nodeId n) = true ∧
      s.fastNodes (L.graphOf u) (o.nodeId n) = some n := fun n hn => by
    obtain ⟨hn, hfast⟩ := List.mem_filter.mp hn
    have hfast := of_decide_eq_true hfast
    rw [h.fastNodes]
    exact ⟨hfast.2.2.2, (h.word _).mpr ⟨n, hn, hfast, rfl⟩, hfound n hn hfast⟩
  have hmarked := count_found hset hmarks
  obtain ⟨x, notified, hfinish, hwait, hnotified⟩ := finishAlone_spec (L := L) (u := u)
    (s := s.setStatus u .running) (Function.update_self u _ _) (fun i hi => by
      obtain ⟨n, hn, rfl⟩ := hset i hi
      exact Option.isSome_iff_exists.mpr ⟨n, (hmarks n hn).2.2⟩) rfl
  have hheld : ∀ d, ((((bitMapIdx (s.fastDownStrams u) fastNodeMaxNum).filterMap
      (s.fastNodes (L.graphOf u))) ++ s.downStreams u).count d : ℤ) =
        ds.count d - L.settled o u ds d := fun d => by
    rw [List.count_append, hmarked d, h.list, count_filter]
    by_cases hself : u = d
    · simp [settled, Fast, hself]
    · by_cases hfast : L.Fast o u d
      · by_cases hd : d ∈ ds
        · have hpos : 0 < ds.count d := List.count_pos_iff.mpr hd
          simp [settled, hself, hfast, hd, Nat.cast_sub hpos]
        · simp [settled, hself, hfast, hd, List.count_eq_zero.mpr hd]
      · simp [settled, hself, hfast]
  have hstart : ∀ d, (s.setStatus u .running).waitCount d = o.waitCount d - L.settled o u ds d :=
    h.count
  refine ⟨x, notified, hfinish, fun d => ?_, fun d => ?_⟩
  · rw [hwait d, hstart d]
    have hd := hheld d
    simp only [Shared.setStatus] at hd ⊢
    omega
  · rw [hnotified d, notifiedOf]
    have hd := hheld d
    have hw := hstart d
    simp only [Shared.setStatus] at hd hw ⊢
    refine if_congr ?_ rfl rfl
    rw [hd, hw]
    constructor
    · intro hboth
      have hself : u ≠ d := fun hself => by
        rw [settled, if_pos hself] at hboth
        omega
      have hmem : d ∈ ds := by
        by_contra hmem
        have hzero := List.count_eq_zero.mpr hmem
        omega
      exact ⟨hself, hmem, le_antisymm (by omega) (hcount d hmem)⟩
    · intro hall
      obtain ⟨hself, hmem, heq⟩ := hall
      have hlt := settled_lt (L := L) (o := o) hself hmem
      omega

omit [DecidableEq G] in
theorem Listed.finish (h : Listed o s u ds) (hcount : ∀ d ∈ ds, (ds.count d : ℤ) ≤ o.waitCount d) :
    ∃ x notified, L.finishAlone (s.setStatus u .running) u = some (x, notified) ∧
      (∀ d, x.waitCount d = o.waitCount d - ds.count d) ∧ ∀ d, notified.count d = notifiedOf o u ds d := by
  have hnobit : ∀ i, (s.fastDownStrams u).getLsbD i ≠ true := fun i => by
    rw [h.word]
    simp
  have hmarked : (bitMapIdx ((s.setStatus u .running).fastDownStrams u) fastNodeMaxNum).filterMap
      ((s.setStatus u .running).fastNodes (L.graphOf u)) = [] := by
    have hnil : bitMapIdx (s.fastDownStrams u) fastNodeMaxNum = [] :=
      List.eq_nil_iff_forall_not_mem.mpr fun i hi => hnobit i (mem_bitMapIdx.mp hi).2
    rw [show (s.setStatus u .running).fastDownStrams = s.fastDownStrams from rfl, hnil]
    rfl
  obtain ⟨x, notified, hfinish, hwait, hnotified⟩ := finishAlone_spec (L := L) (u := u)
    (s := s.setStatus u .running) (Function.update_self u _ _) (fun i hi => absurd hi (hnobit i)) hmarked
  have hheld : ∀ d, ([] ++ (s.setStatus u .running).downStreams u).count d =
      if u = d then 0 else ds.count d := fun d => by
    rw [List.nil_append, show (s.setStatus u .running).downStreams = s.downStreams from rfl, h.list,
      count_filter]
    by_cases hself : u = d <;> simp [hself]
  have hstart : ∀ d, (s.setStatus u .running).waitCount d =
      o.waitCount d - if u = d then ds.count d else 0 := h.count
  refine ⟨x, notified, hfinish, fun d => ?_, fun d => ?_⟩
  · rw [hwait d, hstart d, hheld d]
    split <;> simp
  · rw [hnotified d, notifiedOf, hheld d]
    refine if_congr ?_ rfl rfl
    rw [hstart d]
    by_cases hself : u = d
    · simp [hself]
      omega
    · rw [if_neg hself, if_neg hself]
      constructor
      · intro hboth
        have hmem : d ∈ ds := by
          by_contra hmem
          have hzero := List.count_eq_zero.mpr hmem
          omega
        exact ⟨hself, hmem, le_antisymm (by omega) (hcount d hmem)⟩
      · intro hall
        obtain ⟨-, hmem, heq⟩ := hall
        have hpos : 0 < ds.count d := List.count_pos_iff.mpr hmem
        omega

/-- Nothing is registered with a node. -/
structure Unregistered (s : Shared N G) (u : N) : Prop where
  word : s.fastDownStrams u = 0
  bak : s.fastDownStramsBak u = bakInit
  list : s.downStreams u = []

/-- **The bitmap of `add_downstream` changes nothing**: with every registration in
`down_streams` the same nodes are brought to zero by each call before `finish`, by `finish`
and by each call after it, and from `finish` on all counts are the same. -/
theorem add_downstream_agrees {before after : List (Registration N)} (hnone : Unregistered s u)
    (hfound : ∀ r ∈ before, L.graphOf u = L.graphOf r.node → L.Found s r.node)
    (hbefore : ∀ r ∈ before, r.status.ended = false) (hafter : ∀ r ∈ after, r.status.ended = true)
    (hcount : ∀ r ∈ before ++ after,
      (((before ++ after).map Registration.node).count r.node : ℤ) ≤ s.waitCount r.node) :
    (registerAll L.addDownstreamAlone u before s).2 = (registerAll addDownstreamVector u before s).2 ∧
      ∃ x y notified notified',
        L.finishAlone ((registerAll L.addDownstreamAlone u before s).1.setStatus u .running) u =
          some (x, notified) ∧
        L.finishAlone ((registerAll addDownstreamVector u before s).1.setStatus u .running) u =
          some (y, notified') ∧
        notified.Perm notified' ∧ x.waitCount = y.waitCount ∧
        ∀ calls, calls <+: after →
          (registerAll L.addDownstreamAlone u calls x).2 = (registerAll addDownstreamVector u calls y).2 ∧
            (registerAll L.addDownstreamAlone u calls x).1.waitCount =
              (registerAll addDownstreamVector u calls y).1.waitCount := by
  have hmem : ∀ d ∈ before.map Registration.node, ∃ r ∈ before, r.node = d := fun d hd =>
    List.mem_map.mp hd
  have hstored : ∀ d ∈ before.map Registration.node, L.Fast s u d →
      s.fastNodes (L.graphOf u) (s.nodeId d) = some d := fun d hd hfast => by
    obtain ⟨r, hr, rfl⟩ := hmem d hd
    rw [hfast.2.2.1]
    exact hfound r hr hfast.2.2.1 hfast.2.2.2
  have hroom : ∀ d ∈ before.map Registration.node,
      ((before.map Registration.node).count d : ℤ) ≤ s.waitCount d := fun d hd => by
    obtain ⟨r, hr, rfl⟩ := hmem d hd
    have hr := hcount r (List.mem_append_left _ hr)
    rw [List.map_append, List.count_append] at hr
    push_cast at hr
    omega
  have hbits : L.Bitmap s s u [] :=
    ⟨fun d => by simp [settled], fun i => by simp [hnone.word], hnone.list, hnone.bak, rfl, rfl, rfl⟩
  have hlist : Listed s s u [] := ⟨fun d => by simp, hnone.list, hnone.word⟩
  obtain ⟨hbitmap, hlisted, hearly⟩ := registerAll_early hbits hlist hbefore
    (fun n hn n' hn' hfast hfast' hid => by
      have h := hstored n hn hfast
      rw [hid, hstored n' hn' hfast'] at h
      exact (Option.some.inj h).symm) hroom
  rw [List.nil_append] at hbitmap hlisted
  obtain ⟨x, notified, hfinish, hwait, hnotified⟩ := hbitmap.finish hstored hroom
  obtain ⟨y, notified', hfinish', hwait', hnotified'⟩ := hlisted.finish (L := L) hroom
  have hsame : x.waitCount = y.waitCount := funext fun d => (hwait d).trans (hwait' d).symm
  refine ⟨hearly, x, y, notified, notified', hfinish, hfinish', ?_, hsame, fun calls hcalls => ?_⟩
  · exact List.perm_iff_count.mpr fun d => (hnotified d).trans (hnotified' d).symm
  · exact registerAll_late hsame fun r hr => hafter r (hcalls.subset hr)

end Layout

/-- Three nodes of one graph, stored. -/
def threeNodes : Shared (Fin 3) Unit :=
  {(Layout.start ⟨fun _ => (), fun _ => none⟩ : Shared (Fin 3) Unit) with
    parentSet := fun _ => true
    nodeId := fun n => n
    fastNodes := fun _ i => if h : i < 3 then some ⟨i, h⟩ else none
    waitCount := fun _ => 2}

/-- Node 1 waits for node 0 twice: `finish` brings it to zero. -/
theorem add_downstream_twice :
    let L : Layout (Fin 3) Unit := ⟨fun _ => (), fun _ => none⟩
    let calls : List (Registration (Fin 3)) := [⟨.initing, 1⟩, ⟨.running, 1⟩]
    (Layout.registerAll L.addDownstreamAlone 0 calls threeNodes).2 =
        (Layout.registerAll Layout.addDownstreamVector 0 calls threeNodes).2 ∧
      ∃ x notified, L.finishAlone
        ((Layout.registerAll L.addDownstreamAlone 0 calls threeNodes).1.setStatus 0 .running) 0 =
          some (x, notified) ∧ notified = [1] := by
  intro L calls
  have hafter : ∀ r ∈ ([⟨.finish, 2⟩] : List (Registration (Fin 3))), r.status.ended = true := by decide
  have hbefore : ∀ r ∈ calls, r.status.ended = false := by decide
  have hnone : Layout.Unregistered threeNodes 0 := ⟨rfl, rfl, rfl⟩
  obtain ⟨hearly, x, y, notified, notified', hfinish, -⟩ := L.add_downstream_agrees hnone
    (fun r _ _ _ => by simp [threeNodes]) hbefore hafter (by decide)
  refine ⟨hearly, x, notified, hfinish, ?_⟩
  have hlast : (L.finishAlone ((Layout.registerAll L.addDownstreamAlone 0 calls threeNodes).1.setStatus 0
    .running) 0).map Prod.snd = some [1] := by decide
  rw [hfinish] at hlast
  exact Option.some.inj hlast

end QuietFlow.Engine
