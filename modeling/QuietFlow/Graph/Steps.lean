import QuietFlow.Graph.Engine

/-! What a step of the engine can do, branch by branch. -/
namespace QuietFlow.Engine
open Runs

variable {N G : Type}

/-! ### What frames hold -/

/-- Nodes whose count is zero and that are not handed out yet. -/
def Work.pending : Work N → List N
  | .bits _ notified | .notifyBit _ _ notified | .drain notified | .notify _ notified
  | .graphCount notified | .graphDrain notified | .graphNotify _ notified => notified
  | .tryEnqueue n => [n]
  | .tryDequeue temp | .pop temp | .leave temp => temp.toList
  | _ => []

def Frame.pending : Frame N G → List N
  | .ready _ n => [n]
  | .work _ w => w.pending
  | _ => []

/-- Nodes that are handed out and on their way to a queue or a worker. -/
def Frame.placing : Frame N G → List N
  | .enqueue n | .dispatch n | .work _ (.leavePopped n) => [n]
  | _ => []

def Stage.rank : Stage → ℕ
  | .count => 0
  | .store => 1
  | .arm => 2
  | .built => 3
  | .finish => 4
  | .snapshot => 5
  | .drain => 6
  | .decrement => 7
  | .complete => 8

/-- A stage of `create_edges`. -/
def Stage.creates (m : Stage) : Bool := decide (m.rank < 4)

/-- `m` comes after the stage or is it, in the same part of a node's life. -/
def Stage.upTo (st m : Stage) : Bool := st.creates == m.creates && decide (st.rank ≤ m.rank)

/-- The stage to come. -/
def Build.next : Build N G → Stage
  | .count _ => .count
  | .store _ => .store
  | .arm _ | .check _ | .recheck _ => .arm
  | _ => .built

def Work.next : Work N → Stage
  | .taken | .resume | .running => .finish
  | .snapshot => .snapshot
  | .bits _ _ | .notifyBit _ _ _ | .drain _ => .drain
  | .notify _ _ | .graphCount _ => .decrement
  | _ => .complete

/-- Nodes of a frame that have yet to pass a stage. -/
def Frame.awaits (m : Stage) : Frame N G → List N
  | .build d b => bif b.next.upTo m then [d] else []
  | .work _ (.left next) => bif Stage.finish.upTo m then next.toList else []
  | .work u w => bif w.next.upTo m then [u] else []
  | _ => []

theorem pick_perm (fits : N → Bool) (ns : List N) :
    ((pick fits ns).2 ++ (pick fits ns).1.toList).Perm ns := by
  induction ns with
  | nil => exact .refl _
  | cons n rest ih =>
    simp only [pick]
    split
    · exact List.perm_append_comm
    · exact ih.cons n

theorem pick_fits {fits : N → Bool} {n : N} (ns : List N) (h : (pick fits ns).1 = some n) :
    fits n = true := by
  induction ns with
  | nil => cases h
  | cons m rest ih =>
    simp only [pick] at h
    split at h
    · next hm => cases h; exact hm
    · exact ih h

theorem pick_some {fits : N → Bool} (temp : N) {n : N} {rest others : List N}
    (h : pick fits rest = (some n, others)) :
    ((others ++ [temp]) ++ [n]).Perm (temp :: rest) ∧ fits n = true := by
  have hperm := pick_perm fits rest
  rw [h] at hperm
  refine ⟨?_, pick_fits rest (by rw [h])⟩
  rw [List.append_assoc]
  exact List.perm_middle.trans (hperm.cons temp)

theorem pick_none {fits : N → Bool} (temp : N) {rest others : List N}
    (h : pick fits rest = (none, others)) : (others ++ [temp]).Perm (temp :: rest) := by
  have hperm := pick_perm fits rest
  rw [h, Option.toList_none, List.append_nil] at hperm
  exact List.perm_append_comm.trans (hperm.cons temp)

/-- Where no node fits, all are left over. -/
theorem pick_eq_none {fits : N → Bool} {ns others : List N} (h : pick fits ns = (none, others)) :
    others = ns ∧ ∀ n ∈ ns, fits n = false := by
  induction ns generalizing others with
  | nil =>
    cases h
    exact ⟨rfl, fun n hn => by cases hn⟩
  | cons n rest ih =>
    simp only [pick] at h
    split at h
    · cases h
    · next hn =>
      obtain ⟨h1, h2⟩ := Prod.mk.inj h
      have hrest : pick fits rest = (none, (pick fits rest).2) := Prod.ext h1 rfl
      obtain ⟨hothers, hnone⟩ := ih hrest
      refine ⟨by rw [← h2]; exact congrArg _ hothers, fun m hm => ?_⟩
      rcases List.mem_cons.mp hm with rfl | hm
      · simpa using hn
      · exact hnone m hm

variable [DecidableEq N] [DecidableEq G]

/-! ### The branches -/

namespace Layout
variable (L : Layout N G) (s : Shared N G)

/-- How `Graph::finish` of a node ends. -/
inductive Ends (u : N) : Work N → Prop where
  | none : L.limited (L.graphOf u) = false → Ends u (.leave none)
  | next {n} : (L.limited (L.graphOf u) = true → L.graphOf n = L.graphOf u) →
    (L.limited (L.graphOf u) = false → L.limited (L.graphOf n) = false) → Ends u (.leave (some n))
  | tryEnqueue {n} : L.limited (L.graphOf u) = false → L.limited (L.graphOf n) = true →
    Ends u (.tryEnqueue n)
  | tryDequeue {temp} : L.limited (L.graphOf u) = true → Ends u (.tryDequeue temp)

/-- `Graph::finish` makes some notified nodes ready and ends with the others. -/
structure Leaves (u : N) (notified others : List N) (last : Work N) : Prop where
  perm : (others ++ last.pending).Perm notified
  ends : L.Ends u last

/-- The branches of `call` and `exec`: the frames that are replaced, the shared state
after the step and the frames in their place. -/
inductive Effect : List (Frame N G) → Shared N G → List (Frame N G) → Prop where
  | create {d c} : s.calls d = none →
    Effect [] {s with
      calls := Function.update s.calls d (some c)
      before := Function.update s.before d (match c with
        | .edges _ => []
        | .graph g => (s.passed .built).filter fun n => L.graphOf n = g)} [.build d (.count c)]
  | take {u} : u ∈ s.pool → Effect [] {s with pool := s.pool.erase u} [.work u .taken]
  | count {d c} : Effect [.build d (.count c)]
    ({s with graphWaitCount :=
      Function.update s.graphWaitCount (L.graphOf d) (s.graphWaitCount (L.graphOf d) + 1)}.pass .count d)
    [.build d (.store c)]
  | store {d c} :
    Effect [.build d (.store c)] ((L.storeNode s d).pass .store d) [.build d c.first]
  | arm {d required} : required ≠ [] → Effect [.build d (.arm required)]
    ({s with waitCount := Function.update s.waitCount d (s.waitCount d + required.length)}.pass .arm d)
    [.build d (.edges required)]
  | armNone {d} : Effect [.build d (.arm [])] (s.pass .arm d)
    [.ready (.create d) d, .build d (.edges [])]
  | built {d} : Effect [.build d (.edges [])] (s.pass .built d) []
  | edgeNull {d rest} : Effect [.build d (.edges (none :: rest))] s [.build d (.sub none rest)]
  | edgeSelf {d rest} : Effect [.build d (.edges (some d :: rest))] s [.build d (.sub (some d) rest)]
  | edge {d r rest} : r ≠ d →
    Effect [.build d (.edges (some r :: rest))] s [.build d (.edge r .status rest)]
  | sub {d r rest} : Effect [.build d (.sub r rest)] (s.pay r d)
    ((s.woken d).map (.ready (.create d)) ++ [.build d (.edges rest)])
  | statusOver {d u rest} : (s.status u).ended = true →
    Effect [.build d (.edge u .status rest)] s [.build d (.sub (some u) rest)]
  | status {d u rest} : (s.status u).ended = false →
    Effect [.build d (.edge u .status rest)] s [.build d (.edge u .sameGraph rest)]
  | fast {d u rest} : s.parentSet u = true → L.graphOf u = L.graphOf d → s.nodeId d < 63 →
    Effect [.build d (.edge u .sameGraph rest)] s [.build d (.edge u .testBit rest)]
  | slow {d u rest} : Effect [.build d (.edge u .sameGraph rest)] s [.build d (.edge u .lock rest)]
  | testSet {d u rest} : bitMapGet (s.fastDownStrams u) (s.nodeId d) fastNodeMaxNum = true →
    Effect [.build d (.edge u .testBit rest)] s [.build d (.edge u .dup rest)]
  | testClear {d u rest} : bitMapGet (s.fastDownStrams u) (s.nodeId d) fastNodeMaxNum = false →
    Effect [.build d (.edge u .testBit rest)] s [.build d (.edge u .loadBits rest)]
  | dup {d u rest} : Effect [.build d (.edge u .dup rest)] (s.pay (some u) d)
    ((s.woken d).map (.ready (.create d)) ++ [.build d (.edge u .readBak rest)])
  | loadBits {d u rest} : Effect [.build d (.edge u .loadBits rest)] s
    [.build d (.edge u (.storeBits (s.fastDownStrams u)) rest)]
  | storeBits {d u word rest} : Effect [.build d (.edge u (.storeBits word) rest)]
    {s with
      fastDownStrams :=
        Function.update s.fastDownStrams u (bitMapSet word (s.nodeId d) fastNodeMaxNum)
      marked := Function.update s.marked u (s.marked u ++ [d])}
    [.build d (.edge u .readBak rest)]
  | bakKept {d u rest} : (s.fastDownStramsBak u = bakInit ∨
      bitMapGet (s.fastDownStramsBak u) (s.nodeId d) fastNodeMaxNum = true) →
    Effect [.build d (.edge u .readBak rest)] s [.build d (.edges rest)]
  | bakMissed {d u rest} : s.fastDownStramsBak u ≠ bakInit →
    bitMapGet (s.fastDownStramsBak u) (s.nodeId d) fastNodeMaxNum = false →
    Effect [.build d (.edge u .readBak rest)] s [.build d (.sub (some u) rest)]
  | lockOver {d u rest} : (s.status u).ended = true →
    Effect [.build d (.edge u .lock rest)] s [.build d (.sub (some u) rest)]
  | lock {d u rest} : (s.status u).ended = false →
    Effect [.build d (.edge u .lock rest)]
      {s with downStreams := Function.update s.downStreams u (s.downStreams u ++ [d])}
      [.build d (.edges rest)]
  | checkZero {d g} : s.graphWaitCount g = 0 → Effect [.build d (.check g)] (s.pass .arm d)
    [.ready (.create d) d, .build d (.edges [])]
  | check {d g} : s.graphWaitCount g ≠ 0 →
    Effect [.build d (.check g)] s [.build d (.recheck g)]
  | recheckZero {d g} : s.graphWaitCount g = 0 → Effect [.build d (.recheck g)] (s.pass .arm d)
    [.ready (.create d) d, .build d (.edges [])]
  | recheck {d g} : s.graphWaitCount g ≠ 0 → Effect [.build d (.recheck g)]
    ({s with
      waitCount := Function.update s.waitCount d (s.waitCount d + 1)
      graphDownStreams :=
        Function.update s.graphDownStreams g (s.graphDownStreams g ++ [d])}.pass .arm d)
    [.build d (.edges [])]
  | ready {c n} : L.limited (L.graphOf n) = false → Effect [.ready c n] (s.hand n) [.dispatch n]
  | readyFull {c n} : L.limited (L.graphOf n) = true → s.mCount (L.graphOf n) ≥ 0 →
    Effect [.ready c n] (L.admits (s.hand n) n) [.enqueue n]
  | readySlot {c n} : L.limited (L.graphOf n) = true → s.mCount (L.graphOf n) < 0 →
    Effect [.ready c n] (L.admits (s.hand n) n) [.dispatch n]
  | enqueue {n} : Effect [.enqueue n]
    {s with limitQueue :=
      Function.update s.limitQueue (L.graphOf n) (s.limitQueue (L.graphOf n) ++ [n])} []
  | dispatch {n} : s.status n = .initing → Effect [.dispatch n]
    {s with pool := s.pool ++ [n], dispatched := s.dispatched ++ [n]} []
  | taken {u} : s.status u = .initing →
    Effect [.work u .taken] (s.setStatus u .ready) [.work u .resume]
  | resume {u} : s.status u = .ready →
    Effect [.work u .resume] (s.setStatus u .running) [.work u .running]
  | running {u} : s.status u = .running →
    Effect [.work u .running] ((s.setStatus u .finish).pass .finish u) [.work u .snapshot]
  | snapshot {u} : Effect [.work u .snapshot]
    ({s with
      fastDownStramsBak := Function.update s.fastDownStramsBak u (s.fastDownStrams u)}.pass .snapshot u)
    [.work u (.bits (bitMapIdx (s.fastDownStrams u) fastNodeMaxNum) [])]
  | bitsDone {u notified} : Effect [.work u (.bits [] notified)] s [.work u (.drain notified)]
  | bits {u idx idxs notified d} : s.fastNodes (L.graphOf u) idx = some d →
    Effect [.work u (.bits (idx :: idxs) notified)] s [.work u (.notifyBit d idxs notified)]
  | notifyBit {u d idxs notified} : Effect [.work u (.notifyBit d idxs notified)] (s.pay (some u) d)
    [.work u (.bits idxs (notified ++ s.woken d))]
  | drain {u notified} : Effect [.work u (.drain notified)] (s.pass .drain u)
    [.work u (.notify (s.downStreams u) notified)]
  | notifyDone {u notified} :
    Effect [.work u (.notify [] notified)] s [.work u (.graphCount notified)]
  | notify {u d list notified} : Effect [.work u (.notify (d :: list) notified)] (s.pay (some u) d)
    [.work u (.notify list (notified ++ s.woken d))]
  | countZero {u notified} : s.graphWaitCount (L.graphOf u) = 1 →
    Effect [.work u (.graphCount notified)]
      ({s with graphWaitCount :=
        Function.update s.graphWaitCount (L.graphOf u) (s.graphWaitCount (L.graphOf u) - 1)}.pass
          .decrement u)
      [.work u (.graphDrain notified)]
  | countDown {u notified others last} : s.graphWaitCount (L.graphOf u) ≠ 1 →
    L.Leaves u notified others last → Effect [.work u (.graphCount notified)]
      ({s with graphWaitCount :=
        Function.update s.graphWaitCount (L.graphOf u) (s.graphWaitCount (L.graphOf u) - 1)}.pass
          .decrement u)
      (readyAll u others ++ [.work u last])
  | graphDrain {u notified} : Effect [.work u (.graphDrain notified)] s
    [.work u (.graphNotify (s.graphDownStreams (L.graphOf u)) notified)]
  | graphNotifyDone {u notified others last} : L.Leaves u notified others last →
    Effect [.work u (.graphNotify [] notified)] s (readyAll u others ++ [.work u last])
  | graphNotify {u w list notified} : Effect [.work u (.graphNotify (w :: list) notified)]
    {s with waitCount := Function.update s.waitCount w (s.waitCount w - 1)}
    [.work u (.graphNotify list (notified ++ s.woken w))]
  | tryEnqueueFull {u n} : s.mCount (L.graphOf n) ≥ 0 → Effect [.work u (.tryEnqueue n)]
    (L.admits (s.hand n) n) [.enqueue n, .work u (.leave none)]
  | tryEnqueueSlot {u n} : s.mCount (L.graphOf n) < 0 → Effect [.work u (.tryEnqueue n)]
    (L.admits s n) [.work u (.leave (some n))]
  | tryDequeue {u temp} : s.mCount (L.graphOf u) > 0 → Effect [.work u (.tryDequeue temp)]
    {s with mCount := Function.update s.mCount (L.graphOf u) (s.mCount (L.graphOf u) - 1)}
    [.work u (.pop temp)]
  | tryDequeueEmpty {u temp} : s.mCount (L.graphOf u) ≤ 0 → Effect [.work u (.tryDequeue temp)]
    {{s with
      mCount := Function.update s.mCount (L.graphOf u) (s.mCount (L.graphOf u) - 1)}.complete u temp with
      bypassed := fun g => if (temp.map L.graphOf) = some g ∧ L.limited g then s.bypassed g + 1
        else s.bypassed g}
    [.work u (.left temp)]
  | pop {u temp n queue} : s.limitQueue (L.graphOf u) = n :: queue → Effect [.work u (.pop temp)]
    {s with limitQueue := Function.update s.limitQueue (L.graphOf u) queue}
    (temp.toList.map (.ready (.finish u)) ++ [.work u (.leavePopped n)])
  | leave {u next} : Effect [.work u (.leave next)] (s.complete u next) [.work u (.left next)]
  | leavePopped {u n} : Effect [.work u (.leavePopped n)]
    ({s with dispatched := s.dispatched ++ [n]}.pass .complete u) [.work u (.left (some n))]
  | left {u next} : s.status u = .finish → Effect [.work u (.left next)]
    (s.setStatus u .recoverable) (next.toList.map (.work · .taken))

variable {L s} {s' : Shared N G} {new : List (Frame N G)}

omit [DecidableEq N] in
theorem graphFinish_leaves (L : Layout N G) (u : N) (notified : List N) : ∃ others last,
    L.graphFinish u notified = readyAll u others ++ [.work u last] ∧
      L.Leaves u notified others last := by
  cases notified with
  | nil =>
    by_cases hlim : L.limited (L.graphOf u) = true
    · exact ⟨[], .tryDequeue none, by simp [graphFinish, hlim, readyAll], .refl _, .tryDequeue hlim⟩
    · have hlim' : L.limited (L.graphOf u) = false := by simpa using hlim
      exact ⟨[], .leave none, by simp [graphFinish, hlim', readyAll], .refl _, .none hlim'⟩
  | cons temp rest =>
    by_cases hlim : L.limited (L.graphOf u) = true
    · cases hpick : pick (fun n => decide (L.graphOf n = L.graphOf u)) rest with
      | mk next others =>
        cases next with
        | some n =>
          obtain ⟨hperm, hfit⟩ := pick_some temp hpick
          exact ⟨others ++ [temp], .leave (some n), by simp only [graphFinish, if_pos hlim, hpick],
            hperm, .next (fun _ => of_decide_eq_true hfit) fun h => by rw [hlim] at h; cases h⟩
        | none =>
          have hperm := pick_none temp hpick
          refine ⟨others, if L.graphOf temp = L.graphOf u then .leave (some temp)
            else .tryDequeue (some temp), by simp only [graphFinish, if_pos hlim, hpick], ?_, ?_⟩
          · split <;> exact hperm
          · split
            · next hsame => exact .next (fun _ => hsame) fun h => by rw [hlim] at h; cases h
            · exact .tryDequeue hlim
    · have hlim' : L.limited (L.graphOf u) = false := by simpa using hlim
      cases hpick : pick (fun n => !L.limited (L.graphOf n)) rest with
      | mk next others =>
        cases next with
        | some n =>
          obtain ⟨hperm, hfit⟩ := pick_some temp hpick
          exact ⟨others ++ [temp], .leave (some n), by simp only [graphFinish, if_neg hlim, hpick],
            hperm, .next (fun h => absurd h hlim) fun _ => by simpa using hfit⟩
        | none =>
          have hperm := pick_none temp hpick
          refine ⟨others, if L.limited (L.graphOf temp) then .tryEnqueue temp
            else .leave (some temp), by simp only [graphFinish, if_neg hlim, hpick], ?_, ?_⟩
          · split <;> exact hperm
          · split
            · next hfull => exact .tryEnqueue hlim' hfull
            · next hfree => exact .next (fun h => absurd h hlim) fun _ => by simpa using hfree

theorem effect_addDownstream {u d : N} {rest : List (Option N)} (e : Edge)
    (h : L.addDownstream s u d rest e = (s', new)) :
    L.Effect s [.build d (.edge u e rest)] s' new := by
  cases e with
  | status =>
    cases h
    split
    · next hover => exact .statusOver hover
    · next hover => exact .status (by simpa using hover)
  | sameGraph =>
    cases h
    split
    · next hsame => exact .fast hsame.1 hsame.2.1 hsame.2.2
    · exact .slow
  | testBit =>
    cases h
    split
    · next hset => exact .testSet hset
    · next hset => exact .testClear (by simpa using hset)
  | dup => cases h; exact .dup
  | loadBits => cases h; exact .loadBits
  | storeBits word => cases h; exact .storeBits
  | readBak =>
    cases h
    split
    · next hbak => exact .bakKept hbak
    · next hbak =>
      rw [not_or] at hbak
      exact .bakMissed hbak.1 (by simpa using hbak.2)
  | lock =>
    simp only [addDownstream] at h
    split at h
    · next hover => cases h; exact .lockOver hover
    · next hover => cases h; exact .lock (by simpa using hover)

theorem effect_createEdges {d : N} (b : Build N G) (h : L.createEdges s d b = (s', new)) :
    L.Effect s [.build d b] s' new := by
  cases b with
  | count c => cases h; exact .count
  | store c => cases h; exact .store
  | arm required =>
    cases h
    split
    · next hnil =>
      subst hnil
      have hsame : Function.update s.waitCount d (s.waitCount d + ([] : List (Option N)).length) =
          s.waitCount := by simp
      rw [hsame]
      exact .armNone
    · next hnil => exact .arm hnil
  | edges rest =>
    match rest with
    | [] => cases h; exact .built
    | none :: rest => cases h; exact .edgeNull
    | some r :: rest =>
      cases h
      split
      · next hself => subst hself; exact .edgeSelf
      · next hself => exact .edge hself
  | sub r rest => cases h; exact .sub
  | edge u e rest => exact effect_addDownstream e h
  | check g =>
    simp only [createEdges] at h
    split at h
    · next hzero => cases h; exact .checkZero hzero
    · next hzero => cases h; exact .check hzero
  | recheck g =>
    simp only [createEdges] at h
    split at h
    · next hzero => cases h; exact .recheckZero hzero
    · next hzero => cases h; exact .recheck hzero

theorem effect_ready {c : Caller N} {n : N} (h : L.ready s n = (s', new)) :
    L.Effect s [.ready c n] s' new := by
  simp only [ready] at h
  split at h
  · next hlim =>
    cases h
    split
    · next hfull => exact .readyFull hlim hfull
    · next hfull => exact .readySlot hlim (by omega)
  · next hlim => cases h; exact .ready (by simpa using hlim)

theorem effect_runTask {u : N} (w : Work N) (h : L.runTask s u w = some (s', new)) :
    L.Effect s [.work u w] s' new := by
  cases w with
  | taken =>
    obtain ⟨hst, h⟩ := Option.ite_none_right_eq_some.mp h
    cases h
    exact .taken hst
  | resume =>
    obtain ⟨hst, h⟩ := Option.ite_none_right_eq_some.mp h
    cases h
    exact .resume hst
  | running =>
    obtain ⟨hst, h⟩ := Option.ite_none_right_eq_some.mp h
    cases h
    exact .running hst
  | snapshot => cases h; exact .snapshot
  | bits idxs notified =>
    cases idxs with
    | nil => cases h; exact .bitsDone
    | cons idx idxs =>
      obtain ⟨d, hd, h⟩ := Option.map_eq_some_iff.mp h
      cases h
      exact .bits hd
  | notifyBit d idxs notified => cases h; exact .notifyBit
  | drain notified => cases h; exact .drain
  | notify list notified =>
    cases list with
    | nil => cases h; exact .notifyDone
    | cons d list => cases h; exact .notify
  | graphCount notified =>
    cases h
    split
    · next hone => exact .countZero hone
    · next hone =>
      obtain ⟨others, last, hframes, hleaves⟩ := graphFinish_leaves L u notified
      rw [hframes]
      exact .countDown hone hleaves
  | graphDrain notified => cases h; exact .graphDrain
  | graphNotify list notified =>
    cases list with
    | nil =>
      cases h
      obtain ⟨others, last, hframes, hleaves⟩ := graphFinish_leaves L u notified
      rw [hframes]
      exact .graphNotifyDone hleaves
    | cons d list => cases h; exact .graphNotify
  | tryEnqueue n =>
    simp only [runTask] at h
    split at h
    · next hfull => cases h; exact .tryEnqueueFull hfull
    · next hfull => cases h; exact .tryEnqueueSlot (by omega)
  | tryDequeue temp =>
    simp only [runTask, tryDequeue] at h
    split at h
    · next hpos => cases h; exact .tryDequeue hpos
    · next hpos => cases h; exact .tryDequeueEmpty (by omega)
  | pop temp =>
    simp only [runTask] at h
    split at h
    · cases h
    · next n queue hqueue => cases h; exact .pop hqueue
  | leave next => cases h; exact .leave
  | leavePopped n => cases h; exact .leavePopped
  | left next =>
    obtain ⟨hst, h⟩ := Option.ite_none_right_eq_some.mp h
    cases h
    exact .left hst

/-- **Every step is one of the branches.** -/
theorem effect_of_moves {a : Option (Act N G)} {old : List (Frame N G)}
    (h : L.program.Moves s a old s' new) : L.Effect s old s' new := by
  cases h with
  | @call a top _ _ hcall =>
    cases a with
    | create d c =>
      obtain ⟨hfree, h⟩ := Option.ite_none_right_eq_some.mp hcall
      cases h
      exact .create hfree.2
    | take u =>
      obtain ⟨hmem, h⟩ := Option.ite_none_right_eq_some.mp hcall
      cases h
      exact .take hmem.2
  | @exec f _ _ hexec =>
    cases f with
    | build d b => exact effect_createEdges b (Option.some.inj hexec)
    | ready c n => exact effect_ready (Option.some.inj hexec)
    | enqueue n =>
      obtain ⟨l, _, h⟩ := Option.bind_eq_some_iff.mp hexec
      obtain ⟨_, h⟩ := Option.ite_none_right_eq_some.mp h
      cases h
      exact .enqueue
    | dispatch n =>
      obtain ⟨hst, h⟩ := Option.ite_none_right_eq_some.mp hexec
      cases h
      exact .dispatch hst
    | work u w => exact effect_runTask w hexec

end Layout
/-- A process begins a call and takes so many steps, for concrete runs. -/
def steps {T : Type} (t : T) (a : Act N G) (n : ℕ) : List (T × Option (Act N G)) :=
  (t, some a) :: List.replicate n (t, none)

end QuietFlow.Engine
