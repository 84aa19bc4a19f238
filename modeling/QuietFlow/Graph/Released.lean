import QuietFlow.Graph.Targets

/-! Every node is released once.

A node's `wait_count` is set up once and then only goes down, so it passes from 1 to 0
at most once, and who brings it there hands the node out: `released_add` balances the
nodes handed out and those in the frames' hands with the nodes whose count has come to
zero. So a node is handed out, dispatched and finished at most once, in every run. -/
namespace QuietFlow.Engine
open Runs Program

variable {N G : Type} [DecidableEq N]

/-- Whether the node's `wait_count` is set up and has come to zero. -/
def Shared.released (x : Shared N G) (n : N) : ℤ :=
  if n ∈ x.passed .arm ∧ x.waitCount n ≤ 0 then 1 else 0

namespace Shared
variable {x x' : Shared N G} {d : N}

/-- A decrement releases a node if it brings the count from 1 to 0. -/
theorem released_sub (harm : d ∈ x.passed .arm) (hpassed : x'.passed = x.passed)
    (hcount : x'.waitCount = Function.update x.waitCount d (x.waitCount d - 1)) (n : N) :
    x'.released n = x.released n + (x.woken d).count n := by
  by_cases hn : n = d
  · subst hn
    simp only [released, woken, hpassed, hcount, Function.update_self, harm, true_and]
    split_ifs <;> simp <;> omega
  · have hcount' : x'.waitCount n = x.waitCount n := by rw [hcount, Function.update_of_ne hn]
    have hzero : (x.woken d).count n = 0 := by
      rw [woken]
      split
      · simp [Ne.symm hn]
      · rfl
    rw [released, released, hpassed, hcount', hzero]
    simp

/-- The set-up of a count that is not zero releases nothing, one of zero releases the node. -/
theorem released_arm (harm : d ∉ x.passed .arm)
    (hpassed : x'.passed .arm = x.passed .arm ++ [d])
    (hcount : ∀ n, n ≠ d → x'.waitCount n = x.waitCount n) (n : N) :
    x'.released n = x.released n + (if x'.waitCount d ≤ 0 then [d] else []).count n := by
  by_cases hn : n = d
  · subst hn
    simp only [released, hpassed, List.mem_append, List.mem_singleton, or_true, true_and]
    split_ifs <;> simp_all
  · simp only [released, hpassed, List.mem_append, List.mem_singleton, hn, or_false, hcount n hn]
    have hzero : (if x'.waitCount d ≤ 0 then [d] else []).count n = 0 := by
      split
      · simp [Ne.symm hn]
      · rfl
    rw [hzero]
    simp

end Shared

/-- The counts are in step with the decrements. -/
structure Waits (x : Shared N G) : Prop where
  idle : ∀ d, d ∉ x.passed .arm → x.waitCount d = 0 ∧ x.paid d = []
  edges : ∀ d required, d ∈ x.passed .arm → x.calls d = some (.edges required) →
    x.waitCount d + (x.paid d).length = required.length
  graph : ∀ w g, x.calls w = some (.graph g) → w ∉ x.graphDownStreams g → x.waitCount w = 0

/-! ### One stage after the other -/

/-- A node that has yet to pass a stage has yet to pass the later ones. -/
theorem Frame.awaits_mono {st m : Stage} (hm : st.upTo m = true) (n : N) (f : Frame N G) :
    tally (Frame.awaits st) n f ≤ tally (Frame.awaits m) n f := by
  have hle : ∀ k : Stage, ∀ ns : List N,
      (bif k.upTo st then ns else []).count n ≤ (bif k.upTo m then ns else []).count n := by
    intro k ns
    cases hk : k.upTo st with
    | false => simp
    | true =>
      have hkm : k.upTo m = true := by
        simp only [Stage.upTo, Bool.and_eq_true, beq_iff_eq, decide_eq_true_eq] at hm hk ⊢
        exact ⟨hk.1.trans hm.1, hk.2.trans hm.2⟩
      rw [hkm]
  apply Int.ofNat_le.mpr
  cases f with
  | build d b => exact hle _ _
  | work u w => cases w <;> exact hle _ _
  | ready c k => exact le_refl _
  | enqueue k => exact le_refl _
  | dispatch k => exact le_refl _

namespace Layout
variable {L : Layout N G} {x x' : Shared N G} {old new : List (Frame N G)}

theorem waits_pay (hw : Waits x) {d : N} (hd : x.Requires d) (r : Option N) : Waits (x.pay r d) := by
  obtain ⟨-, harm, required, hcall⟩ := hd
  refine ⟨fun n hn => ?_, fun n required' hn hcall' => ?_, fun w g hcall' hg => ?_⟩
  · have hne : n ≠ d := fun he => hn (he ▸ harm)
    simpa [Function.update_of_ne hne] using hw.idle n hn
  · by_cases hne : n = d
    · subst hne
      have hlen := hw.edges n required' harm hcall'
      simp
      omega
    · simpa [Function.update_of_ne hne] using hw.edges n required' hn hcall'
  · have hne : w ≠ d := Shared.ne_of_calls hcall' hcall
    simpa [Function.update_of_ne hne] using hw.graph w g hcall' hg

/-- The set-up of a count. -/
theorem waits_arm (hw : Waits x) {d : N} (hd : d ∉ x.passed .arm)
    (hpassed : x'.passed .arm = x.passed .arm ++ [d])
    (hother : ∀ n, n ≠ d → x'.waitCount n = x.waitCount n) (hpaid : x'.paid = x.paid)
    (hcalls : x'.calls = x.calls)
    (hdown : ∀ g w, w ∈ x.graphDownStreams g → w ∈ x'.graphDownStreams g)
    (hedges : ∀ required, x.calls d = some (.edges required) → x'.waitCount d = required.length)
    (hgraph : ∀ g, x.calls d = some (.graph g) → d ∉ x'.graphDownStreams g → x'.waitCount d = 0) :
    Waits x' := by
  constructor
  case idle =>
    intro n hn
    rw [hpassed, List.mem_append, List.mem_singleton, not_or] at hn
    rw [hother n hn.2, hpaid]
    exact hw.idle n hn.1
  case edges =>
    intro n required hn hcall
    rw [hcalls] at hcall
    rw [hpaid]
    by_cases hne : n = d
    · subst hne
      rw [hedges required hcall, (hw.idle n hd).2]
      simp
    · rw [hpassed, List.mem_append, List.mem_singleton, or_iff_left hne] at hn
      rw [hother n hne]
      exact hw.edges n required hn hcall
  case graph =>
    intro w g hcall hg
    rw [hcalls] at hcall
    by_cases hne : w = d
    · subst hne
      exact hgraph g hcall hg
    · rw [hother w hne]
      exact hw.graph w g hcall fun hmem => hg (hdown g w hmem)

variable [DecidableEq G]

theorem waits_step (h : L.Effect x old x' new) (hk : L.Kept x) (hold : ∀ f ∈ old, L.Known x f)
    (hcalled : ∀ d ∈ x.passed .arm, x.calls d ≠ none)
    (harm : ∀ d b, old = [.build d b] → b.next = .arm → d ∉ x.passed .arm) (hw : Waits x) :
    Waits x' := by
  cases h
  case create d c hfree =>
    have hd : d ∉ x.passed .arm := fun hmem => hcalled d hmem hfree
    refine ⟨hw.idle, fun n required hn hcall => ?_, fun w g hcall hg => ?_⟩
    · have hne : n ≠ d := fun he => hd (he ▸ hn)
      simp only [Function.update_of_ne hne] at hcall
      exact hw.edges n required hn hcall
    · by_cases hne : w = d
      · exact hne ▸ (hw.idle d hd).1
      · simp only [Function.update_of_ne hne] at hcall
        exact hw.graph w g hcall hg
  case sub d r rest => exact waits_pay hw (hold _ List.mem_cons_self) r
  case dup d u rest => exact waits_pay hw (hold _ List.mem_cons_self).1 (some u)
  case notifyBit u d idxs notified =>
    exact waits_pay hw (hk.marked u d (hold _ List.mem_cons_self).1).1 (some u)
  case notify u d list notified =>
    exact waits_pay hw (hk.down u d (hold _ List.mem_cons_self d List.mem_cons_self)).1 (some u)
  case arm d required hne =>
    have hd := harm d _ rfl rfl
    have hcall : x.calls d = some (.edges required) := (hold _ List.mem_cons_self).2
    have hzero := (hw.idle d hd).1
    refine waits_arm hw hd rfl (fun n hn => Function.update_of_ne hn _ _) rfl rfl (fun _ _ h => h)
      (fun required' hcall' => ?_) fun g hcall' => ?_
    · cases hcall.symm.trans hcall'
      simp [hzero]
    · cases hcall.symm.trans hcall'
  case armNone d =>
    have hd := harm d _ rfl rfl
    have hcall : x.calls d = some (.edges []) := (hold _ List.mem_cons_self).2
    have hzero := (hw.idle d hd).1
    refine waits_arm hw hd rfl (fun _ _ => rfl) rfl rfl (fun _ _ h => h) (fun required' hcall' => ?_)
      fun _ _ _ => hzero
    cases hcall.symm.trans hcall'
    exact hzero
  case checkZero d g hzero | recheckZero d g hzero =>
    have hd := harm d _ rfl rfl
    have hcall : x.calls d = some (.graph g) := (hold _ List.mem_cons_self).2
    refine waits_arm hw hd rfl (fun _ _ => rfl) rfl rfl (fun _ _ h => h) (fun required' hcall' => ?_)
      fun _ _ _ => (hw.idle d hd).1
    cases hcall.symm.trans hcall'
  case recheck d g hne =>
    have hd := harm d _ rfl rfl
    have hcall : x.calls d = some (.graph g) := (hold _ List.mem_cons_self).2
    refine waits_arm hw hd rfl (fun n hn => Function.update_of_ne hn _ _) rfl rfl
      (fun _ _ h => mem_push h) (fun required' hcall' => ?_) fun g' hcall' hmem => ?_
    · cases hcall.symm.trans hcall'
    · cases hcall.symm.trans hcall'
      simp at hmem
  case graphNotify u w list notified =>
    have hmem := hold _ List.mem_cons_self w List.mem_cons_self
    obtain ⟨-, hwarm, hcall⟩ := hk.waiter _ w hmem
    refine ⟨fun n hn => ?_, fun n required hn hcall' => ?_, fun n g hcall' hg => ?_⟩
    · have hne : n ≠ w := fun he => hn (he ▸ hwarm)
      simpa [Function.update_of_ne hne] using hw.idle n hn
    · have hne : n ≠ w := (Shared.ne_of_calls hcall hcall').symm
      simpa [Function.update_of_ne hne] using hw.edges n required hn hcall'
    · have hne : n ≠ w := fun he => by
        rw [he] at hcall'
        cases hcall.symm.trans hcall'
        exact hg (he ▸ hmem)
      simpa [Function.update_of_ne hne] using hw.graph n g hcall' hg
  all_goals exact ⟨hw.idle, hw.edges, hw.graph⟩

/-! ### Nodes in the frames' hands -/

theorem pending_step (h : L.Effect x old x' new) (hk : L.Kept x) (hold : ∀ f ∈ old, L.Known x f)
    (harm : ∀ d b, old = [.build d b] → b.next = .arm → d ∉ x.passed .arm) (hw : Waits x) (n : N) :
    (x'.handed.count n : ℤ) - x'.released n + weight (tally Frame.pending n) new =
      x.handed.count n - x.released n + weight (tally Frame.pending n) old := by
  have hsub : ∀ d, d ∈ x.passed .arm → x'.passed = x.passed →
      x'.waitCount = Function.update x.waitCount d (x.waitCount d - 1) →
      x'.released n = x.released n + (x.woken d).count n := fun d hd hpassed hcount =>
    Shared.released_sub hd hpassed hcount n
  have hset : ∀ d, d ∉ x.passed .arm → x'.passed .arm = x.passed .arm ++ [d] →
      (∀ k, k ≠ d → x'.waitCount k = x.waitCount k) →
      x'.released n = x.released n + (if x'.waitCount d ≤ 0 then [d] else []).count n :=
    fun d hd hpassed hcount => Shared.released_arm hd hpassed hcount n
  have hkeep : x'.passed .arm = x.passed .arm → x'.waitCount = x.waitCount →
      x'.released n = x.released n := fun hpassed hcount => by
    rw [Shared.released, Shared.released, hpassed, hcount]
  rw [weight_tally, weight_tally]
  cases h
  case sub d r rest =>
    have hreq : x.Requires d := hold _ List.mem_cons_self
    rw [hsub d hreq.2.1 rfl rfl]
    simp [Frame.pending, List.flatMap_map]
    omega
  case dup d u rest =>
    rw [hsub d (hold _ List.mem_cons_self).1.2.1 rfl rfl]
    simp [Frame.pending, List.flatMap_map]
    omega
  case notifyBit u d idxs notified =>
    rw [hsub d (hk.marked u d (hold _ List.mem_cons_self).1).1.2.1 rfl rfl]
    simp [Frame.pending, Work.pending]
    omega
  case notify u d list notified =>
    rw [hsub d (hk.down u d (hold _ List.mem_cons_self d List.mem_cons_self)).1.2.1 rfl rfl]
    simp [Frame.pending, Work.pending]
    omega
  case graphNotify u w list notified =>
    have hmem := hold _ List.mem_cons_self w List.mem_cons_self
    rw [hsub w (hk.waiter _ w hmem).2.1 rfl rfl]
    simp [Frame.pending, Work.pending]
    omega
  case arm d required hne =>
    have hd := harm d _ rfl rfl
    have hzero := (hw.idle d hd).1
    have hlen := List.length_pos_iff.mpr hne
    rw [hset d hd rfl fun k hk => Function.update_of_ne hk _ _]
    simp [Frame.pending, hzero, hne]
  case recheck d g hne =>
    have hd := harm d _ rfl rfl
    have hzero := (hw.idle d hd).1
    rw [hset d hd rfl fun k hk => Function.update_of_ne hk _ _]
    simp [Frame.pending, hzero]
  case armNone d | checkZero d g hg | recheckZero d g hg =>
    have hd := harm d _ rfl rfl
    have hzero := (hw.idle d hd).1
    rw [hset d hd rfl fun _ _ => rfl]
    simp [Frame.pending, hzero]
    omega
  case countDown u notified others last hone hleaves =>
    have hperm := hleaves.perm.count_eq n
    rw [List.count_append] at hperm
    rw [hkeep rfl rfl]
    simp [Frame.pending, Work.pending, List.flatMap_map, ← hperm]
  case graphNotifyDone u notified others last hleaves =>
    have hperm := hleaves.perm.count_eq n
    rw [List.count_append] at hperm
    simp [Frame.pending, Work.pending, List.flatMap_map, ← hperm]
  all_goals rw [hkeep rfl rfl]
  all_goals simp [Frame.pending, Work.pending, List.flatMap_map]
  all_goals omega

section Reached
variable {T : Type} [DecidableEq T] [Fintype T] {s s' : Config (Shared N G) (Frame N G) T}
  {ok : Config (Shared N G) (Frame N G) T → T × Option (Act N G) → Config (Shared N G) (Frame N G) T → Prop}
  {t : T} {a : Option (Act N G)}

theorem not_armed (h : L.program.Took ok s t a old s' new) :
    ∀ d b, old = [.build d b] → b.next = .arm → d ∉ s.shared.passed .arm := fun d b he hnext =>
  (not_passed h.reached rfl (h.hasFrame (he ▸ List.mem_cons_self))
    (by simp [Frame.awaits, hnext, Stage.upTo])).1

theorem waits (h : (L.system T).ReachedBy ok s) : Waits s.shared := by
  refine (invariant (J := fun _ _ => True) ?_ (fun s t a old s' new htook hw _ => ?_) h).1
  · exact ⟨fun _ _ => ⟨rfl, rfl⟩, fun d required hd => (by cases hd), fun _ _ _ _ => rfl⟩
  · obtain ⟨hk, hknown⟩ := kept htook.reached
    refine ⟨waits_step (effect_of_moves htook.moves) hk (fun f hf => hknown f (htook.hasFrame hf))
      (fun d hd => ?_) (not_armed htook) hw, fun _ _ => trivial, fun _ _ _ => trivial⟩
    exact Option.isSome_iff_ne_none.mp (called htook.reached rfl hd)

/-- Every node whose count has come to zero is handed out or in a frame's hands. -/
theorem released_add (h : (L.system T).ReachedBy ok s) (n : N) :
    (s.shared.handed.count n : ℤ) + total (tally Frame.pending n) s = s.shared.released n := by
  have hbal := balance (fun x => (x.handed.count n : ℤ) - x.released n)
    (fun _ => tally Frame.pending n)
    (fun s t a old s' new htook => by
      obtain ⟨hk, hknown⟩ := kept htook.reached
      exact ⟨pending_step (effect_of_moves htook.moves) hk (fun f hf => hknown f (htook.hasFrame hf))
        (not_armed htook) (waits htook.reached) n, fun _ _ => rfl⟩) h
  have hstart : (L.program.start.handed.count n : ℤ) - L.program.start.released n = 0 := by
    simp [program, start, Shared.released]
  omega

/-- **Every node is handed out at most once.** -/
theorem handed_le_one (h : (L.system T).ReachedBy ok s) (n : N) : s.shared.handed.count n ≤ 1 := by
  have hadd := released_add h n
  have hpos := total_nonneg (tally_nonneg Frame.pending n) s
  have hone : s.shared.released n ≤ 1 := by
    rw [Shared.released]
    split <;> omega
  omega

theorem released_of_handed (h : (L.system T).ReachedBy ok s) {n : N} (hn : n ∈ s.shared.handed) :
    n ∈ s.shared.passed .arm ∧ s.shared.waitCount n ≤ 0 := by
  have hadd := released_add h n
  have hpos := total_nonneg (tally_nonneg Frame.pending n) s
  have hcount := List.count_pos_iff.mpr hn
  rw [Shared.released] at hadd
  split at hadd
  · next hrel => exact hrel
  · omega

theorem dispatched_le_handed (h : (L.system T).ReachedBy ok s) (n : N) :
    s.shared.dispatched.count n ≤ s.shared.handed.count n := by
  have hadd := dispatched_add h n
  have hpos := total_nonneg (tally_nonneg Frame.placing n) s
  simp only [queued] at hadd
  omega

theorem passed_le_dispatched (h : (L.system T).ReachedBy ok s) {m : Stage} (hm : m.creates = false)
    (n : N) : (s.shared.passed m).count n ≤ s.shared.dispatched.count n := by
  have hadd := passed_add h m n
  have hpos := total_nonneg (tally_nonneg (Frame.awaits m) n) s
  simp only [Shared.entered, hm, cond_false] at hadd
  omega

/-- A node with a frame before a stage of its worker has not passed it. -/
theorem not_passed_worker (h : (L.system T).ReachedBy ok s) {m : Stage} (hm : m.creates = false)
    {f : Frame N G} (hf : s.HasFrame f) {n : N} (hn : n ∈ f.awaits m) : n ∉ s.shared.passed m := by
  have hadd := passed_add h m n
  have hone := one_le_total hf hn
  have hdisp := (dispatched_le_handed h n).trans (handed_le_one h n)
  simp only [Shared.entered, hm, cond_false] at hadd
  intro hmem
  have := List.count_pos_iff.mpr hmem
  omega

theorem passed_le_one (h : (L.system T).ReachedBy ok s) (m : Stage) (n : N) :
    (s.shared.passed m).count n ≤ 1 := by
  have hadd := passed_add h m n
  have hpos := total_nonneg (tally_nonneg (Frame.awaits m) n) s
  cases hm : m.creates with
  | true =>
    simp only [Shared.entered, hm, cond_true] at hadd
    cases hcall : (s.shared.calls n).isSome <;> simp only [hcall, cond_true, cond_false] at hadd <;> omega
  | false =>
    exact (passed_le_dispatched h hm n).trans ((dispatched_le_handed h n).trans (handed_le_one h n))

/-- A node passes the stages of its `create_edges` in order, and so those of its worker. -/
theorem passed_mono (h : (L.system T).ReachedBy ok s) {st m : Stage} (hm : st.upTo m = true)
    (hn : n ∈ s.shared.passed m) : n ∈ s.shared.passed st := by
  have hst := passed_add h st n
  have hadd := passed_add h m n
  have hle : total (tally (Frame.awaits st) n) s ≤ total (tally (Frame.awaits m) n) s :=
    total_mono fun f _ => Frame.awaits_mono hm n f
  have hentered : s.shared.entered st n = s.shared.entered m n := by
    simp only [Stage.upTo, Bool.and_eq_true, beq_iff_eq] at hm
    simp only [Shared.entered, hm.1]
  have hpos := List.count_pos_iff.mpr hn
  exact List.count_pos_iff.mp (by omega)

theorem counted_of_armed (h : (L.system T).ReachedBy ok s) (hn : n ∈ s.shared.passed .arm) :
    n ∈ s.shared.passed .count := passed_mono h rfl hn

/-- A node that is created and built by no frame is through its `create_edges`. -/
theorem passed_of_called (h : (L.system T).ReachedBy ok s) {m : Stage} (hm : m.creates = true) {n : N}
    (hcall : (s.shared.calls n).isSome = true) (hno : ∀ b, ¬s.HasFrame (.build n b)) :
    n ∈ s.shared.passed m := by
  have hadd := passed_add h m n
  have hnone : total (tally (Frame.awaits m) n) s = 0 := by
    refine total_eq_zero fun f hf => ?_
    by_contra hne
    have hmem : n ∈ f.awaits m := List.count_pos_iff.mp (by simp only [tally] at hne; omega)
    cases f with
    | build d b =>
      cases hb : b.next.upTo m <;> simp [Frame.awaits, hb] at hmem
      exact hno b (hmem ▸ hf)
    | work u w =>
      have hlater : ∀ k : Stage, k.creates = false → k.upTo m = false := fun k hk => by
        simp [Stage.upTo, hk, hm]
      cases w <;> simp [Frame.awaits, Work.next, hlater, Stage.creates, Stage.rank] at hmem
    | _ => cases hmem
  simp only [Shared.entered, hm, hcall, cond_true] at hadd
  exact List.count_pos_iff.mp (by omega)

end Reached
end Layout
end QuietFlow.Engine
