import QuietFlow.Graph.Edges
import QuietFlow.Graph.Limits

/-! Which nodes are handed out, and when.

When the bitmaps lose no bit, every finished node has decremented its downstream nodes as
often as they require it (`paid_of_finished`), and a node is handed out exactly when all
it requires is over (`dispatch`). Two threads that build one graph may lose a bit
(`bit_lost`); one thread for each graph cannot (`lossless_of_sole`). -/
namespace QuietFlow.Engine
open Runs Program

variable {N G : Type}

/-- The entries a builder has yet to settle. -/
def Build.entries : Build N G → List (Option N)
  | .count c | .store c => c.required
  | .arm rest | .edges rest => rest
  | .sub r rest => r :: rest
  | .edge u _ rest => some u :: rest
  | .check _ | .recheck _ => []

/-- Part of a `create_edges`. -/
def Frame.inCreate : Frame N G → Bool
  | .build _ _ => true
  | _ => false

theorem Edge.owes_nonneg [DecidableEq N] (x : Shared N G) (u d : N) (e : Edge) : 0 ≤ e.owes x u d := by
  cases e
  case readBak =>
    simp only [owes]
    split <;> omega
  all_goals exact Int.one_pos.le

variable [DecidableEq N]

/-- Part of a `create_edges` of `d` with an entry for `u` to settle. -/
def Frame.registers (u d : N) : Frame N G → Bool
  | .build n b => decide (n = d ∧ some u ∈ b.entries)
  | _ => false

theorem Build.owes_eq_zero {x : Shared N G} {d : N} {o : Option N} {b : Build N G}
    (h : o ∉ b.entries) : b.owes x d o = 0 := by
  cases b with
  | edge u e rest =>
    simp only [entries, List.mem_cons, not_or] at h
    simp [owes, Ne.symm h.1, List.count_eq_zero.mpr h.2]
  | check g | recheck g => rfl
  | _ => simpa [owes, entries, List.count_eq_zero] using h

theorem Frame.owes_nonneg (L : Layout N G) (x : Shared N G) (d : N) (o : Option N) (f : Frame N G) :
    0 ≤ f.owes L x d o := by
  cases f with
  | build n b =>
    simp only [owes]
    split
    · cases b with
      | edge u e rest =>
        have hedge := Edge.owes_nonneg x u d e
        simp only [Build.owes]
        split <;> omega
      | check g | recheck g => exact le_refl 0
      | _ => exact Int.natCast_nonneg _
    · exact le_refl 0
  | work u w =>
    simp only [owes]
    split
    · cases w <;> simp only [Work.owes] <;> omega
    · exact le_refl 0
  | _ => exact le_refl 0

theorem Shared.holds_nonneg (x : Shared N G) (d : N) (o : Option N) : 0 ≤ x.holds d o := by
  cases o with
  | none => exact le_refl 0
  | some u =>
    simp only [holds]
    split <;> omega

namespace Layout
variable [DecidableEq G] {L : Layout N G} {x x' : Shared N G} {old new : List (Frame N G)}

section Reached
variable {T : Type} [DecidableEq T] [Fintype T] {s s' : Config (Shared N G) (Frame N G) T}
  {ok : Config (Shared N G) (Frame N G) T → T × Option (Act N G) → Config (Shared N G) (Frame N G) T → Prop}
  {u d : N}

/-- A worker past a stage has passed it. -/
theorem passed_of_frame (h : (L.system T).ReachedBy ok s) {st m : Stage} (hm : m.upTo st = true)
    (hcreates : m.creates = false) {f : Frame N G} (hf : s.HasFrame f) (hst : u ∈ f.awaits st)
    (hnot : u ∉ f.awaits m) : u ∈ s.shared.passed m := by
  have haddst := passed_add h st u
  have hadd := passed_add h m u
  have hstcreates : st.creates = false := by
    simp only [Stage.upTo, Bool.and_eq_true, beq_iff_eq] at hm
    rw [← hm.1, hcreates]
  simp only [Shared.entered, hcreates, hstcreates, cond_false] at hadd haddst
  have hone := (dispatched_le_handed h u).trans (handed_le_one h u)
  have hzero : total (tally (Frame.awaits m) u) s = 0 := by
    refine total_eq_zero fun g hg => ?_
    by_contra hne
    have hpos : 0 < tally (Frame.awaits m) u g := lt_of_le_of_ne (tally_nonneg _ u g) (Ne.symm hne)
    have hle := Frame.awaits_mono hm u g
    have hmem : ∀ k : Stage, 0 < tally (Frame.awaits k) u g → u ∈ g.awaits k := fun k hk =>
      List.count_pos_iff.mp (Int.natCast_pos.mp hk)
    have hsame := frame_unique (X := Frame.awaits st) (b := u) (by omega) hf hg hst (hmem st (by omega))
    exact hnot (hsame ▸ hmem m hpos)
  have hframe := one_le_total hf hst
  exact List.count_pos_iff.mp (by omega)

theorem over_of_frame (h : (L.system T).ReachedBy ok s) {w : Work N} (hf : s.HasFrame (.work u w))
    (hst : u ∈ (Frame.work u w : Frame N G).awaits .complete)
    (hnot : u ∉ (Frame.work u w : Frame N G).awaits .finish) : u ∈ s.shared.passed .finish :=
  passed_of_frame h rfl rfl hf hst hnot

/-- What a finished upstream holds. -/
theorem holds_of_drained (h : (L.system T).ReachedBy ok s) (hu : u ∈ s.shared.passed .drain) (d : N) :
    s.shared.holds d (some u) = 0 := by
  have hsaved := ((finished h).bak u).mpr (passed_mono h (m := .drain) rfl hu)
  simp [Shared.holds, hu, hsaved]

/-- The worker of a node that is decremented owes nothing. -/
theorem work_owes (h : (L.system T).ReachedBy ok s) (hu : u ∈ s.shared.passed .decrement)
    {w : Work N} (hf : s.HasFrame (.work u w)) (nodes : ℕ → Option N) : w.owes nodes d = 0 := by
  have hnot : u ∉ (Frame.work u w : Frame N G).awaits .decrement := fun hmem =>
    not_passed_worker h (m := .decrement) rfl hf hmem hu
  cases w with
  | bits | notifyBit | notify =>
    exact absurd (by simp [Frame.awaits, Work.next, Stage.upTo, Stage.creates, Stage.rank]) hnot
  | _ => rfl

/-- **Once `finish` of a node has come to its graph and the builder of a downstream node has settled
its entries for the node, the downstream node is decremented on its behalf as often as it
requires it, in every run without lost bits.** -/
theorem paid_of_finished (h : (L.system T).ReachedBy (fun s l _ => lossless s l) s)
    (hu : u ∈ s.shared.passed .decrement) (hd : s.Without (Frame.registers u d)) :
    (s.shared.paid d).count (some u) = (s.shared.required d).count (some u) := by
  have hadd := paid_add h d (some u)
  have hholds := holds_of_drained h (passed_mono h (m := .decrement) rfl hu) d
  have howes : total (Frame.owes L s.shared d (some u)) s = 0 := by
    refine total_eq_zero fun f hf => ?_
    cases f with
    | build n b =>
      have hno := hd.eq_false hf
      simp only [Frame.registers, decide_eq_false_iff_not, not_and] at hno
      by_cases hn : n = d
      · simp [Frame.owes, hn, Build.owes_eq_zero (hno hn)]
      · simp [Frame.owes, hn]
    | work v w =>
      by_cases hv : v = u
      · subst hv
        simp [Frame.owes, work_owes h hu hf]
      · simp [Frame.owes, hv]
    | _ => rfl
  omega

end Reached
end Layout

/-! ### Two builders -/

/-- One graph without limits. -/
def oneGraph : Layout (Fin 3) Unit where
  graphOf _ := ()
  limit _ := none

/-- Two threads load a bitmap and store it one after the other: the first bit is lost, and when all
calls have returned node 1 has not been decremented. -/
theorem bit_lost : ∃ s, (oneGraph.system (Fin 3)).Reached s ∧
    s.shared.required 1 = [some 0] ∧ 0 ∈ s.shared.passed .complete ∧ 1 ∈ s.shared.passed .built ∧
      s.shared.paid 1 = [] ∧ s.shared.paid 2 = [some 0] :=
  System.exists_reachedBy _ (fun _ _ _ => True)
    (steps 0 (.create 0 (.edges [])) 6 ++ steps 1 (.create 1 (.edges [some 0])) 8 ++
      steps 2 (.create 2 (.edges [some 0])) 8 ++ List.replicate 3 (1, none) ++
      List.replicate 3 (2, none) ++ steps 0 (.take 0) 11) _ (by decide)

theorem paid_of_finished_bit : ∃ s, (oneGraph.system (Fin 3)).Reached s ∧
    s.shared.marked 0 = [1] ∧ (s.shared.paid 1).count (some 0) = 1 := by
  obtain ⟨s, hs, hrequired, hmarked, hu, hd⟩ := System.exists_reachedBy (oneGraph.system (Fin 3))
    (fun s l _ => lossless s l)
    (steps 0 (.create 0 (.edges [])) 6 ++ steps 1 (.create 1 (.edges [some 0])) 11 ++
      steps 0 (.take 0) 11)
    (fun s => s.shared.required 1 = [some 0] ∧ s.shared.marked 0 = [1] ∧
      0 ∈ s.shared.passed .decrement ∧ s.Without (Frame.registers 0 1)) (by decide)
  have hpaid := Layout.paid_of_finished hs hu hd
  rw [hrequired] at hpaid
  exact ⟨s, hs.reached, hmarked, hpaid⟩

/-! ### One builder for each graph -/

/-- The nodes of a graph are created by one thread. -/
def Layout.soleBuilder {T : Type} (L : Layout N G) (builder : G → T)
    (l : T × Option (Act N G)) : Prop :=
  match l.2 with
  | some (.create d _) => l.1 = builder (L.graphOf d)
  | _ => True

instance {T : Type} [DecidableEq T] [DecidableEq G] (L : Layout N G) (builder : G → T)
    : ∀ l, Decidable (L.soleBuilder builder l)
  | (_, some (.create _ _)) => inferInstanceAs (Decidable (_ = _))
  | (_, some (.take _)) | (_, none) => .isTrue trivial

/-- Above a `create_edges` there are only calls it makes. -/
def Ordered (frames : List (Frame N G)) : Prop :=
  frames.Pairwise fun above below => below.inCreate = true → above.inReady = true

namespace Layout
variable [DecidableEq G] {L : Layout N G} {x x' : Shared N G} {old new : List (Frame N G)} {d : N}
  {o : Option N}

omit [DecidableEq N] [DecidableEq G] in
theorem ordered_ready (c : Caller N) (ns : List N) (last : List (Frame N G))
    (hlast : last.length ≤ 1) : Ordered (ns.map (.ready c) ++ last) := by
  refine List.pairwise_append.mpr ⟨?_, ?_, fun f hf _ _ _ => ?_⟩
  · refine List.pairwise_of_forall_mem_list fun f hf g hg hcreate => ?_
    obtain ⟨n, -, rfl⟩ := List.mem_map.mp hg
    cases hcreate
  · match last, hlast with
    | [], _ => exact .nil
    | [f], _ => exact List.pairwise_singleton _ f
  · obtain ⟨n, -, rfl⟩ := List.mem_map.mp hf
    rfl

/-- What replaces a frame keeps the order of the stack. -/
theorem ordered_new {f : Frame N G} (h : L.Effect x [f] x' new) : Ordered new ∧
    (f.inReady = true → ∀ g ∈ new, g.inReady = true) ∧
      ∀ d b, .build d b ∈ new → ∃ b', f = .build d b' := by
  generalize hold : [f] = old at h
  cases h
  case create | take => cases hold
  case sub d r rest | dup d u rest =>
    cases hold
    exact ⟨ordered_ready _ _ _ le_rfl, by simp [Frame.inReady], by simp⟩
  case countDown u notified others last hone hleaves | graphNotifyDone u notified others last hleaves =>
    cases hold
    exact ⟨ordered_ready _ _ _ le_rfl, by simp [Frame.inReady], by simp⟩
  case pop u temp n queue hqueue =>
    cases hold
    exact ⟨ordered_ready _ _ _ le_rfl, by simp [Frame.inReady], by simp⟩
  case left u next hst =>
    cases hold
    cases next <;> simp [Ordered, Frame.inReady]
  all_goals
    cases hold
    simp [Ordered, Frame.inReady]

section Reached
variable {T : Type} [DecidableEq T] [Fintype T] {s s' : Config (Shared N G) (Frame N G) T}
  {builder : G → T} {t : T} {a : Option (Act N G)}

omit [Fintype T] in
/-- A thread builds one node at a time, of a graph of its own. -/
theorem built_by (h : (L.system T).ReachedBy (fun _ l _ => L.soleBuilder builder l) s) (t : T) :
    Ordered (s.stack t) ∧ ∀ d b, .build d b ∈ s.stack t → t = builder (L.graphOf d) := by
  refine stack_invariant (K := fun t fs => Ordered fs ∧
    ∀ d b, .build d b ∈ fs → t = builder (L.graphOf d)) (fun t => ⟨.nil, by simp⟩)
    (fun s t a s' _ hstep hok ih => ?_) h t
  obtain ⟨hordered, hbuilder⟩ := ih
  cases a with
  | some a =>
    obtain ⟨⟨x', new⟩, hcall, hs⟩ := Option.map_eq_some_iff.mp hstep
    cases hs
    simp only [Function.update_self]
    cases a with
    | take u =>
      obtain ⟨⟨hnone, -⟩, hnew⟩ := Option.ite_none_right_eq_some.mp hcall
      cases hnew
      rw [List.head?_eq_none_iff.mp hnone]
      exact ⟨List.pairwise_singleton _ _, by simp⟩
    | create d c =>
      obtain ⟨⟨hmay, -⟩, hnew⟩ := Option.ite_none_right_eq_some.mp hcall
      cases hnew
      have hno : ∀ f ∈ s.stack t, f.inCreate = false := by
        cases hstack : s.stack t with
        | nil => simp
        | cons top rest =>
          rw [hstack] at hmay hordered
          match top, hmay with
          | .work u .running, _ =>
            refine List.forall_mem_cons.mpr ⟨rfl, fun f hf => ?_⟩
            have habove := (List.pairwise_cons.mp hordered).1 f hf
            cases hcreate : f.inCreate with
            | false => rfl
            | true => cases habove hcreate
      refine ⟨List.pairwise_cons.mpr ⟨fun f hf hcreate => ?_, hordered⟩, fun n b hb => ?_⟩
      · rw [hno f hf] at hcreate
        cases hcreate
      · rcases List.mem_cons.mp hb with he | hb
        · cases he
          exact hok
        · exact hbuilder n b hb
  | none =>
    simp only [Program.system, step] at hstep
    split at hstep
    · cases hstep
    · next f rest hstack =>
      obtain ⟨⟨x', new⟩, hexec, hs⟩ := Option.map_eq_some_iff.mp hstep
      cases hs
      rw [hstack] at hordered hbuilder
      obtain ⟨hnew, hready, hbuild⟩ := ordered_new (effect_of_moves (.exec hexec))
      obtain ⟨htop, hrest⟩ := List.pairwise_cons.mp hordered
      simp only [Function.update_self]
      refine ⟨List.pairwise_append.mpr ⟨hnew, hrest, fun g hg r hr hcreate =>
        hready (htop r hr hcreate) g hg⟩, fun d b hb => ?_⟩
      rcases List.mem_append.mp hb with hb | hb
      · obtain ⟨b', rfl⟩ := hbuild d b hb
        exact hbuilder d b' List.mem_cons_self
      · exact hbuilder d b (List.mem_cons_of_mem f hb)

omit [Fintype T] in
/-- One frame at a time creates nodes of a graph. -/
theorem builder_alone (h : (L.system T).ReachedBy (fun _ l _ => L.soleBuilder builder l) s) {d d' : N}
    {b b' : Build N G} (hb : s.HasFrame (.build d b)) (hb' : s.HasFrame (.build d' b'))
    (hg : L.graphOf d = L.graphOf d') : (Frame.build d b : Frame N G) = .build d' b' := by
  obtain ⟨t, ht⟩ := hb
  obtain ⟨t', ht'⟩ := hb'
  have hsame : t = t' := by rw [(built_by h t).2 d b ht, (built_by h t').2 d' b' ht', hg]
  subst hsame
  obtain ⟨i, hi, hfi⟩ := List.mem_iff_getElem.mp ht
  obtain ⟨j, hj, hfj⟩ := List.mem_iff_getElem.mp ht'
  have hordered := List.pairwise_iff_getElem.mp (built_by h t).1
  rcases lt_trichotomy i j with hlt | rfl | hlt
  · have habove := hordered i j hi hj hlt
    rw [hfi, hfj] at habove
    cases habove rfl
  · rw [← hfi, ← hfj]
  · have habove := hordered j i hj hi hlt
    rw [hfi, hfj] at habove
    cases habove rfl

/-- A word that is to be stored is the one in memory. -/
def Current (x : Shared N G) : Frame N G → Prop
  | .build _ (.edge u (.storeBits word) _) => word = x.fastDownStrams u
  | _ => True

omit [DecidableEq T] [Fintype T] in
theorem bits_step (h : L.Effect x old x' new) (u : N) : x'.fastDownStrams u = x.fastDownStrams u ∨
    ∃ d word rest, old = [.build d (.edge u (.storeBits word) rest)] ∧
      .build d (.edge u .readBak rest) ∈ new := by
  cases h
  case storeBits d v word rest =>
    by_cases hv : u = v
    · subst hv
      exact .inr ⟨d, word, rest, rfl, List.mem_cons_self⟩
    · exact .inl (by simp [Function.update_of_ne hv])
  all_goals exact .inl rfl

omit [DecidableEq T] [Fintype T] in
theorem current_new (h : L.Effect x old x' new) (hc : ∀ f ∈ old, Current x f) :
    ∀ f ∈ new, Current x' f := by
  have hready : ∀ (c : Caller N) (ns : List N) (last : List (Frame N G)),
      (∀ f ∈ last, Current x' f) → ∀ f ∈ ns.map (.ready c) ++ last, Current x' f := by
    intro c ns last hlast f hf
    rcases List.mem_append.mp hf with hf | hf
    · obtain ⟨n, -, rfl⟩ := List.mem_map.mp hf
      trivial
    · exact hlast f hf
  cases h
  case loadBits d u rest => exact List.forall_mem_singleton.mpr rfl
  case sub d r rest | dup d u rest => exact hready _ _ _ (by simp [Current])
  case countDown u notified others last hone hleaves | graphNotifyDone u notified others last hleaves =>
    exact hready _ _ _ (by simp [Current])
  case pop u temp n queue hqueue => exact hready _ _ _ (by simp [Current])
  case store d c => cases c <;> simp [Call.first, Current]
  all_goals simp [Current]

theorem current (h : (L.system T).ReachedBy (fun _ l _ => L.soleBuilder builder l) s) :
    ∀ f, s.HasFrame f → Current s.shared f := by
  refine (invariant_stay (I := fun _ => True) trivial (fun s t a old s' new htook _ hc => ?_) h).2
  have heff := effect_of_moves htook.moves
  obtain ⟨hk, hknown⟩ := kept htook.reached
  refine ⟨trivial, current_new heff fun f hf => hc f (htook.hasFrame hf), fun f hf hf' hcur => ?_⟩
  match f, hcur with
  | .build d (.edge u (.storeBits word) rest), hcur =>
    rcases bits_step heff u with hsame | ⟨d', word', rest', hold, hnew⟩
    · exact hcur.trans hsame.symm
    · -- The builder that stored is the only one in the graph, and it is past its store.
      have hnear : L.graphOf d = L.graphOf u := (hknown _ hf).2.2.1.1
      have hframe : s.HasFrame (.build d' (.edge u (.storeBits word') rest')) :=
        htook.hasFrame (hold ▸ List.mem_cons_self)
      have hnear' : L.graphOf d' = L.graphOf u := (hknown _ hframe).2.2.1.1
      cases builder_alone htook.reached_next hf' (htook.hasFrame_new hnew) (hnear.trans hnear'.symm)
  | .build _ (.edge _ .status _), _ | .build _ (.edge _ .sameGraph _), _
  | .build _ (.edge _ .testBit _), _ | .build _ (.edge _ .dup _), _ | .build _ (.edge _ .loadBits _), _
  | .build _ (.edge _ .readBak _), _ | .build _ (.edge _ .lock _), _ | .build _ (.count _), _
  | .build _ (.store _), _ | .build _ (.arm _), _ | .build _ (.edges _), _ | .build _ (.sub _ _), _
  | .build _ (.check _), _ | .build _ (.recheck _), _ | .ready _ _, _ | .enqueue _, _
  | .dispatch _, _ | .work _ _, _ => trivial

/-- **One builder for each graph loses no bit.** -/
theorem lossless_of_sole (h : (L.system T).ReachedBy (fun _ l _ => L.soleBuilder builder l) s) :
    (L.system T).ReachedBy (fun s l _ => lossless s l) s := by
  refine System.ReachedBy.induct h .start fun s ⟨t, a⟩ s' hr ih hstep _ => .step ih hstep ?_
  unfold lossless
  split
  · next d u word rest hlabel htop =>
    have hf : s.HasFrame (.build d (.edge u (.storeBits word) rest)) := ⟨t, List.mem_of_mem_head? htop⟩
    have hword : word = s.shared.fastDownStrams u := current hr _ hf
    have hbak := (held ih).1.bak u
    refine BitVec.eq_of_getLsbD_eq fun i _ => ?_
    rw [BitVec.getLsbD_and, getLsbD_bitMapSet, hword]
    by_cases hinit : s.shared.fastDownStramsBak u = bakInit
    · rw [if_pos hinit]
      cases (s.shared.fastDownStrams u).getLsbD i <;> simp
    · rw [if_neg hinit]
      cases hbit : (s.shared.fastDownStramsBak u).getLsbD i with
      | false => rfl
      | true => simp [hbak hinit i hbit]
  · trivial

end Reached

/-! ### Handed out when all is over -/

/-- A node is decremented on behalf of itself, of nodes that are over and, early, of nodes that
hold its bit. -/
def Reasoned (x : Shared N G) : Prop := ∀ d r, some r ∈ x.paid d →
  r = d ∨ r ∈ x.passed .finish ∨ d ∈ x.marked r

/-- A builder decrements its node on behalf of itself and of nodes that are over. -/
def OwnReason (x : Shared N G) : Frame N G → Prop
  | .build d (.sub (some r) _) => r = d ∨ r ∈ x.passed .finish
  | _ => True

omit [DecidableEq G] in
theorem reasoned_pay (hr : Reasoned x) (hpaid : x'.paid = Function.update x.paid d (x.paid d ++ [o]))
    (hgrow : Grows x x') (ho : ∀ r, o = some r → r = d ∨ r ∈ x.passed .finish ∨ d ∈ x.marked r) :
    Reasoned x' := by
  intro n r hmem
  have hcases : some r ∈ x.paid n ∨ n = d ∧ some r = o := by
    rw [hpaid] at hmem
    exact mem_push_cases hmem
  have hbefore : r = n ∨ r ∈ x.passed .finish ∨ n ∈ x.marked r := by
    rcases hcases with hmem | ⟨rfl, ho'⟩
    · exact hr n r hmem
    · exact ho r ho'.symm
  exact hbefore.imp_right fun h => h.imp (hgrow.passed _ r) (hgrow.marked r n)

theorem reasoned_step (h : L.Effect x old x' new) (hg : Grows x x') (hold : ∀ f ∈ old, L.Known x f)
    (hover : ∀ u w, old = [.work u w] → u ∈ (Frame.work u w : Frame N G).awaits .complete →
      u ∉ (Frame.work u w : Frame N G).awaits .finish → u ∈ x.passed .finish)
    (hr : Reasoned x) (ho : ∀ f ∈ old, OwnReason x f) : Reasoned x' := by
  have hkeep : x'.paid = x.paid → Reasoned x' := fun hpaid n r hmem => by
    rw [hpaid] at hmem
    exact (hr n r hmem).imp_right fun h => h.imp (hg.passed _ r) (hg.marked r n)
  cases h
  case sub d r rest =>
    refine reasoned_pay hr rfl hg fun v hv => ?_
    subst hv
    have hown : v = d ∨ v ∈ x.passed .finish := ho _ List.mem_cons_self
    exact hown.imp_right .inl
  case dup d u rest =>
    refine reasoned_pay hr rfl hg fun v hv => ?_
    cases hv
    exact .inr (.inr (hold _ List.mem_cons_self).2.2)
  case notifyBit u d idxs notified =>
    refine reasoned_pay hr rfl hg fun v hv => ?_
    cases hv
    exact .inr (.inl (hover u _ rfl (by simp [Frame.awaits, Work.next, Stage.upTo, Stage.creates, Stage.rank])
      (by simp [Frame.awaits, Work.next, Stage.upTo, Stage.rank])))
  case notify u d list notified =>
    refine reasoned_pay hr rfl hg fun v hv => ?_
    cases hv
    exact .inr (.inl (hover u _ rfl (by simp [Frame.awaits, Work.next, Stage.upTo, Stage.creates, Stage.rank])
      (by simp [Frame.awaits, Work.next, Stage.upTo, Stage.rank])))
  all_goals exact hkeep rfl

theorem ownReason_new (h : L.Effect x old x' new)
    (hover : ∀ u, (x.status u).ended = true → u ∈ x.passed .finish)
    (hsaved : ∀ u, x.fastDownStramsBak u ≠ bakInit → u ∈ x.passed .finish) :
    ∀ f ∈ new, OwnReason x' f := by
  have hready : ∀ (c : Caller N) (ns : List N) (last : List (Frame N G)),
      (∀ f ∈ last, OwnReason x' f) → ∀ f ∈ ns.map (.ready c) ++ last, OwnReason x' f := by
    intro c ns last hlast f hf
    rcases List.mem_append.mp hf with hf | hf
    · obtain ⟨n, -, rfl⟩ := List.mem_map.mp hf
      trivial
    · exact hlast f hf
  cases h
  case edgeSelf d rest => exact List.forall_mem_singleton.mpr (.inl rfl)
  case statusOver d u rest hst | lockOver d u rest hst =>
    exact List.forall_mem_singleton.mpr (.inr (hover u hst))
  case bakMissed d u rest hne hbit => exact List.forall_mem_singleton.mpr (.inr (hsaved u hne))
  case sub d r rest | dup d u rest => exact hready _ _ _ (by simp [OwnReason])
  case countDown u notified others last hone hleaves | graphNotifyDone u notified others last hleaves =>
    exact hready _ _ _ (by simp [OwnReason])
  case pop u temp n queue hqueue => exact hready _ _ _ (by simp [OwnReason])
  case store d c => cases c <;> simp [Call.first, OwnReason]
  all_goals simp [OwnReason]

section Reached
variable {T : Type} [DecidableEq T] [Fintype T] {s s' : Config (Shared N G) (Frame N G) T}
  {builder : G → T} {t : T} {a : Option (Act N G)} {d : N}

theorem reasoned {ok : Config (Shared N G) (Frame N G) T → T × Option (Act N G) →
    Config (Shared N G) (Frame N G) T → Prop} (h : (L.system T).ReachedBy ok s) :
    Reasoned s.shared ∧ ∀ f, s.HasFrame f → OwnReason s.shared f := by
  refine invariant (fun d r hmem => by simp [program, start] at hmem)
    (fun s t a old s' new htook hr ho => ?_) h
  have heff := effect_of_moves htook.moves
  have hg := grows htook
  have hfin := finished htook.reached
  refine ⟨reasoned_step heff hg (fun f hf => (kept htook.reached).2 f (htook.hasFrame hf))
    (fun u w he => over_of_frame htook.reached (htook.hasFrame (he ▸ List.mem_cons_self))) hr
    fun f hf => ho f (htook.hasFrame hf),
    ownReason_new heff (fun u => (hfin.status u).mp) (fun u hne =>
      passed_mono htook.reached (m := .snapshot) rfl ((hfin.bak u).mp hne)), fun f _ hf => ?_⟩
  cases f with
  | ready | enqueue | dispatch | work => trivial
  | build d b =>
    cases b with
    | edge | count | store | arm | edges | check | recheck => trivial
    | sub r rest =>
      cases r with
      | none => trivial
      | some r => exact hf.imp_right (hg.passed _ r)

/-- A node that is handed out is paid all it was created to require. -/
theorem paid_of_handed (h : (L.system T).ReachedBy (fun s l _ => lossless s l) s)
    (hd : d ∈ s.shared.handed) (o : Option N) :
    (s.shared.paid d).count o = (s.shared.required d).count o := by
  obtain ⟨harm, hcount⟩ := released_of_handed h hd
  have hle : ∀ o, (s.shared.paid d).count o ≤ (s.shared.required d).count o := fun o => by
    have hadd := paid_add h d o
    have hholds := s.shared.holds_nonneg d o
    have howes := total_nonneg (fun f => Frame.owes_nonneg L s.shared d o f) s
    omega
  have hlength : (s.shared.required d).length ≤ (s.shared.paid d).length := by
    cases hcall : s.shared.calls d with
    | none => simp [Shared.required, hcall]
    | some c =>
      cases c with
      | graph g => simp [Shared.required, hcall, Call.required]
      | edges required =>
        have hwaits := (waits h).edges d required harm hcall
        have hsame : s.shared.required d = required := by simp [Shared.required, hcall, Call.required]
        rw [hsame]
        omega
  have hsub : List.Subperm (s.shared.paid d) (s.shared.required d) :=
    List.subperm_ext_iff.mpr fun o _ => hle o
  exact (hsub.perm_of_length_le hlength).count_eq o

theorem over_of_handed (h : (L.system T).ReachedBy (fun s l _ => lossless s l) s)
    (hd : d ∈ s.shared.handed) {r : N} (hr : some r ∈ s.shared.required d) (hne : r ≠ d) :
    (s.shared.status r).ended = true := by
  have hpaid := paid_of_handed h hd (some r)
  have hmem : some r ∈ s.shared.paid d :=
    List.count_pos_iff.mp (by rw [hpaid]; exact List.count_pos_iff.mpr hr)
  rcases (reasoned h).1 d r hmem with he | hfinish | hmarked
  · exact absurd he hne
  · exact over_of_passed h rfl hfinish
  · have hadd := paid_add h d (some r)
    have howes := total_nonneg (fun f => Frame.owes_nonneg L s.shared d (some r) f) s
    have hdown : (0 : ℤ) ≤ if r ∈ s.shared.passed .drain then 0
        else ((s.shared.downStreams r).count d : ℕ) := by split <;> omega
    have hsaved : s.shared.fastDownStramsBak r ≠ bakInit := by
      intro hinit
      rw [Shared.holds, if_pos ⟨hmarked, hinit⟩] at hadd
      omega
    exact over_of_passed h (m := .snapshot) rfl (((finished h).bak r).mp hsaved)

/-- With no call in progress, a node whose required nodes are over is handed out. -/
theorem handed_of_over (h : (L.system T).ReachedBy (fun s l _ => lossless s l) s)
    (hcreate : s.Without Frame.inCreate) (hready : s.Without Frame.inReady)
    (hfinish : s.Without Frame.inFinish) (hcalled : (s.shared.calls d).isSome = true)
    (hcall : ∀ g, s.shared.calls d ≠ some (.graph g))
    (hover : ∀ r, some r ∈ s.shared.required d → r ≠ d → (s.shared.status r).ended = true) :
    d ∈ s.shared.handed := by
  have hbuild : ∀ b, ¬s.HasFrame (.build d b) := fun b hf => by
    have hno := hcreate.eq_false hf
    cases hno
  have hwork : ∀ {u w}, s.HasFrame (.work u w) → w = .taken ∨ w = .resume ∨ w = .running ∨
      ∃ next, w = .left next := by
    intro u w hf
    have hno := hfinish.eq_false hf
    cases w with
    | taken => exact .inl rfl
    | resume => exact .inr (.inl rfl)
    | running => exact .inr (.inr (.inl rfl))
    | left next => exact .inr (.inr (.inr ⟨next, rfl⟩))
    | _ => cases hno
  have howes : ∀ o, total (Frame.owes L s.shared d o) s = 0 := fun o => total_eq_zero fun f hf => by
    cases f with
    | build n b =>
      have hno := hcreate.eq_false hf
      cases hno
    | work u w => rcases hwork hf with rfl | rfl | rfl | ⟨next, rfl⟩ <;> simp [Frame.owes, Work.owes]
    | _ => rfl
  have hcomplete : ∀ r, (s.shared.status r).ended = true → r ∈ s.shared.passed .drain := by
    intro r hr
    have hfinished := ((finished h).status r).mp hr
    have hadd := passed_add h .finish r
    have hadd' := passed_add h .drain r
    have hsame : total (tally (Frame.awaits .drain) r) s = total (tally (Frame.awaits .finish) r) s := by
      refine total_congr fun f hf => ?_
      cases f with
      | build n b =>
        have hno := hcreate.eq_false hf
        cases hno
      | work u w => rcases hwork hf with rfl | rfl | rfl | ⟨next, rfl⟩ <;> rfl
      | _ => rfl
    have hentered : s.shared.entered .finish r = s.shared.entered .drain r := rfl
    have hpos := List.count_pos_iff.mpr hfinished
    exact List.count_pos_iff.mp (by omega)
  have hpaid : ∀ o, (s.shared.paid d).count o = (s.shared.required d).count o := by
    intro o
    have hadd := paid_add h d o
    rw [howes o] at hadd
    have hholds : s.shared.holds d o = 0 := by
      cases o with
      | none => rfl
      | some r =>
        by_cases hself : r = d
        · subst hself
          have hk := (kept h).1
          have hmark : r ∉ s.shared.marked r := fun hmem => (hk.marked r r hmem).2.1 rfl
          have hdown : r ∉ s.shared.downStreams r := fun hmem => (hk.down r r hmem).2 rfl
          simp [Shared.holds, hmark, List.count_eq_zero.mpr hdown]
        · by_cases hreq : some r ∈ s.shared.required d
          · exact holds_of_drained h (hcomplete r (hover r hreq hself)) d
          · have hnonneg := s.shared.holds_nonneg d (some r)
            rw [List.count_eq_zero.mpr hreq] at hadd
            omega
    omega
  have harmed := passed_of_called h (m := .arm) rfl hcalled hbuild
  have hcount : s.shared.waitCount d = 0 := by
    cases hcall' : s.shared.calls d with
    | none => simp [hcall'] at hcalled
    | some c =>
      cases c with
      | graph g => exact absurd hcall' (hcall g)
      | edges required =>
        have hlength := (waits h).edges d required harmed hcall'
        have hperm : (s.shared.paid d).Perm required := List.perm_iff_count.mpr fun o => by
          rw [hpaid o]
          simp [Shared.required, hcall', Call.required]
        rw [hperm.length_eq] at hlength
        omega
  have hpending : total (tally Frame.pending d) s = 0 := total_eq_zero fun f hf => by
    cases f with
    | ready c n =>
      have hno := hready.eq_false hf
      cases hno
    | work u w => rcases hwork hf with rfl | rfl | rfl | ⟨next, rfl⟩ <;> rfl
    | _ => rfl
  have hadd := released_add h d
  rw [Shared.released, if_pos ⟨harmed, hcount.le⟩, hpending] at hadd
  exact List.count_pos_iff.mp (by omega)

/-- **When each graph is built by one thread, every node is handed out at most once, only when the
nodes it requires are over, and with no call in progress every node whose required nodes are
over is handed out.** -/
theorem dispatch (h : (L.system T).ReachedBy (fun _ l _ => L.soleBuilder builder l) s) :
    (∀ d, s.shared.handed.count d ≤ 1) ∧
      (∀ d ∈ s.shared.handed, ∀ r, some r ∈ s.shared.required d → r ≠ d →
        (s.shared.status r).ended = true) ∧
      (s.Without Frame.inCreate → s.Without Frame.inReady → s.Without Frame.inFinish →
        ∀ d required, s.shared.calls d = some (.edges required) →
          (∀ r, some r ∈ required → r ≠ d → (s.shared.status r).ended = true) →
            d ∈ s.shared.handed) := by
  have hlossless := lossless_of_sole h
  refine ⟨handed_le_one h, fun d hd r hr hne => over_of_handed hlossless hd hr hne,
    fun hcreate hready hfinish d required hcall hover => ?_⟩
  refine handed_of_over hlossless hcreate hready hfinish (by rw [hcall]; rfl) (fun g => ?_) ?_
  · rw [hcall]
    simp
  · intro r hr
    refine hover r ?_
    simpa [Shared.required, hcall, Call.required] using hr

end Reached
end Layout
/-- Thread 0 builds the graph and thread 1 runs its nodes. -/
theorem dispatch_edge : ∃ s, (oneGraph.system (Fin 3)).Reached s ∧
    s.shared.required 1 = [none, some 0, some 0, some 1] ∧ 1 ∈ s.shared.handed := by
  obtain ⟨s, hs, hcall, hcreate, hready, hfinish, hover⟩ :=
    System.exists_reachedBy (oneGraph.system (Fin 3)) (fun _ l _ => oneGraph.soleBuilder (fun _ => 0) l)
      (steps 0 (.create 0 (.edges [])) 6 ++ steps 0 (.create 1 (.edges [none, some 0, some 0, some 1])) 21 ++
        steps 1 (.take 0) 11)
      (fun s => s.shared.calls 1 = some (.edges [none, some 0, some 0, some 1]) ∧
        s.Without Frame.inCreate ∧ s.Without Frame.inReady ∧ s.Without Frame.inFinish ∧
        (s.shared.status 0).ended = true) (by decide)
  refine ⟨s, hs.reached, by simp [Shared.required, hcall, Call.required],
    (Layout.dispatch hs).2.2 hcreate hready hfinish 1 _ hcall fun r hr hne => ?_⟩
  have hzero : r = 0 := by simpa [hne] using hr
  exact hzero ▸ hover

end QuietFlow.Engine
