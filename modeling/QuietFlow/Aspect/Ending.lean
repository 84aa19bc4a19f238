import QuietFlow.Aspect.Waits
import QuietFlow.Runs.Cycles
import Mathlib.Data.Set.Finite.Lattice

/-! Whether the search for a circle ends.

No node is marked as visited, so a chain into a cycle is followed round and round. Only the
current task stops it, or a null pointer. -/
namespace QuietFlow.Aspect
open Runs Relation

section Ending
variable {status : ℕ → RunningStatus} {upStreams : ℕ → List (Option ℕ)} {currentTask : ℕ}
  {checkNodes : List (Option ℕ)}

theorem checkLoop_of_next {fuel : ℕ} {level : List ℕ}
    (h : ∀ next, nextLevel status upStreams level = .ok next →
      checkLoop status upStreams currentTask fuel next ≠ .error .running) :
    checkLoop status upStreams currentTask (fuel + 1) level ≠ .error .running := by
  rw [checkLoop]
  split
  · simp
  · split
    · simp
    · rcases nextLevel_spec status upStreams level with
        ⟨-, hnext⟩ | ⟨-, next, hnext, -⟩
      · rw [hnext]
        simp [Except.bind]
      · rw [hnext]
        exact h next hnext

theorem mem_next {level next : List ℕ} {n m : ℕ} (h : nextLevel status upStreams level = .ok next)
    (hn : n ∈ level) (hnm : Follows status upStreams n m) : m ∈ next := by
  rcases nextLevel_spec status upStreams level with
    ⟨-, hnext⟩ | ⟨-, next', hnext, hmem⟩
  · rw [h] at hnext
    cases hnext
  · rw [h] at hnext
    cases hnext
    exact (hmem m).mpr ⟨n, hn, hnm⟩

/-- A chain to the current task, or to a null pointer, ends the loop. -/
theorem ends_of_path {n m : ℕ} (h : ReflTransGen (Follows status upStreams) n m)
    (hend : m = currentTask ∨ none ∈ upStreams m) {level : List ℕ} (hn : n ∈ level) :
    ∃ fuel, checkLoop status upStreams currentTask fuel level ≠ .error .running := by
  induction h using ReflTransGen.head_induction_on generalizing level with
  | refl =>
    refine ⟨1, ?_⟩
    rcases hend with rfl | hnull
    · rw [checkLoop, if_neg (List.ne_nil_of_mem hn), if_pos hn]
      simp
    · refine checkLoop_of_next fun next hnext => ?_
      rcases nextLevel_spec status upStreams level with
        ⟨-, hnext'⟩ | ⟨hnone, -⟩
      · rw [hnext] at hnext'
        cases hnext'
      · exact absurd ⟨m, hn, hnull⟩ hnone
  | @head n c hnc _ ih =>
    by_cases hnext : ∃ next, nextLevel status upStreams level = .ok next
    · obtain ⟨next, hnext⟩ := hnext
      obtain ⟨fuel, hfuel⟩ := ih (mem_next hnext hn hnc)
      refine ⟨fuel + 1, checkLoop_of_next fun next' hnext' => ?_⟩
      rw [hnext] at hnext'
      cases hnext'
      exact hfuel
    · exact ⟨1, checkLoop_of_next fun next hnext' => absurd ⟨next, hnext'⟩ hnext⟩

/-- Where no cycle is in reach, the number of descendants falls from level to level. -/
theorem ends_of_acyclic {r : ℕ → ℕ → Prop} {s : Finset ℕ} {p : ℕ → Prop} (hr : Acyclic r)
    (hp : ∀ n m, p n → Follows status upStreams n m → p m ∧ r n m ∧ m ∈ s) {fuel : ℕ} {level : List ℕ}
    (hlevel : ∀ n ∈ level, p n ∧ (descendants r s n).card < fuel) :
    checkLoop status upStreams currentTask (fuel + 1) level ≠ .error .running := by
  induction fuel generalizing level with
  | zero =>
    have hempty : level = [] := List.eq_nil_iff_forall_not_mem.mpr fun n hn => by
      exact absurd (hlevel n hn).2 (Nat.not_lt_zero _)
    rw [checkLoop, if_pos hempty]
    simp
  | succ fuel ih =>
    refine checkLoop_of_next fun next hnext => ih fun m hm => ?_
    rcases nextLevel_spec status upStreams level with
      ⟨-, hnext'⟩ | ⟨-, next', hnext', hmem⟩
    · rw [hnext] at hnext'
      cases hnext'
    · rw [hnext] at hnext'
      cases hnext'
      obtain ⟨n, hn, hnm⟩ := (hmem m).mp hm
      obtain ⟨hpn, hcard⟩ := hlevel n hn
      obtain ⟨hpm, hrnm, hms⟩ := hp n m hpn hnm
      have hlt := descendants_card_lt_of_rel hr hrnm hms
      exact ⟨hpm, by omega⟩

/-- A cycle in reach keeps the loop running, if nothing else is. -/
theorem running_of_cycle {n c : ℕ} {level : List ℕ} (hn : n ∈ level)
    (hpath : ReflTransGen (Follows status upStreams) n c)
    (hcycle : TransGen (Follows status upStreams) c c)
    (htask : ∀ n ∈ level, ¬ ReflTransGen (Follows status upStreams) n currentTask)
    (hnull : ∀ n ∈ level, ∀ m, ReflTransGen (Follows status upStreams) n m → none ∉ upStreams m) (fuel : ℕ) :
    checkLoop status upStreams currentTask fuel level = .error .running := by
  induction fuel generalizing n level with
  | zero => rfl
  | succ fuel ih =>
    have hmem : currentTask ∉ level := fun h => htask currentTask h .refl
    rw [checkLoop, if_neg (List.ne_nil_of_mem hn), if_neg hmem]
    rcases nextLevel_spec status upStreams level with
      ⟨⟨x, hx, hxnull⟩, -⟩ | ⟨-, next, hnext, hmem⟩
    · exact absurd hxnull (hnull x hx x .refl)
    · rw [hnext]
      have hstep : ∃ m, Follows status upStreams n m ∧ ReflTransGen (Follows status upStreams) m c := by
        rcases ReflTransGen.cases_head hpath with rfl | h
        · exact TransGen.head'_iff.mp hcycle
        · exact h
      obtain ⟨m, hnm, hmc⟩ := hstep
      refine ih ((hmem m).mpr ⟨n, hn, hnm⟩) hmc (fun x hx hxt => ?_) fun x hx y hxy => ?_
      · obtain ⟨z, hz, hzx⟩ := (hmem x).mp hx
        exact htask z hz (.head hzx hxt)
      · obtain ⟨z, hz, hzx⟩ := (hmem x).mp hx
        exact hnull z hz y (.head hzx hxy)

/-- The search of a finite relation ends exactly when a chain leads to the current task, a chain
leads to a null pointer, or no chain leads into a cycle. -/
theorem ends_iff (hfin : {p : ℕ × ℕ | some p.2 ∈ upStreams p.1}.Finite) (hnull : none ∉ checkNodes) :
    Ends status upStreams currentTask checkNodes ↔
      Chain status upStreams checkNodes currentTask ∨
      (∃ m, Chain status upStreams checkNodes m ∧ none ∈ upStreams m) ∨
      ∀ m, Chain status upStreams checkNodes m → ¬ TransGen (Follows status upStreams) m m := by
  rcases checkNodes_spec status checkNodes with ⟨hnone, -⟩ | ⟨-, level, hfold, hmem⟩
  · exact absurd hnone hnull
  have hends : Ends status upStreams currentTask checkNodes ↔
      ∃ fuel, checkLoop status upStreams currentTask fuel level ≠ .error .running := by
    simp only [Ends, doCheckCircle, hfold]
    rfl
  rw [hends]
  constructor
  · rintro ⟨fuel, hfuel⟩
    by_contra hnot
    simp only [not_or, not_exists, not_and, not_forall, not_not] at hnot
    obtain ⟨htask, hnone, m, ⟨n, hn, hun, hpath⟩, hcycle⟩ := hnot
    refine hfuel (running_of_cycle ((hmem n).mpr ⟨hn, hun⟩) hpath hcycle (fun x hx hxt => ?_)
      (fun x hx y hxy => ?_) fuel)
    · obtain ⟨hx, hunx⟩ := (hmem x).mp hx
      exact htask ⟨x, hx, hunx, hxt⟩
    · obtain ⟨hx, hunx⟩ := (hmem x).mp hx
      exact hnone y ⟨x, hx, hunx, hxy⟩
  · rintro (⟨n, hn, hun, hpath⟩ | ⟨m, ⟨n, hn, hun, hpath⟩, hnone⟩ | hacyclic)
    · exact ends_of_path hpath (.inl rfl) ((hmem n).mpr ⟨hn, hun⟩)
    · exact ends_of_path hpath (.inr hnone) ((hmem n).mpr ⟨hn, hun⟩)
    · -- only what a chain leads to counts
      have hr : Acyclic fun a b => Chain status upStreams checkNodes a ∧ Follows status upStreams a b := by
        intro a ha
        obtain ⟨_, ⟨hchain, -⟩, -⟩ := TransGen.head'_iff.mp ha
        exact hacyclic a hchain (TransGen.mono (fun _ _ h => h.2) a a ha)
      let s := (hfin.image Prod.snd).toFinset
      refine ⟨s.card + 1 + 1, ends_of_acyclic (s := s) (p := Chain status upStreams checkNodes) hr
        (fun a b ha hab => ?_) fun n hn => ⟨?_, Nat.lt_succ_of_le descendants_card_le⟩⟩
      · obtain ⟨n, hn, hun, hpath⟩ := ha
        refine ⟨⟨n, hn, hun, hpath.tail hab⟩, ⟨⟨n, hn, hun, hpath⟩, hab⟩, ?_⟩
        exact (Set.Finite.mem_toFinset _).mpr ⟨(a, b), hab.1, rfl⟩
      · obtain ⟨hlist, hun⟩ := (hmem n).mp hn
        exact ⟨n, hlist, hun, .refl⟩

theorem ends_of_task : Ends (fun _ => .initing) (fun n => if n = 2 then [some 2, some 1] else []) 1 [some 2] := by
  have hfin : {p : ℕ × ℕ | some p.2 ∈ (fun n => if n = 2 then [some 2, some 1] else []) p.1}.Finite := by
    refine (Set.toFinite {((2 : ℕ), (2 : ℕ)), (2, 1)}).subset fun p hp => ?_
    obtain ⟨n, m⟩ := p
    by_cases hn : n = 2
    · simpa [hn] using hp
    · simp [hn] at hp
  refine (ends_iff hfin (by simp)).mpr (.inl ⟨2, by simp, by decide, .single ⟨by simp, by decide, by decide⟩⟩)

/-- A node that requires itself, as `test_create_edges_self` has it, keeps the loop running. -/
theorem endless_of_self : ¬ ∀ s, system.Reached s → ∀ status t nodes, none ∉ nodes →
    Ends status s.upStreams t nodes := by
  intro h
  obtain ⟨s, hs, hups⟩ := System.exists_reachedBy system (fun _ _ _ => True)
    [.new, .createEdges 0 1 [some 1], .new, .createEdges 0 2 [], .start 2]
    (fun s => s.upStreams 1 = [some 1, some flagNode]) (by decide)
  have hself : ∀ m, Follows (fun _ => .initing) s.upStreams 1 m ↔ m = 1 := fun m => by
    simp only [Follows, hups, List.mem_cons, Option.some_inj, List.not_mem_nil, or_false]
    grind [flagNode, RunningStatus.ended, RunningStatus.value]
  have hone : ∀ m, ReflTransGen (Follows (fun _ => .initing) s.upStreams) 1 m → m = 1 := fun m hpath => by
    induction hpath with
    | refl => rfl
    | tail _ hnm ih => exact (hself _).mp (ih ▸ hnm)
  obtain ⟨fuel, hfuel⟩ := h s hs (fun _ => .initing) 2 [some 1] (by simp)
  refine hfuel (running_of_cycle (List.mem_singleton_self 1) .refl (.single ((hself 1).mpr rfl)) ?_ ?_ fuel)
  · intro n hn hpath
    rw [List.mem_singleton.mp hn] at hpath
    cases hone 2 hpath
  · intro n hn m hpath hnone
    rw [List.mem_singleton.mp hn] at hpath
    rw [hone m hpath, hups] at hnone
    simp at hnone

end Ending
end QuietFlow.Aspect
