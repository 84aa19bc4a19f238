import QuietFlow.Schedule.Yields

/-! Contexts, from `new` to `delete`.

Two workers never run on one context, a context is resumed after it was saved, and it is
deleted once, when nothing refers to it. The live contexts are counted by their owners:
each started worker has its thread's own context, which `routine` left, and the one it runs
on; each wait that is not resumed has one. -/
namespace QuietFlow.Schedule
open Runs Crew

/-- Has left the context of its thread. -/
def Pc.launched : Pc → Bool
  | .created | .routine | .swapPre _ .routine | .swapNew _ .routine | .swap _ .routine => false
  | _ => true

/-- Between allocation and swap, or between a resume and its delete. -/
def Pc.between : Pc → Bool
  | .routine | .swapPre _ .routine | .swapNew _ .routine | .swap _ _ | .resumed _ | .resumedDelete _ => true
  | _ => false

/-- Before a swap, `context_ptr` is still null or the worker's own context. -/
def Worker.Leaving (w : Worker) : Prop :=
  match w.pc with
  | .created | .routine => w.contextPtr = none
  | .swapPre _ _ | .swapNew _ _ => ∀ c, w.contextPtr = some c → c = w.stack
  | _ => True

namespace Shared
variable (x : Shared)

/-- The contexts that were made and not deleted. -/
def live : Finset ℕ := (Finset.range x.contexts).filter fun c => c ∉ x.freed

/-- The waits that have yielded and are not resumed. -/
def yielded : ℕ := x.saved.countP fun e => e.cont ≠ .routine

def launches : ℕ := x.saved.countP fun e => e.cont = .routine

theorem launches_add_yielded : x.launches + x.yielded = x.saved.length := by
  have hsplit := List.length_eq_countP_add_countP (l := x.saved) fun e => decide (e.cont = .routine)
  simpa [launches, yielded] using hsplit.symm

end Shared

section Step
variable {x x' : Shared} {w w' : Worker}

theorem leaving_step (h : Effect x w x' w') (hs : w.Sound) (hl : w.Leaving) : w'.Leaving := by
  cases h
  case created => exact hl
  case routine st p q =>
    have hp : p = none := hl
    intro c hc
    rw [hp] at hc
    cases hc
  case swapPre => exact hl
  case idleAdd st p q v c hc =>
    have hp : p = some st := hs
    intro d hd
    rw [hp] at hd
    exact (Option.some.inj hd).symm
  all_goals trivial

theorem pending_step (h : Effect x w x' w') :
    x'.pendingContextNum - x'.contexts + x'.freed.length =
      x.pendingContextNum - x.contexts + x.freed.length := by
  cases h
  case created | swapNew =>
    simp only [Shared.newContext, Shared.setStatus]
    push_cast
    omega
  case resumedDelete =>
    simp only [Shared.deleteContext, List.length_append, List.length_singleton]
    push_cast
    omega
  all_goals rfl

/-- The contexts of all owners add up to those that were made. -/
theorem owned_length_step (h : Effect x w x' w') (hs : w.Sound) :
    (x'.saved.length + x'.freed.length - x'.contexts : ℤ) + w'.owned.length =
      (x.saved.length + x.freed.length - x.contexts) + w.owned.length := by
  cases h
  case created | swapNew =>
    simp only [Shared.newContext, Shared.setStatus, Worker.owned, List.length_cons, List.length_nil,
      Option.toList_some]
    push_cast
    omega
  case swap st c q out k =>
    simp only [Worker.owned, List.length_append, List.length_cons, List.length_nil, Option.toList_some]
    push_cast
    omega
  case jump st c q b v hmem =>
    have hq : q = some st := hs
    subst hq
    have herase := List.length_erase_of_mem hmem
    have hpos := List.length_pos_of_mem hmem
    simp only [Worker.owned, List.length_cons, List.length_nil, Option.toList_some]
    omega
  case resumedDelete st p c v =>
    simp only [Shared.deleteContext, Worker.owned, List.length_append, List.length_cons, List.length_nil,
      Option.toList_some]
    push_cast
    omega
  all_goals rfl

theorem launches_step (h : Effect x w x' w') :
    (x'.launches : ℤ) - (if w'.pc.launched = true then 1 else 0) =
      x.launches - if w.pc.launched = true then 1 else 0 := by
  cases h
  case routine => rfl
  case swap st c q out k =>
    have hcount : Shared.launches {x with saved := x.saved ++ [⟨out, k⟩]} =
        x.launches + if k = .routine then 1 else 0 := by
      simp [Shared.launches, List.countP_append, List.countP_cons]
    rw [hcount]
    cases k <;> simp [Pc.launched]
  case jump st c q b v hmem =>
    have hcount : Shared.launches {x with saved := x.saved.erase ⟨c, .wait v⟩} = x.launches := by
      have hperm := (List.perm_cons_erase hmem).countP_eq fun e => decide (e.cont = .routine)
      simpa [Shared.launches] using hperm.symm
    rw [hcount]
    rfl
  case swapPre st p q out k => cases k <;> rfl
  case swapNew st p q out k => cases k <;> rfl
  all_goals rfl

end Step

section Run
variable {T : Type} [Fintype T] [DecidableEq T] {stored : ℤ} {s : Crew.Config Shared Worker T}

/-- How many workers have started. -/
def started (s : Crew.Config Shared Worker T) : ℕ := (Finset.univ.filter fun t => (s.places t).pc ≠ .created).card

theorem leaving (h : ((crew stored).system T).Reached s) : ∀ t, (s.places t).Leaving := by
  refine Crew.induct (I := fun s => ∀ t, (s.places t).Leaving) (fun _ => rfl)
    (fun s t a s' htook ih t' => ?_) h
  by_cases ht : t' = t
  · subst ht
    exact leaving_step (effect_of_exec htook.exec) ((linked htook.reached).sound t') (ih t')
  · rw [htook.other ht]
    exact ih t'

section Counts
variable (h : ((crew stored).system T).Reached s)
include h

theorem pending_eq : s.shared.pendingContextNum = s.shared.contexts - s.shared.freed.length := by
  have hbalance := Crew.balance
    (fun x : Shared => x.pendingContextNum - x.contexts + x.freed.length) (fun _ : Worker => 0)
    (fun s t a s' htook => by rw [pending_step (effect_of_exec htook.exec)]) h
  have hzero : ∀ p : T → Worker, census (fun _ : Worker => 0) p = 0 := fun p => census_eq_zero fun _ => rfl
  have hstart : (crew stored).start.pendingContextNum - (crew stored).start.contexts +
      (crew stored).start.freed.length = 0 := rfl
  rw [hzero, hzero, hstart] at hbalance
  omega

theorem freed_nodup : s.shared.freed.Nodup :=
  List.nodup_iff_count_le_one.mpr fun c => by
    have hle := saved_count_le h (c := c)
    split at hle <;> omega

theorem lt_of_freed {c : ℕ} (hc : c ∈ s.shared.freed) : c < s.shared.contexts := by
  have hle := saved_count_le h (c := c)
  have hpos := List.count_pos_iff.mpr hc
  split at hle
  · assumption
  · omega

theorem live_card : (s.shared.live.card : ℤ) = s.shared.pendingContextNum := by
  have hfreed : s.shared.freed.toFinset ⊆ Finset.range s.shared.contexts := fun c hc =>
    Finset.mem_range.mpr (lt_of_freed h (List.mem_toFinset.mp hc))
  have hlive : s.shared.live = Finset.range s.shared.contexts \ s.shared.freed.toFinset := by
    ext c
    simp [Shared.live]
  have hcard := Finset.card_sdiff_add_card_eq_card hfreed
  rw [List.toFinset_card_of_nodup (freed_nodup h), Finset.card_range] at hcard
  rw [pending_eq h, hlive]
  omega

theorem contexts_eq : (s.shared.contexts : ℤ) =
    s.shared.saved.length + s.shared.freed.length + census (fun w : Worker => (w.owned.length : ℤ)) s.places := by
  have hbalance := Crew.balance
    (fun x : Shared => (x.saved.length + x.freed.length - x.contexts : ℤ))
    (fun w : Worker => (w.owned.length : ℤ))
    (fun s t a s' htook => owned_length_step (effect_of_exec htook.exec) ((linked htook.reached).sound t)) h
  have hzero : census (fun w : Worker => (w.owned.length : ℤ)) (fun _ : T => (crew stored).place) = 0 :=
    census_eq_zero fun _ => rfl
  have hstart : ((crew stored).start.saved.length + (crew stored).start.freed.length -
      (crew stored).start.contexts : ℤ) = 0 := rfl
  rw [hzero, hstart] at hbalance
  omega

/-- Each worker that has left its thread's context has saved it. -/
theorem launches_eq : (s.shared.launches : ℤ) =
    census (fun w : Worker => if w.pc.launched = true then 1 else 0) s.places := by
  have hbalance := Crew.balance (fun x : Shared => -(x.launches : ℤ))
    (fun w : Worker => if w.pc.launched = true then 1 else 0)
    (fun s t a s' htook => by
      have hstep := launches_step (effect_of_exec htook.exec)
      omega) h
  have hzero : census (fun w : Worker => if w.pc.launched = true then 1 else 0)
      (fun _ : T => (crew stored).place) = 0 := census_eq_zero fun _ => rfl
  have hstart : (-((crew stored).start.launches : ℤ)) = 0 := rfl
  rw [hzero, hstart] at hbalance
  omega

end Counts

/-- Who `context_ptr` points to: the worker's own context, or the one it is about to jump
to. -/
theorem pointed (h : ((crew stored).system T).Reached s) {t : T} {c : ℕ}
    (hc : (s.places t).contextPtr = some c) :
    c ∈ (s.places t).owned ∨ (∃ b, (s.places t).pc = .jump b) ∧ c ∈ s.shared.saved.map Saved.context := by
  have hsound := (linked h).sound t
  have hleaving := leaving h t
  unfold Worker.Sound at hsound
  unfold Worker.Leaving at hleaving
  unfold Worker.owned
  cases hpc : (s.places t).pc <;> simp only [hpc] at hsound hleaving ⊢
  case created | routine =>
    rw [hleaving] at hc
    cases hc
  case swapPre | swapNew => exact .inl (List.mem_singleton.mpr (hleaving c hc))
  case swap => exact .inl (List.mem_cons_of_mem _ (by rw [hc]; exact List.mem_singleton_self c))
  case enter | enterYield | resumed | resumedDelete | setPtr =>
    rw [hsound.1] at hc
    cases hc
    exact .inl List.mem_cons_self
  case jump b =>
    obtain ⟨c', v, hc', hv, -⟩ := saved_of_jump h hpc
    rw [hc] at hc'
    cases hc'
    exact .inr ⟨⟨b, rfl⟩, List.mem_map_of_mem hv⟩
  all_goals
    rw [hsound] at hc
    cases hc
    exact .inl List.mem_cons_self

/-- The contexts are run by one worker each, saved before they are resumed, and deleted once
and last. -/
structure ContextsSafe (s : Crew.Config Shared Worker T) : Prop where
  exclusive : ∀ t t', (s.places t).pc ≠ .created → (s.places t').pc ≠ .created →
    (s.places t).stack = (s.places t').stack → t = t'
  saved : ∀ t b, (s.places t).pc = .jump b →
    ∃ c v, (s.places t).contextPtr = some c ∧ ⟨c, .wait v⟩ ∈ s.shared.saved ∧ v.back = b
  delete : ∀ t v, (s.places t).pc = .resumedDelete v →
    ∃ c, (s.places t).contextPrePtr = some c ∧ c ∈ s.shared.live ∧
      (∀ t', (s.places t').pc ≠ .created → (s.places t').stack ≠ c) ∧
        (∀ t', (s.places t').contextPtr ≠ some c) ∧ ∀ b, s.shared.backRunContextPtr b ≠ some c
  once : s.shared.freed.Nodup
  last : ∀ c ∈ s.shared.freed, (∀ t, (s.places t).pc ≠ .created → (s.places t).stack ≠ c) ∧
    (∀ t, (s.places t).contextPtr ≠ some c) ∧ ∀ b, s.shared.backRunContextPtr b ≠ some c
  kept : ∀ c ∈ s.shared.live, c ∈ s.shared.saved.map Saved.context ∨ ∃ t, c ∈ (s.places t).owned
  count : (∀ t, (s.places t).pc.between = false) →
    s.shared.live.card = 2 * started s + s.shared.yielded ∧
      s.shared.pendingContextNum = 2 * started s + s.shared.yielded

section Safe
variable (h : ((crew stored).system T).Reached s)
include h

/-- What a worker is about to delete, nothing refers to. -/
theorem unused_of_delete {t : T} {v : Wait} {c : ℕ} (hpc : (s.places t).pc = .resumedDelete v)
    (hc : (s.places t).contextPrePtr = some c) :
    (∀ t', (s.places t').pc ≠ .created → (s.places t').stack ≠ c) ∧
      (∀ t', (s.places t').contextPtr ≠ some c) ∧ ∀ b, s.shared.backRunContextPtr b ≠ some c := by
  have howned : (s.places t).owned = [(s.places t).stack, c] := by rw [Worker.owned, hpc, hc]; rfl
  have hmem : c ∈ (s.places t).owned := by
    rw [howned]
    exact List.mem_cons_of_mem _ List.mem_cons_self
  obtain ⟨-, hone, hsaved, -⟩ := owned_only h hmem
  have hne : (s.places t).stack ≠ c := fun he => by
    rw [howned, he, List.count_cons_self, List.count_cons_self] at hone
    omega
  have hstack : ∀ t', (s.places t').stack ∈ (s.places t').owned → (s.places t').stack ≠ c :=
    fun t' ht' he => by
      have hsame := owner_unique h (he ▸ ht') hmem
      subst hsame
      exact hne he
  refine ⟨fun t' ht' => hstack t' (mem_owned ht'), fun t' ht' => ?_, fun b hb => ?_⟩
  · rcases pointed h ht' with howner | ⟨-, hs⟩
    · have hsame := owner_unique h howner hmem
      subst hsame
      have hsound := (linked h).sound t'
      rw [Worker.Sound, hpc] at hsound
      rw [hsound.1] at ht'
      exact hne (Option.some.inj ht')
    · exact hsaved hs
  · rcases (linked h).place hb with ⟨t', hst, ht'⟩ | ⟨v', hv', -⟩
    · exact hstack t' (owned_of_held ht') hst
    · exact hsaved (List.mem_map_of_mem hv')

/-- What was deleted, nothing refers to. -/
theorem unused_of_freed {c : ℕ} (hc : c ∈ s.shared.freed) :
    (∀ t, (s.places t).pc ≠ .created → (s.places t).stack ≠ c) ∧
      (∀ t, (s.places t).contextPtr ≠ some c) ∧ ∀ b, s.shared.backRunContextPtr b ≠ some c := by
  have hsaved : c ∉ s.shared.saved.map Saved.context := fun hs => by
    have hle := saved_count_le h (c := c)
    have hpos := List.count_pos_iff.mpr hc
    have hpos' := List.count_pos_iff.mpr hs
    split at hle <;> omega
  have howned : ∀ t, c ∉ (s.places t).owned := fun t ht => (owned_only h ht).2.2.2 hc
  refine ⟨fun t ht he => howned t (he ▸ mem_owned ht), fun t ht => ?_, fun b hb => ?_⟩
  · rcases pointed h ht with howner | ⟨-, hs⟩
    · exact howned t howner
    · exact hsaved hs
  · rcases (linked h).place hb with ⟨t', hst, ht'⟩ | ⟨v', hv', -⟩
    · exact howned t' (hst ▸ owned_of_held ht')
    · exact hsaved (List.mem_map_of_mem hv')

theorem kept_of_live {c : ℕ} (hc : c ∈ s.shared.live) :
    c ∈ s.shared.saved.map Saved.context ∨ ∃ t, c ∈ (s.places t).owned := by
  obtain ⟨hlt, hfreed⟩ := Finset.mem_filter.mp hc
  by_cases hs : c ∈ s.shared.saved.map Saved.context
  · exact .inl hs
  · have hone := owned_once h c
    rw [List.count_eq_zero.mpr hs, List.count_eq_zero.mpr hfreed, if_pos (Finset.mem_range.mp hlt)] at hone
    obtain ⟨t, ht⟩ := exists_of_one_le_census (fun w : Worker => (w.owned.count c : ℤ))
      s.places (by omega)
    exact .inr ⟨t, List.count_pos_iff.mp (by omega)⟩

/-- Between the windows, two contexts for each worker and one for each wait. -/
theorem live_count (hbetween : ∀ t, (s.places t).pc.between = false) :
    s.shared.live.card = 2 * started s + s.shared.yielded := by
  have hstarted : census (fun w : Worker => if w.pc ≠ .created then 1 else 0) s.places = started s :=
    census_ite (fun w : Worker => w.pc ≠ .created) s.places
  have hlaunched : census (fun w : Worker => if w.pc.launched = true then 1 else 0) s.places = started s := by
    rw [← hstarted]
    refine Finset.sum_congr rfl fun t _ => ?_
    have ht := hbetween t
    have hiff : (s.places t).pc.launched = true ↔ (s.places t).pc ≠ .created := by
      generalize (s.places t).pc = pc at ht
      cases pc
      case swapPre out k => cases k <;> simp_all [Pc.launched, Pc.between]
      case swapNew out k => cases k <;> simp_all [Pc.launched, Pc.between]
      all_goals simp_all [Pc.launched, Pc.between]
    simp only [hiff]
  have howned : census (fun w : Worker => (w.owned.length : ℤ)) s.places = started s := by
    rw [← hstarted]
    refine Finset.sum_congr rfl fun t _ => ?_
    have ht := hbetween t
    unfold Worker.owned
    cases hpc : (s.places t).pc <;> simp_all [Pc.between]
  have hcontexts := contexts_eq h
  have hlaunches := launches_eq h
  have hlive := live_card h
  have hpending := pending_eq h
  have hsplit := s.shared.launches_add_yielded
  omega

/-- **Contexts are never shared, lost or deleted twice**, whatever the workers do between two
steps of a wait, of its `BackNode` and of its resume. -/
theorem contexts_safe : ContextsSafe s where
  exclusive t t' ht ht' he := owner_unique h (mem_owned ht) (he ▸ mem_owned ht')
  saved t b hpc := saved_of_jump h hpc
  delete t v hpc := by
    have hsound := (linked h).sound t
    rw [Worker.Sound, hpc] at hsound
    obtain ⟨c, hc⟩ := hsound.2
    have hmem : c ∈ (s.places t).owned := by
      rw [Worker.owned, hpc, hc]
      exact List.mem_cons_of_mem _ List.mem_cons_self
    obtain ⟨hlt, -, -, hfreed⟩ := owned_only h hmem
    exact ⟨c, hc, Finset.mem_filter.mpr ⟨Finset.mem_range.mpr hlt, hfreed⟩, unused_of_delete h hpc hc⟩
  once := freed_nodup h
  last c hc := unused_of_freed h hc
  kept c hc := kept_of_live h hc
  count hbetween := by
    have hlive := live_count h hbetween
    have hpending := live_card h
    exact ⟨hlive, by omega⟩

end Safe

/-- The node that waited has deleted the context on which its `BackNode` ran. -/
theorem contexts_of_migration : ∃ s, ((crew 2).system (Fin 2)).Reached s ∧ ContextsSafe s ∧
    s.shared.freed = [4] ∧ (s.places 1).pc = .body .running ∧ (s.places 1).stack = 1 := by
  obtain ⟨s, hs, hfreed, hpc, hstack⟩ := System.exists_reachedBy ((crew 2).system (Fin 2))
    (fun _ _ _ => True) (migration 0 1 ++ List.replicate 3 (1, .step))
    (fun s => s.shared.freed = [4] ∧ (s.places 1).pc = .body .running ∧ (s.places 1).stack = 1)
    (by decide)
  exact ⟨s, hs, contexts_safe hs, hfreed, hpc, hstack⟩

end Run
end QuietFlow.Schedule
