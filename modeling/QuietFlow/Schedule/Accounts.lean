import QuietFlow.Schedule.Stacks
import Mathlib.Algebra.BigOperators.Group.Finset.Basic

/-! Who holds a mapping.

Every mapped region is the stack of one context that was not deleted, or an entry of one pool,
and nothing else is mapped. So no two contexts have memory in common, whatever pools their stacks
went through, and no stack is lost on the way. -/
namespace QuietFlow.Stacks
open Runs Crew Machine Lock
open Schedule (Shared Worker Pc Cont Saved Memory Mapped coroutineStackSize)

/-! ### Mappings -/

/-- How often `r` is mapped, less the contexts that have it. -/
def Process.balance (x : Process) (r : Region) : ℤ :=
  x.mappings.regions.count r + (x.deleted.map (region x.memory)).count r -
    ((List.range x.shared.contexts).map (region x.memory)).count r

def Thread.stock (w : Thread) (r : Region) : ℤ := (w.pooled.map coroutineRegion).count r

section Balance
variable {k backup threads : ℕ} {x x' : Process} {w w' : Thread} {a : Act} {y : Shared} {m : Mappings}
  {c : ℕ} {p : Word} {size : ℕ} {made : Bool}

theorem region_place {n : ℕ} (h : c < n) (mem : Memory) :
    region (mem.place n p size made) c = region mem c := by
  simp [region, Memory.place, Function.update_of_ne h.ne]

theorem map_region_place {n : ℕ} {l : List ℕ} (h : ∀ c ∈ l, c < n) (mem : Memory) :
    l.map (region (mem.place n p size made)) = l.map (region mem) :=
  List.map_congr_left fun c hc => region_place (h c hc) mem

theorem balance_new (hcontexts : y.contexts = x.shared.contexts + 1) (hfreed : y.freed = x.shared.freed)
    (hlt : ∀ c ∈ x.deleted, c < x.shared.contexts) (r : Region) :
    Process.balance
        {x with shared := y, memory := x.memory.place x.shared.contexts p size made, mappings := m} r =
      x.balance r + m.regions.count r - x.mappings.regions.count r - [(⟨p, size⟩ : Region)].count r := by
  have hdeleted : Process.deleted
      {x with shared := y, memory := x.memory.place x.shared.contexts p size made, mappings := m} =
        x.deleted := by rw [Process.deleted, hfreed, Process.deleted]
  have hnew : region (x.memory.place x.shared.contexts p size made) x.shared.contexts = ⟨p, size⟩ := by
    simp [region, Memory.place]
  simp only [Process.balance, hdeleted, hcontexts, map_region_place hlt, List.range_succ, List.map_append,
    List.map_singleton, hnew, map_region_place (fun c => List.mem_range.mp), count_snoc]
  omega

theorem balance_freed (hcontexts : y.contexts = x.shared.contexts) (hfreed : y.freed = x.shared.freed ++ [c])
    (r : Region) : Process.balance {x with shared := y, mappings := m} r =
      x.balance r + m.regions.count r - x.mappings.regions.count r + [region x.memory c].count r := by
  have hdeleted : (Process.deleted {x with shared := y, mappings := m}).Perm (x.deleted ++ [c]) := by
    rw [Process.deleted, hfreed, Process.deleted, List.append_assoc, List.append_assoc]
    exact (List.perm_append_comm).append_left _
  have hcount := (hdeleted.map (region x.memory)).count_eq r
  simp only [Process.balance, hcount, hcontexts, List.map_append, List.map_singleton, count_snoc]
  omega

theorem balance_close (h : region x.memory c ∈ x.mappings.regions) (r : Region) :
    (x.close c).balance r = x.balance r := by
  have hdeleted : (x.close c).deleted = x.deleted ++ [c] := (List.append_assoc _ _ _).symm
  have hcount := Mappings.count_munmap h r
  show ((x.mappings.munmap (region x.memory c)).regions.count r : ℤ) +
    (((x.close c).deleted.map (region x.memory)).count r) - _ = _
  rw [hdeleted, List.map_append, List.map_singleton, count_snoc, hcount, Process.balance]
  show _ - (((List.range x.shared.contexts).map (region x.memory)).count r : ℤ) = _
  omega

theorem mem_keeps_of_work (hphase : w.phase = .work) (hc : c ∈ w.worker.owned) : c ∈ w.keeps := by
  unfold Thread.keeps
  rw [hphase]
  exact List.mem_append_left _ hc

/-- What a thread that goes back to its context is about to delete, in this order. -/
theorem keeps_of_exited {ptr pre : Option ℕ} (hw : w.Poised) (hphase : w.phase = .exited ptr pre) :
    w.keeps = pre.toList ++ ptr.toList := by
  unfold Thread.Poised at hw
  unfold Thread.keeps
  simp only [hphase] at hw ⊢
  rw [hw.2.1, hw.2.2, Schedule.Worker.owned, anchors, hw.1]
  rfl

theorem keeps_of_deletePre {pre : Option ℕ} (hw : w.Poised) (hphase : w.phase = .deletePre pre) :
    w.keeps = pre.toList := by
  unfold Thread.Poised at hw
  unfold Thread.keeps
  simp only [hphase] at hw ⊢
  rw [hw.2]
  rfl

/-- Every region is mapped for one context or one entry of a pool. -/
theorem balance_step (h : Moves k backup threads x w a x' w') (hlt : ∀ c ∈ x.deleted, c < x.shared.contexts)
    (hleft : LeftCoroutine x.shared x.memory w.worker) (hw : w.Poised)
    (hkeeps : ∀ c ∈ w.keeps, region x.memory c ∈ x.mappings.regions)
    (hpooled : ∀ p ∈ w.pooled, coroutineRegion p ∈ x.mappings.regions) (r : Region) :
    x'.balance r - w'.stock r = x.balance r - w.stock r := by
  have hsnoc : ∀ p : Word, (((w.pooled ++ [p]).map coroutineRegion).count r : ℤ) =
      w.stock r + [coroutineRegion p].count r := fun p => by
    rw [List.map_append, List.map_singleton, count_snoc, Thread.stock]
  have hcons : ∀ (p : Word) rest, w.pooled = p :: rest →
      w.stock r = [coroutineRegion p].count r + ((rest.map coroutineRegion).count r : ℤ) :=
    fun p rest hp => by
      rw [Thread.stock, hp, List.map_cons, ← List.singleton_append, List.count_append]
      push_cast
      rfl
  cases h
  case fill i p ms q hphase hi hmapped hm hq =>
    have hcount := Mappings.count_mmap hm r
    show (ms.regions.count r : ℤ) + ((x.deleted.map (region x.memory)).count r) -
      (((List.range x.shared.contexts).map (region x.memory)).count r) -
        (((w.pooled ++ [p]).map coroutineRegion).count r : ℤ) = _
    rw [hcount, hsnoc, Process.balance]
    omega
  case created b p y v ms hphase hexec hpc hmapped hm =>
    obtain ⟨hcontexts, hfreed⟩ := made_by (Schedule.effect_of_exec hexec) (.inl hpc)
    have hcount := Mappings.count_mmap hm r
    rw [balance_new hcontexts hfreed hlt, hcount]
    show _ - w.stock r = _
    omega
  case taken b p y v out u p' q rest hphase hexec hpc hp hq =>
    obtain ⟨hcontexts, hfreed⟩ := made_by (Schedule.effect_of_exec hexec) (.inr ⟨out, u, hpc⟩)
    rw [hcons p' rest hp, balance_new hcontexts hfreed hlt]
    show _ - ((rest.map coroutineRegion).count r : ℤ) = _
    rw [coroutineRegion]
    omega
  case mapped b p y v out u ms hphase hexec hpc hnil hmapped hm =>
    obtain ⟨hcontexts, hfreed⟩ := made_by (Schedule.effect_of_exec hexec) (.inr ⟨out, u, hpc⟩)
    have hcount := Mappings.count_mmap hm r
    rw [balance_new hcontexts hfreed hlt, hcount, coroutineRegion]
    show _ - w.stock r = _
    omega
  case put b p y v u c q hphase hexec hpc hpre hq =>
    obtain ⟨hcontexts, hfreed⟩ := deleted_by (Schedule.effect_of_exec hexec) hpc hpre
    -- What goes into a pool is a coroutine's stack.
    have hregion : region x.memory c = coroutineRegion (x.memory.stackPtr c) := by
      rw [region, (hleft u (.inr hpc) c hpre).2.2.1, coroutineRegion]
    have hbalance := balance_freed (x := x) (m := x.mappings) hcontexts hfreed r
    rw [hregion] at hbalance
    show Process.balance {x with shared := y, mappings := x.mappings} r -
      (((w.pooled ++ [x.memory.stackPtr c]).map coroutineRegion).count r : ℤ) = _
    rw [hbalance, hsnoc]
    omega
  case unmapped b p y v u c hphase hexec hpc hpre =>
    obtain ⟨hcontexts, hfreed⟩ := deleted_by (Schedule.effect_of_exec hexec) hpc hpre
    have howned : c ∈ w.worker.owned := by
      rw [Schedule.Worker.owned, hpc, hpre]
      exact List.mem_cons_of_mem _ (List.mem_singleton_self c)
    have hcount := Mappings.count_munmap (hkeeps c (mem_keeps_of_work hphase howned)) r
    rw [balance_freed hcontexts hfreed, hcount]
    show _ - w.stock r = _
    omega
  case other b p y v hphase hexec hcreated hnew hdelete =>
    obtain ⟨hcontexts, hfreed⟩ := kept_by (Schedule.effect_of_exec hexec) hcreated hnew hdelete
    have hdeleted : Process.deleted {x with shared := y} = x.deleted := by
      rw [Process.deleted, hfreed, Process.deleted]
    simp only [Process.balance, hdeleted, hcontexts, Thread.stock]
  case closePtr ptr pre hphase =>
    cases ptr with
    | none => rfl
    | some c =>
      have hc : c ∈ w.keeps := by
        rw [keeps_of_exited hw hphase]
        exact List.mem_append_right _ (List.mem_singleton_self c)
      exact congrArg (· - w.stock r) (balance_close (hkeeps c hc) r)
  case closePre pre hphase =>
    cases pre with
    | none => rfl
    | some c =>
      have hc : c ∈ w.keeps := by
        rw [keeps_of_deletePre hw hphase]
        exact List.mem_singleton_self c
      exact congrArg (· - w.stock r) (balance_close (hkeeps c hc) r)
  case drain p rest q hphase hp hq =>
    have hcount := Mappings.count_munmap (hpooled p (by rw [hp]; exact List.mem_cons_self)) r
    rw [hcons p rest hp]
    show ((x.mappings.munmap (coroutineRegion p)).regions.count r : ℤ) +
      ((x.deleted.map (region x.memory)).count r) -
        (((List.range x.shared.contexts).map (region x.memory)).count r) -
          ((rest.map coroutineRegion).count r : ℤ) = _
    rw [hcount, Process.balance]
    omega
  all_goals rfl

end Balance

/-! ### Along a run -/

section Accounted
variable {T : Type} [Fintype T] {s : Crew.Config Process Thread T}

/-- The mapped regions, by who holds them: a context, or a pool. -/
def Accounted (s : Crew.Config Process Thread T) : Prop :=
  (s.shared.mappings.regions : Multiset Region) = s.shared.live.val.map (region s.shared.memory) +
    ∑ t, (((s.places t).pooled.map coroutineRegion : List Region) : Multiset Region)

theorem sum_stock (s : Crew.Config Process Thread T) (r : Region) :
    ((∑ t, ((s.places t).pooled.map coroutineRegion).count r : ℕ) : ℤ) =
      census (fun w : Thread => w.stock r) s.places := by
  push_cast
  rfl

theorem accounted_of_balance (hnodup : s.shared.deleted.Nodup)
    (hlt : ∀ c ∈ s.shared.deleted, c < s.shared.shared.contexts)
    (hbalance : ∀ r, s.shared.balance r = census (fun w : Thread => w.stock r) s.places) : Accounted s := by
  have hapart : (s.shared.live.toList ++ s.shared.deleted).Nodup :=
    List.nodup_append.mpr ⟨Finset.nodup_toList _, hnodup, fun c hc d hd hcd =>
      (Finset.mem_filter.mp (Finset.mem_toList.mp hc)).2 (hcd ▸ hd)⟩
  have hrange : (List.range s.shared.shared.contexts).Perm (s.shared.live.toList ++ s.shared.deleted) := by
    refine (List.perm_ext_iff_of_nodup List.nodup_range hapart).mpr fun c => ?_
    simp only [List.mem_range, List.mem_append, Finset.mem_toList, Process.live, Finset.mem_filter,
      Finset.mem_range]
    have := hlt c
    tauto
  have hlive : s.shared.live.val.map (region s.shared.memory) =
      (s.shared.live.toList.map (region s.shared.memory) : List Region) := by
    rw [← Multiset.map_coe, Finset.coe_toList]
  refine Multiset.ext.mpr fun r => ?_
  have hcount := (hrange.map (region s.shared.memory)).count_eq r
  have hpools := sum_stock s r
  have hb := hbalance r
  rw [List.map_append, List.count_append] at hcount
  rw [Process.balance] at hb
  rw [Multiset.count_add, Multiset.count_sum', hlive]
  simp only [Multiset.coe_count]
  omega

namespace Accounted
variable (ha : Accounted s)
include ha

theorem of_live {c : ℕ} (hc : c ∈ s.shared.live) :
    region s.shared.memory c ∈ s.shared.mappings.regions := by
  rw [← Multiset.mem_coe, ha, Multiset.mem_add]
  exact .inl (Multiset.mem_map_of_mem _ hc)

theorem of_pooled {t : T} {p : Word} (hp : p ∈ (s.places t).pooled) :
    coroutineRegion p ∈ s.shared.mappings.regions := by
  rw [← Multiset.mem_coe, ha, Multiset.mem_add, Multiset.mem_sum]
  exact .inr ⟨t, Finset.mem_univ t, Multiset.mem_coe.mpr (List.mem_map_of_mem hp)⟩

theorem nodup : (s.shared.live.val.map (region s.shared.memory) +
    ∑ t, (((s.places t).pooled.map coroutineRegion : List Region) : Multiset Region)).Nodup := by
  rw [← ha]
  exact Multiset.coe_nodup.mpr s.shared.mappings.nodup

/-- Two contexts have no byte of their stacks in common. -/
theorem disjoint_live {c c' : ℕ} (hc : c ∈ s.shared.live) (hc' : c' ∈ s.shared.live) (hne : c ≠ c') :
    Disjoint (region s.shared.memory c).bytes (region s.shared.memory c').bytes :=
  Mappings.disjoint (ha.of_live hc) (ha.of_live hc') fun heq =>
    hne (Multiset.inj_on_of_nodup_map (Multiset.nodup_add.mp ha.nodup).1 c hc c' hc' heq)

/-- A stack in a pool is not in use. -/
theorem disjoint_pooled {c : ℕ} (hc : c ∈ s.shared.live) {t : T} {p : Word}
    (hp : p ∈ (s.places t).pooled) :
    Disjoint (region s.shared.memory c).bytes (coroutineRegion p).bytes := by
  refine Mappings.disjoint (ha.of_live hc) (ha.of_pooled hp) fun heq => ?_
  have hmem : coroutineRegion p ∈
      ∑ t, (((s.places t).pooled.map coroutineRegion : List Region) : Multiset Region) :=
    Multiset.mem_sum.mpr ⟨t, Finset.mem_univ t, Multiset.mem_coe.mpr (List.mem_map_of_mem hp)⟩
  exact Multiset.disjoint_left.mp (Multiset.nodup_add.mp ha.nodup).2.2 (Multiset.mem_map_of_mem _ hc)
    (heq ▸ hmem)

theorem stock_le_one (r : Region) : census (fun w : Thread => w.stock r) s.places ≤ 1 := by
  have hle := Multiset.nodup_iff_count_le_one.mp (Multiset.nodup_add.mp ha.nodup).2.1 r
  rw [Multiset.count_sum'] at hle
  simp only [Multiset.coe_count] at hle
  rw [← sum_stock]
  exact_mod_cast hle

/-- It is in one pool. -/
theorem pool_unique [DecidableEq T] {t t' : T} {p : Word} (hp : p ∈ (s.places t).pooled)
    (hp' : p ∈ (s.places t').pooled) : t = t' := by
  by_contra hne
  have hpos : ∀ t, p ∈ (s.places t).pooled → 1 ≤ (s.places t).stock (coroutineRegion p) := fun t ht => by
    have := List.count_pos_iff.mpr (List.mem_map_of_mem (f := coroutineRegion) ht)
    rw [Thread.stock]
    omega
  have htwo := two_le_census (f := fun w : Thread => w.stock (coroutineRegion p)) (p := s.places)
    (fun _ => Int.natCast_nonneg _) hne (hpos t hp) (hpos t' hp')
  have hle := ha.stock_le_one (coroutineRegion p)
  omega

/-- And there once. -/
theorem pooled_nodup (t : T) : (s.places t).pooled.Nodup := by
  refine List.nodup_iff_count_le_one.mpr fun p => ?_
  have hle := (le_census (f := fun w : Thread => w.stock (coroutineRegion p)) (fun _ => Int.natCast_nonneg _)
    s.places t).trans (ha.stock_le_one (coroutineRegion p))
  have hcount := List.count_le_count_map (l := (s.places t).pooled) (f := coroutineRegion) (x := p)
  rw [Thread.stock] at hle
  omega

end Accounted
end Accounted

section Run
variable {T : Type} [Fintype T] [DecidableEq T] {k backup : ℕ} {pool : LimitQueue Word} {stored : ℤ}
  {ok : Crew.Config Process Thread T → T × Act → Crew.Config Process Thread T → Prop}
  {s : Crew.Config Process Thread T}

theorem accounted (hk : k ≤ 30) (hbackup : backup ≤ 2 ^ k) (hpool : Stores k 0 pool []) {threads : ℕ}
    (h : ((process backup threads pool stored).system T).ReachedBy ok s) : Accounted s := by
  refine accounted_of_balance (deleted_nodup hk hbackup hpool h)
    (fun c => lt_of_deleted hk hbackup hpool h) fun r => ?_
  refine Crew.induct (I := fun s => ∀ r, s.shared.balance r = census (fun w : Thread => w.stock r) s.places)
    (fun r => ?_) (fun s t a s' htook ih r => ?_) h r
  · have hplace : census (fun w : Thread => w.stock r)
        (fun _ : T => (process backup threads pool stored).place) = 0 := census_eq_zero fun _ => rfl
    exact hplace.symm
  · have hfounded := founded hk hbackup hpool htook.reached
    have hlt := fun c => lt_of_deleted hk hbackup hpool htook.reached (c := c)
    have ha := accounted_of_balance (deleted_nodup hk hbackup hpool htook.reached) hlt ih
    have hstep := balance_step (hfounded.moves hk hbackup htook.exec) hlt (leftCoroutine hfounded.placed t)
      (poised hk hbackup hpool htook.reached t)
      (fun c hc => by
        obtain ⟨hc, hdeleted⟩ := deleted_of_keeps hk hbackup hpool htook.reached hc
        exact ha.of_live (Finset.mem_filter.mpr ⟨Finset.mem_range.mpr hc, hdeleted⟩))
      (fun p hp => ha.of_pooled hp) r
    have hcensus := htook.census fun w => w.stock r
    have hold := ih r
    omega

/-- Each stack has one holder. -/
structure Held (s : Crew.Config Process Thread T) : Prop where
  accounted : Accounted s
  live : ∀ c ∈ s.shared.live, ∀ c' ∈ s.shared.live, c ≠ c' →
    Disjoint (region s.shared.memory c).bytes (region s.shared.memory c').bytes
  pooled : ∀ c ∈ s.shared.live, ∀ t, ∀ p ∈ (s.places t).pooled,
    Disjoint (region s.shared.memory c).bytes (coroutineRegion p).bytes
  pools : ∀ t t', ∀ p ∈ (s.places t).pooled, p ∈ (s.places t').pooled → t = t'
  once : ∀ t, (s.places t).pooled.Nodup
  /-- The pool hands out what it has. -/
  next : ∀ t, (s.places t).getStack.2 = (s.places t).pooled.head?

/-- **Every mapping is the stack of one context that was not deleted, or an entry of one pool**, and
no two have a byte in common, in every run of the threads: while they start, run, resume each
other's contexts and are shut down. -/
theorem stacks_held (h₁ : 1 ≤ backup) (h₂ : backup ≤ 2 ^ 30)
    (hpool : LimitQueue.make 0 (BitVec.ofNat 64 backup) = some pool) {threads : ℕ}
    (h : ((process backup threads pool stored).system T).Reached s) : Held s := by
  obtain ⟨k, hk, hbackup, hstores⟩ := pools_make h₁ h₂ hpool
  have ha := accounted hk hbackup hstores h
  refine ⟨ha, fun c hc c' hc' => ha.disjoint_live hc hc', fun c hc t p hp => ha.disjoint_pooled hc hp,
    fun t t' p hp hp' => ha.pool_unique hp hp', ha.pooled_nodup, fun t => ?_⟩
  have hpools := ((founded hk hbackup hstores h).stocked t).pools
  cases hp : (s.places t).pooled with
  | nil => rw [getStack_nil hk hpools hp]; rfl
  | cons p rest =>
    obtain ⟨q, hget, -⟩ := getStack_cons hk hpools hp
    rw [hget]
    rfl

/-- Two threads with a stack each, and a run of their workers with room for a mapping at every step. -/
def located {T : Type} (t t' : T) (as : List (T × Schedule.Act)) : List (T × Act) :=
  [(t, .malloc 0x7e0000000000), (t, .step), (t', .malloc 0x7e0001000000), (t', .step)] ++
    as.mapIdx fun i a => (a.1, .work a.2 (BitVec.ofNat 64 (0x7f0000000000 + i * 0x1000000)))

/-- Worker 1 has resumed the context that worker 0 left, and put the stack it came from into its pool. -/
theorem stacks_held_migration : ∃ pool : LimitQueue Word, LimitQueue.make 0 1#64 = some pool ∧
    ∃ s, ((process 1 2 pool 2).system (Fin 2)).Reached s ∧ Held s ∧
      (s.places 1).pooled = [0x7e0001000000#64] ∧ (s.places 1).worker.stack = 1 ∧
      s.shared.memory.stackPtr 1 = 0x7e0000000000#64 := by
  have hpool : LimitQueue.make (0 : Word) 1#64 = some ⟨[0], 1, 0, 0, 0⟩ := rfl
  refine ⟨_, hpool, ?_⟩
  obtain ⟨s, hs, hp⟩ := System.exists_reachedBy ((process 1 2 ⟨[0], 1, 0, 0, 0⟩ 2).system (Fin 2))
    (fun _ _ _ => True) (located 0 1 (Schedule.migration 0 1 ++ List.replicate 3 (1, .step)))
    (fun s => (s.places 1).pooled = [0x7e0001000000#64] ∧ (s.places 1).worker.stack = 1 ∧
      s.shared.memory.stackPtr 1 = 0x7e0000000000#64) (by decide)
  exact ⟨s, hs, stacks_held (by decide) (by decide) hpool hs, hp⟩

end Run

end QuietFlow.Stacks
