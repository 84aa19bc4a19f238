import QuietFlow.Schedule.Accounts

/-! `Schedule::destroy`.

`destroy` waits until no node is left, puts two `flag_node`s for every thread into the task queue
and deletes the threads. A worker that takes one leaves its loop, its context and the other flag;
so every thread stops, half of the flags stay, and what the threads leave behind is all that there
is: the destructors delete every context that is left once and unmap every stack.

The waits of `destroy` are over here (`Orderly`), so only flags are queued; the task queue is an
ideal one, in which a worker that asks for a task gets a flag as long as one is queued. -/
namespace QuietFlow.Stacks
open Runs Crew Machine Lock
open Schedule (Shared Worker Pc Cont Saved coroutineStackSize)

/-- Between two tasks. -/
def settled : Pc → Bool
  | .enter | .enterYield | .enterClear | .dequeue | .taskEnd => true
  | _ => false

/-- The steps to `dequeue`. -/
def toDequeue : Pc → ℕ
  | .enter => 3
  | .enterYield => 2
  | .enterClear | .taskEnd => 1
  | _ => 0

def takesNode : Act → Bool
  | .work (.dequeue .node) _ => true
  | _ => false

namespace Thread
variable (w : Thread)

/-- Whether the thread has taken a flag. -/
def stopped : ℤ :=
  match w.phase with
  | .fill _ | .work => 0
  | _ => 1

/-- The steps that the thread has left once it only has to stop. -/
def rest : ℤ :=
  match w.phase with
  | .fill _ => 0
  | .work => 7 + toDequeue w.worker.pc + w.pooled.length
  | .setPre => 6 + w.pooled.length
  | .setPtr _ => 5 + w.pooled.length
  | .jump _ _ => 4 + w.pooled.length
  | .exited _ _ => 3 + w.pooled.length
  | .deletePre _ => 2 + w.pooled.length
  | .drain => 1 + w.pooled.length
  | .gone => 0

def Calm : Prop :=
  match w.phase with
  | .fill _ => False
  | .work => settled w.worker.pc = true
  | _ => True

end Thread

section Orderly
variable {T : Type}

/-- All workers run and no node is left, as `init` and `destroy` wait for it: a node that is run
or waits counts in `pending_worker_num_`, and so does its `BackNode`. -/
structure Settled (s : Crew.Config Process Thread T) : Prop where
  threads : ∀ t, (s.places t).phase = .work ∧ settled (s.places t).worker.pc = true
  saved : ∀ e ∈ s.shared.shared.saved, e.cont = .routine

/-- `destroy` waits, and no node is added after it. -/
structure Orderly (s : Crew.Config Process Thread T) (a : T × Act) (_ : Crew.Config Process Thread T) :
    Prop where
  destroy : a.2 = .destroy → Settled s
  nodes : s.shared.flags.isSome = true → takesNode a.2 = false

instance [Fintype T] (s : Crew.Config Process Thread T) : Decidable (Settled s) :=
  decidable_of_iff ((∀ t, (s.places t).phase = .work ∧ settled (s.places t).worker.pc = true) ∧
    ∀ e ∈ s.shared.shared.saved, e.cont = .routine) ⟨fun h => ⟨h.1, h.2⟩, fun h => ⟨h.1, h.2⟩⟩

instance [Fintype T] (s : Crew.Config Process Thread T) (a : T × Act) (s' : Crew.Config Process Thread T) :
    Decidable (Orderly s a s') :=
  decidable_of_iff ((a.2 = .destroy → Settled s) ∧ (s.shared.flags.isSome = true → takesNode a.2 = false))
    ⟨fun h => ⟨h.1, h.2⟩, fun h => ⟨h.1, h.2⟩⟩

end Orderly

/-! ### Steps after `destroy` -/

section Step
variable {k backup threads : ℕ} {x x' : Process} {w w' : Thread} {a : Act}

/-- Between two tasks a worker goes to `dequeue`, and stays there if there is nothing to take. -/
theorem settled_step {y z : Shared} {v v' : Worker} {b : Schedule.Act} (h : Schedule.exec y v b = some (z, v'))
    (hv : settled v.pc = true) (hready : y.ready = []) (hnode : b ≠ .dequeue .node) :
    settled v'.pc = true ∧ z.saved = y.saved ∧ toDequeue v'.pc < toDequeue v.pc := by
  have heff := Schedule.effect_of_exec h
  cases heff
  case enter | enterYield | enterYieldNull | enterClear | taskEnd => exact ⟨rfl, rfl, by simp [toDequeue]⟩
  case dequeueNode =>
    cases b with
    | dequeue n =>
      cases n with
      | node => exact absurd rfl hnode
      | back b =>
        simp [Schedule.exec, Schedule.Shared.take] at h
    | step | wait | finish => cases h
  case dequeueBack hb =>
    rw [hready] at hb
    cases hb
  all_goals cases hv

/-- A thread stops for a flag. -/
theorem flag_step (h : Moves k backup threads x w a x' w') :
    ((x'.flags.getD (2 * threads) : ℕ) : ℤ) + w'.stopped =
      (x.flags.getD (2 * threads) : ℕ) + w.stopped := by
  unfold Thread.stopped
  cases h
  case destroy hflags => rw [hflags]; rfl
  case flag n hphase hpc hflags =>
    simp only [hphase, hflags, Option.getD_some]
    push_cast
    rfl
  case closePtr hphase => simp only [hphase, close_flags]
  case closePre hphase => simp only [hphase, close_flags]
  case created hphase _ _ _ _ | taken hphase _ _ _ _ | mapped hphase _ _ _ _ _ | put hphase _ _ _ _ |
      unmapped hphase _ _ _ | other hphase _ _ _ _ | fill hphase _ _ _ _ | filled hphase _ |
      setPre hphase | setPtr hphase | jump hphase _ | drain hphase _ _ | gone hphase _ =>
    simp only [hphase]

/-- After `destroy`, each step of a thread leaves it calm and with less to do. -/
structure Calmer (x : Process) (w : Thread) (x' : Process) (w' : Thread) : Prop where
  calm : w'.Calm
  saved : x'.shared.saved = x.shared.saved
  rest : w'.rest + 1 ≤ w.rest

theorem calmer_of_moves (h : Moves k backup threads x w a x' w') (hflags : x.flags.isSome = true)
    (hnode : takesNode a = false) (hready : x.shared.ready = []) (hw : w.Calm) : Calmer x w x' w' := by
  unfold Thread.Calm at hw
  cases h
  case destroy hnone =>
    rw [hnone] at hflags
    cases hflags
  case fill hphase _ _ _ _ =>
    simp only [hphase] at hw
  case filled hphase _ =>
    simp only [hphase] at hw
  case created hphase _ hpc _ _ =>
    simp [hphase, hpc, settled] at hw
  case taken hphase _ hpc _ _ =>
    simp [hphase, hpc, settled] at hw
  case mapped hphase _ hpc _ _ _ =>
    simp [hphase, hpc, settled] at hw
  case put hphase _ hpc _ _ =>
    simp [hphase, hpc, settled] at hw
  case unmapped hphase _ hpc _ =>
    simp [hphase, hpc, settled] at hw
  case other b p y v hphase hexec _ _ _ =>
    simp only [hphase] at hw
    have hne : b ≠ .dequeue .node := by
      rintro rfl
      cases hnode
    obtain ⟨hsettled, hsaved, hrank⟩ := settled_step hexec hw hready hne
    refine ⟨?_, hsaved, ?_⟩
    · simp only [Thread.Calm, hphase, hsettled]
    · simp only [Thread.rest, hphase]
      omega
  case flag n hphase hpc _ =>
    refine ⟨trivial, rfl, ?_⟩
    simp only [Thread.rest, hphase]
    omega
  case setPre hphase | setPtr hphase | jump hphase _ =>
    refine ⟨trivial, rfl, ?_⟩
    simp only [Thread.rest, hphase]
    omega
  case closePtr hphase | closePre hphase =>
    refine ⟨trivial, congrArg Schedule.Shared.saved (close_shared _), ?_⟩
    simp only [Thread.rest, hphase]
    omega
  case drain p rest q hphase hcons _ =>
    refine ⟨?_, rfl, ?_⟩
    · simp only [Thread.Calm, hphase]
    · simp only [Thread.rest, hphase, hcons, List.length_cons]
      omega
  case gone hphase hnil =>
    refine ⟨trivial, rfl, ?_⟩
    simp only [Thread.rest, hphase, hnil, List.length_nil]
    omega

theorem flags_of_moves (h : Moves k backup threads x w a x' w') :
    (x.flags.isSome = true → x'.flags.isSome = true) ∧
      (x.flags = none → x'.flags.isSome = true → a = .destroy ∧ x'.shared = x.shared ∧ w' = w) := by
  cases h
  case destroy hnone => exact ⟨fun _ => rfl, fun _ _ => ⟨rfl, rfl, rfl⟩⟩
  case flag n _ _ hflags => exact ⟨fun _ => rfl, fun hnone => absurd (hflags.symm.trans hnone) nofun⟩
  case closePtr | closePre =>
    rw [close_flags]
    exact ⟨id, fun hnone hsome => by simp [hnone] at hsome⟩
  all_goals exact ⟨id, fun hnone hsome => by simp [hnone] at hsome⟩

/-- A calm thread that is not gone can go on, if there is a flag for it. -/
theorem exists_step (hk : k ≤ 30) (hpools : Pools k w) (hsound : w.worker.Sound) (hw : w.Calm)
    (hp : w.Poised) (ha : Anchored x.shared w.worker w.threadContext) {n : ℕ}
    (hflags : w.phase = .work → x.flags = some (n + 1)) (hgone : w.phase ≠ .gone) :
    ∃ a, a ≠ .destroy ∧ takesNode a = false ∧ ∃ x' w', exec backup threads x w a = some (x', w') := by
  unfold Thread.Calm at hw
  unfold Thread.Poised at hp
  cases hphase : w.phase <;> simp only [hphase] at hw hp
  case work =>
    unfold Schedule.Worker.Sound at hsound
    cases hpc : w.worker.pc <;> simp only [hpc, settled, Bool.false_eq_true] at hw hsound
    case enter =>
      refine ⟨.work .step 0, by simp, rfl, ?_⟩
      simp [exec, hphase, work, Schedule.exec, hpc, hsound.1]
    case enterYield =>
      obtain ⟨c, hc⟩ := hsound.2
      refine ⟨.work .step 0, by simp, rfl, ?_⟩
      simp [exec, hphase, work, Schedule.exec, hpc, hc]
    case enterClear =>
      refine ⟨.work .step 0, by simp, rfl, ?_⟩
      simp [exec, hphase, work, Schedule.exec, hpc]
    case taskEnd =>
      refine ⟨.work .step 0, by simp, rfl, ?_⟩
      simp [exec, hphase, work, Schedule.exec, hpc]
    case dequeue =>
      refine ⟨.flag, by simp, rfl, ?_⟩
      simp [exec, hphase, hpc, hflags hphase]
  case jump ptr pre =>
    obtain ⟨c, hc, hmem⟩ := ha.launched (by rw [hp.1]; rfl)
    refine ⟨.step, by simp, rfl, ?_⟩
    simp [exec, hphase, hp.2.1, hc, hmem]
  case drain =>
    refine ⟨.step, by simp, rfl, ?_⟩
    cases hpooled : w.pooled with
    | nil => simp [exec, hphase, getStack_nil hk hpools hpooled]
    | cons p rest =>
      obtain ⟨q, hget, -⟩ := getStack_cons hk hpools hpooled
      simp [exec, hphase, hget]
  case gone => exact absurd hphase hgone
  all_goals
    refine ⟨.step, by simp, rfl, ?_⟩
    simp [exec, hphase]

end Step

/-! ### Along a run -/

section Run
variable {T : Type} [Fintype T] [DecidableEq T] {k backup threads : ℕ} {pool : LimitQueue Word} {stored : ℤ}
  {ok : Crew.Config Process Thread T → T × Act → Crew.Config Process Thread T → Prop}
  {s s' : Crew.Config Process Thread T}

/-- After `destroy`, before the last thread is gone. -/
structure Winding (s : Crew.Config Process Thread T) : Prop where
  calm : ∀ t, (s.places t).Calm
  saved : ∀ e ∈ s.shared.shared.saved, e.cont = .routine

section Reached
variable (hk : k ≤ 30) (hbackup : backup ≤ 2 ^ k) (hpool : Stores k 0 pool [])
include hk hbackup hpool

theorem flag_count (h : ((process backup threads pool stored).system T).ReachedBy ok s) :
    ((s.shared.flags.getD (2 * threads) : ℕ) : ℤ) + census Thread.stopped s.places = 2 * threads := by
  have hbalance := Crew.balance (fun x : Process => ((x.flags.getD (2 * threads) : ℕ) : ℤ)) Thread.stopped
    (fun s t a s' htook => flag_step ((founded hk hbackup hpool htook.reached).moves hk hbackup htook.exec)) h
  have hplace : census Thread.stopped (fun _ : T => (process backup threads pool stored).place) = 0 :=
    census_eq_zero fun _ => rfl
  have hstart :
      (((process backup threads pool stored).start.flags.getD (2 * threads) : ℕ) : ℤ) = 2 * threads := by
    simp [process]
  rw [hplace, hstart] at hbalance
  omega

/-- Where nothing waits, nothing is published. -/
theorem ready_nil (h : ((process backup threads pool stored).system T).ReachedBy ok s) (hw : Winding s) :
    s.shared.shared.ready = [] := by
  have hworkers := reached_workers hk hbackup hpool h
  have hpoised := poised hk hbackup hpool h
  refine List.eq_nil_iff_forall_not_mem.mpr fun b hb => ?_
  have heq := Schedule.runs_eq_waits (Schedule.tokens hworkers).balance b
  have hsaved : (s.shared.shared.saved.flatMap fun e => e.cont.backs) = [] :=
    List.flatMap_eq_nil_iff.mpr fun e he => by rw [hw.saved e he]; rfl
  have hsettled : ∀ t, settled (s.places t).worker.pc = true := fun t => by
    have hcalm := hw.calm t
    have hp := hpoised t
    unfold Thread.Calm at hcalm
    unfold Thread.Poised at hp
    cases hphase : (s.places t).phase <;> simp only [hphase] at hcalm hp
    case work => exact hcalm
    case setPre | drain => rw [hp]; rfl
    all_goals rw [hp.1]; rfl
  have hwaits : census (fun w : Worker => (w.waits.count b : ℤ)) (fun t => (s.places t).worker) = 0 :=
    census_eq_zero fun t => by
      have hpc := hsettled t
      unfold Schedule.Worker.waits
      cases hcase : (s.places t).worker.pc <;> simp_all [settled]
  have hruns := census_nonneg (f := fun w : Worker => (w.runs.count b : ℤ)) (fun _ => Int.natCast_nonneg _)
    (fun t => (s.places t).worker)
  have hpos := List.count_pos_iff.mpr hb
  have hzero : ((s.shared.shared.saved.flatMap fun e => e.cont.backs).count b : ℤ) = 0 := by rw [hsaved]; rfl
  simp only [hwaits, hzero] at heq
  omega

theorem winding (h : ((process backup threads pool stored).system T).ReachedBy Orderly s)
    (hflags : s.shared.flags.isSome = true) : Winding s := by
  refine Crew.induct (I := fun s => s.shared.flags.isSome = true → Winding s) (fun hnone => ?_)
    (fun s t a s' htook ih hflags' => ?_) h hflags
  · cases hnone
  have hmoves := (founded hk hbackup hpool htook.reached).moves hk hbackup htook.exec
  cases hold : s.shared.flags.isSome with
  | false =>
    have hnone : s.shared.flags = none := Option.isNone_iff_eq_none.mp (Option.isSome_eq_false_iff.mp hold)
    obtain ⟨ha, hshared, hplace⟩ := (flags_of_moves hmoves).2 hnone hflags'
    have hsettled := htook.ok.destroy ha
    have hplaces : s'.places = s.places := by rw [htook.others, hplace, Function.update_eq_self]
    refine ⟨fun t' => ?_, fun e he => hsettled.saved e (hshared ▸ he)⟩
    rw [hplaces, Thread.Calm, (hsettled.threads t').1]
    exact (hsettled.threads t').2
  | true =>
    have hw := ih hold
    have hready := ready_nil hk hbackup hpool htook.reached hw
    have hcalmer := calmer_of_moves hmoves hold (htook.ok.nodes hold) hready
      (hw.calm t)
    refine ⟨fun t' => ?_, fun e he => hw.saved e (hcalmer.saved ▸ he)⟩
    by_cases ht : t' = t
    · subst ht
      exact hcalmer.calm
    · rw [htook.other ht]
      exact hw.calm t'

/-- Each step after `destroy` is one less. -/
theorem rest_step {t : T} {a : Act} (htook : (process backup threads pool stored).Took Orderly s t a s')
    (hflags : s.shared.flags.isSome = true) :
    s'.shared.flags.isSome = true ∧ 1 + census Thread.rest s'.places ≤ census Thread.rest s.places := by
  have hmoves := (founded hk hbackup hpool htook.reached).moves hk hbackup htook.exec
  have hw := winding hk hbackup hpool htook.reached hflags
  have hcalmer := calmer_of_moves hmoves hflags (htook.ok.nodes hflags)
    (ready_nil hk hbackup hpool htook.reached hw) (hw.calm t)
  have hcensus := htook.census Thread.rest
  have hrest := hcalmer.rest
  exact ⟨(flags_of_moves hmoves).1 hflags, by omega⟩

theorem length_le_rest (as : List (T × Act))
    (h : ((process backup threads pool stored).system T).ReachedBy Orderly s)
    (hflags : s.shared.flags.isSome = true)
    (hrun : ((process backup threads pool stored).system T).runBy Orderly s as = some s') :
    s'.shared.flags.isSome = true ∧
      as.length + census Thread.rest s'.places ≤ census Thread.rest s.places := by
  induction as generalizing s with
  | nil =>
    cases hrun
    exact ⟨hflags, by simp⟩
  | cons a as ih =>
    obtain ⟨m, hstep, hrun⟩ := Option.bind_eq_some_iff.mp hrun
    obtain ⟨hok, hrun⟩ := Option.ite_none_right_eq_some.mp hrun
    have htook := Crew.took_of_step h hstep hok
    obtain ⟨hflags', hle⟩ := rest_step hk hbackup hpool htook hflags
    obtain ⟨hend, hrest⟩ := ih htook.next hflags' hrun
    refine ⟨hend, ?_⟩
    rw [List.length_cons]
    push_cast
    omega

/-- A thread that cannot go on is gone. -/
theorem gone_of_stuck (h : ((process backup (Fintype.card T) pool stored).system T).ReachedBy Orderly s)
    (hflags : s.shared.flags.isSome = true)
    (hstuck : ∀ a s', ((process backup (Fintype.card T) pool stored).system T).step s a = some s' →
      ¬ Orderly s a s') (t : T) : (s.places t).phase = .gone := by
  by_contra hgone
  have hfounded := founded hk hbackup hpool h
  have hw := winding hk hbackup hpool h hflags
  obtain ⟨n, hn⟩ := Option.isSome_iff_exists.mp hflags
  have hcount := flag_count hk hbackup hpool h
  have hle : census Thread.stopped s.places ≤ Fintype.card T := by
    have hone : census Thread.stopped s.places ≤ census (fun _ => 1) s.places := census_mono fun t => by
      unfold Thread.stopped
      split <;> omega
    rwa [show census (fun _ : Thread => 1) s.places = Fintype.card T by simp [census]] at hone
  have hcard : 0 < Fintype.card T := Fintype.card_pos_iff.mpr ⟨t⟩
  rw [hn, Option.getD_some] at hcount
  obtain ⟨m, rfl⟩ : ∃ m, n = m + 1 := ⟨n - 1, by omega⟩
  obtain ⟨a, hdestroy, hnode, x, w, hexec⟩ :
      ∃ a, a ≠ .destroy ∧ takesNode a = false ∧
        ∃ x w, exec backup (Fintype.card T) s.shared (s.places t) a = some (x, w) :=
    exists_step hk (hfounded.stocked t).pools
      ((Schedule.linked (reached_workers hk hbackup hpool h)).sound t) (hw.calm t)
      (poised hk hbackup hpool h t) (anchored hk hbackup hpool h t) (fun _ => hn) hgone
  refine hstuck (t, a) ⟨x, Function.update s.places t w⟩ ?_ ⟨fun ha => absurd ha hdestroy, fun _ => hnode⟩
  show (exec backup (Fintype.card T) s.shared (s.places t) a).map _ = _
  rw [hexec]
  rfl

/-- Nothing is left. -/
structure Destroyed (s : Crew.Config Process Thread T) : Prop where
  gone : ∀ t, (s.places t).phase = .gone
  /-- Every context was deleted, and once. -/
  once : s.shared.deleted.Perm (List.range s.shared.shared.contexts)
  pending : s.shared.pendingContextNum = 0
  unmapped : s.shared.mappings.regions = []
  flags : s.shared.flags = some (Fintype.card T)

theorem destroyed_of_gone (h : ((process backup (Fintype.card T) pool stored).system T).ReachedBy Orderly s)
    (hflags : s.shared.flags.isSome = true) (hgone : ∀ t, (s.places t).phase = .gone) : Destroyed s := by
  have hw := winding hk hbackup hpool h hflags
  have hnodup := deleted_nodup hk hbackup hpool h
  have hcount : ∀ c, s.shared.deleted.count c = if c < s.shared.shared.contexts then 1 else 0 := fun c => by
    have hone := kept_once hk hbackup hpool h c
    have hkeeps : census (fun w : Thread => (w.keeps.count c : ℤ)) s.places = 0 := census_eq_zero fun t => by
      unfold Thread.keeps
      rw [hgone t]
      rfl
    have hsaved :
        (s.shared.shared.saved.map Saved.context).count c = s.shared.shared.saved.count ⟨c, .routine⟩ := by
      rw [List.count, List.count, List.countP_map]
      refine List.countP_congr fun e he => ?_
      obtain ⟨d, r⟩ := e
      have hr : r = .routine := hw.saved _ he
      subst hr
      simp
    rw [hkeeps, hsaved] at hone
    split at hone <;> simp_all
  have hperm : s.shared.deleted.Perm (List.range s.shared.shared.contexts) := by
    refine (List.perm_ext_iff_of_nodup hnodup List.nodup_range).mpr fun c => ?_
    rw [List.mem_range, ← List.count_pos_iff, hcount]
    split <;> omega
  have hpooled : ∀ t, (s.places t).pooled = [] := fun t => by
    have hp := poised hk hbackup hpool h t
    rw [Thread.Poised, hgone t] at hp
    exact hp.2
  refine ⟨hgone, hperm, ?_, ?_, ?_⟩
  · have hpending := Schedule.pending_eq (reached_workers hk hbackup hpool h)
    have hlength := hperm.length_eq
    rw [Process.deleted, List.length_append, List.length_range] at hlength
    rw [Process.pendingContextNum]
    simp only at hpending
    omega
  · have ha := accounted hk hbackup hpool h
    have hlive : s.shared.live = ∅ := Finset.filter_eq_empty_iff.mpr fun c hc => by
      rw [not_not]
      exact hperm.mem_iff.mpr (List.mem_range.mpr (Finset.mem_range.mp hc))
    rw [Accounted, hlive] at ha
    simp only [hpooled, List.map_nil] at ha
    exact (Multiset.coe_eq_zero _).mp (by rw [ha]; simp)
  · obtain ⟨n, hn⟩ := Option.isSome_iff_exists.mp hflags
    have hstopped : census Thread.stopped s.places = Fintype.card T := by
      simp [census, Thread.stopped, hgone]
    have hall := flag_count hk hbackup hpool h
    rw [hn, Option.getD_some, hstopped] at hall
    rw [hn]
    exact congrArg some (by omega)

end Reached

/-- **`destroy` ends, and frees everything**: after it the threads take a bounded number of steps,
in any order, and when none is left every thread is gone, every context was deleted once, nothing
is mapped, and one flag for each thread is left over. -/
theorem destroy_ends (h₁ : 1 ≤ backup) (h₂ : backup ≤ 2 ^ 30)
    (hpool : LimitQueue.make 0 (BitVec.ofNat 64 backup) = some pool)
    (h : ((process backup (Fintype.card T) pool stored).system T).ReachedBy Orderly s)
    (hflags : s.shared.flags.isSome = true) (as : List (T × Act))
    (hrun : ((process backup (Fintype.card T) pool stored).system T).runBy Orderly s as = some s') :
    as.length ≤ census Thread.rest s.places ∧
      ((∀ a m, ((process backup (Fintype.card T) pool stored).system T).step s' a = some m →
          ¬ Orderly s' a m) →
        Destroyed s') := by
  obtain ⟨k, hk, hbackup, hstores⟩ := pools_make h₁ h₂ hpool
  obtain ⟨hflags', hle⟩ := length_le_rest hk hbackup hstores as h hflags hrun
  have hreached := h.run as hrun
  have hnonneg := census_nonneg (f := Thread.rest) (fun w => by unfold Thread.rest; split <;> omega) s'.places
  refine ⟨by omega, fun hstuck => ?_⟩
  exact destroyed_of_gone hk hbackup hstores hreached hflags'
    (gone_of_stuck hk hbackup hstores hreached hflags' hstuck)

/-- A thread of whose two stacks one is used; its mappings begin at `base`. -/
def launch (t : Bool) (base : Word) : List (Bool × Act) :=
  [(t, .malloc base), (t, .malloc (base + 0x1000000)), (t, .step), (t, .work .step (base + 0x2000000))] ++
    List.replicate 7 (t, .work .step 0)

/-- Both threads stop, one after the other. -/
def stop : List (Bool × Act) :=
  (false, .flag) :: (true, .flag) :: (List.replicate 7 (true, .step) ++ List.replicate 7 (false, .step))

theorem destroy_ends_two : ∃ pool : LimitQueue Word, LimitQueue.make 0 2#64 = some pool ∧
    ∃ s s', ((process 2 2 pool 1).system Bool).ReachedBy Orderly s ∧ s.shared.flags = some 4 ∧
      s.shared.mappings.regions.length = 6 ∧
      ((process 2 2 pool 1).system Bool).runBy Orderly s stop = some s' ∧ Destroyed s' := by
  have hpool : LimitQueue.make (0 : Word) 2#64 = some ⟨[0, 0], 2, 1, 0, 0⟩ := rfl
  obtain ⟨s, hs, hflags, hmapped, hany⟩ := System.exists_reachedBy
    ((process 2 2 ⟨[0, 0], 2, 1, 0, 0⟩ 1).system Bool) Orderly
    (launch false 0x7e0000000000 ++ launch true 0x7f0000000000 ++ [(false, .destroy)])
    (fun s => s.shared.flags = some 4 ∧ s.shared.mappings.regions.length = 6 ∧
      (((process 2 2 ⟨[0, 0], 2, 1, 0, 0⟩ 1).system Bool).runBy Orderly s stop).any (fun s' =>
          decide ((∀ t, (s'.places t).phase = .gone) ∧ s'.shared.flags = some 2)) = true) (by decide)
  obtain ⟨s', hrun, hgone⟩ := (Option.any_eq_true _ _).mp hany
  obtain ⟨hphase, hleft⟩ := of_decide_eq_true hgone
  refine ⟨_, hpool, s, s', hs, hflags, hmapped, hrun, ?_⟩
  refine (destroy_ends (by decide) (by decide) hpool hs (by rw [hflags]; rfl) _ hrun).2 fun a m hstep => ?_
  obtain ⟨⟨x, w⟩, hexec, -⟩ := Option.map_eq_some_iff.mp hstep
  cases ha : a.2 <;> simp [process, exec, hphase a.1, hleft, ha] at hexec

end Run

end QuietFlow.Stacks
