import QuietFlow.Schedule.Worker
import Mathlib.Data.Fintype.Card

/-! The idle count.

`do_schedule` counts a worker out when it has a task and in again when the task's chain
ends; a wait counts it in before it leaves for a new context, and the frame of the
`BackNode` that comes back is given up without counting. `executing` says at which
statements a worker is counted out. -/
namespace QuietFlow.Schedule
open Runs Crew

/-- Between the `fetch_sub` of `do_schedule` and the `fetch_add` that matches it. -/
def Pc.executing : Pc → Bool
  | .task _ | .body _ | .backNode _ | .publish _ | .idleAdd _ | .spin _ | .backRun _ | .setPre _ _
  | .setPtr _ _ | .jump _ | .resumed _ | .resumedDelete _ | .resumedClear _ | .taskEnd => true
  | .created | .routine | .swapPre _ _ | .swapNew _ _ | .swap _ _ | .enter | .enterYield | .enterClear
  | .dequeue | .dequeued _ => false

variable {T : Type} [Fintype T]

/-- How many workers execute a task. -/
def executing (s : Crew.Config Shared Worker T) : ℕ :=
  (Finset.univ.filter fun t => (s.places t).pc.executing = true).card

def AllStarted (s : Crew.Config Shared Worker T) : Prop := ∀ t, (s.places t).pc ≠ .created

instance (s : Crew.Config Shared Worker T) : Decidable (AllStarted s) :=
  inferInstanceAs (Decidable (∀ t, (s.places t).pc ≠ .created))

theorem executing_le (s : Crew.Config Shared Worker T) : executing s ≤ Fintype.card T :=
  Finset.card_le_univ _

variable [DecidableEq T] {stored : ℤ} {s : Crew.Config Shared Worker T}

theorem idle_step {x x' : Shared} {w w' : Worker} (h : Effect x w x' w') :
    x'.idleWorkerNum + (if w'.pc.executing = true then 1 else 0) =
      x.idleWorkerNum + if w.pc.executing = true then 1 else 0 := by
  cases h
  case dequeued | idleAdd | taskEnd => simp [Pc.executing]
  all_goals rfl

/-- **The idle count and the workers that execute a task add up** to what `init` stored,
however often tasks wait and wherever they go on. -/
theorem idle_add_executing (h : ((crew stored).system T).Reached s) :
    s.shared.idleWorkerNum + executing s = stored := by
  have hbalance := Crew.balance (fun x => x.idleWorkerNum)
    (fun w => if w.pc.executing = true then 1 else 0)
    (fun s t a s' htook => idle_step (effect_of_exec htook.exec)) h
  rw [census_ite (fun w : Worker => w.pc.executing = true)] at hbalance
  rw [executing, hbalance]
  simp [crew, census, Pc.executing]

/-- A node waits on worker 0 and goes on on worker 1. -/
def migration {T : Type} (t t' : T) : List (T × Act) :=
  List.replicate 8 (t, .step) ++ [(t, .dequeue .node), (t, .step), (t, .step), (t, .wait)] ++
    List.replicate 9 (t, .step) ++ List.replicate 8 (t', .step) ++ [(t', .dequeue (.back 0))] ++
      List.replicate 7 (t', .step)

theorem idle_of_migration : ∃ s, ((crew 2).system (Fin 2)).Reached s ∧
    s.shared.idleWorkerNum + executing s = 2 ∧ (s.places 0).pc = .dequeue ∧
      (s.places 1).pc = .resumed ⟨0, .running⟩ := by
  obtain ⟨s, hs, h0, h1⟩ := System.exists_reachedBy ((crew 2).system (Fin 2)) (fun _ _ _ => True)
    (migration 0 1) (fun s => (s.places 0).pc = .dequeue ∧ (s.places 1).pc = .resumed ⟨0, .running⟩)
    (by decide)
  exact ⟨s, hs, idle_add_executing hs, h0, h1⟩

/-! ### `Schedule::init` -/

/-- What `idle_worker_num_.store(worker_num)` leaves in an `int`. -/
def initIdle (workerNum : BitVec 64) : ℤ := (workerNum.setWidth 32).toInt

/-- The number of threads that `init_work_thread` starts. -/
def workThreads (workerNum : BitVec 64) : BitVec 64 :=
  (workerNum + if workerNum &&& 7 ≠ 0 then 8 else 0) &&& ~~~7

theorem toNat_and_seven (n : BitVec 64) : (n &&& 7).toNat = n.toNat % 8 := by
  rw [BitVec.toNat_and]
  exact Nat.and_two_pow_sub_one_eq_mod n.toNat 3

/-- Clearing the low bits rounds down to a multiple of 8. -/
theorem toNat_clear (n : BitVec 64) : (n &&& ~~~7).toNat = n.toNat - n.toNat % 8 := by
  have hdisjoint : (n &&& 7) &&& (n &&& ~~~7) = 0 := by
    apply BitVec.eq_of_getElem_eq
    intro i hi
    simp only [BitVec.getElem_and, BitVec.getElem_not]
    cases n[i] <;> cases (7 : BitVec 64)[i] <;> simp
  have hsplit : (n &&& 7) + (n &&& ~~~7) = n := by
    rw [BitVec.add_eq_or_of_and_eq_zero _ _ hdisjoint]
    apply BitVec.eq_of_getElem_eq
    intro i hi
    simp only [BitVec.getElem_and, BitVec.getElem_not, BitVec.getElem_or]
    cases n[i] <;> cases (7 : BitVec 64)[i] <;> rfl
  have hlow := toNat_and_seven n
  have hsum := congrArg BitVec.toNat hsplit
  rw [BitVec.toNat_add, hlow] at hsum
  omega
theorem toNat_workThreads (n : BitVec 64) : (workThreads n).toNat =
    if n.toNat % 8 = 0 then n.toNat else (n.toNat + 8) % 2 ^ 64 / 8 * 8 := by
  have hlow : n &&& 7 = 0 ↔ n.toNat % 8 = 0 := by
    rw [← toNat_and_seven, ← BitVec.toNat_inj]
    rfl
  rw [workThreads, toNat_clear]
  by_cases h : n.toNat % 8 = 0
  · rw [if_neg (not_not.mpr (hlow.mpr h)), if_pos h, BitVec.toNat_add]
    simp
    omega
  · rw [if_pos (fun hz => h (hlow.mp hz)), if_neg h, BitVec.toNat_add]
    simp
    omega
/-- `init` stores the number of threads only for multiples of 8. -/
theorem stored_eq_iff (n : BitVec 64) :
    initIdle n = (workThreads n).toNat ↔ n.toNat % 8 = 0 ∧ n.toNat < 2 ^ 31 := by
  have hlt := n.isLt
  have hidle : initIdle n = (n.toNat : ℤ).bmod (2 ^ 32) := by
    rw [initIdle, BitVec.toInt_setWidth]
  rw [hidle, toNat_workThreads, Int.bmod_def]
  split <;> split <;> omega

omit [Fintype T] in
/-- Any workers can be started. -/
theorem exists_started (stored : ℤ) (ts : List T) : ∃ s, ((crew stored).system T).Reached s ∧
    ∀ t ∈ ts, (s.places t).pc ≠ .created := by
  induction ts with
  | nil => exact ⟨_, .start, fun t ht => by cases ht⟩
  | cons t ts ih =>
    obtain ⟨s, hs, hts⟩ := ih
    by_cases ht : (s.places t).pc = .created
    · obtain ⟨x, w, hexec, hw⟩ : ∃ x w, exec s.shared (s.places t) .step = some (x, w) ∧
          w.pc ≠ .created := by
        generalize s.places t = w at ht
        obtain ⟨pc, st, p, q⟩ := w
        cases ht
        exact ⟨_, _, rfl, fun he => by cases he⟩
      refine ⟨⟨x, Function.update s.places t w⟩, .step (a := (t, .step)) hs ?_ trivial, fun u hu => ?_⟩
      · show (exec s.shared (s.places t) .step).map _ = _
        rw [hexec]
        rfl
      · show (Function.update s.places t w u).pc ≠ .created
        by_cases he : u = t
        · subst he
          rwa [Function.update_self]
        · rw [Function.update_of_ne he]
          exact hts u ((List.mem_cons.mp hu).resolve_left he)
    · exact ⟨s, hs, List.forall_mem_cons.mpr ⟨ht, hts⟩⟩

/-- **The idle count is a worker count exactly when `worker_num` is a multiple of 8** that an
`int` can hold: `init_work_thread` rounds up what `init` has stored. -/
theorem idle_is_workers_iff (workerNum : BitVec 64) :
    (∀ s, ((crew (initIdle workerNum)).system (Fin (workThreads workerNum).toNat)).Reached s →
      AllStarted s → s.shared.idleWorkerNum = (workThreads workerNum).toNat - executing s ∧
        0 ≤ s.shared.idleWorkerNum) ↔
      workerNum.toNat % 8 = 0 ∧ workerNum.toNat < 2 ^ 31 := by
  rw [← stored_eq_iff]
  constructor
  · intro h
    obtain ⟨s, hs, hstarted⟩ := exists_started (initIdle workerNum)
      (List.finRange (workThreads workerNum).toNat)
    have hidle := (h s hs fun t => hstarted t (List.mem_finRange t)).1
    have hsum := idle_add_executing hs
    omega
  · intro hstored s hs _
    have hsum := idle_add_executing hs
    have hle := executing_le s
    rw [Fintype.card_fin] at hle
    omega

/-- One worker is asked for, eight are started, and two of them take a node. -/
theorem idle_negative : ∃ s, ((crew (initIdle 1)).system (Fin (workThreads 1).toNat)).Reached s ∧
    AllStarted s ∧ s.shared.idleWorkerNum < 0 := by
  let takes (t : Fin (workThreads 1).toNat) : List (Fin (workThreads 1).toNat × Act) :=
    List.replicate 7 (t, .step) ++ [(t, .dequeue .node), (t, .step)]
  exact System.exists_reachedBy ((crew (initIdle 1)).system (Fin (workThreads 1).toNat))
    (fun _ _ _ => True)
    ((List.finRange _).map (·, .step) ++ takes ⟨0, by decide⟩ ++ takes ⟨1, by decide⟩)
    (fun s => AllStarted s ∧ s.shared.idleWorkerNum < 0) (by decide)

end QuietFlow.Schedule
