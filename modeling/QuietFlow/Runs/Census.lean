import Mathlib.Algebra.BigOperators.Group.Finset.Piecewise
import Mathlib.Algebra.BigOperators.Ring.Finset
import Mathlib.Algebra.Order.BigOperators.Group.Finset
import Mathlib.Algebra.Order.Group.Int
import Mathlib.Data.Fintype.Basic
import Mathlib.Tactic.Abel

/-! Sums over the processes of a system.

Each process is at some place; a weight on places is summed over all processes.
One process moving changes a census by the difference of its two places, and a set
of processes moving together from one place to another by so many differences, so a
balance of shared counters and censuses is checked step by step by linear
arithmetic. -/
namespace QuietFlow.Runs

variable {T P : Type*} [Fintype T]

def census (f : P → ℤ) (pc : T → P) : ℤ := ∑ t, f (pc t)

section Bounds
variable {f g : P → ℤ} {pc : T → P}

theorem census_nonneg (hf : ∀ p, 0 ≤ f p) (pc : T → P) : 0 ≤ census f pc :=
  Finset.sum_nonneg fun t _ => hf (pc t)

theorem le_census (hf : ∀ p, 0 ≤ f p) (pc : T → P) (t : T) : f (pc t) ≤ census f pc :=
  Finset.single_le_sum (fun t _ => hf (pc t)) (Finset.mem_univ t)

theorem census_mono (h : ∀ t, f (pc t) ≤ g (pc t)) : census f pc ≤ census g pc :=
  Finset.sum_le_sum fun t _ => h t

theorem census_add (f g : P → ℤ) (pc : T → P) :
    census (fun p => f p + g p) pc = census f pc + census g pc := Finset.sum_add_distrib

theorem census_sub (f g : P → ℤ) (pc : T → P) :
    census (fun p => f p - g p) pc = census f pc - census g pc := Finset.sum_sub_distrib _ _

/-- Some process has a share of what is not zero. -/
theorem exists_of_one_le_census (f : P → ℤ) (pc : T → P) (h : 1 ≤ census f pc) : ∃ t, 1 ≤ f (pc t) := by
  by_contra hnone
  have hle : census f pc ≤ 0 := Finset.sum_nonpos fun t _ => by
    have ht := not_exists.mp hnone t
    omega
  omega

theorem census_eq_zero (h : ∀ t, f (pc t) = 0) : census f pc = 0 :=
  Finset.sum_eq_zero fun t _ => h t

/-- The processes at a place of some kind, counted. -/
theorem census_ite (p : P → Prop) [DecidablePred p] (pc : T → P) :
    census (fun x => if p x then 1 else 0) pc = ((Finset.univ.filter fun t => p (pc t)).card : ℤ) := by
  simp [census, Finset.sum_boole]

end Bounds

variable [DecidableEq T]

/-- One process moves. -/
theorem census_update (f : P → ℤ) (pc : T → P) (t : T) (p : P) :
    census f (Function.update pc t p) = census f pc + (f p - f (pc t)) := by
  have hrest : ∑ t' ∈ Finset.univ \ {t}, f (pc t') + f (pc t) = census f pc := by
    rw [census, ← Finset.sum_sdiff (Finset.subset_univ {t}), Finset.sum_singleton]
  have hcomp : (fun t' => f (Function.update pc t p t')) =
      Function.update (fun t' => f (pc t')) t (f p) := Function.comp_update f pc t p
  rw [census, hcomp, Finset.sum_update_of_mem (Finset.mem_univ t), ← hrest]
  abel

/-- The processes in `K` move from `p` to `q`. -/
theorem census_moveAll (f : P → ℤ) (pc : T → P) (K : Finset T) {p : P} (q : P)
    (hK : ∀ t ∈ K, pc t = p) :
    census f (fun t => if t ∈ K then q else pc t) = census f pc + K.card * (f q - f p) := by
  have hdiff : ∀ t, f (if t ∈ K then q else pc t) = f (pc t) + if t ∈ K then f q - f p else 0 := by
    intro t
    split
    · next ht => rw [hK t ht]; abel
    · rw [add_zero]
  simp only [census, hdiff, Finset.sum_add_distrib, Finset.sum_ite_mem, Finset.univ_inter,
    Finset.sum_const, nsmul_eq_mul]

/-! ### Lists in a balance -/

section Lists
variable {α : Type*} [DecidableEq α] {l : List α} {a : α}

theorem count_cons_erase (h : a ∈ l) (b : α) : (l.count b : ℤ) = [a].count b + (l.erase a).count b := by
  rw [(List.perm_cons_erase h).count_eq b, ← List.singleton_append, List.count_append]
  push_cast
  rfl

theorem count_snoc (l : List α) (a b : α) : ((l ++ [a]).count b : ℤ) = l.count b + [a].count b := by
  rw [List.count_append]
  push_cast
  rfl

end Lists

end QuietFlow.Runs
