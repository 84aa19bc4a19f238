import Mathlib.Data.List.Nodup
import Mathlib.Data.List.Perm.Subperm
import Mathlib.Data.List.Range
import Mathlib.Data.Nat.ModEq
import Mathlib.Data.List.DropRight
import Mathlib.Logic.Function.Basic

/-! Rings of cells.

A ring of `c` cells is read through a window: the cells from `start` on, around the ring. A
window grows at its end and shrinks at its start, and a write just behind it does not touch it.
A window of all cells holds every cell once, in some order. -/
namespace QuietFlow.Runs

/-- The `n` cells from `start` on, around a ring of `c` cells. -/
def window {α : Type*} (cell : ℕ → α) (c start n : ℕ) : List α :=
  (List.range n).map fun i => cell ((start + i) % c)

section Window
variable {α : Type*} {cell : ℕ → α} {c start n : ℕ}

theorem window_concat (cell : ℕ → α) (c start n : ℕ) :
    window cell c start (n + 1) = window cell c start n ++ [cell ((start + n) % c)] := by
  simp [window, List.range_succ]

theorem window_cons (cell : ℕ → α) (c start n : ℕ) :
    window cell c start (n + 1) = cell (start % c) :: window cell c (start + 1) n := by
  rw [window, List.range_succ_eq_map, List.map_cons, List.map_map]
  simp only [Nat.add_zero, window, List.cons.injEq, true_and]
  exact List.map_congr_left fun i _ => by simp only [Function.comp_apply, Nat.add_succ, Nat.succ_add]

theorem window_congr {cell' : ℕ → α} (h : ∀ i < n, cell ((start + i) % c) = cell' ((start + i) % c)) :
    window cell c start n = window cell' c start n :=
  List.map_congr_left fun i hi => h i (List.mem_range.mp hi)

theorem window_const (x : α) (c start n : ℕ) : window (fun _ => x) c start n = List.replicate n x := by
  simp [window]

/-- Offsets of less than one round are different cells. -/
theorem cell_inj {i j : ℕ} (hi : i < c) (hj : j < c) (h : (start + i) % c = (start + j) % c) : i = j := by
  have hmod : i ≡ j [MOD c] := Nat.ModEq.add_left_cancel' start h
  exact hmod.eq_of_lt_of_lt hi hj

/-- The cell behind the window is not in it. -/
theorem window_update (h : n < c) (x : α) :
    window (Function.update cell ((start + n) % c) x) c start n = window cell c start n := by
  refine window_congr fun i hi => Function.update_of_ne (fun hcell => ?_) _ _
  have := cell_inj (hi.trans h) h hcell
  omega

/-- A write behind the window and a window grown by one. -/
theorem window_push (h : n < c) (x : α) :
    window (Function.update cell ((start + n) % c) x) c start (n + 1) =
      window cell c start n ++ [x] := by
  rw [window_concat, window_update h, Function.update_self]

/-- The cell a window has left is not in it. -/
theorem window_update_start (h : n < c) (x : α) :
    window (Function.update cell (start % c) x) c (start + 1) n = window cell c (start + 1) n := by
  refine window_congr fun i hi => Function.update_of_ne (fun hcell => ?_) _ _
  rw [Nat.add_assoc] at hcell
  have := cell_inj (i := 1 + i) (j := 0) (by omega) (by omega) hcell
  omega

/-- The window of all cells moves on by one when its first cell is written. -/
theorem window_turn (hc : 0 < c) (x : α) :
    window (Function.update cell (start % c) x) c (start + 1) c =
      (window cell c start c).tail ++ [x] := by
  obtain ⟨n, rfl⟩ : ∃ n, c = n + 1 := ⟨c - 1, by omega⟩
  have hend : (start + 1 + n) % (n + 1) = start % (n + 1) := by
    rw [Nat.add_assoc, Nat.add_comm 1 n, Nat.add_mod_right]
  rw [window_cons cell, List.tail_cons, window_concat, window_update_start (Nat.lt_succ_self n), hend,
    Function.update_self]

/-- A window of all cells holds every cell once. -/
theorem window_perm (hc : 0 < c) : (window cell c start c).Perm ((List.range c).map cell) := by
  have hperm : ((List.range c).map fun i => (start + i) % c).Perm (List.range c) := by
    refine (List.subperm_of_subset ?_ ?_).perm_of_length_le (by simp)
    · refine List.Nodup.map_on (fun i hi j hj => ?_) List.nodup_range
      exact cell_inj (List.mem_range.mp hi) (List.mem_range.mp hj)
    · intro j hj
      obtain ⟨i, -, rfl⟩ := List.mem_map.mp hj
      exact List.mem_range.mpr (Nat.mod_lt _ hc)
  have := hperm.map cell
  rwa [List.map_map] at this

end Window

/-! ### Machines that answer

A machine takes one operation after another and answers each. -/

section Answers
variable {σ σ' ο ρ : Type*}

/-- What a machine answers to each operation in turn. -/
def answers (step : σ → ο → σ × ρ) : σ → List ο → List ρ
  | _, [] => []
  | s, o :: rest => (step s o).2 :: answers step (step s o).1 rest

/-- Machines whose steps keep a relation and agree in their answers agree in all answers. -/
theorem answers_eq {step : σ → ο → σ × ρ} {step' : σ' → ο → σ' × ρ} {R : σ → σ' → Prop}
    (hstep : ∀ s s' o, R s s' → (step s o).2 = (step' s' o).2 ∧ R (step s o).1 (step' s' o).1)
    {s : σ} {s' : σ'} (h : R s s') (ops : List ο) : answers step s ops = answers step' s' ops := by
  induction ops generalizing s s' with
  | nil => rfl
  | cons o rest ih =>
    obtain ⟨hanswer, hnext⟩ := hstep s s' o h
    rw [answers, answers, hanswer, ih hnext]

end Answers
end QuietFlow.Runs
