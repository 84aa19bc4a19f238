import Mathlib.Data.Nat.Bitwise
import QuietFlow.Runs.Ring

/-! The bits of a container and how `error_cnt` counts them.

A container is an array of words, and its cells are the bits of its words in order. The count
goes a byte at a time through the table `fast`. `countWord_eq` and `countWords_eq` say that it
is the number of cells set. -/
namespace QuietFlow.ErrorRate
open Runs

def fast : List ℕ := [
  0, 1, 1, 2, 1, 2, 2, 3, 1, 2, 2, 3, 2, 3, 3, 4,
  1, 2, 2, 3, 2, 3, 3, 4, 2, 3, 3, 4, 3, 4, 4, 5,
  1, 2, 2, 3, 2, 3, 3, 4, 2, 3, 3, 4, 3, 4, 4, 5,
  2, 3, 3, 4, 3, 4, 4, 5, 3, 4, 4, 5, 4, 5, 5, 6,
  1, 2, 2, 3, 2, 3, 3, 4, 2, 3, 3, 4, 3, 4, 4, 5,
  2, 3, 3, 4, 3, 4, 4, 5, 3, 4, 4, 5, 4, 5, 5, 6,
  2, 3, 3, 4, 3, 4, 4, 5, 3, 4, 4, 5, 4, 5, 5, 6,
  3, 4, 4, 5, 4, 5, 5, 6, 4, 5, 5, 6, 5, 6, 6, 7,
  1, 2, 2, 3, 2, 3, 3, 4, 2, 3, 3, 4, 3, 4, 4, 5,
  2, 3, 3, 4, 3, 4, 4, 5, 3, 4, 4, 5, 4, 5, 5, 6,
  2, 3, 3, 4, 3, 4, 4, 5, 3, 4, 4, 5, 4, 5, 5, 6,
  3, 4, 4, 5, 4, 5, 5, 6, 4, 5, 5, 6, 5, 6, 6, 7,
  2, 3, 3, 4, 3, 4, 4, 5, 3, 4, 4, 5, 4, 5, 5, 6,
  3, 4, 4, 5, 4, 5, 5, 6, 4, 5, 5, 6, 5, 6, 6, 7,
  3, 4, 4, 5, 4, 5, 5, 6, 4, 5, 5, 6, 5, 6, 6, 7,
  4, 5, 5, 6, 5, 6, 6, 7, 5, 6, 6, 7, 6, 7, 7, 8]

/-- `for (uint64_t c = container[i]; c>0; c >>= 8) res += fast[c&(0xff)]`. -/
def countWord (c : BitVec 64) : ℕ :=
  if 0 < c then fast.getD (c &&& 0xff#64).toNat 0 + countWord (c >>> 8) else 0
  termination_by c.toNat
  decreasing_by
    rename_i hpos
    rw [BitVec.toNat_ushiftRight, Nat.shiftRight_eq_div_pow]
    exact Nat.div_lt_self hpos (by decide)

/-- The bits of a container, from the lowest of its first word on. -/
def cell (container : List (BitVec 64)) (p : ℕ) : Bool :=
  (container.getD (p / 64) 0).getLsbD (p % 64)

/-- How many of the first `n` cells are set. -/
def ones (cell : ℕ → Bool) (n : ℕ) : ℕ := (List.range n).countP cell

/-! ### Counting cells -/

section Ones
variable {f : ℕ → Bool} {n m p : ℕ}

theorem ones_zero (f : ℕ → Bool) : ones f 0 = 0 := rfl

theorem ones_succ (f : ℕ → Bool) (n : ℕ) : ones f (n + 1) = ones f n + (f n).toNat := by
  rw [ones, List.range_succ, List.countP_append, ones, List.countP_singleton]
  cases f n <;> rfl

theorem ones_congr {g : ℕ → Bool} (h : ∀ p < n, f p = g p) : ones f n = ones g n :=
  List.countP_congr fun p hp => by rw [h p (List.mem_range.mp hp)]

theorem ones_add (f : ℕ → Bool) (n m : ℕ) : ones f (n + m) = ones f n + ones (fun p => f (n + p)) m := by
  induction m with
  | zero => rfl
  | succ m ih => rw [← Nat.add_assoc, ones_succ, ih, ones_succ, Nat.add_assoc]

/-- A write changes the count by what it changes of its cell. -/
theorem ones_update (h : p < n) (x : Bool) :
    ones (Function.update f p x) n + (f p).toNat = ones f n + x.toNat := by
  induction n with
  | zero => omega
  | succ n ih =>
    rw [ones_succ, ones_succ]
    rcases Nat.lt_succ_iff_lt_or_eq.mp h with hlt | rfl
    · rw [Function.update_of_ne (by omega), Nat.add_right_comm, ih hlt, Nat.add_right_comm]
    · have hbelow : ones (Function.update f p x) p = ones f p :=
        ones_congr fun q hq => Function.update_of_ne (by omega) _ _
      rw [hbelow, Function.update_self]
      omega

end Ones

/-! ### The table and the words -/

set_option maxRecDepth 4000 in
theorem fast_eq : ∀ b < 256, fast.getD b 0 = ones b.testBit 8 := by decide

/-- A word with nothing from bit `8 * n` on is counted in `n` rounds. -/
theorem countWord_below (n : ℕ) (c : BitVec 64) (h : c.toNat < 2 ^ (8 * n)) :
    countWord c = ones c.getLsbD (8 * n) := by
  induction n generalizing c with
  | zero =>
    have hzero : c = 0 := BitVec.eq_of_toNat_eq (by simpa using h)
    rw [hzero, countWord, if_neg (by decide), Nat.mul_zero, ones_zero]
  | succ n ih =>
    rw [countWord]
    split
    · have hshift : (c >>> 8).toNat < 2 ^ (8 * n) := by
        rw [BitVec.toNat_ushiftRight, Nat.shiftRight_eq_div_pow]
        rw [Nat.mul_succ, Nat.pow_add, Nat.mul_comm] at h
        exact Nat.div_lt_of_lt_mul h
      have hbyte : (c &&& 0xff#64).toNat < 256 := by
        rw [BitVec.toNat_and]
        exact Nat.and_lt_two_pow _ (show (0xff#64).toNat < 2 ^ 8 by decide)
      have hlow : ones (c &&& 0xff#64).toNat.testBit 8 = ones c.getLsbD 8 := by
        refine ones_congr fun p hp => ?_
        rw [BitVec.testBit_toNat, BitVec.getLsbD_and]
        have hmask : (0xff#64).getLsbD p = true := by
          have hall : ∀ p < 8, (0xff#64).getLsbD p = true := by decide
          exact hall p hp
        rw [hmask, Bool.and_true]
      rw [fast_eq _ hbyte, ih _ hshift, hlow, Nat.mul_succ, Nat.add_comm (8 * n), ones_add]
      congr 1
      exact ones_congr fun p _ => BitVec.getLsbD_ushiftRight c 8 p
    · next hzero =>
      have hzero : c = 0 := by
        have := BitVec.lt_def.not.mp hzero
        exact BitVec.eq_of_toNat_eq (by simpa using this)
      rw [hzero]
      exact (List.countP_eq_zero.mpr fun p _ => by simp).symm

/-- The table and the loop count the bits of a word. -/
theorem countWord_eq (c : BitVec 64) : countWord c = ones c.getLsbD 64 :=
  countWord_below 8 c c.isLt

/-- The counts of the words are the count of the cells. -/
theorem countWords_eq (container : List (BitVec 64)) :
    (container.map countWord).sum = ones (cell container) (64 * container.length) := by
  induction container with
  | nil => rfl
  | cons c rest ih =>
    have hfirst : ones (cell (c :: rest)) 64 = ones c.getLsbD 64 :=
      ones_congr fun p hp => by rw [cell, Nat.div_eq_of_lt hp, Nat.mod_eq_of_lt hp, List.getD_cons_zero]
    have hrest : (fun p => cell (c :: rest) (64 + p)) = cell rest := by
      funext p
      rw [cell, Nat.add_comm, Nat.add_div_right _ (by decide), Nat.add_mod_right, List.getD_cons_succ,
        cell]
    rw [List.map_cons, List.sum_cons, ih, countWord_eq, List.length_cons, Nat.mul_succ,
      Nat.add_comm (64 * rest.length), ones_add, hfirst, hrest]

/-! ### Writing a cell -/

section Write
variable {container : List (BitVec 64)} {w b : ℕ}

theorem cell_set {c : BitVec 64} {x : Bool} (hw : w < container.length) (hb : b < 64)
    (hc : ∀ i < 64, c.getLsbD i = if i = b then x else (container[w]).getLsbD i) :
    cell (container.set w c) = Function.update (cell container) (64 * w + b) x := by
  funext p
  have hp : p % 64 < 64 := Nat.mod_lt _ (by decide)
  by_cases hword : p / 64 = w
  · have hget : cell container p = (container[w]).getLsbD (p % 64) := by
      simp [cell, hword, List.getD_eq_getElem?_getD, List.getElem?_eq_getElem hw]
    have hset : cell (container.set w c) p = c.getLsbD (p % 64) := by
      simp [cell, hword, List.getD_eq_getElem?_getD, List.getElem?_set_self hw]
    rw [hset, hc _ hp]
    by_cases hbit : p % 64 = b
    · rw [if_pos hbit, show 64 * w + b = p by omega, Function.update_self]
    · rw [if_neg hbit, Function.update_of_ne (by omega), hget]
  · rw [Function.update_of_ne (by omega), cell, cell, List.getD_eq_getElem?_getD,
      List.getElem?_set_ne (Ne.symm hword), List.getD_eq_getElem?_getD]

/-- `fetch_or` of one bit sets its cell. -/
theorem cell_or (hw : w < container.length) (hb : b < 64) :
    cell (container.set w (container[w] ||| 1#64 <<< b)) =
      Function.update (cell container) (64 * w + b) true := by
  refine cell_set hw hb fun i hi => ?_
  rw [BitVec.getLsbD_or, show 1#64 <<< b = BitVec.twoPow 64 b from rfl, BitVec.getLsbD_twoPow]
  by_cases hib : i = b
  · simp [hib, hb]
  · simp [hib, Ne.symm hib]

/-- `fetch_and` of all bits but one clears its cell. -/
theorem cell_and (hw : w < container.length) (hb : b < 64) :
    cell (container.set w (container[w] &&& ~~~(1#64 <<< b))) =
      Function.update (cell container) (64 * w + b) false := by
  refine cell_set hw hb fun i hi => ?_
  rw [BitVec.getLsbD_and, BitVec.getLsbD_not, show 1#64 <<< b = BitVec.twoPow 64 b from rfl,
    BitVec.getLsbD_twoPow]
  by_cases hib : i = b
  · simp [hib, hb]
  · simp [hib, Ne.symm hib, hi]

end Write
end QuietFlow.ErrorRate
