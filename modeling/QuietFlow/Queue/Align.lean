import Mathlib.Data.Nat.Log
import Mathlib.Order.Bounds.Basic
import QuietFlow.Graph.Util
import QuietFlow.Queue.Window

/-! `align_size`, with the widths of its words.

The argument and the result are `uint64_t`, and the `1` that is shifted is an `int`. A shift by
31 makes it negative, and one by 32 or more is undefined. Up to `2^30` no shift leaves the `int`,
and the code computes `alignSize`; one above, the size is not rounded at all. -/
namespace QuietFlow.Align
open FreeLock (word word_toNat)

/-- `1 << bit`. -/
def intShift (bit : ℕ) : Option (BitVec 32) := if bit < 32 then some (1#32 <<< bit) else none

/-- `std::__lg(size)`. -/
def lg (size : BitVec 64) : ℕ := Nat.log2 size.toNat

/-- `(1<<first_bit) == size`. The `int` is converted to `uint64_t`. -/
def isPower (size : BitVec 64) : Option Bool :=
  (intShift (lg size)).map fun one => one.signExtend 64 == size

/-- `align_size`. -/
def alignSizeInt (size : BitVec 64) : Option (BitVec 64) := do
  if ← isPower size then
    some size
  else
    let next ← intShift (lg size + 1)
    some (next.signExtend 64)

/-- The amounts `align_size` shifts by. -/
def shiftAmounts (size : BitVec 64) : List ℕ :=
  match isPower size with
  | some false => [lg size, lg size + 1]
  | _ => [lg size]

/-- A shift by less than the width that loses nothing. -/
def Shifts (bit : ℕ) : Prop := bit < 32 ∧ (1#32 <<< bit).toInt = 2 ^ bit

/-- The powers of two that are `size` or more. -/
def powersFrom (size : ℕ) : Set ℕ := {p | (∃ k, p = 2 ^ k) ∧ size ≤ p}

/-- What `align_size` is for: it shifts as it may, and returns the smallest power of two that is
`size` or more. -/
def Rounds (size : BitVec 64) : Prop :=
  (∀ bit ∈ shiftAmounts size, Shifts bit) ∧
  ∃ r, alignSizeInt size = some r ∧ IsLeast (powersFrom size.toNat) r.toNat

/-! ### Powers of two -/

theorem isLeast_clog (n : ℕ) : IsLeast (powersFrom n) (2 ^ Nat.clog 2 n) := by
  refine ⟨⟨⟨_, rfl⟩, Nat.le_pow_clog (by decide) n⟩, ?_⟩
  rintro _ ⟨⟨k, rfl⟩, hk⟩
  exact Nat.pow_le_pow_right (by decide) (Nat.clog_le_of_le_pow hk)

theorem clog_of_not_power {n k : ℕ} (h : 2 ^ k < n) (h' : n < 2 ^ (k + 1)) :
    Nat.clog 2 n = k + 1 :=
  le_antisymm (Nat.clog_le_of_le_pow h'.le) (Nat.lt_clog_iff_pow_lt (by decide) |>.mpr h)

theorem alignSize_eq_clog {n : ℕ} (h : 1 ≤ n) : alignSize n = 2 ^ Nat.clog 2 n := by
  have hlo : 2 ^ Nat.log2 n ≤ n := Nat.log2_self_le (by omega)
  have hhi : n < 2 ^ (Nat.log2 n + 1) := (Nat.log2_lt (by omega)).mp (Nat.lt_succ_self _)
  simp only [alignSize, Nat.one_shiftLeft]
  split
  · next hpow =>
    conv_rhs => rw [← hpow, Nat.clog_pow 2 _ (by decide)]
    exact hpow.symm
  · next hpow => rw [clog_of_not_power (lt_of_le_of_ne hlo hpow) hhi]

/-- Without a width, the size is rounded up to a power of two. -/
theorem isLeast_alignSize {n : ℕ} (h : 1 ≤ n) : IsLeast (powersFrom n) (alignSize n) := by
  rw [alignSize_eq_clog h]
  exact isLeast_clog n

theorem alignSize_pow_le {n : ℕ} (h : 1 ≤ n) (h' : n ≤ 2 ^ 30) : ∃ k ≤ 30, alignSize n = 2 ^ k :=
  ⟨Nat.clog 2 n, Nat.clog_le_of_le_pow h', alignSize_eq_clog h⟩

/-! ### One shift -/

theorem shifts_iff {bit : ℕ} : Shifts bit ↔ bit < 31 := by
  refine ⟨fun ⟨hlt, hint⟩ => ?_, fun hlt => ⟨by omega, ?_⟩⟩
  · by_contra hge
    obtain rfl : bit = 31 := by omega
    exact absurd hint (by decide)
  · have hall : ∀ bit < 31, (1#32 <<< bit).toInt = 2 ^ bit := by decide
    exact hall bit hlt

theorem intShift_of_lt {bit : ℕ} (h : bit < 31) :
    (intShift bit).map (·.signExtend 64) = some (word (2 ^ bit)) := by
  have hall : ∀ bit < 31, (intShift bit).map (·.signExtend 64) = some (word (2 ^ bit)) := by decide
  exact hall bit h

/-! ### The function -/

section AlignSize
variable {size : BitVec 64}

theorem isPower_of_lt (h : lg size < 31) :
    isPower size = some (decide (2 ^ lg size = size.toNat)) := by
  have hshift := intShift_of_lt h
  have hlt : 2 ^ lg size < 2 ^ 64 := Nat.pow_lt_pow_right (by decide) (by omega)
  obtain ⟨one, hone, hword⟩ := Option.map_eq_some_iff.mp hshift
  rw [isPower, hone, Option.map_some, hword, Option.some_inj, Bool.eq_iff_iff, beq_iff_eq,
    decide_eq_true_iff, ← BitVec.toNat_inj, word_toNat, Nat.mod_eq_of_lt hlt]

theorem lg_lt_iff (h : 1 ≤ size.toNat) (k : ℕ) : lg size < k ↔ size.toNat < 2 ^ k :=
  Nat.log2_lt (by omega)

/-- Up to `2^30` the words are wide enough. -/
theorem alignSizeInt_eq (h : 1 ≤ size.toNat) (h' : size.toNat ≤ 2 ^ 30) :
    (∀ bit ∈ shiftAmounts size, Shifts bit) ∧
      alignSizeInt size = some (word (alignSize size.toNat)) := by
  have hlg : lg size < 31 := (lg_lt_iff h 31).mpr (by omega)
  have hpower := isPower_of_lt hlg
  by_cases hpow : 2 ^ lg size = size.toNat
  · simp only [hpow, decide_true] at hpower
    have halign : alignSize size.toNat = size.toNat := by
      simp only [alignSize, Nat.one_shiftLeft]
      exact if_pos hpow
    refine ⟨?_, ?_⟩
    · simp only [shiftAmounts, hpower, List.mem_singleton, forall_eq, shifts_iff]
      exact hlg
    · simp [alignSizeInt, hpower, halign, word]
  · simp only [hpow, decide_false] at hpower
    -- A size that is no power of two is below `2^30`, so the second shift is by 30 at most.
    have hlo : 2 ^ lg size ≤ size.toNat := Nat.log2_self_le (by omega)
    have hlg' : lg size < 30 := by
      by_contra hge
      obtain heq : lg size = 30 := by omega
      rw [heq] at hlo hpow
      omega
    have halign : alignSize size.toNat = 2 ^ (lg size + 1) := by
      simp only [alignSize, Nat.one_shiftLeft]
      exact if_neg hpow
    obtain ⟨next, hnext, hword⟩ := Option.map_eq_some_iff.mp
      (intShift_of_lt (show lg size + 1 < 31 by omega))
    refine ⟨?_, ?_⟩
    · simp only [shiftAmounts, hpower, List.mem_cons, List.not_mem_nil, or_false, shifts_iff]
      omega
    · simp [alignSizeInt, hpower, hnext, hword, halign]

/-- **`align_size` rounds up exactly to `2^30`**. -/
theorem rounds_iff (size : BitVec 64) (h : 1 ≤ size.toNat) :
    Rounds size ↔ size.toNat ≤ 2 ^ 30 := by
  refine ⟨fun ⟨hshifts, _⟩ => ?_, fun hle => ?_⟩
  · by_contra hgt
    have hlg : 30 ≤ lg size := (Nat.le_log2 (by omega)).mpr (by omega)
    rcases Nat.lt_or_ge (lg size) 31 with hlt | hge
    · -- `2^30 < size < 2^31` is no power of two, and the second shift reaches the sign.
      have hpow : 2 ^ lg size ≠ size.toNat := by
        obtain heq : lg size = 30 := by omega
        rw [heq]
        omega
      have hmem : lg size + 1 ∈ shiftAmounts size := by
        simp [shiftAmounts, isPower_of_lt hlt, hpow]
      have := shifts_iff.mp (hshifts _ hmem)
      omega
    · have hmem : lg size ∈ shiftAmounts size := by
        rw [shiftAmounts]
        split <;> simp
      have := shifts_iff.mp (hshifts _ hmem)
      omega
  · obtain ⟨hshifts, halign⟩ := alignSizeInt_eq h hle
    refine ⟨hshifts, _, halign, ?_⟩
    have hleast := isLeast_alignSize h
    have hsmall : alignSize size.toNat ≤ 2 ^ 30 := hleast.2 ⟨⟨30, rfl⟩, hle⟩
    rw [word_toNat, Nat.mod_eq_of_lt (by omega)]
    exact hleast

theorem rounds_five : Rounds 5#64 := (rounds_iff 5#64 (by decide)).mpr (by decide)

/-- One above `2^30` the result is `2^64 - 2^31`. -/
theorem not_rounds_above :
    ¬ ∀ size : BitVec 64, 1 ≤ size.toNat → size.toNat ≤ 2 ^ 63 → Rounds size := by
  intro h
  obtain ⟨-, r, hr, -, hleast⟩ := h (BitVec.ofNat 64 (2 ^ 30 + 1)) (by decide) (by decide)
  have hvalue : alignSizeInt (BitVec.ofNat 64 (2 ^ 30 + 1)) =
      some (BitVec.ofNat 64 (2 ^ 64 - 2 ^ 31)) := by
    decide
  have hle := hleast (⟨⟨31, rfl⟩, by decide⟩ : 2 ^ 31 ∈ powersFrom _)
  rw [hvalue] at hr
  obtain rfl := Option.some_inj.mp hr
  exact absurd hle (by decide)

end AlignSize

/-- The bitmap of a capacity keeps every index inside it. -/
theorem mask_lt {capacity : BitVec 64} {n : ℕ} (h : IsLeast (powersFrom n) capacity.toNat)
    (i : BitVec 64) : (i &&& (capacity - 1)).toNat < capacity.toNat := by
  obtain ⟨⟨⟨k, hk⟩, -⟩, -⟩ := h
  have hpos : 0 < 2 ^ k := Nat.two_pow_pos k
  have hone : (1 : BitVec 64) ≤ capacity := by
    rw [BitVec.le_def, hk]
    exact hpos
  rw [BitVec.toNat_and, BitVec.toNat_sub_of_le hone, hk]
  change i.toNat &&& (2 ^ k - 1) < 2 ^ k
  rw [Nat.and_two_pow_sub_one_eq_mod]
  exact Nat.mod_lt _ hpos

end QuietFlow.Align
