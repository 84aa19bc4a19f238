import Mathlib.Algebra.Group.Nat.Defs
import Mathlib.Data.List.Basic

/-! The helpers of `util.h`: statuses and bitmaps.

A bitmap is a `long int`. `bit_size` is below 64 in every call (`QuietFlowAssert`), so
it is a `Fin 64` here. -/
namespace QuietFlow

inductive RunningStatus where
  | initing
  | ready
  | running
  | yield
  | finish
  | fail
  | recoverable
  | destroy
  deriving DecidableEq, Repr

namespace RunningStatus

/-- The value of the enumerator. -/
def value : RunningStatus → ℕ
  | .initing => 0
  | .ready => 1
  | .running => 2
  | .yield => 3
  | .finish => 4
  | .fail => 5
  | .recoverable => 6
  | .destroy => 7

/-- `status >= RunningStatus::Finish`. -/
def ended (s : RunningStatus) : Bool := decide (s.value ≥ finish.value)

end RunningStatus

/-- `(long int)0x1 << bit`. -/
def bitMask (bit : ℕ) : BitVec 64 := 1#64 <<< bit

def bitMapIdx (bitMap : BitVec 64) (bitSize : Fin 64) : List ℕ :=
  (List.range bitSize).filter fun i => bitMask i &&& bitMap ≠ 0

def bitMapSet (bitMap : BitVec 64) (bit : ℕ) (bitSize : Fin 64) : BitVec 64 :=
  if bit ≥ bitSize then bitMap else bitMap ||| bitMask bit

def bitMapGet (bitMap : BitVec 64) (bit : ℕ) (bitSize : Fin 64) : Bool :=
  if bit ≥ bitSize then false else decide ((bitMap &&& bitMask bit).toInt > 0)

/-- `align_size`, for sizes whose shifts an `int` can hold. -/
def alignSize (size : ℕ) : ℕ :=
  let firstBit := Nat.log2 size
  if 1 <<< firstBit = size then size else 1 <<< (firstBit + 1)

theorem alignSize_le {size : ℕ} (h : size < 2 ^ 15) : alignSize size ≤ 2 ^ 15 := by
  unfold alignSize
  simp only
  split
  · omega
  · rcases Nat.eq_zero_or_pos size with rfl | hpos
    · decide
    · have hlog : Nat.log2 size < 15 := (Nat.log2_lt (by omega)).mpr h
      rw [Nat.shiftLeft_eq, Nat.one_mul]
      exact Nat.pow_le_pow_right (by decide) hlog

/-! ### Bit by bit -/

section Bits
variable {bitSize : Fin 64} {i j : ℕ} {m : BitVec 64}

theorem bitMask_eq (i : ℕ) : bitMask i = BitVec.twoPow 64 i := rfl

theorem getLsbD_bitMask (hi : i < 64) (j : ℕ) : (bitMask i).getLsbD j = decide (i = j) := by
  rw [bitMask_eq, BitVec.getLsbD_twoPow]
  simp [hi]

theorem mem_bitMapIdx : i ∈ bitMapIdx m bitSize ↔ i < bitSize ∧ m.getLsbD i = true := by
  have hbit : i < bitSize → (bitMask i &&& m ≠ 0 ↔ m.getLsbD i = true) := by
    intro hi
    rw [bitMask_eq, BitVec.and_comm, BitVec.and_twoPow]
    split
    · next h =>
      simp only [h, iff_true]
      intro hzero
      have hself := getLsbD_bitMask (i := i) (by omega) i
      rw [bitMask_eq, hzero] at hself
      simp at hself
    · next h => simp [h]
  simp only [bitMapIdx, List.mem_filter, List.mem_range, decide_eq_true_eq]
  exact and_congr_right hbit

theorem nodup_bitMapIdx (m : BitVec 64) (bitSize : Fin 64) : (bitMapIdx m bitSize).Nodup :=
  List.nodup_range.filter _

theorem bitMapGet_eq (m : BitVec 64) (i : ℕ) (bitSize : Fin 64) :
    bitMapGet m i bitSize = (decide (i < bitSize) && m.getLsbD i) := by
  unfold bitMapGet
  split
  · next h => simp [Nat.not_lt.mpr h]
  · next h =>
    have hpos : i < 63 := by omega
    rw [bitMask_eq, BitVec.and_twoPow]
    split
    · next hbit =>
      have hint : (BitVec.twoPow 64 i).toInt = 2 ^ i := by
        rw [BitVec.toInt_eq_toNat_of_lt] <;> rw [BitVec.toNat_twoPow_of_lt (by omega)]
        · push_cast
          rfl
        · have hlt : 2 ^ i < 2 ^ 63 := Nat.pow_lt_pow_right (by decide) hpos
          omega
      have htwo : (0 : Int) < 2 ^ i := Int.pow_pos (by decide)
      simp [hbit, hint, htwo]
      omega
    · next hbit => simp [hbit]

theorem getLsbD_bitMapSet (m : BitVec 64) (i : ℕ) (bitSize : Fin 64) (j : ℕ) :
    (bitMapSet m i bitSize).getLsbD j = (m.getLsbD j || decide (i = j ∧ i < bitSize)) := by
  unfold bitMapSet
  split
  · next h => simp [Nat.not_lt.mpr h]
  · next h => simp [getLsbD_bitMask (i := i) (by omega), Nat.lt_of_not_le h]

end Bits
end QuietFlow
