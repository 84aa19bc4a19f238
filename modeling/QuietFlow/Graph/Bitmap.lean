import Mathlib.Data.List.Sort
import QuietFlow.Graph.Engine

/-! The bitmap as a set of ids.

A bitmap starts at zero and only `bit_map_set` writes it. `marked` is any such bitmap,
for any ids at all. The three functions then agree on one set: the ids that were set and
are below `bit_size`. `Node::finish` lists them, `add_downstream` adds to them, and the
sentinel `fast_down_strams_bak_init` stands for none. -/
namespace QuietFlow

/-- A bitmap after `bit_map_set` of each of `bits`, in order. -/
def marked (bitSize : Fin 64) (bits : List ℕ) : BitVec 64 :=
  bits.foldl (fun bitMap bit => bitMapSet bitMap bit bitSize) 0

/-- The loop of `bit_map_idx` with `n` rounds to go: `bit` is shifted along with `i`. -/
def bitMapIdxFrom (bitMap : BitVec 64) : ℕ → ℕ → BitVec 64 → List ℕ → List ℕ
  | 0, _, _, idxVec => idxVec
  | n + 1, i, bit, idxVec =>
    bitMapIdxFrom bitMap n (i + 1) (bit <<< 1)
      (if bit &&& bitMap ≠ 0 then idxVec ++ [i] else idxVec)

/-- `bit_map_idx`, with its loop. -/
def bitMapIdxVec (bitMap : BitVec 64) (bitSize : Fin 64) : List ℕ :=
  bitMapIdxFrom bitMap bitSize 0 1 []

/-! ### The loop -/

theorem bitMask_succ (i : ℕ) : bitMask i <<< 1 = bitMask (i + 1) := by
  rw [bitMask, bitMask, ← BitVec.shiftLeft_add]

theorem bitMapIdxFrom_eq (bitMap : BitVec 64) (n i : ℕ) (idxVec : List ℕ) :
    bitMapIdxFrom bitMap n i (bitMask i) idxVec =
      idxVec ++ (List.range' i n).filter fun j => bitMask j &&& bitMap ≠ 0 := by
  induction n generalizing i idxVec with
  | zero => simp [bitMapIdxFrom]
  | succ n ih =>
    rw [bitMapIdxFrom, bitMask_succ, ih, List.range'_succ, List.filter_cons]
    split <;> simp_all

theorem bitMapIdxVec_eq (bitMap : BitVec 64) (bitSize : Fin 64) :
    bitMapIdxVec bitMap bitSize = bitMapIdx bitMap bitSize := by
  rw [bitMapIdxVec, show (1 : BitVec 64) = bitMask 0 from rfl, bitMapIdxFrom_eq, List.nil_append,
    bitMapIdx, List.range_eq_range']

theorem sorted_bitMapIdx (bitMap : BitVec 64) (bitSize : Fin 64) :
    (bitMapIdx bitMap bitSize).Pairwise (· < ·) :=
  List.pairwise_lt_range.filter _

/-! ### What is marked -/

section Marked
variable {bitSize : Fin 64} {bits : List ℕ} {j : ℕ}

theorem getLsbD_marked_from (m : BitVec 64) :
    (bits.foldl (fun bitMap bit => bitMapSet bitMap bit bitSize) m).getLsbD j =
      (m.getLsbD j || decide (j < bitSize ∧ j ∈ bits)) := by
  induction bits generalizing m with
  | nil => simp
  | cons bit rest ih =>
    rw [List.foldl_cons, ih, getLsbD_bitMapSet, Bool.or_assoc, ← Bool.decide_or]
    congr 2
    grind

theorem getLsbD_marked : (marked bitSize bits).getLsbD j = decide (j < bitSize ∧ j ∈ bits) := by
  rw [marked, getLsbD_marked_from]
  simp

/-- **The three functions agree on one set of ids**: those that were set and are below
`bit_size`. The listing is increasing, and no bitmap is the sentinel. -/
theorem bitMap_faithful (bitSize : Fin 64) (bits : List ℕ) :
    (∀ b, bitMapGet (marked bitSize bits) b bitSize = true ↔ b < bitSize ∧ b ∈ bits) ∧
    (bitMapIdxVec (marked bitSize bits) bitSize).Pairwise (· < ·) ∧
    (∀ b, b ∈ bitMapIdxVec (marked bitSize bits) bitSize ↔ b < bitSize ∧ b ∈ bits) ∧
    marked bitSize bits ≠ Engine.bakInit := by
  refine ⟨fun b => ?_, ?_, fun b => ?_, fun h => ?_⟩
  · rw [bitMapGet_eq, getLsbD_marked]
    simp only [Bool.and_eq_true, decide_eq_true_eq]
    exact ⟨And.right, fun hb => ⟨hb.1, hb⟩⟩
  · rw [bitMapIdxVec_eq]
    exact sorted_bitMapIdx _ _
  · rw [bitMapIdxVec_eq, mem_bitMapIdx, getLsbD_marked, decide_eq_true_eq]
    exact ⟨And.right, fun hb => ⟨hb.1, hb⟩⟩
  · -- The sentinel's bit is above every id a bitmap can hold.
    have hbit := congrArg (fun m => m.getLsbD 63) h
    simp only [getLsbD_marked, Engine.bakInit, getLsbD_bitMask (show 63 < 64 by decide)] at hbit
    have hsize := bitSize.isLt
    simp at hbit
    omega

end Marked
end QuietFlow
