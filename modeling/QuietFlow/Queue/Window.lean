import Mathlib.Data.Nat.Bitwise
import QuietFlow.Queue.FreeLock

/-! The arithmetic of the queue's 64-bit words.

Counters are compared through wrapped differences against a 32-bit window
(`is_empty`, `is_full`), slots are taken by masking, and slot versions are words
that wrap. Each lemma says on which natural numbers the wrapped computation agrees
with the unwrapped one. -/
namespace QuietFlow.FreeLock

theorem word_toNat (n : ℕ) : (word n).toNat = n % 2 ^ 64 := BitVec.toNat_ofNat n 64

theorem word_add (m n : ℕ) : word (m + n) = word m + word n := BitVec.ofNat_add m n

theorem word_eq_iff (m n : ℕ) : word m = word n ↔ m % 2 ^ 64 = n % 2 ^ 64 := by
  rw [← word_toNat, ← word_toNat]
  exact BitVec.toNat_inj.symm

/-! ### The 32-bit window -/

/-- Within the window, a wrapped difference is small exactly when it did not wrap. -/
theorem window_lt (x y : ℕ) (hlo : x < y + 0xffffffff) (hhi : y ≤ x + (2 ^ 64 - 0xffffffff)) :
    (word x - word y < 0xffffffff#64) ↔ y ≤ x := by
  rw [BitVec.lt_def, BitVec.toNat_sub, word_toNat, word_toNat]
  simp only [BitVec.toNat_ofNat, Nat.reducePow, Nat.reduceMod] at hlo hhi ⊢
  omega

theorem isEmpty_iff (ahead missed write : ℕ) (hlo : ahead < missed + write + 0xffffffff)
    (hhi : missed + write ≤ ahead + (2 ^ 64 - 0xffffffff)) :
    isEmpty (word ahead - word missed) (word write) = true ↔ missed + write ≤ ahead := by
  have hdiff : word ahead - word missed - word write = word ahead - word (missed + write) := by
    rw [word_add, BitVec.sub_sub]
  simp only [isEmpty, hdiff, ge_iff_le, Bool.and_eq_true, decide_eq_true_eq,
    window_lt ahead (missed + write) hlo hhi]
  exact ⟨fun h => h.2, fun h => ⟨BitVec.le_def.mpr (Nat.zero_le _), h⟩⟩

theorem isFull_iff (capacity ahead missed read : ℕ)
    (hlo : ahead < missed + (read + capacity) + 0xffffffff)
    (hhi : missed + (read + capacity) ≤ ahead + (2 ^ 64 - 0xffffffff)) :
    isFull (word capacity) (word read) (word ahead - word missed) = true ↔
      missed + (read + capacity) ≤ ahead := by
  have hdiff : word ahead - word missed - word capacity - word read =
      word ahead - word (missed + (read + capacity)) := by
    rw [word_add, word_add, BitVec.sub_sub, BitVec.sub_sub, BitVec.add_comm (word read)]
  simp only [isFull, hdiff, ge_iff_le, Bool.and_eq_true, decide_eq_true_eq,
    window_lt ahead (missed + (read + capacity)) hlo hhi]
  exact ⟨fun h => h.2, fun h => ⟨BitVec.le_def.mpr (Nat.zero_le _), h⟩⟩

/-! ### Slots -/

section Slot
variable {k : ℕ}

theorem capacityBitmap_eq (k : ℕ) : capacityBitmap (word (2 ^ k)) = word (2 ^ k - 1) := by
  have hpos : 1 ≤ 2 ^ k := Nat.one_le_two_pow
  have hsplit : word (2 ^ k) = word (2 ^ k - 1) + 1 := by
    rw [show (1 : BitVec 64) = word 1 from rfl, ← word_add, Nat.sub_add_cancel hpos]
  rw [capacityBitmap, hsplit, BitVec.add_sub_cancel]

theorem slot_eq (hk : k ≤ 63) (n : ℕ) : slot (word (2 ^ k)) n = word (n % 2 ^ k) := by
  have hpos : 0 < 2 ^ k := Nat.two_pow_pos k
  have hle : 2 ^ k ≤ 2 ^ 63 := Nat.pow_le_pow_right (by decide) hk
  have hlt : 2 ^ k - 1 < 2 ^ 64 := by omega
  have hmod : n % 2 ^ k < 2 ^ k := Nat.mod_lt _ hpos
  apply BitVec.eq_of_toNat_eq
  rw [slot, capacityBitmap_eq, BitVec.toNat_and, word_toNat, word_toNat, word_toNat,
    Nat.mod_eq_of_lt hlt, Nat.and_two_pow_sub_one_eq_mod,
    Nat.mod_mod_of_dvd _ (Nat.pow_dvd_pow 2 (by omega)), Nat.mod_eq_of_lt (a := n % 2 ^ k) (by omega)]

theorem slot_inj (hk : k ≤ 63) (m n : ℕ) :
    slot (word (2 ^ k)) m = slot (word (2 ^ k)) n ↔ m % 2 ^ k = n % 2 ^ k := by
  have hpos : 0 < 2 ^ k := Nat.two_pow_pos k
  have hle : 2 ^ k ≤ 2 ^ 63 := Nat.pow_le_pow_right (by decide) hk
  have hm := Nat.mod_lt m hpos
  have hn := Nat.mod_lt n hpos
  rw [slot_eq hk, slot_eq hk, word_eq_iff, Nat.mod_eq_of_lt (a := m % 2 ^ k) (by omega),
    Nat.mod_eq_of_lt (a := n % 2 ^ k) (by omega)]

end Slot

/-! ### Versions -/

theorem low_word (n : ℕ) : (low (word n)).toNat = n % 2 ^ 32 := by
  rw [low, BitVec.truncate_eq_setWidth, BitVec.toNat_setWidth, word_toNat]
  exact Nat.mod_mod_of_dvd _ (by decide)

/-- The tickets whose word is the sign extension of its own low half. -/
def Fits (n : ℕ) : Prop := n % 2 ^ 64 < 2 ^ 31 ∨ 2 ^ 64 - 2 ^ 31 ≤ n % 2 ^ 64

instance (n : ℕ) : Decidable (Fits n) := inferInstanceAs (Decidable (_ ∨ _))

/-- **What the reader's comparison means**: the low halves agree, and the ticket is one
that 32 bits can carry. -/
theorem versionReady_read_iff (capacity : BitVec 64) (n : ℕ) (version : BitVec 64) :
    versionReady capacity .read n version = true ↔ low version = low (word n) ∧ Fits n := by
  simp only [versionReady, beq_iff_eq]
  rw [← BitVec.toNat_inj, BitVec.toNat_signExtend, ← BitVec.toNat_inj, low_word, word_toNat, Fits,
    BitVec.msb_eq_decide, BitVec.toNat_setWidth]
  generalize low version = half
  have hhalf := half.isLt
  simp only [decide_eq_true_eq]
  split <;> omega

theorem versionReady_write_iff (capacity : BitVec 64) (n : ℕ) (version : BitVec 64) :
    versionReady capacity .write n version = true ↔ version = targetVersion capacity .write n := by
  simp [versionReady]

/-- A version that is the ticket's own satisfies the writer's comparison always, the
reader's only where the ticket fits. -/
theorem versionReady_target_iff (capacity : BitVec 64) (side : Side) (n : ℕ) :
    versionReady capacity side n (targetVersion capacity side n) = true ↔
      (side = .read → Fits n) := by
  cases side with
  | read => simp [versionReady_read_iff, targetVersion]
  | write => simp [versionReady_write_iff]

end QuietFlow.FreeLock
