import Mathlib.Algebra.Order.Field.Basic
import Mathlib.Tactic.NormNum
import Mathlib.Tactic.Positivity
import QuietFlow.ErrorRate.Local

/-! Which sizes a `LocalErrorRate` may have.

Up to 32 the container has no word, and every index is outside it; above `2^30` the size is not
rounded and `calloc` fails. Between the two every access is inside the container, but `get`
divides by 128 whatever the window is, so it is the quotient for windows of 128 and for those
without an error. -/
namespace QuietFlow.ErrorRate
open Align Runs
open FreeLock (word word_toNat)

/-- After `calls`: no word outside the container was used, `error_cnt` visits the words of the
container, and `get` is the quotient of the count and the window. -/
def WellDefined (bitSize : BitVec 32) (calls : List Call) : Prop :=
  ∃ r cnt q, record bitSize calls = some r ∧ r.visited = List.range r.container.length ∧
    r.errorCnt = some cnt ∧ r.get = some q ∧ q = (cnt : ℚ) / r.bitSize.toNat ∧ 0 ≤ q ∧ q ≤ 1

section Sizes
variable {bitSize : BitVec 32} {calls : List Call} {r : LocalErrorRate}

/-- Without a word the first index is outside, of a call as of the loop. -/
theorem not_wellDefined_of_nil (hmake : LocalErrorRate.make bitSize = some r)
    (hnil : r.container = []) : ¬ WellDefined bitSize calls := by
  rintro ⟨r', -, -, hrecord, hvisited, -⟩
  rw [record, hmake, Option.bind_some] at hrecord
  cases calls with
  | nil =>
    obtain rfl := Option.some_inj.mp hrecord
    simp [LocalErrorRate.visited, LocalErrorRate.errorCntLoop, hnil, LocalErrorRate.errorCntFrom] at hvisited
  | cons c rest =>
    have hnone : r.record c = none := by simp [LocalErrorRate.record, hnil]
    rw [List.foldlM_cons, hnone] at hrecord
    cases hrecord

theorem make_small (h : 1 ≤ bitSize.toNat) (h' : bitSize.toNat ≤ 32) :
    ∃ r, LocalErrorRate.make bitSize = some r ∧ r.container = [] := by
  have hext : (bitSize.signExtend 64).toNat = bitSize.toNat := toNat_signExtend (by omega)
  obtain ⟨-, halign⟩ := alignSizeInt_eq (by rw [hext]; omega) (by rw [hext]; omega)
  rw [hext] at halign
  have hle : alignSize bitSize.toNat ≤ 32 := (isLeast_alignSize h).2 ⟨⟨5, rfl⟩, h'⟩
  have htmp : (word (alignSize bitSize.toNat) / 64).setWidth 32 = 0#32 := by
    apply BitVec.eq_of_toNat_eq
    rw [BitVec.toNat_setWidth, BitVec.toNat_udiv, word_toNat]
    change _ % 2 ^ 64 / 64 % 2 ^ 32 = 0
    omega
  refine ⟨_, by rw [LocalErrorRate.make, halign, Option.map_some], ?_⟩
  simp only [htmp]
  rfl

theorem make_large (h : 2 ^ 30 < bitSize.toNat) (h' : bitSize.toNat < 2 ^ 31) :
    ∃ r, LocalErrorRate.make bitSize = some r ∧ r.container = [] := by
  have hext : (bitSize.signExtend 64).toNat = bitSize.toNat := toNat_signExtend h'
  have hlg : lg (bitSize.signExtend 64) = 30 :=
    (Nat.log2_eq_iff (by omega)).mpr ⟨by omega, by omega⟩
  have hpower : isPower (bitSize.signExtend 64) = some false := by
    rw [isPower_of_lt (by omega), hlg, hext]
    simp only [Option.some.injEq, decide_eq_false_iff_not]
    omega
  have halign : alignSizeInt (bitSize.signExtend 64) = some (BitVec.ofNat 64 (2 ^ 64 - 2 ^ 31)) := by
    rw [alignSizeInt, hpower, hlg]
    rfl
  refine ⟨_, by rw [LocalErrorRate.make, halign, Option.map_some], ?_⟩
  decide

theorem alignSize_eq_128 {n : ℕ} (h : 1 ≤ n) : alignSize n = 128 ↔ 65 ≤ n ∧ n ≤ 128 := by
  have hleast := isLeast_alignSize h
  refine ⟨fun heq => ⟨?_, ?_⟩, fun ⟨hlo, hhi⟩ => ?_⟩
  · by_contra hlt
    have := hleast.2 ⟨⟨6, rfl⟩, by omega⟩
    omega
  · rw [← heq]
    exact hleast.1.2
  · obtain ⟨⟨k, hk⟩, hle⟩ := hleast.1
    have hupper : alignSize n ≤ 2 ^ 7 := hleast.2 ⟨⟨7, rfl⟩, hhi⟩
    have hlower : 6 < k := by
      by_contra hge
      have : 2 ^ k ≤ 2 ^ 6 := Nat.pow_le_pow_right (by decide) (by omega)
      omega
    have : 2 ^ 7 ≤ 2 ^ k := Nat.pow_le_pow_right (by decide) hlower
    omega

/-- The quotient by 128 is the quotient by the window for a window of 128, and for no error. -/
theorem wellDefined_iff_div {size cnt : ℕ} (hrecord : record bitSize calls = some r)
    (hloop : r.errorCntLoop = (List.range r.container.length, some cnt))
    (hsize : r.bitSize.toNat = size) (hle : cnt ≤ size) (hpos : 0 < size) :
    WellDefined bitSize calls ↔ size = 128 ∨ cnt = 0 := by
  have hcnt : r.errorCnt = some cnt := by rw [LocalErrorRate.errorCnt, hloop]
  have hget : r.get = some ((cnt : ℚ) / 128) := by rw [LocalErrorRate.get, hcnt, Option.map_some]
  have hsize' : (0 : ℚ) < size := Nat.cast_pos.mpr hpos
  refine ⟨?_, fun hcases => ?_⟩
  · rintro ⟨r', cnt', q, hr', -, hcnt', hq, hquot, -⟩
    obtain rfl := Option.some_inj.mp (hrecord.symm.trans hr')
    obtain rfl := Option.some_inj.mp (hcnt.symm.trans hcnt')
    obtain rfl := Option.some_inj.mp (hget.symm.trans hq)
    rcases Nat.eq_zero_or_pos cnt with hzero | hcntpos
    · exact Or.inr hzero
    · left
      have hcnt0 : (cnt : ℚ) ≠ 0 := Nat.cast_ne_zero.mpr (by omega)
      rw [hsize, div_eq_div_iff (by norm_num) hsize'.ne', mul_right_inj' hcnt0] at hquot
      exact_mod_cast hquot
  · have hquot : (cnt : ℚ) / 128 = cnt / size := by
      rcases hcases with rfl | rfl
      · norm_num
      · simp
    refine ⟨r, cnt, _, hrecord, by rw [LocalErrorRate.visited, hloop], hcnt, hget,
      by rw [hsize]; exact hquot, by positivity, ?_⟩
    rw [hquot]
    exact div_le_one_of_le₀ (Nat.cast_le.mpr hle) hsize'.le

/-- **Exactly these sizes and calls are well defined.** -/
theorem wellDefined_iff (bitSize : BitVec 32) (h : 1 ≤ bitSize.toInt) (calls : List Call) :
    WellDefined bitSize calls ↔ 33 ≤ bitSize.toNat ∧ bitSize.toNat ≤ 2 ^ 30 ∧
      ((65 ≤ bitSize.toNat ∧ bitSize.toNat ≤ 128) ∨
        .recordError ∉ calls.rtake (alignSize bitSize.toNat)) := by
  have hint : 1 ≤ bitSize.toNat ∧ bitSize.toNat < 2 ^ 31 := by
    rw [BitVec.toInt_eq_toNat_cond] at h
    split at h <;> omega
  rcases Nat.lt_or_ge bitSize.toNat 33 with hsmall | hlo
  · obtain ⟨r, hmake, hnil⟩ := make_small hint.1 (by omega)
    exact iff_of_false (not_wellDefined_of_nil hmake hnil) (by omega)
  rcases Nat.lt_or_ge (2 ^ 30) bitSize.toNat with hlarge | hhi
  · obtain ⟨r, hmake, hnil⟩ := make_large hlarge hint.2
    exact iff_of_false (not_wellDefined_of_nil hmake hnil) (by omega)
  obtain ⟨j, hj, hpow, hmake⟩ := make_eq hlo hhi
  obtain ⟨r, hr, hrecords⟩ := foldlM_records hj (records_fresh hj) calls
  have hrecord : record bitSize calls = some r := by rw [record, hmake]; exact hr
  have hloop := loop_eq hj hrecords
  rw [List.nil_append, ← hpow] at hloop
  have hsize : r.bitSize.toNat = alignSize bitSize.toNat := by
    have : 2 ^ j ≤ 2 ^ 24 := Nat.pow_le_pow_right (by decide) hj
    rw [hrecords.bitSize, word_toNat, hpow]
    exact Nat.mod_eq_of_lt (by omega)
  have hcount : (calls.rtake (alignSize bitSize.toNat)).count .recordError ≤ alignSize bitSize.toNat :=
    List.count_le_length.trans (by rw [List.rtake, List.length_drop]; omega)
  rw [wellDefined_iff_div hrecord hloop hsize hcount (hpow ▸ cells_pos j)]
  simp only [hlo, hhi, true_and, List.count_eq_zero, alignSize_eq_128 hint.1]

theorem wellDefined_default : WellDefined 128#32 [.recordError] :=
  (wellDefined_iff 128#32 (by decide) [.recordError]).mpr (by decide)

/-- With a size of 32 the first call writes outside the container. -/
theorem not_wellDefined_small :
    ¬ ∀ (bitSize : BitVec 32) (calls : List Call), 1 ≤ bitSize.toInt → WellDefined bitSize calls := by
  intro h
  obtain ⟨r, hmake, hnil⟩ := make_small (show 1 ≤ (32#32).toNat by decide) (by decide)
  exact not_wellDefined_of_nil hmake hnil (h 32#32 [.recordError] (by decide))

end Sizes
end QuietFlow.ErrorRate
