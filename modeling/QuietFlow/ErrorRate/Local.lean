import Mathlib.Algebra.Order.Field.Rat
import Mathlib.Data.List.DropRight
import QuietFlow.ErrorRate.Count
import QuietFlow.Queue.Align

/-! `LocalErrorRate`, one call at a time.

A container of `tmp` words is a ring of `64 * tmp` bits. A call writes the bit that `idx` points
at and moves `idx` on. A word index outside the container, of a call or of the loop of
`error_cnt`, is `none`. Sizes up to 32 have no word at all, and `high_bit` is then `-1`, which
as `uint64_t` masks nothing. -/
namespace QuietFlow.ErrorRate
open Align Runs
open FreeLock (word word_toNat word_add)

structure LocalErrorRate where
  idx : BitVec 64
  container : List (BitVec 64)
  bitSize : BitVec 64
  highBit : BitVec 32
  deriving DecidableEq

inductive Call where
  | recordError
  | recordSuccess
  deriving DecidableEq

/-- `low_bit`. -/
def lowBit : BitVec 32 := (1 <<< 6) - 1

/-- `calloc(n, sizeof(std::atomic<uint64_t>))`. Without words where the bytes overflow. -/
def calloc (n : BitVec 64) : List (BitVec 64) :=
  if n.toNat * 8 < 2 ^ 64 then List.replicate n.toNat 0 else []

/-- `LocalErrorRate::LocalErrorRate`. -/
def LocalErrorRate.make (bitSize_ : BitVec 32) : Option LocalErrorRate :=
  (alignSizeInt (bitSize_.signExtend 64)).map fun bitSize =>
    let tmp := (bitSize / 64).setWidth 32
    { idx := 0
      container := calloc (tmp.signExtend 64)
      bitSize := bitSize
      highBit := tmp - 1 }

/-- `idx & low_bit`. -/
def bitIdx (idx : BitVec 64) : ℕ := (idx &&& lowBit.signExtend 64).toNat

/-- `(idx>>6)&high_bit`. -/
def wordIdx (highBit : BitVec 32) (idx : BitVec 64) : ℕ :=
  ((idx >>> 6) &&& highBit.signExtend 64).toNat

namespace Call

/-- The operand of a call. -/
def op : Call → BitVec 64 → BitVec 64
  | recordError, idx => 1#64 <<< bitIdx idx
  | recordSuccess, idx => ~~~(1#64 <<< bitIdx idx)

/-- `fetch_or` or `fetch_and`. -/
def fetch : Call → BitVec 64 → BitVec 64 → BitVec 64
  | recordError, c, op => c ||| op
  | recordSuccess, c, op => c &&& op

/-- The bit a call writes. -/
def outcome (c : Call) : Bool := c = recordError

end Call

namespace LocalErrorRate
variable (r : LocalErrorRate)

def record (c : Call) : Option LocalErrorRate :=
  let op := c.op r.idx
  let w := wordIdx r.highBit r.idx
  if h : w < r.container.length then
    some {r with container := r.container.set w (c.fetch r.container[w] op), idx := r.idx + 1}
  else
    none

def recordError : Option LocalErrorRate := r.record .recordError

def recordSuccess : Option LocalErrorRate := r.record .recordSuccess

/-- The loop of `error_cnt` from word `i` on: the words it visits, and the count. -/
def errorCntFrom (highBit : ℕ) : ℕ → List (BitVec 64) → List ℕ × Option ℕ
  | i, [] => if i ≤ highBit then ([i], none) else ([], some 0)
  | i, c :: rest =>
    if i ≤ highBit then
      let (visited, res) := errorCntFrom highBit (i + 1) rest
      (i :: visited, res.map (countWord c + ·))
    else
      ([], some 0)

def errorCntLoop : List ℕ × Option ℕ := errorCntFrom (r.highBit.signExtend 64).toNat 0 r.container

def visited : List ℕ := r.errorCntLoop.1

def errorCnt : Option ℕ := r.errorCntLoop.2

/-- A count has less than 53 bits, so the division is exact. -/
def get : Option ℚ := r.errorCnt.map fun cnt : ℕ => (cnt : ℚ) / 128

end LocalErrorRate

/-- An object after calls. -/
def record (bitSize_ : BitVec 32) (calls : List Call) : Option LocalErrorRate :=
  (LocalErrorRate.make bitSize_).bind fun r => calls.foldlM LocalErrorRate.record r

/-! ### Indices -/

section Index
variable {j n : ℕ}

theorem pow_dvd (hj : j ≤ 24) : 64 * 2 ^ j ∣ 2 ^ 64 := by
  rw [show 64 * 2 ^ j = 2 ^ (6 + j) by rw [pow_add]; rfl]
  exact Nat.pow_dvd_pow 2 (by omega)

theorem eq_word (x : BitVec 64) : word x.toNat = x := by simp [word]

theorem bitIdx_eq (n : ℕ) : bitIdx (word n) = n % 64 := by
  rw [bitIdx, show lowBit.signExtend 64 = word (2 ^ 6 - 1) by decide, BitVec.toNat_and, word_toNat,
    word_toNat, Nat.mod_eq_of_lt (a := 2 ^ 6 - 1) (by decide), Nat.and_two_pow_sub_one_eq_mod]
  exact Nat.mod_mod_of_dvd _ (by decide)

theorem bitIdx_lt (idx : BitVec 64) : bitIdx idx < 64 := by
  rw [← eq_word idx, bitIdx_eq]
  exact Nat.mod_lt _ (by decide)

theorem wordIdx_eq (hj : j ≤ 24) {highBit : BitVec 32}
    (h : highBit.signExtend 64 = word (2 ^ j - 1)) (n : ℕ) :
    wordIdx highBit (word n) = n % 2 ^ 64 / 64 % 2 ^ j := by
  have hle : 2 ^ j ≤ 2 ^ 24 := Nat.pow_le_pow_right (by decide) hj
  rw [wordIdx, h, BitVec.toNat_and, BitVec.toNat_ushiftRight, word_toNat, word_toNat,
    Nat.mod_eq_of_lt (a := 2 ^ j - 1) (by omega), Nat.and_two_pow_sub_one_eq_mod,
    Nat.shiftRight_eq_div_pow]

theorem wordIdx_lt (hj : j ≤ 24) {highBit : BitVec 32}
    (h : highBit.signExtend 64 = word (2 ^ j - 1)) (idx : BitVec 64) : wordIdx highBit idx < 2 ^ j := by
  rw [← eq_word idx, wordIdx_eq hj h]
  exact Nat.mod_lt _ (Nat.two_pow_pos j)

/-- The bit and the word of an index are one cell of the ring. -/
theorem ringIdx_eq (hj : j ≤ 24) (n : ℕ) :
    64 * (n % 2 ^ 64 / 64 % 2 ^ j) + n % 64 = n % (64 * 2 ^ j) := by
  rw [← Nat.mod_mod_of_dvd n (pow_dvd hj), Nat.mod_mul, Nat.add_comm,
    Nat.mod_mod_of_dvd n (show 64 ∣ 2 ^ 64 by decide)]

end Index

/-! ### The ring of outcomes -/

/-- The last outcomes, one for each cell, with cleared cells before the first call. -/
def recent (n : ℕ) (calls : List Call) : List Bool :=
  (List.replicate n false ++ calls.map Call.outcome).drop calls.length

theorem recent_nil (n : ℕ) : recent n [] = List.replicate n false := by simp [recent]

theorem recent_concat (n : ℕ) (calls : List Call) (c : Call) (hn : 0 < n) :
    recent n (calls ++ [c]) = (recent n calls).tail ++ [c.outcome] := by
  have hle : calls.length + 1 ≤ (List.replicate n false ++ calls.map Call.outcome).length := by
    simp only [List.length_append, List.length_replicate, List.length_map]
    omega
  rw [recent, recent, List.tail_drop, List.map_append, List.map_singleton, ← List.append_assoc,
    List.length_append, List.length_singleton, List.drop_append_of_le_length hle]

/-- What a full ring counts are the errors of the last calls. -/
theorem countP_recent (n : ℕ) (calls : List Call) :
    (recent n calls).countP id = (calls.rtake n).count .recordError := by
  have hcount : ∀ l : List Call, (l.map Call.outcome).countP id = l.count .recordError := by
    intro l
    rw [List.countP_map, List.count]
    refine List.countP_congr fun c _ => ?_
    cases c <;> decide
  rw [recent, List.drop_append, List.countP_append, List.length_replicate, List.drop_replicate,
    List.countP_replicate, ← List.map_drop, hcount, List.rtake]
  simp

section Records
variable {j : ℕ} {calls : List Call} {r : LocalErrorRate}

/-- An object of `2 ^ j` words after `calls`: each cell holds the outcome of the last call of
its round. -/
structure Records (j : ℕ) (calls : List Call) (r : LocalErrorRate) : Prop where
  idx : r.idx = word calls.length
  length : r.container.length = 2 ^ j
  highBit : r.highBit.signExtend 64 = word (2 ^ j - 1)
  bitSize : r.bitSize = word (64 * 2 ^ j)
  window : window (cell r.container) (64 * 2 ^ j) calls.length (64 * 2 ^ j) =
    recent (64 * 2 ^ j) calls

theorem cells_pos (j : ℕ) : 0 < 64 * 2 ^ j := Nat.mul_pos (by decide) (Nat.two_pow_pos j)

/-- The operation of a call writes its outcome. -/
theorem cell_fetch {container : List (BitVec 64)} {w : ℕ} (c : Call) (hw : w < container.length)
    (idx : BitVec 64) : cell (container.set w (c.fetch container[w] (c.op idx))) =
      Function.update (cell container) (64 * w + bitIdx idx) c.outcome := by
  have hb := bitIdx_lt idx
  cases c with
  | recordError => rw [Call.fetch, Call.op, cell_or hw hb]; rfl
  | recordSuccess => rw [Call.fetch, Call.op, cell_and hw hb]; rfl

theorem record_eq {c : Call} (h : wordIdx r.highBit r.idx < r.container.length) :
    r.record c = some {r with
      container := r.container.set (wordIdx r.highBit r.idx)
        (c.fetch r.container[wordIdx r.highBit r.idx] (c.op r.idx))
      idx := r.idx + 1} := by
  simp only [LocalErrorRate.record, h, dif_pos]

theorem record_records (hj : j ≤ 24) (h : Records j calls r) (c : Call) :
    ∃ r', r.record c = some r' ∧ Records j (calls ++ [c]) r' := by
  have hword : wordIdx r.highBit r.idx < r.container.length := by
    rw [h.length]
    exact wordIdx_lt hj h.highBit r.idx
  refine ⟨_, record_eq hword, ?_, ?_, h.highBit, h.bitSize, ?_⟩
  · simp only [h.idx, List.length_append, List.length_singleton, word_add, show word 1 = 1 from rfl]
  · rw [List.length_set, h.length]
  · simp only [h.idx] at hword ⊢
    simp only [cell_fetch c hword]
    rw [wordIdx_eq hj h.highBit, bitIdx_eq, ringIdx_eq hj, List.length_append, List.length_singleton,
      window_turn (cells_pos j), h.window, recent_concat _ _ _ (cells_pos j)]

theorem foldlM_records (hj : j ≤ 24) (h : Records j calls r) (more : List Call) :
    ∃ r', more.foldlM LocalErrorRate.record r = some r' ∧ Records j (calls ++ more) r' := by
  induction more generalizing calls r with
  | nil => exact ⟨r, rfl, by rwa [List.append_nil]⟩
  | cons c rest ih =>
    obtain ⟨r₁, hr₁, h₁⟩ := record_records hj h c
    obtain ⟨r', hr', h'⟩ := ih h₁
    refine ⟨r', ?_, by simpa using h'⟩
    rw [List.foldlM_cons, hr₁]
    exact hr'

/-- The loop visits the words from `i` to `high_bit`, when these are the words there are. -/
theorem errorCntFrom_eq (highBit i : ℕ) (words : List (BitVec 64)) (h : i + words.length = highBit + 1) :
    LocalErrorRate.errorCntFrom highBit i words =
      (List.range' i words.length, some (words.map countWord).sum) := by
  induction words generalizing i with
  | nil =>
    rw [List.length_nil] at h
    rw [LocalErrorRate.errorCntFrom, if_neg (by omega)]
    rfl
  | cons c rest ih =>
    rw [List.length_cons] at h
    rw [LocalErrorRate.errorCntFrom, if_pos (by omega), ih (i + 1) (by omega), List.length_cons,
      List.range'_succ, List.map_cons, List.sum_cons]
    rfl

/-- `error_cnt` visits every word of the container and counts every cell. -/
theorem errorCntLoop_eq (hj : j ≤ 24) (hlength : r.container.length = 2 ^ j)
    (hhigh : r.highBit.signExtend 64 = word (2 ^ j - 1)) :
    r.errorCntLoop =
      (List.range r.container.length, some (ones (cell r.container) (64 * 2 ^ j))) := by
  have hle : 2 ^ j ≤ 2 ^ 24 := Nat.pow_le_pow_right (by decide) hj
  have hpos : 0 < 2 ^ j := Nat.two_pow_pos j
  have hbound : (r.highBit.signExtend 64).toNat = 2 ^ j - 1 := by
    rw [hhigh, word_toNat]
    exact Nat.mod_eq_of_lt (by omega)
  rw [LocalErrorRate.errorCntLoop, hbound, errorCntFrom_eq _ _ _ (by omega), countWords_eq, hlength,
    List.range_eq_range']

theorem loop_eq (hj : j ≤ 24) (h : Records j calls r) :
    r.errorCntLoop = (List.range r.container.length,
      some ((calls.rtake (64 * 2 ^ j)).count .recordError)) := by
  rw [errorCntLoop_eq hj h.length h.highBit, ones, ← countP_recent, ← h.window,
    (window_perm (cells_pos j)).countP_eq, List.countP_map]
  rfl

theorem toNat_signExtend {x : BitVec 32} (h : x.toNat < 2 ^ 31) : (x.signExtend 64).toNat = x.toNat := by
  have hmsb : x.msb = false := by
    rw [BitVec.msb_eq_decide, decide_eq_false_iff_not]
    omega
  rw [BitVec.signExtend_eq_setWidth_of_msb_false hmsb, BitVec.toNat_setWidth]
  exact Nat.mod_eq_of_lt (by omega)

/-- From 33 on the window is a whole number of words. -/
theorem alignSize_words {n : ℕ} (h : 33 ≤ n) (h' : n ≤ 2 ^ 30) :
    ∃ j ≤ 24, alignSize n = 64 * 2 ^ j := by
  obtain ⟨k, hk, hpow⟩ := alignSize_pow_le (by omega) h'
  have hle : n ≤ 2 ^ k := by
    rw [← hpow]
    exact (isLeast_alignSize (by omega)).1.2
  have hk' : 6 ≤ k := by
    by_contra hlt
    have : 2 ^ k ≤ 2 ^ 5 := Nat.pow_le_pow_right (by decide) (by omega)
    omega
  exact ⟨k - 6, by omega, by rw [hpow, show 64 = 2 ^ 6 from rfl, ← pow_add, Nat.add_sub_cancel' hk']⟩

/-- An object of `2 ^ j` words before its first call. -/
def fresh (j : ℕ) : LocalErrorRate where
  idx := 0
  container := List.replicate (2 ^ j) 0
  bitSize := word (64 * 2 ^ j)
  highBit := BitVec.ofNat 32 (2 ^ j - 1)

theorem make_eq {bitSize : BitVec 32} (h : 33 ≤ bitSize.toNat) (h' : bitSize.toNat ≤ 2 ^ 30) :
    ∃ j ≤ 24, alignSize bitSize.toNat = 64 * 2 ^ j ∧ LocalErrorRate.make bitSize = some (fresh j) := by
  have hext : (bitSize.signExtend 64).toNat = bitSize.toNat := toNat_signExtend (by omega)
  obtain ⟨-, halign⟩ := alignSizeInt_eq (by rw [hext]; omega) (hext.le.trans h')
  obtain ⟨j, hj, hpow⟩ := alignSize_words h h'
  have hle : 2 ^ j ≤ 2 ^ 24 := Nat.pow_le_pow_right (by decide) hj
  have hpos : 0 < 2 ^ j := Nat.two_pow_pos j
  have htmp : (word (64 * 2 ^ j) / 64).setWidth 32 = BitVec.ofNat 32 (2 ^ j) := by
    apply BitVec.eq_of_toNat_eq
    rw [BitVec.toNat_setWidth, BitVec.toNat_udiv, word_toNat, BitVec.toNat_ofNat]
    change 64 * 2 ^ j % 2 ^ 64 / 64 % 2 ^ 32 = 2 ^ j % 2 ^ 32
    omega
  have hwords : ((BitVec.ofNat 32 (2 ^ j)).signExtend 64).toNat = 2 ^ j := by
    rw [toNat_signExtend] <;> rw [BitVec.toNat_ofNat, Nat.mod_eq_of_lt (by omega)]
    omega
  have hhigh : BitVec.ofNat 32 (2 ^ j) - 1 = BitVec.ofNat 32 (2 ^ j - 1) := by
    conv_lhs => rw [← Nat.sub_add_cancel hpos, BitVec.ofNat_add]
    exact BitVec.add_sub_cancel _ _
  refine ⟨j, hj, hpow, ?_⟩
  rw [hext, hpow] at halign
  rw [LocalErrorRate.make, halign, Option.map_some]
  simp only [htmp, hhigh, calloc, hwords, if_pos (show 2 ^ j * 8 < 2 ^ 64 by omega), fresh]

theorem cell_fresh (j : ℕ) : cell (fresh j).container = fun _ => false := by
  funext p
  rw [cell, fresh, List.getD_eq_getElem?_getD, List.getElem?_replicate]
  split <;> simp

theorem records_fresh (hj : j ≤ 24) : Records j [] (fresh j) := by
  have hle : 2 ^ j ≤ 2 ^ 24 := Nat.pow_le_pow_right (by decide) hj
  have hhigh : (BitVec.ofNat 32 (2 ^ j - 1)).toNat = 2 ^ j - 1 := by
    rw [BitVec.toNat_ofNat]
    exact Nat.mod_eq_of_lt (by omega)
  refine ⟨rfl, List.length_replicate, ?_, rfl, ?_⟩
  · apply BitVec.eq_of_toNat_eq
    simp only [fresh]
    rw [toNat_signExtend (by omega), hhigh, word_toNat, Nat.mod_eq_of_lt (by omega)]
  · rw [recent_nil, cell_fresh, window_const]

/-- **The count is of the errors of the last window**, for every size from 33 to `2^30` and every
sequence of calls. -/
theorem errorCnt_eq (bitSize : BitVec 32) (h : 33 ≤ bitSize.toNat) (h' : bitSize.toNat ≤ 2 ^ 30)
    (calls : List Call) :
    ∃ r, record bitSize calls = some r ∧
      r.errorCnt = some ((calls.rtake (alignSize bitSize.toNat)).count .recordError) := by
  obtain ⟨j, hj, hpow, hmake⟩ := make_eq h h'
  obtain ⟨r, hr, hrecords⟩ := foldlM_records hj (records_fresh hj) calls
  refine ⟨r, by rw [record, hmake]; exact hr, ?_⟩
  rw [LocalErrorRate.errorCnt, loop_eq hj hrecords, hpow]
  rfl

/-- An error and a success, in a window of 64 calls. -/
theorem errorCnt_one : ∃ r, record 33#32 [.recordError, .recordSuccess] = some r ∧
    r.errorCnt = some 1 := by
  obtain ⟨r, hr, hcnt⟩ :=
    errorCnt_eq 33#32 (by decide) (by decide) [.recordError, .recordSuccess]
  exact ⟨r, hr, hcnt⟩

end Records
end QuietFlow.ErrorRate
