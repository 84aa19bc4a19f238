import Mathlib.Algebra.Group.Nat.Defs
import Mathlib.Data.Set.Function
import Mathlib.Order.Disjoint
import Mathlib.Data.Set.Disjoint
import Mathlib.Data.Set.Lattice
import Mathlib.Order.CompletePartialOrder

/-! A memory of bytes and its 64-bit words.

Addresses wrap. A word is eight bytes, least significant first; `span a n` are the `n`
bytes from `a` on. A read depends on the bytes of its span only and a write changes
these only, so what two accesses do to each other is decided by their spans. -/
namespace QuietFlow.Machine

abbrev Word := BitVec 64
abbrev Mem := Word → BitVec 8

def span (a : Word) (n : ℕ) : Set Word := {x | (x - a).toNat < n}

/-- The address `k` bytes further on. -/
def off (a : Word) (k : ℕ) : Word := a + BitVec.ofNat 64 k

def read (m : Mem) (a : Word) : Word :=
  m (off a 7) ++ m (off a 6) ++ m (off a 5) ++ m (off a 4) ++ m (off a 3) ++ m (off a 2) ++
    m (off a 1) ++ m (off a 0)

def write (m : Mem) (a v : Word) : Mem := fun x =>
  if (x - a).toNat < 8 then v.extractLsb' (8 * (x - a).toNat) 8 else m x

/-- `memset(a, 0, n)`. -/
def zero (m : Mem) (a : Word) (n : ℕ) : Mem := fun x => if (x - a).toNat < n then 0 else m x

section Span
variable {a b x : Word} {i j k n : ℕ}

theorem mem_span : x ∈ span a n ↔ (x - a).toNat < n := Iff.rfl

@[simp] theorem off_zero (a : Word) : off a 0 = a := BitVec.add_zero a

theorem off_off (a : Word) (i j : ℕ) : off (off a i) j = off a (i + j) := by
  rw [off, off, off, BitVec.ofNat_add, BitVec.add_assoc]

@[simp] theorem off_sub (a : Word) (k : ℕ) : off a k - BitVec.ofNat 64 k = a := BitVec.add_sub_cancel _ _

theorem off_mem (hk : k < n) (hn : n ≤ 2 ^ 64) : off a k ∈ span a n := by
  have hlt : k < 2 ^ 64 := by omega
  rw [mem_span, off, BitVec.add_comm, BitVec.add_sub_cancel, BitVec.toNat_ofNat, Nat.mod_eq_of_lt hlt]
  exact hk

/-- An address of a span is an offset from its start. -/
theorem off_of_mem (h : x ∈ span a n) : ∃ k < n, x = off a k := by
  refine ⟨(x - a).toNat, h, ?_⟩
  rw [off, BitVec.ofNat_toNat, BitVec.setWidth_eq, BitVec.add_comm, BitVec.sub_add_cancel]

theorem span_subset (hk : k + i ≤ n) (hn : n ≤ 2 ^ 64) : span (off a k) i ⊆ span a n := by
  intro x hx
  obtain ⟨j, hj, rfl⟩ := off_of_mem hx
  rw [off_off]
  exact off_mem (by omega) hn

theorem off_injective (hi : i < 2 ^ 64) (hj : j < 2 ^ 64) (h : off a i = off a j) : i = j := by
  have hofs : BitVec.ofNat 64 i = BitVec.ofNat 64 j := by
    rw [off, off] at h
    exact (BitVec.add_right_inj a).mp h
  have hnat := congrArg BitVec.toNat hofs
  rwa [BitVec.toNat_ofNat, BitVec.toNat_ofNat, Nat.mod_eq_of_lt hi, Nat.mod_eq_of_lt hj] at hnat

/-- Two words of a span that do not overlap. -/
theorem disjoint_off (hij : i + 8 ≤ j ∨ j + 8 ≤ i) (hi : i + 8 ≤ 2 ^ 64) (hj : j + 8 ≤ 2 ^ 64) :
    Disjoint (span (off a i) 8) (span (off a j) 8) := by
  refine Set.disjoint_left.mpr fun x hx hx' => ?_
  obtain ⟨k, hk, rfl⟩ := off_of_mem hx
  obtain ⟨l, hl, he⟩ := off_of_mem hx'
  rw [off_off, off_off] at he
  have := off_injective (by omega) (by omega) he
  omega

/-- Spans that do not wrap, one below the other. -/
theorem disjoint_span (hle : a.toNat + n ≤ b.toNat) (hb : b.toNat + k ≤ 2 ^ 64) :
    Disjoint (span a n) (span b k) := by
  refine Set.disjoint_left.mpr fun x hx hx' => ?_
  rw [mem_span, BitVec.toNat_sub] at hx hx'
  have hxlt := x.isLt
  have halt := a.isLt
  have hblt := b.isLt
  omega

end Span

section Access
variable {m m' : Mem} {a b v x : Word} {n : ℕ} {A : Set Word}

theorem read_congr (h : Set.EqOn m m' (span a 8)) : read m a = read m' a := by
  have hbyte : ∀ k < 8, m (off a k) = m' (off a k) := fun k hk => h (off_mem hk (by decide))
  simp only [read, hbyte _ (by decide : 7 < 8), hbyte _ (by decide : 6 < 8), hbyte _ (by decide : 5 < 8),
    hbyte _ (by decide : 4 < 8), hbyte _ (by decide : 3 < 8), hbyte _ (by decide : 2 < 8),
    hbyte _ (by decide : 1 < 8), hbyte _ (by decide : 0 < 8)]

theorem write_of_notMem (h : x ∉ span a 8) : write m a v x = m x := if_neg h

theorem write_eqOn (h : Disjoint (span a 8) A) : Set.EqOn (write m a v) m A := fun _ hx =>
  write_of_notMem (Set.disjoint_right.mp h hx)

theorem write_off (k : ℕ) (hk : k < 8) : write m a v (off a k) = v.extractLsb' (8 * k) 8 := by
  have hlt : k < 2 ^ 64 := by omega
  have hsub : (off a k - a).toNat = k := by
    rw [off, BitVec.add_comm, BitVec.add_sub_cancel, BitVec.toNat_ofNat, Nat.mod_eq_of_lt hlt]
  rw [write, hsub, if_pos hk]

/-- The bits of a word are those of its bytes. -/
theorem getLsbD_read (m : Mem) (a : Word) {i : ℕ} (hi : i < 64) :
    (read m a).getLsbD i = (m (off a (i / 8))).getLsbD (i % 8) := by
  obtain ⟨k, j, hj, rfl⟩ : ∃ k j, j < 8 ∧ i = 8 * k + j := ⟨i / 8, i % 8, by omega, by omega⟩
  have hk : (8 * k + j) / 8 = k := by omega
  have hmod : (8 * k + j) % 8 = j := by omega
  rw [hk, hmod]
  have hcases : k = 0 ∨ k = 1 ∨ k = 2 ∨ k = 3 ∨ k = 4 ∨ k = 5 ∨ k = 6 ∨ k = 7 := by omega
  rcases hcases with rfl | rfl | rfl | rfl | rfl | rfl | rfl | rfl
  all_goals
    simp only [read, BitVec.getLsbD_append]
    grind

theorem eq_of_bytes {v w : Word}
    (h : ∀ k < 8, v.extractLsb' (8 * k) 8 = w.extractLsb' (8 * k) 8) : v = w := by
  apply BitVec.eq_of_getLsbD_eq
  intro i hi
  have hbit := congrArg (fun b => b.getLsbD (i % 8)) (h (i / 8) (by omega))
  have hmod : i % 8 < 8 := by omega
  simpa [BitVec.getLsbD_extractLsb', hmod, Nat.div_add_mod] using hbit

/-- A byte of a word that is read. -/
theorem extractLsb'_read (m : Mem) (a : Word) {k : ℕ} (hk : k < 8) :
    (read m a).extractLsb' (8 * k) 8 = m (off a k) := by
  apply BitVec.eq_of_getLsbD_eq
  intro j hj
  have hdiv : (8 * k + j) / 8 = k := by omega
  have hmod : (8 * k + j) % 8 = j := by omega
  rw [BitVec.getLsbD_extractLsb', getLsbD_read m a (by omega), hdiv, hmod]
  simp [hj]

@[simp] theorem read_write (m : Mem) (a v : Word) : read (write m a v) a = v :=
  eq_of_bytes fun k hk => by rw [extractLsb'_read _ _ hk, write_off k hk]

theorem read_write_of_disjoint (h : Disjoint (span b 8) (span a 8)) : read (write m b v) a = read m a :=
  read_congr (write_eqOn h)

theorem read_zero (h : span a 8 ⊆ span b n) : read (zero m b n) a = 0 := by
  have hbyte : ∀ k < 8, zero m b n (off a k) = 0 := fun k hk => if_pos (h (off_mem hk (by decide)))
  refine eq_of_bytes fun k hk => ?_
  rw [extractLsb'_read _ _ hk, hbyte k hk]
  simp

theorem zero_eqOn (h : Disjoint (span a n) A) : Set.EqOn (zero m a n) m A := fun _ hx =>
  if_neg (Set.disjoint_right.mp h hx)

/-- Memories that agree somewhere agree there after the same write. -/
theorem write_congr (h : Set.EqOn m m' A) : Set.EqOn (write m a v) (write m' a v) A := fun x hx => by
  rw [write, write, h hx]

/-- Writing back what is there changes nothing. -/
theorem write_read (m : Mem) (a : Word) : write m a (read m a) = m := by
  funext x
  by_cases hx : x ∈ span a 8
  · obtain ⟨k, hk, rfl⟩ := off_of_mem hx
    rw [write_off k hk, extractLsb'_read m a hk]
  · exact write_of_notMem hx

end Access
end QuietFlow.Machine
