import QuietFlow.Machine.Memory
import QuietFlow.Runs.Census

/-! The mappings of a process.

`mmap` returns a region apart from all that are mapped, wherever that is; `munmap` gives one
back. So the mapped regions are pairwise apart, and none is mapped twice: who holds one is
decided by counting. -/
namespace QuietFlow.Machine
open Runs

structure Region where
  start : Word
  size : ℕ
  deriving DecidableEq

namespace Region

def bytes (r : Region) : Set Word := span r.start r.size

/-- At least one byte, and no wrap. -/
def Fits (r : Region) : Prop := 0 < r.size ∧ r.start.toNat + r.size ≤ 2 ^ 64

def Apart (r r' : Region) : Prop :=
  r.start.toNat + r.size ≤ r'.start.toNat ∨ r'.start.toNat + r'.size ≤ r.start.toNat

instance (r : Region) : Decidable r.Fits := inferInstanceAs (Decidable (_ ∧ _))

instance (r r' : Region) : Decidable (r.Apart r') := inferInstanceAs (Decidable (_ ∨ _))

variable {r r' : Region}

instance : Std.Symm Apart := ⟨fun _ _ => Or.symm⟩

theorem Fits.ne_of_apart (hr : r.Fits) (h : r.Apart r') : r ≠ r' := by
  rintro rfl
  have := hr.1
  rcases h with h | h <;> omega

theorem Apart.disjoint (h : r.Apart r') (hr : r.Fits) (hr' : r'.Fits) : Disjoint r.bytes r'.bytes := by
  rcases h with h | h
  · exact disjoint_span h hr'.2
  · exact (disjoint_span h hr.2).symm

end Region

structure Mappings where
  regions : List Region
  fits : ∀ r ∈ regions, r.Fits
  apart : regions.Pairwise Region.Apart

namespace Mappings

def empty : Mappings := ⟨[], fun _ h => absurd h List.not_mem_nil, .nil⟩

/-- The kernel returns `r`, if it can. -/
def mmap (m : Mappings) (r : Region) : Option Mappings :=
  if h : r.Fits ∧ ∀ r' ∈ m.regions, r.Apart r' then
    some ⟨r :: m.regions, List.forall_mem_cons.mpr ⟨h.1, m.fits⟩,
      List.pairwise_cons.mpr ⟨h.2, m.apart⟩⟩
  else
    none

def munmap (m : Mappings) (r : Region) : Mappings where
  regions := m.regions.erase r
  fits r' h := m.fits r' (List.mem_of_mem_erase h)
  apart := m.apart.sublist List.erase_sublist

variable {m m' : Mappings} {r r' : Region}

theorem regions_mmap (h : m.mmap r = some m') : m'.regions = r :: m.regions := by
  unfold mmap at h
  split at h <;> cases h
  rfl

theorem count_mmap (h : m.mmap r = some m') (b : Region) :
    (m'.regions.count b : ℤ) = m.regions.count b + [r].count b := by
  rw [regions_mmap h, ← List.singleton_append, List.count_append]
  push_cast
  exact add_comm _ _

theorem count_munmap (h : r ∈ m.regions) (b : Region) :
    ((m.munmap r).regions.count b : ℤ) = m.regions.count b - [r].count b := by
  rw [count_cons_erase h b]
  exact (add_sub_cancel_left _ _).symm

theorem nodup (m : Mappings) : m.regions.Nodup :=
  m.apart.imp_of_mem fun hr _ h => (m.fits _ hr).ne_of_apart h

/-- Two mapped regions have no byte in common. -/
theorem disjoint (hr : r ∈ m.regions) (hr' : r' ∈ m.regions) (hne : r ≠ r') :
    Disjoint r.bytes r'.bytes :=
  (m.apart.forall hr hr' hne).disjoint (m.fits r hr) (m.fits r' hr')

end Mappings
end QuietFlow.Machine
