import Mathlib.Data.Finset.Card
import Mathlib.Data.Finset.Max
import Mathlib.Data.Finset.Range

/-! Admission by numbered attempts.

Processes take attempt numbers `0, 1, 2, …` from a shared counter; each attempt is
later admitted or lost, and a lost attempt is counted in a second shared counter
so that later attempts are not charged for it. An attempt `n` that read the count
`m` of lost attempts before it took its number is admitted when `n < limit + m`.
Because the `m` lost attempts all carry numbers below `n`, at most `limit` attempts
are ever admitted (`card_admitted_le`), whatever the order in which the counters
are read and repaired. An admitted attempt is `drawn` once it has also taken its
ticket from the third counter. -/
namespace QuietFlow.Runs

/-- What became of the attempts so far. -/
structure Ledger where
  attempts : ℕ
  admitted : Finset ℕ
  drawn : Finset ℕ
  lost : Finset ℕ

namespace Ledger
variable {L : Ledger} {limit n m : ℕ}

/-- The lost attempts with a number below `n`. -/
def lostBelow (L : Ledger) (n : ℕ) : ℕ := (L.lost.filter (· < n)).card

/-- Neither admitted nor lost. -/
def Open (L : Ledger) (n : ℕ) : Prop := n < L.attempts ∧ n ∉ L.admitted ∧ n ∉ L.lost

structure Sound (L : Ledger) (limit : ℕ) : Prop where
  admitted_lt : ∀ n ∈ L.admitted, n < L.attempts
  lost_lt : ∀ n ∈ L.lost, n < L.attempts
  apart : Disjoint L.admitted L.lost
  drawn_sub : L.drawn ⊆ L.admitted
  within : ∀ n ∈ L.admitted, n < limit + L.lostBelow n

def empty : Ledger := ⟨0, ∅, ∅, ∅⟩
def attempt (L : Ledger) : Ledger := {L with attempts := L.attempts + 1}
def accept (L : Ledger) (n : ℕ) : Ledger := {L with admitted := insert n L.admitted}
def draw (L : Ledger) (n : ℕ) : Ledger := {L with drawn := insert n L.drawn}
def lose (L : Ledger) (n : ℕ) : Ledger := {L with lost := insert n L.lost}

theorem sound_empty (limit : ℕ) : empty.Sound limit := by
  constructor <;> simp [empty]

theorem Sound.mono {limit' : ℕ} (h : L.Sound limit) (hle : limit ≤ limit') : L.Sound limit' :=
  {h with within := fun n hn => Nat.lt_of_lt_of_le (h.within n hn) (Nat.add_le_add_right hle _)}

theorem Sound.attempt (h : L.Sound limit) : L.attempt.Sound limit :=
  {h with
    admitted_lt := fun n hn => Nat.lt_succ_of_lt (h.admitted_lt n hn)
    lost_lt := fun n hn => Nat.lt_succ_of_lt (h.lost_lt n hn)}

theorem Sound.accept (h : L.Sound limit) (hn : L.Open n) (hlim : n < limit + L.lostBelow n) :
    (L.accept n).Sound limit where
  admitted_lt := by
    intro k hk
    rcases Finset.mem_insert.mp hk with rfl | hk
    · exact hn.1
    · exact h.admitted_lt k hk
  lost_lt := h.lost_lt
  apart := Finset.disjoint_insert_left.mpr ⟨hn.2.2, h.apart⟩
  drawn_sub := h.drawn_sub.trans (Finset.subset_insert _ _)
  within := by
    intro k hk
    rcases Finset.mem_insert.mp hk with rfl | hk
    · exact hlim
    · exact h.within k hk

theorem Sound.draw (h : L.Sound limit) (hn : n ∈ L.admitted) : (L.draw n).Sound limit :=
  {h with drawn_sub := Finset.insert_subset hn h.drawn_sub}

theorem lostBelow_lose_le (L : Ledger) (n k : ℕ) : L.lostBelow k ≤ (L.lose n).lostBelow k :=
  Finset.card_le_card (Finset.filter_subset_filter _ (Finset.subset_insert _ _))

theorem Sound.lose (h : L.Sound limit) (hn : L.Open n) : (L.lose n).Sound limit where
  admitted_lt := h.admitted_lt
  lost_lt := by
    intro k hk
    rcases Finset.mem_insert.mp hk with rfl | hk
    · exact hn.1
    · exact h.lost_lt k hk
  apart := Finset.disjoint_insert_right.mpr ⟨hn.2.1, h.apart⟩
  drawn_sub := h.drawn_sub
  within := fun k hk => Nat.lt_of_lt_of_le (h.within k hk)
    (Nat.add_le_add_left (lostBelow_lose_le L n k) _)

/-- A number taken now is above every lost attempt. -/
theorem Sound.lostBelow_attempts (h : L.Sound limit) : L.lostBelow L.attempts = L.lost.card := by
  rw [lostBelow, Finset.filter_true_of_mem h.lost_lt]

/-- **At most `limit` attempts are admitted.** The admitted attempt with the highest
number is itself within the limit, and all others lie below it, apart from the
lost ones it was not charged for. -/
theorem Sound.card_admitted_le (h : L.Sound limit) : L.admitted.card ≤ limit := by
  rcases L.admitted.eq_empty_or_nonempty with hnone | hsome
  · simp [hnone]
  · have htop := h.within _ (L.admitted.max'_mem hsome)
    generalize hk : L.admitted.max' hsome = k at htop
    have hsub : L.admitted ∪ L.lost.filter (· < k) ⊆ Finset.range (k + 1) := by
      intro n hn
      rcases Finset.mem_union.mp hn with hn | hn
      · have := L.admitted.le_max' n hn
        simp only [Finset.mem_range]
        omega
      · have := (Finset.mem_filter.mp hn).2
        simp only [Finset.mem_range]
        omega
    have hcard := Finset.card_le_card hsub
    rw [Finset.card_union_of_disjoint (h.apart.mono_right (Finset.filter_subset _ _)),
      Finset.card_range] at hcard
    simp only [lostBelow] at htop
    omega

theorem Sound.card_drawn_le (h : L.Sound limit) : L.drawn.card ≤ limit :=
  (Finset.card_le_card h.drawn_sub).trans h.card_admitted_le

/-- Drawn and lost attempts are distinct attempts. -/
theorem Sound.drawn_add_lost_le (h : L.Sound limit) : L.drawn.card + L.lost.card ≤ L.attempts := by
  rw [← Finset.card_union_of_disjoint (h.apart.mono_left h.drawn_sub)]
  have hsub : L.drawn ∪ L.lost ⊆ Finset.range L.attempts := by
    intro n hn
    rcases Finset.mem_union.mp hn with hn | hn
    · exact Finset.mem_range.mpr (h.admitted_lt n (h.drawn_sub hn))
    · exact Finset.mem_range.mpr (h.lost_lt n hn)
  simpa using Finset.card_le_card hsub

end Ledger
end QuietFlow.Runs
