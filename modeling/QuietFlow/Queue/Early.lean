import QuietFlow.Graph.Util
import QuietFlow.Queue.Handover

/-! A dequeue that comes early.

A read ticket is drawn as soon as the write ticket is, and its call waits for the version that
the enqueue stores. The versions of one slot are `t - capacity + 1`, `t` and `t + 1`; with one
slot the first two are the same, and the dequeue does not wait. With two slots or more the
versions are told apart, unless one call stalls while `2^32` tickets pass its slot. -/
namespace QuietFlow.FreeLock
open Runs

/-- `LimitQueue::LimitQueue(size)`. -/
def limitQueue (size : ℕ) (T α : Type) [DecidableEq T] : System (State T α) (Action T α) :=
  queue (word (alignSize size)) T α

theorem alignSize_pow {size : ℕ} (h : 2 ≤ size) (h' : size < 2 ^ 15) :
    ∃ k, 1 ≤ k ∧ k ≤ 15 ∧ alignSize size = 2 ^ k := by
  have hlo : 1 ≤ Nat.log2 size := (Nat.le_log2 (by omega)).mpr h
  have hhi : Nat.log2 size < 15 := (Nat.log2_lt (by omega)).mpr h'
  simp only [alignSize, Nat.one_shiftLeft]
  split
  · next hsize => exact ⟨Nat.log2 size, hlo, hhi.le, hsize.symm⟩
  · exact ⟨Nat.log2 size + 1, by omega, hhi, rfl⟩

section Run
variable {T α : Type} [DecidableEq T] {size k : ℕ} {s s' : State T α}

/-- The calls of a side that hold tickets of one slot are less than `2^32` tickets apart. -/
def Abreast (capacity : ℕ) (s : State T α) : Prop :=
  ∀ t t' side n m, (s.pc t).holds = some (side, n) → (s.pc t').holds = some (side, m) →
    m % capacity = n % capacity → n < m + 2 ^ 32

omit [DecidableEq T] in
/-- The next ticket of a slot is held by a call, which waits abreast. -/
theorem near_of_abreast {r : Turns} (hturn : InTurn (2 ^ k) s r) (hab : Abreast (2 ^ k) s) {t : T}
    {side : Side} {n : ℕ} (ht : (s.pc t).holds = some (side, n))
    (hside : side = .read ∨ r.full (n % 2 ^ k) = false) :
    n < r.turn (2 ^ k) (n % 2 ^ k) + 2 ^ 32 := by
  have hc : 0 < 2 ^ k := Nat.two_pow_pos k
  obtain ⟨hlt, hnot⟩ := hturn.mine t side n ht
  have hmod : r.turn (2 ^ k) (n % 2 ^ k) % 2 ^ k = n % 2 ^ k := by simp [Turns.turn]
  have hdiv : r.turn (2 ^ k) (n % 2 ^ k) / 2 ^ k = r.round (n % 2 ^ k) := by
    rw [Turns.turn, Nat.add_mul_div_right _ _ hc, Nat.div_eq_of_lt (Nat.mod_lt _ hc), Nat.zero_add]
  have hle : r.turn (2 ^ k) (n % 2 ^ k) ≤ n := by
    have hround : r.round (n % 2 ^ k) ≤ n / 2 ^ k := by
      cases side <;> simp only [Turns.Done] at hnot <;> omega
    have hn := Nat.mod_add_div' n (2 ^ k)
    have hmul := Nat.mul_le_mul_right (2 ^ k) hround
    simp only [Turns.turn]
    omega
  have hopen : ¬ r.Done (2 ^ k) side (r.turn (2 ^ k) (n % 2 ^ k)) := by
    cases side with
    | read => simp [Turns.Done, hmod, hdiv]
    | write => simpa [Turns.Done, hmod, hdiv] using hside.resolve_left (by simp)
  rcases hturn.held side _ (hle.trans_lt hlt) with hd | ⟨t', ht'⟩
  · exact absurd hd hopen
  · exact hab t t' side n _ ht ht' hmod

/-- What a dequeue relies on at its slot. -/
structure Prepared (capacity : ℕ) (s : State T α) : Prop where
  stored : ∀ t n, s.pc t = .take n →
    ∃ x, (n, x) ∈ s.stored ∧ s.vec (slot (word capacity) n) = some x
  /-- `QuietFlowAssert(*item != nullptr)` never fires. -/
  safe : ∀ t n, s.pc t ≠ .failed n

/-- **A slot is read only after the enqueue of its ticket has stored the item**, in a queue with
two slots or more whose calls stay abreast. -/
theorem prepared_of_abreast (hsize : 2 ≤ size) (hsize' : size < 2 ^ 15)
    (h : (limitQueue size T α).ReachedBy (fun s _ _ => Abreast (alignSize size) s) s) :
    Prepared (alignSize size) s := by
  obtain ⟨k, hk, hk', hpow⟩ := alignSize_pow hsize hsize'
  rw [hpow] at h ⊢
  have hhand : Handover (2 ^ k) s := by
    rw [limitQueue, hpow] at h
    refine h.induct (I := Handover (2 ^ k)) (.start k) fun s a s' _ hhand hs hab => ?_
    cases a with
    | call t op => exact hhand.call hs
    | step t =>
      exact hhand.advance (fun r hturn side n ht => near_of_abreast hturn hab ht) hk (by omega) hs
  obtain ⟨r, hturn, hcont⟩ := hhand
  refine ⟨fun t n ht => ?_, hcont.safe⟩
  have hat := hturn.turn t .read n (by rw [ht]; rfl)
  obtain ⟨x, hvec, hx⟩ := hcont.loaded hturn (by omega) (t := t) hat (by rw [ht]; rfl) (by rw [ht]; nofun)
  exact ⟨x, hx, hvec⟩

end Run

/-- Early tickets are close to each other. -/
def Low {T α : Type} (s : State T α) : Prop := ∀ t, (s.pc t).holds.all fun x => decide (x.2 < 2 ^ 32)

instance {T α : Type} [Fintype T] (s : State T α) : Decidable (Low s) :=
  inferInstanceAs (Decidable (∀ _, _))

theorem abreast_of_low {T α : Type} {capacity : ℕ} {s : State T α} (h : Low s) : Abreast capacity s := by
  intro t _ side n m ht _ _
  have hlow := h t
  rw [ht] at hlow
  have hlt : n < 2 ^ 32 := of_decide_eq_true hlow
  omega

theorem prepared_roundTrip : ∃ s : State Unit ℕ, s.returned = [(0, 7)] ∧ Prepared (alignSize 2) s := by
  obtain ⟨s, hreach, hreturned⟩ := System.exists_reachedBy (limitQueue 2 Unit ℕ)
    (fun s _ _ => Low s) (roundTrip 7) (fun s => s.returned = [(0, 7)]) (by decide)
  exact ⟨s, hreturned, prepared_of_abreast (by decide) (by decide)
    (hreach.mono fun _ _ _ _ _ h => abreast_of_low h)⟩

/-- With one slot, a dequeue overtakes the enqueue of its ticket. -/
theorem unprepared_of_one : ¬ ∀ size, 1 ≤ size → size < 2 ^ 15 → ∀ s : State (Fin 2) ℕ,
    (limitQueue size (Fin 2) ℕ).Reached s → ∀ t n, s.pc t ≠ .failed n := by
  intro h
  obtain ⟨s, hreach, hfailed⟩ := System.exists_reachedBy (limitQueue 1 (Fin 2) ℕ) (fun _ _ _ => True)
    (.call 0 (.enqueue 7) :: List.replicate 6 (.step 0) ++ .call 1 .dequeue :: List.replicate 8 (.step 1))
    (fun s => s.pc 1 = .failed 0) (by decide)
  exact h 1 le_rfl (by decide) s hreach 1 0 hfailed

end QuietFlow.FreeLock
