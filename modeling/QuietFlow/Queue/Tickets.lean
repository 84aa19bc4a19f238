import QuietFlow.Queue.Attempts

/-! What a step does with the tickets.

A ticket is kept from the step that draws it to the wake-up at the end of its call (`Pc.drawn`). The
items are numbered by the tickets of their enqueues, so those between the tickets of the two sides
are the items in the queue (`State.queued`): a step that draws a ticket adds one at the end or
takes one from the front, and every other step leaves them alone (`Draws`). -/
namespace QuietFlow.FreeLock

section Pc
variable {α : Type}

/-- What a call adds to the queue. -/
def Op.items : Op α → List α
  | .dequeue => []
  | .enqueue item => [item]

/-- The ticket of a call, until it returns. -/
def Pc.drawn : Pc α → Option (Side × ℕ)
  | .spin op n _ _ | .asleep op n _ => some (op.side, n)
  | .take n | .clear n _ | .failed n => some (.read, n)
  | .put n _ => some (.write, n)
  | .store side n _ | .wake side n _ => some (side, n)
  | _ => none

@[simp] theorem woken_drawn (p : Pc α) : p.woken.drawn = p.drawn := by cases p <;> rfl

end Pc

variable {T α : Type}

/-- The items whose write tickets are drawn and whose read tickets are not. -/
def State.queued (s : State T α) : List α := s.written.drop (s.cursor .read).claimed

variable [DecidableEq T]

/-- What the step of a call does with the tickets and with its place. -/
inductive Draws (s : State T α) (t : T) (s' : State T α) : Prop where
  | draw {op a} : s.pc t = .ticket op a → (s'.pc t).drawn = some (op.side, (s.cursor op.side).claimed) →
    (s'.pc t).view.tests = none → s' = (((s.setCursor op.side
      {s.cursor op.side with claimed := (s.cursor op.side).claimed + 1}).drawn op
        (s.cursor op.side).claimed).setPc t (s'.pc t)) → Draws s t s'
  | keep : s'.written = s.written → (∀ side, (s'.cursor side).claimed = (s.cursor side).claimed) →
    s'.pc t ≠ .idle → (s'.pc t).drawn = (s.pc t).drawn →
    (s'.pc t).view.tests = (s.pc t).view.tests → Draws s t s'
  | back : s'.written = s.written → (∀ side, (s'.cursor side).claimed = (s.cursor side).claimed) →
    s'.pc t = .idle → ((s.pc t).drawn = none ∨ ∃ side n x, s.pc t = .wake side n x) → Draws s t s'

variable {capacity : BitVec 64} {s s' : State T α} {t t' : T}

/-- A step of a call that stays in it. -/
theorem Draws.move (p : Pc α) (hpc : s'.pc t = p) (hwritten : s'.written = s.written)
    (hclaimed : ∀ side, (s'.cursor side).claimed = (s.cursor side).claimed) (hp : p ≠ .idle)
    (hdrawn : p.drawn = (s.pc t).drawn) (htests : p.view.tests = (s.pc t).view.tests) : Draws s t s' :=
  .keep hwritten hclaimed (by rw [hpc]; exact hp) (by rw [hpc]; exact hdrawn) (by rw [hpc]; exact htests)

theorem draws_of_advance (h : advance capacity s t = some s') : Draws s t s' := by
  have hself : ∀ p, Function.update s.pc t p t = p := fun p => Function.update_self ..
  cases hpc : s.pc t with
  | idle | asleep op n cur | failed n => simp [advance, hpc] at h
  | bound op | missed op b =>
    simp only [advance, hpc, Option.some.injEq] at h
    subst h
    exact .move _ (hself _) rfl (fun _ => rfl) (by simp) (by rw [hpc]; rfl) (by rw [hpc]; rfl)
  | ahead op b m =>
    simp only [advance, hpc] at h
    split at h <;> cases h
    · exact .back rfl (fun _ => rfl) (hself _) (.inl (by rw [hpc]; rfl))
    · exact .move _ (hself _) rfl (fun _ => rfl) (by simp) (by rw [hpc]; rfl) (by rw [hpc]; rfl)
  | claim op m =>
    simp only [advance, hpc, Option.some.injEq] at h
    subst h
    exact .move _ (hself _) rfl (fun side => by cases side <;> cases op <;> rfl) (by simp)
      (by rw [hpc]; rfl) (by rw [hpc]; rfl)
  | retest op m a =>
    simp only [advance, hpc] at h
    split at h <;> cases h <;>
      exact .move _ (hself _) rfl (fun _ => rfl) (by simp) (by rw [hpc]; rfl) (by rw [hpc]; rfl)
  | miss op a =>
    simp only [advance, hpc, Option.some.injEq] at h
    subst h
    exact .back rfl (fun side => by cases side <;> cases op <;> rfl) (hself _) (.inl (by rw [hpc]; rfl))
  | ticket op a =>
    simp only [advance, hpc, Option.some.injEq] at h
    subst h
    refine .draw hpc ?_ ?_ ?_ <;> simp [State.setPc, Pc.drawn, Pc.view, View.tests]
  | spin op n i cur =>
    cases i with
    | zero =>
      simp only [advance, hpc, futexWait, Option.some.injEq] at h
      subst h
      split <;> exact .move _ (hself _) rfl (fun _ => rfl) (by simp) (by rw [hpc]; rfl) (by rw [hpc]; rfl)
    | succ i =>
      simp only [advance, hpc] at h
      split at h <;> cases h
      · cases op <;> exact .move _ (hself _) rfl (fun _ => rfl) (by simp [Op.begin]) (by rw [hpc]; rfl)
          (by rw [hpc]; rfl)
      · exact .move _ (hself _) rfl (fun _ => rfl) (by simp) (by rw [hpc]; rfl) (by rw [hpc]; rfl)
  | take n =>
    simp only [advance, hpc] at h
    split at h <;> cases h <;>
      exact .move _ (hself _) rfl (fun _ => rfl) (by simp) (by rw [hpc]; rfl) (by rw [hpc]; rfl)
  | clear n x | put n x | store side n x =>
    simp only [advance, hpc, Option.some.injEq] at h
    subst h
    exact .move _ (hself _) rfl (fun _ => rfl) (by simp) (by rw [hpc]; rfl) (by rw [hpc]; rfl)
  | wake side n x =>
    simp only [advance, hpc, Option.some.injEq] at h
    subst h
    refine .back ?_ (fun side => by simp [State.setPc]) (Function.update_self ..) (.inr ⟨side, n, x, hpc⟩)
    simp only [State.setPc, futexWake]
    split <;> rfl

/-! ### The items in the queue -/

omit [DecidableEq T] in
theorem queued_append {x : α} (hle : (s.cursor .read).claimed ≤ s.written.length)
    (hwritten : s'.written = s.written ++ [x])
    (hread : (s'.cursor .read).claimed = (s.cursor .read).claimed) : s'.queued = s.queued ++ [x] := by
  rw [State.queued, hwritten, hread, List.drop_append_of_le_length hle, State.queued]

omit [DecidableEq T] in
theorem queued_cons {x : α} (hx : s.written[(s.cursor .read).claimed]? = some x)
    (hwritten : s'.written = s.written)
    (hread : (s'.cursor .read).claimed = (s.cursor .read).claimed + 1) : s.queued = x :: s'.queued := by
  obtain ⟨hlt, hget⟩ := List.getElem?_eq_some_iff.mp hx
  rw [State.queued, List.drop_eq_getElem_cons hlt, hget, State.queued, hwritten, hread]

/-- Tickets and items of a queue with `capacity` slots agree. -/
structure Lined (capacity : ℕ) (s : State T α) : Prop where
  length : s.written.length = (s.cursor .write).claimed
  read_le : (s.cursor .read).claimed ≤ (s.cursor .write).claimed
  write_le : (s.cursor .write).claimed ≤ (s.cursor .read).claimed + capacity
  /-- A dequeue returns the item of its ticket. -/
  item : ∀ t n, (s.pc t).drawn = some (.read, n) →
    ∃ x, s.written[n]? = some x ∧ ∀ y, s.pc t = .wake .read n y → y = x

namespace Lined
variable {c k : ℕ}

omit [DecidableEq T] in
theorem queued_length (h : Lined c s) :
    (s.queued.length : ℤ) = (s.cursor .write).claimed - (s.cursor .read).claimed := by
  have hle := h.read_le
  rw [State.queued, List.length_drop, h.length]
  omega

theorem of_bounded (hk : 1 ≤ k) (hk' : k ≤ 63)
    (h : (queue (word (2 ^ k)) T α).ReachedBy (fun _ _ s' => Bounded s') s) : Lined (2 ^ k) s := by
  obtain ⟨-, hadm, ⟨r, hturn, hcont⟩, -⟩ := bounded_invariant hk hk' h
  have hle := hadm.read_le_write
  refine ⟨hcont.length, hle, hadm.write_le_read, fun t n hdrawn => ?_⟩
  have hheld : (s.pc t).holds = some (.read, n) →
      ∃ x, s.written[n]? = some x ∧ ∀ y, s.pc t = .wake .read n y → y = x := fun hn => by
    have hlt := (hturn.mine t .read n hn).1
    have hget := List.getElem?_eq_getElem (show n < s.written.length by rw [hcont.length]; omega)
    refine ⟨_, hget, fun y hy => ?_⟩
    rw [hy] at hn
    cases hn
  cases hpc : s.pc t with
  | wake side m x =>
    rw [hpc] at hdrawn
    cases hdrawn
    exact ⟨x, hcont.item t n x (by rw [hpc]; rfl), fun y hy => by cases hy; rfl⟩
  | failed m => exact absurd hpc (hcont.safe t m)
  | spin op m i cur | asleep op m cur | take m | clear m x | put m x | store side m x =>
    rw [← hpc]
    rw [hpc] at hdrawn
    exact hheld (by rw [hpc]; exact hdrawn)
  | _ =>
    rw [hpc] at hdrawn
    cases hdrawn

end Lined
end QuietFlow.FreeLock
