import QuietFlow.Queue.Handover

/-! What a call tests before it draws a ticket.

A call that has no ticket yet is known by what it has loaded (`Pc.view`); all places after
that are one view, `served`, so that a wake-up changes no view. `Attempt` is a step of a
call on the views and the counters of both sides. -/
namespace QuietFlow.FreeLock

inductive View (α : Type) where
  | idle
  | bound (op : Op α)
  | missed (op : Op α) (bound : ℕ)
  | ahead (op : Op α) (bound missed : ℕ)
  | claim (op : Op α) (missed : ℕ)
  | retest (op : Op α) (missed ahead : ℕ)
  | miss (op : Op α)
  | ticket (op : Op α)
  | served
  deriving DecidableEq

section View
variable {α : Type}

def Pc.view : Pc α → View α
  | .idle => .idle
  | .bound op => .bound op
  | .missed op b => .missed op b
  | .ahead op b m => .ahead op b m
  | .claim op m => .claim op m
  | .retest op m a => .retest op m a
  | .miss op _ => .miss op
  | .ticket op _ => .ticket op
  | .spin _ _ _ _ | .asleep _ _ _ | .take _ | .clear _ _ | .put _ _ | .store _ _ _ | .wake _ _ _
  | .failed _ => .served

@[simp] theorem woken_view (p : Pc α) : p.woken.view = p.view := by cases p <;> rfl

/-- The operation of a call that has no ticket yet. -/
def View.tests : View α → Option (Op α)
  | .bound op | .missed op _ | .ahead op _ _ | .claim op _ | .retest op _ _ | .miss op | .ticket op =>
    some op
  | .idle | .served => none

/-- Whether it still has to draw its ticket, if it is called. -/
def View.waits : View α → Bool
  | .served => false
  | _ => true

/-- The side of the ticket it draws. -/
def View.side (v : View α) : Option Side := v.tests.map Op.side

theorem view_eq_idle {p : Pc α} (h : p.view = .idle) : p = .idle := by
  cases p <;> cases h
  rfl

theorem view_eq_ahead {p : Pc α} {op : Op α} {b m : ℕ} (h : p.view = .ahead op b m) :
    p = .ahead op b m := by
  cases p <;> cases h
  rfl

theorem view_eq_retest {p : Pc α} {op : Op α} {m a : ℕ} (h : p.view = .retest op m a) :
    p = .retest op m a := by
  cases p <;> cases h
  rfl

theorem side_of_attempt {p : Pc α} (h : p.attempt ≠ none) : p.side = p.view.side := by
  cases p <;> simp [Pc.attempt] at h <;> rfl

end View

/-- The next step of a call with view `v` leaves the counters `c'` and the view `v'`. -/
inductive Attempt {α : Type} (capacity : BitVec 64) (c : Side → Cursor) :
    View α → (Side → Cursor) → View α → Prop where
  | bound {op} : Attempt capacity c (.bound op) c (.missed op (c op.side.other).claimed)
  | missed {op b} : Attempt capacity c (.missed op b) c (.ahead op b (c op.side).missed)
  | refuse {op b m} : refused capacity op (c op.side).ahead m b = true →
    Attempt capacity c (.ahead op b m) c .idle
  | pass {op b m} : refused capacity op (c op.side).ahead m b = false →
    Attempt capacity c (.ahead op b m) c (.claim op m)
  | claim {op m} : Attempt capacity c (.claim op m)
    (Function.update c op.side {c op.side with ahead := (c op.side).ahead + 1})
    (.retest op m (c op.side).ahead)
  | fail {op m a} : refused capacity op a m (c op.side.other).claimed = true →
    Attempt capacity c (.retest op m a) c (.miss op)
  | hold {op m a} : refused capacity op a m (c op.side.other).claimed = false →
    Attempt capacity c (.retest op m a) c (.ticket op)
  | miss {op} : Attempt capacity c (.miss op)
    (Function.update c op.side {c op.side with missed := (c op.side).missed + 1}) .idle
  | draw {op} : Attempt capacity c (.ticket op)
    (Function.update c op.side {c op.side with claimed := (c op.side).claimed + 1}) .served
  | serve : Attempt capacity c .served c .served
  | wake : Attempt capacity c .served c .idle

section Attempt
variable {α : Type} {capacity : BitVec 64} {c c' : Side → Cursor} {v v' : View α}

/-- A step draws a ticket, or the tickets stay. -/
theorem claimed_of_attempt (h : Attempt capacity c v c' v') :
    (∃ op, v = .ticket op ∧ v' = .served ∧
      c' = Function.update c op.side {c op.side with claimed := (c op.side).claimed + 1}) ∨
    (v = .served ∨ v'.waits = v.waits) ∧ ∀ side, (c' side).claimed = (c side).claimed := by
  cases h with
  | @draw op => exact .inl ⟨op, rfl, rfl, rfl⟩
  | @claim op | @miss op =>
    refine .inr ⟨.inr rfl, fun side => ?_⟩
    by_cases hside : side = op.side
    · rw [hside, Function.update_self]
    · rw [Function.update_of_ne hside]
  | serve | wake => exact .inr ⟨.inl rfl, fun _ => rfl⟩
  | _ => exact .inr ⟨.inr rfl, fun _ => rfl⟩

/-- Only a call at its repair changes `missed`. -/
theorem missed_of_attempt (h : Attempt capacity c v c' v') (side : Side)
    (hv : ∀ op, v = .miss op → op.side ≠ side) : (c' side).missed = (c side).missed := by
  cases h with
  | @miss op => rw [Function.update_of_ne (hv op rfl).symm]
  | @claim op | @draw op =>
    by_cases hside : side = op.side
    · rw [hside, Function.update_self]
    · rw [Function.update_of_ne hside]
  | _ => rfl

end Attempt

variable {T α : Type} [DecidableEq T] {capacity : BitVec 64} {s s' : State T α} {t : T}

/-- Every access of a call is a step of its attempt. -/
theorem attempt_of_advance (h : advance capacity s t = some s') :
    Attempt capacity s.cursor (s.pc t).view s'.cursor (s'.pc t).view := by
  cases hpc : s.pc t with
  | idle | asleep op n cur | failed n => simp [advance, hpc] at h
  | bound op =>
    simp only [advance, hpc, Option.some.injEq] at h
    subst h
    simpa [State.setPc, Pc.view] using Attempt.bound
  | missed op b =>
    simp only [advance, hpc, Option.some.injEq] at h
    subst h
    simpa [State.setPc, Pc.view] using Attempt.missed
  | ahead op b m =>
    simp only [advance, hpc] at h
    split at h <;> cases h
    · next hr => simpa [State.setPc, Pc.view] using Attempt.refuse hr
    · next hr => simpa [State.setPc, Pc.view] using Attempt.pass (Bool.eq_false_iff.mpr hr)
  | claim op m =>
    simp only [advance, hpc, Option.some.injEq] at h
    subst h
    simpa [State.setPc, State.setCursor, Pc.view] using Attempt.claim
  | retest op m a =>
    simp only [advance, hpc] at h
    split at h <;> cases h
    · next hr => simpa [State.setPc, Pc.view] using Attempt.fail hr
    · next hr => simpa [State.setPc, Pc.view] using Attempt.hold (Bool.eq_false_iff.mpr hr)
  | miss op a =>
    simp only [advance, hpc, Option.some.injEq] at h
    subst h
    simpa [State.setPc, State.setCursor, Pc.view] using Attempt.miss
  | ticket op a =>
    simp only [advance, hpc, Option.some.injEq] at h
    subst h
    simpa [State.setPc, State.setCursor, State.drawn, Pc.view] using Attempt.draw
  | spin op n i cur =>
    cases i with
    | zero =>
      simp only [advance, hpc, futexWait, Option.some.injEq] at h
      subst h
      split <;> simpa [State.setPc, Pc.view] using Attempt.serve
    | succ i =>
      simp only [advance, hpc] at h
      split at h <;> cases h
      · cases op <;> simpa [State.setPc, Op.begin, Pc.view] using Attempt.serve
      · simpa [State.setPc, Pc.view] using Attempt.serve
  | take n =>
    simp only [advance, hpc] at h
    split at h <;> cases h <;> simpa [State.setPc, Pc.view] using Attempt.serve
  | clear n x | put n x =>
    simp only [advance, hpc, Option.some.injEq] at h
    subst h
    simpa [State.setPc, State.setVec, Pc.view] using Attempt.serve
  | store side n x =>
    simp only [advance, hpc, Option.some.injEq] at h
    subst h
    simpa [State.setPc, Pc.view] using Attempt.serve
  | wake side n x =>
    simp only [advance, hpc, Option.some.injEq] at h
    subst h
    simpa [State.setPc, Pc.view] using Attempt.wake

/-- A call with a ticket returns from its wake-up only. -/
theorem wake_of_returned (h : advance capacity s t = some s') (hview : (s.pc t).view = .served)
    (hidle : s'.pc t = .idle) : ∃ side n x, s.pc t = .wake side n x := by
  cases hpc : s.pc t with
  | wake side n x => exact ⟨side, n, x, rfl⟩
  | idle | bound op | missed op b | ahead op b m | claim op m | retest op m a | miss op a
  | ticket op a =>
    rw [hpc] at hview
    cases hview
  | asleep op n cur | failed n => simp [advance, hpc] at h
  | spin op n i cur =>
    cases i with
    | zero =>
      simp only [advance, hpc, futexWait, Option.some.injEq] at h
      subst h
      split at hidle <;> simp [State.setPc] at hidle
    | succ i =>
      simp only [advance, hpc] at h
      split at h <;> cases h
      · cases op <;> simp [State.setPc, Op.begin] at hidle
      · simp [State.setPc] at hidle
  | take n =>
    simp only [advance, hpc] at h
    split at h <;> cases h <;> simp [State.setPc] at hidle
  | clear n x | put n x | store side n x =>
    simp only [advance, hpc, Option.some.injEq] at h
    subst h
    simp [State.setPc, State.setVec] at hidle

omit [DecidableEq T] in
/-- The first test agrees with the ledger's when the other side has claimed no ticket since its
counter was loaded. -/
theorem Admission.ahead_refused_iff {c b m : ℕ} {op : Op α} (h : Admission c s) (hb : Bounded s)
    (hcap : c ≤ 2 ^ 63) (hpc : s.pc t = .ahead op b m)
    (hfresh : b = (s.cursor op.side.other).claimed) :
    refused (word c) op (s.cursor op.side).ahead m b = true ↔
      m + limit c s.cursor op.side ≤ (s.cursor op.side).ahead := by
  obtain ⟨L, hL⟩ := h op.side
  have hfact := hL.fact t (by rw [hpc]; rfl)
  rw [hpc] at hfact
  obtain ⟨hsince, hm⟩ := hfact
  have hahead := hb.ahead_le (t := t) (by rw [hpc]; nofun) op.side
  have hover := hL.over_le
  have hclaimed := hL.claimed_le
  have hlimit := h.limit_le op.side
  subst hfresh
  cases op with
  | dequeue =>
    simp only [Op.side, Side.other, limit] at *
    exact isEmpty_iff _ _ _ (by omega) (by omega)
  | enqueue x =>
    simp only [Op.side, Side.other, limit] at *
    exact isFull_iff _ _ _ _ (by omega) (by omega)

theorem view_of_ne (h : advance capacity s t = some s') {t' : T} (ht : t' ≠ t) :
    (s'.pc t').view = (s.pc t').view := by
  rcases advance_pc_of_ne ht h with he | he <;> rw [he]
  exact woken_view _

end QuietFlow.FreeLock
