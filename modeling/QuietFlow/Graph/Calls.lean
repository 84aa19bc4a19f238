import QuietFlow.Graph.Contended
import QuietFlow.Queue.Tickets

/-! What a thread does in a self queue.

A thread that is in `try_enqueue` or `try_dequeue` past the count is in a call of the ring that is
its own (`Matches`). Its step leaves the tickets alone, or draws the ticket of its call, or returns
from it with the ticket or without one (`Serves`). -/
namespace QuietFlow.SelfQueue.Contended
open Runs FreeLock

variable {T α : Type}

/-- The operation on the ring. -/
def Place.op : Place α → Option (Op α)
  | .idle => none
  | .enqueue _ node => some (.enqueue node)
  | .dequeue => some .dequeue

/-- The call of the ring is the thread's. -/
structure Matches (p : Place α) (pc : Pc α) : Prop where
  idle : p = .idle → pc = .idle
  op : ∀ op, pc.view.tests = some op → p.op = some op
  side : ∀ side n, pc.drawn = some (side, n) → p.op.map Op.side = some side

def Matched (s : State T α) : Prop := ∀ t, Matches (s.place t) (s.limitQueue.pc t)

theorem matches_idle (p : Place α) : Matches p .idle :=
  ⟨fun _ => rfl, fun _ h => (by cases h), fun _ _ h => (by cases h)⟩

/-- A call begins. -/
theorem matches_bound {p : Place α} {op : Op α} (h : p.op = some op) : Matches p (.bound op) := by
  refine ⟨fun hp => ?_, fun op' hop => ?_, fun _ _ hd => ?_⟩
  · rw [hp] at h
    cases h
  · cases hop
    exact h
  · cases hd

variable [DecidableEq T]

/-- What the step of a thread inside the ring does. -/
inductive Serves (s : State T α) (t : T) (s' : State T α) : Prop where
  | stay : s'.place = s.place → s'.limitQueue.written = s.limitQueue.written →
    (∀ side, (s'.limitQueue.cursor side).claimed = (s.limitQueue.cursor side).claimed) →
    (s'.limitQueue.pc t).drawn = (s.limitQueue.pc t).drawn → s'.refusals = s.refusals → Serves s t s'
  | draw {op} : s'.place = s.place → (s.place t).op = some op → (s.limitQueue.pc t).drawn = none →
    (s'.limitQueue.pc t).drawn = some (op.side, (s.limitQueue.cursor op.side).claimed) →
    s'.limitQueue.written = s.limitQueue.written ++ op.items →
    (∀ side, (s'.limitQueue.cursor side).claimed =
      (s.limitQueue.cursor side).claimed + if side = op.side then 1 else 0) →
    s'.refusals = s.refusals → Serves s t s'
  | done {side n x} : s'.place = Function.update s.place t .idle → s.limitQueue.pc t = .wake side n x →
    s'.limitQueue.pc t = .idle → s'.limitQueue.written = s.limitQueue.written →
    (∀ side, (s'.limitQueue.cursor side).claimed = (s.limitQueue.cursor side).claimed) →
    s'.refusals = s.refusals → Serves s t s'
  | refuse {oldCount node} : s.place t = .enqueue oldCount node →
    s'.refusals = s.refusals ++ [oldCount] → Serves s t s'

variable {s s' : State T α} {t t' : T} {capacity : BitVec 64}

theorem serves_of_call {op : Op α} {q : FreeLock.State T α}
    (hcall : FreeLock.call s.limitQueue t op = some q) (hpc : s.limitQueue.pc t = .idle) :
    Serves s t {s with limitQueue := q} ∧ q.pc t = .bound op ∧
      ∀ t', t' ≠ t → q.pc t' = s.limitQueue.pc t' := by
  simp only [FreeLock.call, hpc, Option.some.injEq] at hcall
  subst hcall
  refine ⟨.stay rfl rfl (fun _ => rfl) ?_ rfl, Function.update_self .., fun t' ht => Function.update_of_ne ht ..⟩
  rw [hpc]
  simp [FreeLock.State.setPc, Pc.drawn]

theorem serves_of_step (hm : Matched s) (h : s.step t capacity = some s') : Serves s t s' := by
  unfold State.step at h
  split at h
  · next hpc =>
    obtain ⟨q, hq, rfl⟩ := Option.map_eq_some_iff.mp h
    exact (serves_of_call hq hpc).1
  · next hpc =>
    obtain ⟨q, hq, rfl⟩ := Option.map_eq_some_iff.mp h
    exact (serves_of_call hq hpc).1
  · next hnotEnqueue hnotDequeue =>
    obtain ⟨q, hq, h⟩ := Option.map_eq_some_iff.mp h
    have hplace : s.place t ≠ .idle := fun hp => by simp [advance, (hm t).idle hp] at hq
    have hinside : q.pc t ≠ .idle → s' = {s with limitQueue := q} := fun hne => by
      split at h
      · next he _ => exact absurd he hne
      · next he _ => exact absurd he hne
      · exact h.symm
    cases draws_of_advance hq with
    | @draw op a hpc hdrawn htests hs =>
      have hne : q.pc t ≠ .idle := fun he => by
        rw [he] at hdrawn
        cases hdrawn
      rw [hinside hne]
      refine .draw rfl ((hm t).op op (by rw [hpc]; rfl)) (by rw [hpc]; rfl) hdrawn ?_ (fun side => ?_) rfl
      · rw [hs]
        cases op with
        | dequeue => exact (List.append_nil _).symm
        | enqueue node => rfl
      · rw [hs]
        cases side <;> cases op <;> rfl
    | keep hwritten hclaimed hne hdrawn htests =>
      rw [hinside hne]
      exact .stay rfl hwritten hclaimed hdrawn rfl
    | back hwritten hclaimed hidle hwake =>
      split at h
      · next hpc =>
        have hback : s' = {s with limitQueue := q, place := Function.update s.place t .idle} := by
          rw [← h, State.back]
          cases hp : s.place t with
          | idle => exact absurd hp hplace
          | enqueue oldCount node => rfl
          | dequeue => rfl
        rw [hback]
        exact .done rfl hpc hidle hwritten hclaimed rfl
      · next hnotWake =>
        have hnone : (s.limitQueue.pc t).drawn = none := hwake.resolve_right fun hw => by
          obtain ⟨side, n, x, hw⟩ := hw
          exact hnotWake side n x hw
        rw [State.back] at h
        split at h
        · next hp => exact absurd hp hplace
        · next hp =>
          subst h
          exact .refuse hp rfl
        · subst h
          exact .stay rfl hwritten hclaimed (by rw [hnone]; simp [hidle, Pc.drawn]) rfl
      · next hne _ => exact absurd hidle hne

theorem back_place_of_ne (result : Bool) (ht : t' ≠ t) : (s.back t result).place t' = s.place t' := by
  unfold State.back
  split
  · rfl
  · exact Function.update_of_ne ht ..
  · split
    · exact Function.update_of_ne ht ..
    · rfl

/-- The other threads are where they were, but one that sleeps may be woken. -/
theorem step_of_ne (h : s.step t capacity = some s') (ht : t' ≠ t) : s'.place t' = s.place t' ∧
    (s'.limitQueue.pc t' = s.limitQueue.pc t' ∨ s'.limitQueue.pc t' = (s.limitQueue.pc t').woken) := by
  unfold State.step at h
  split at h
  · next hpc =>
    obtain ⟨q, hq, rfl⟩ := Option.map_eq_some_iff.mp h
    exact ⟨rfl, .inl ((serves_of_call hq hpc).2.2 t' ht)⟩
  · next hpc =>
    obtain ⟨q, hq, rfl⟩ := Option.map_eq_some_iff.mp h
    exact ⟨rfl, .inl ((serves_of_call hq hpc).2.2 t' ht)⟩
  · obtain ⟨q, hq, h⟩ := Option.map_eq_some_iff.mp h
    have hpc := advance_pc_of_ne ht hq
    split at h <;> subst h
    · exact ⟨back_place_of_ne _ ht, by rwa [back_limitQueue]⟩
    · exact ⟨back_place_of_ne _ ht, by rwa [back_limitQueue]⟩
    · exact ⟨rfl, hpc⟩

theorem drawn_step_of_ne (h : s.step t capacity = some s') (ht : t' ≠ t) :
    (s'.limitQueue.pc t').drawn = (s.limitQueue.pc t').drawn := by
  rcases (step_of_ne h ht).2 with he | he <;> rw [he]
  exact woken_drawn _

omit [DecidableEq T] in
theorem Matches.woken {p : Place α} {pc : Pc α} (h : Matches p pc) : Matches p pc.woken :=
  ⟨fun hp => by rw [h.idle hp]; rfl, by simpa using h.op, by simpa using h.side⟩

theorem Matched.step (hm : Matched s) (h : s.step t capacity = some s') : Matched s' := by
  intro t'
  by_cases ht : t' = t
  · subst ht
    unfold State.step at h
    split at h
    · next hplace hpc =>
      obtain ⟨q, hq, rfl⟩ := Option.map_eq_some_iff.mp h
      rw [(serves_of_call hq hpc).2.1, hplace]
      exact matches_bound rfl
    · next hplace hpc =>
      obtain ⟨q, hq, rfl⟩ := Option.map_eq_some_iff.mp h
      rw [(serves_of_call hq hpc).2.1, hplace]
      exact matches_bound rfl
    · obtain ⟨q, hq, h⟩ := Option.map_eq_some_iff.mp h
      have hplace : s.place t' ≠ .idle := fun hp => by simp [advance, (hm t').idle hp] at hq
      have hcall : Matches (s.place t') (q.pc t') := by
        cases draws_of_advance hq with
        | @draw op a hpc hdrawn htests hs =>
          have hop := (hm t').op op (by rw [hpc]; rfl)
          refine ⟨fun hp => absurd hp hplace, fun op' hop' => ?_, fun side n hd => ?_⟩
          · rw [htests] at hop'
            cases hop'
          · rw [hdrawn] at hd
            cases hd
            rw [hop]
            rfl
        | keep hwritten hclaimed hne hdrawn htests =>
          exact ⟨fun hp => absurd hp hplace, htests ▸ (hm t').op, hdrawn ▸ (hm t').side⟩
        | back hwritten hclaimed hidle hwake =>
          rw [hidle]
          exact matches_idle _
      split at h
      · next hidle _ =>
        subst h
        rw [back_limitQueue]
        rw [show q.pc t' = .idle from hidle]
        exact matches_idle _
      · next hidle _ =>
        subst h
        rw [back_limitQueue]
        rw [show q.pc t' = .idle from hidle]
        exact matches_idle _
      · subst h
        exact hcall
  · obtain ⟨hplace, hpc⟩ := step_of_ne h ht
    rw [hplace]
    rcases hpc with hpc | hpc <;> rw [hpc]
    · exact hm t'
    · exact (hm t').woken

theorem Matched.enter (hm : Matched s) {p : Place α} (hplace : s.place t = .idle)
    (hqueue : s'.limitQueue = s.limitQueue) (hplace' : s'.place = Function.update s.place t p) : Matched s' := by
  intro t'
  rw [hqueue, hplace']
  by_cases ht : t' = t
  · rw [ht, Function.update_self, (hm t).idle hplace]
    exact matches_idle p
  · rw [Function.update_of_ne ht]
    exact hm t'

/-- What a thread enters by the count. -/
theorem place_of_tryEnqueue {node : α} (h : s.tryEnqueue t node = some s') :
    s.place t = .idle ∧ s'.limitQueue = s.limitQueue ∧ s'.mCount = TaskQueue.int32 (s.mCount + 1) ∧
      s'.refusals = s.refusals ∧ s'.place = Function.update s.place t
        (if s.mCount ≥ 0 then .enqueue s.mCount node else .idle) := by
  unfold State.tryEnqueue at h
  split at h
  · next hplace =>
    split at h <;> cases h
    · next hpos => exact ⟨hplace, rfl, rfl, rfl, by rw [if_pos hpos]⟩
    · next hneg => exact ⟨hplace, rfl, rfl, rfl, by rw [if_neg hneg, ← hplace, Function.update_eq_self]⟩
  · cases h

theorem place_of_tryDequeue (h : s.tryDequeue t = some s') :
    s.place t = .idle ∧ s'.limitQueue = s.limitQueue ∧ s'.mCount = TaskQueue.int32 (s.mCount - 1) ∧
      s'.refusals = s.refusals ∧ s'.place = Function.update s.place t
        (if s.mCount > 0 then .dequeue else .idle) := by
  unfold State.tryDequeue at h
  split at h
  · next hplace =>
    split at h <;> cases h
    · next hpos => exact ⟨hplace, rfl, rfl, rfl, by rw [if_pos hpos]⟩
    · next hneg => exact ⟨hplace, rfl, rfl, rfl, by rw [if_neg hneg, ← hplace, Function.update_eq_self]⟩
  · cases h

theorem matched {parallel size : ℕ} {ok : State T α → Act T α → State T α → Prop}
    (h : (selfQueue parallel size T α).ReachedBy ok s) : Matched s := by
  refine h.induct (I := Matched) (fun _ => matches_idle _) fun s a s' _ hm hs _ => ?_
  cases a with
  | tryEnqueue t node =>
    obtain ⟨hplace, hqueue, -, -, hplace'⟩ := place_of_tryEnqueue hs
    exact hm.enter hplace hqueue hplace'
  | tryDequeue t =>
    obtain ⟨hplace, hqueue, -, -, hplace'⟩ := place_of_tryDequeue hs
    exact hm.enter hplace hqueue hplace'
  | step t => exact hm.step hs

end QuietFlow.SelfQueue.Contended
