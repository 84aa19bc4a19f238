import Mathlib.Data.List.Chain
import QuietFlow.Schedule.Tasks

/-! Every task is with one thread at a time.

A task is held by one thread, and destroyed by one thread; both are noted in it (`place` and
`keeper`). What its fields are then follows from where its holder stands (`Pc.stage`), and what
the thread that destroys it has waited for (`Pc.Cleared`) stays true. -/
namespace QuietFlow.RunTask
open Runs

/-- The task that a thread destroys, or keeps in its local graph. -/
def Pc.clears : Pc → Option ℕ
  | .yield _ b | .swap _ b | .resumed _ b | .again _ b => some b
  | .await _ n | .handshake _ n | .leave _ n | .recycle _ n | .loop _ n | .release _ n
  | .destroy _ n => some n
  | _ => none

/-- `status`, whether the mutex is held and whether `run` is over. -/
def Pc.stage : Pc → RunningStatus × Bool × Bool
  | .outside | .dequeue | .failed | .taken _ => (.initing, false, false)
  | .resume _ => (.ready, false, false)
  | .run _ | .yield _ _ => (.running, false, false)
  | .finish _ => (.running, false, true)
  | .notify _ | .parent _ | .ghost _ _ | .check _ _ | .lock _ (.next _) => (.finish, false, true)
  | .store _ (.next _) => (.finish, true, true)
  | .unlock _ (.next _) => (.recoverable, true, true)
  | .lock _ .back => (.running, false, false)
  | .store _ .back => (.running, true, false)
  | .unlock _ .back => (.recoverable, true, false)
  | .spin _ => (.recoverable, false, false)
  | .swap _ _ | .resumed _ _ | .again _ _ => (.yield, false, false)
  | .await _ _ | .handshake _ _ | .leave _ _ | .recycle _ _ | .loop _ _ | .release _ _
  | .destroy _ _ => (.running, false, false)

/-- A `BackNode` never returns from `run`, and other tasks do. -/
def Pc.back : Pc → Option Bool
  | .outside | .dequeue | .failed | .taken _ | .resume _ | .run _ => none
  | .lock _ .back | .store _ .back | .unlock _ .back | .spin _ => some true
  | _ => some false

theorem back_of_stage {p : Pc} {ran : Bool} (h : p.stage = (.recoverable, false, ran)) :
    p.back = some true := by
  cases p with
  | lock n k | store n k | unlock n k => cases k <;> cases h
  | spin b => rfl
  | _ => cases h

theorem stage_ne_destroy (p : Pc) : p.stage.1 ≠ .destroy := by
  cases p with
  | lock n k | store n k | unlock n k => cases k <;> nofun
  | _ => nofun

theorem not_holds_dequeue (n : ℕ) : ¬ Pc.dequeue.Holds n := by
  rintro (h | h) <;> cases h

theorem stage_of_next {p : Pc} {n : ℕ} (h : p.next = some n) : p.stage ≠ (.initing, false, false) := by
  cases p with
  | lock m k | store m k | unlock m k =>
    cases k with
    | next next => simp [Pc.stage]
    | back => cases h
  | ghost | check | await | handshake | leave | recycle | loop | release | destroy => simp [Pc.stage]
  | _ => cases h

def Caller.Plain : Caller → Prop
  | .runTask _ => False
  | _ => True

variable {T : Type}

def Node.stage (x : Node T) : RunningStatus × Bool × Bool := (x.status, x.locked, x.ran)

/-- What a thread that destroys a task, or keeps it, knows of it. -/
def Pc.Cleared (x : Node T) : Pc → Prop
  | .yield a _ | .swap a _ => x.backTask = some a
  | .resumed a _ | .again a _ => x.backTask = some a ∧ x.place = .past
  | .await k _ => k.Plain ∧ (x.place = .past ∨ x.backTask = none)
  | .handshake k _ | .release k _ | .destroy k _ =>
    k.Plain ∧ (x.place = .past ∨ x.backTask = none) ∧ x.status = .recoverable
  | .leave k _ => k.Plain ∧ (x.place = .past ∨ x.backTask = none)
  | .recycle k _ => k.Plain ∧ x.place = .past
  | .loop k _ => k.Plain ∧ (x.place = .past ∨ x.backTask = none ∧ x.ran = true)
  | _ => True

namespace Node

/-- The fields of a task that no thread holds. -/
def Rests (x : Node T) : Prop :=
  match x.place with
  | .unmade | .waiting | .queued => x.stage = (.initing, false, false)
  | .held _ => True
  | .saved _ => x.stage = (.yield, false, false) ∧ x.backTask = none
  | .past => x.locked = false ∧ (x.keeper = .gone ∨ x.status = .recoverable)

/-- What holds of a task by itself. -/
structure Own (x : Node T) : Prop where
  rests : x.Rests
  plain : x.ghost = false
  parent : x.place = .unmade ∨ x.parentGraph ≠ none
  shared : x.keeper = .shared → x.backTask = none
  destructed : x.destructed = true → x.ran = true ∨ x.place = .past
  deleted : x.deleted = true → x.keeper = .gone
  gone : x.keeper = .gone → x.place = .past
  follows : x.Follows

theorem own_new {x : Node T} (hstage : x.stage = (.initing, false, false))
    (hstatuses : x.statuses = [.initing]) (hghost : x.ghost = false)
    (hplace : x.place = .unmade ∨ x.place = .waiting ∧ x.parentGraph ≠ none)
    (hshared : x.keeper = .shared → x.backTask = none) (hgone : x.keeper ≠ .gone)
    (hdestructed : x.destructed = false) (hdeleted : x.deleted = false) : x.Own where
  rests := by
    rcases hplace with hplace | ⟨hplace, -⟩ <;> simp only [Rests, hplace] <;> exact hstage
  plain := hghost
  parent := hplace.imp_right And.right
  shared := hshared
  destructed h := by rw [hdestructed] at h; cases h
  deleted h := by rw [hdeleted] at h; cases h
  gone h := absurd h hgone
  follows := by
    rw [stage, Prod.mk.injEq] at hstage
    exact ⟨by rw [hstatuses]; rfl, by rw [hstatuses]; exact .singleton _, by rw [hstatuses, hstage.1]; rfl⟩

theorem Follows.setStatus {x : Node T} (h : x.Follows) {v : RunningStatus}
    (hv : follows x.backTask.isSome x.status v = true) : (x.setStatus v).Follows where
  first := by rw [Node.setStatus, List.head?_append, h.first]; rfl
  chain := by
    refine h.chain.append (.singleton v) fun u hu w hw => ?_
    rw [h.last] at hu
    cases hu
    cases hw
    exact hv
  last := by rw [Node.setStatus, List.getLast?_concat]

/-- The fields of a held task may change, as long as it stays in the same hands. -/
theorem Own.held {x x' : Node T} {t : T} (h : x.Own) (hheld : x.place = .held t)
    (hplace : x'.place = x.place) (hghost : x'.ghost = x.ghost) (hparent : x'.parentGraph = x.parentGraph)
    (hkeeper : x'.keeper = x.keeper) (hback : x'.backTask = x.backTask)
    (hdestructed : x'.destructed = x.destructed) (hran : x.ran = true → x'.ran = true)
    (hdeleted : x'.deleted = x.deleted) (hfollows : x'.Follows) : x'.Own where
  rests := by simp only [Rests, hplace, hheld]
  plain := hghost.trans h.plain
  parent := by rw [hplace, hparent]; exact h.parent
  shared hs := hback.trans (h.shared (hkeeper.symm.trans hs))
  destructed hd := by
    rw [hplace]
    exact (h.destructed (hdestructed.symm.trans hd)).imp_left hran
  deleted hd := hkeeper.trans (h.deleted (hdeleted.symm.trans hd))
  gone hg := hplace.trans (h.gone (hkeeper.symm.trans hg))
  follows := hfollows

/-- The derived part of a task is destroyed after its `run`. -/
theorem Own.destruct {x : Node T} (h : x.Own) (hran : x.ran = true ∨ x.place = .past) :
    {x with destructed := true}.Own where
  rests := h.rests
  plain := h.plain
  parent := h.parent
  shared := h.shared
  destructed _ := hran
  deleted := h.deleted
  gone := h.gone
  follows := ⟨h.follows.first, h.follows.chain, h.follows.last⟩

/-- Another one is going to destroy the task. -/
theorem Own.keep {x : Node T} (h : x.Own) {keeper : Keeper T} (hold : x.keeper ≠ .gone)
    (hnew : keeper ≠ .gone) (hshared : keeper = .shared → x.backTask = none) :
    {x with keeper := keeper}.Own where
  rests := by
    have hrests := h.rests
    cases hp : x.place <;> simp only [Rests, hp] at hrests ⊢
    case past => exact ⟨hrests.1, .inr (hrests.2.resolve_left hold)⟩
    all_goals exact hrests
  plain := h.plain
  parent := h.parent
  shared := hshared
  destructed := h.destructed
  deleted hd := absurd (h.deleted hd) hold
  gone hg := absurd hg hnew
  follows := ⟨h.follows.first, h.follows.chain, h.follows.last⟩

/-- A task that is over is destroyed. -/
theorem Own.forget {x : Node T} (h : x.Own) (hplace : x.place = .past) {status : RunningStatus}
    {statuses : List RunningStatus} (hfollows : {x with status := status, statuses := statuses}.Follows) :
    {x with status := status, statuses := statuses, keeper := .gone, deleted := true}.Own where
  rests := by
    have hrests := h.rests
    rw [Rests, hplace] at hrests
    simp only [Rests, hplace]
    exact ⟨hrests.1, .inl trivial⟩
  plain := h.plain
  parent := h.parent
  shared := nofun
  destructed := h.destructed
  deleted _ := rfl
  gone _ := hplace
  follows := ⟨hfollows.first, hfollows.chain, hfollows.last⟩

theorem Own.setStatus {x : Node T} {t : T} (h : x.Own) (hheld : x.place = .held t) {v : RunningStatus}
    (hv : RunTask.follows x.backTask.isSome x.status v = true) : (x.setStatus v).Own :=
  h.held hheld rfl rfl rfl rfl rfl rfl id rfl (h.follows.setStatus hv)

/-- What the thread that destroys a task knows stays true. -/
structure Later (x x' : Node T) : Prop where
  back : x'.backTask = x.backTask
  status : x.status = .recoverable → x'.status = .recoverable
  place : x.place = .past → x'.place = .past
  ran : x.ran = true → x'.ran = true
  reuse : x'.reuse = x.reuse

end Node

theorem cleared_later {x x' : Node T} (h : x.Later x') {p : Pc} (hp : p.Cleared x) : p.Cleared x' := by
  obtain ⟨hback, hstatus, hplace, hran, -⟩ := h
  cases p <;> simp only [Pc.Cleared, hback] at hp ⊢ <;> grind

/-- The task and the threads agree. -/
structure Fits (pc : T → Pc) (n : ℕ) (x : Node T) : Prop where
  own : x.Own
  held : ∀ t, (pc t).Holds n ↔ x.place = .held t
  kept : ∀ t, (pc t).clears = some n ↔ x.keeper = .thread t
  node : ∀ t, (pc t).node = some n → x.stage = (pc t).stage ∧
    ((pc t).back = none ∨ (pc t).back = some x.backTask.isSome)
  next : ∀ t, (pc t).next = some n → x.stage = (.initing, false, false)
  cleared : ∀ t, (pc t).clears = some n → (pc t).Cleared x

namespace Fits
variable [DecidableEq T] {pc : T → Pc} {n : ℕ} {x x' : Node T} {t : T} {p : Pc}

/-- One thread goes on, and the task changes. -/
theorem turn (h : Fits pc n x) (hown : x'.Own)
    (hheld : p.Holds n ↔ x'.place = .held t) (hkept : p.clears = some n ↔ x'.keeper = .thread t)
    (hplace : ∀ t', t' ≠ t → (x'.place = .held t' ↔ x.place = .held t'))
    (hkeeper : ∀ t', t' ≠ t → (x'.keeper = .thread t' ↔ x.keeper = .thread t'))
    (hstage : x'.stage = x.stage ∧ x'.backTask = x.backTask ∨ ∀ t', t' ≠ t → x.place ≠ .held t')
    (hlater : x.Later x' ∨ ∀ t', t' ≠ t → x.keeper ≠ .thread t')
    (hnode : p.node = some n → x'.stage = p.stage ∧ (p.back = none ∨ p.back = some x'.backTask.isSome))
    (hnext : p.next = some n → x'.stage = (.initing, false, false))
    (hcleared : p.clears = some n → p.Cleared x') : Fits (Function.update pc t p) n x' := by
  refine ⟨hown, fun t' => ?_, fun t' => ?_, fun t' => ?_, fun t' => ?_, fun t' => ?_⟩ <;>
    by_cases ht : t' = t
  · rw [ht, Function.update_self]
    exact hheld
  · rw [Function.update_of_ne ht, h.held, hplace t' ht]
  · rw [ht, Function.update_self]
    exact hkept
  · rw [Function.update_of_ne ht, h.kept, hkeeper t' ht]
  · rw [ht, Function.update_self]
    exact hnode
  · rw [Function.update_of_ne ht]
    intro hn
    rcases hstage with ⟨hstage, hback⟩ | hnot
    · rw [hstage, hback]
      exact h.node t' hn
    · exact absurd ((h.held t').mp (.inl hn)) (hnot t' ht)
  · rw [ht, Function.update_self]
    exact hnext
  · rw [Function.update_of_ne ht]
    intro hn
    rcases hstage with ⟨hstage, -⟩ | hnot
    · rw [hstage]
      exact h.next t' hn
    · exact absurd ((h.held t').mp (.inr hn)) (hnot t' ht)
  · rw [ht, Function.update_self]
    exact hcleared
  · rw [Function.update_of_ne ht]
    intro hn
    rcases hlater with hlater | hnot
    · exact cleared_later hlater (h.cleared t' hn)
    · exact absurd ((h.kept t').mp hn) (hnot t' ht)

omit [DecidableEq T] in
/-- The task changes, and no thread holds it. -/
theorem quiet (h : Fits pc n x) (hown : x'.Own)
    (hplace : ∀ t, x.place ≠ .held t ∧ x'.place ≠ .held t)
    (hkeeper : ∀ t, x'.keeper = .thread t ↔ x.keeper = .thread t)
    (hlater : x.Later x' ∨ ∀ t, x.keeper ≠ .thread t) : Fits pc n x' where
  own := hown
  held t := (h.held t).trans ⟨fun hp => absurd hp (hplace t).1, fun hp => absurd hp (hplace t).2⟩
  kept t := (h.kept t).trans (hkeeper t).symm
  node t hp := absurd ((h.held t).mp (.inl hp)) (hplace t).1
  next t hp := absurd ((h.held t).mp (.inr hp)) (hplace t).1
  cleared t hp := by
    rcases hlater with hlater | hnot
    · exact cleared_later hlater (h.cleared t hp)
    · exact absurd ((h.kept t).mp hp) (hnot t)

/-- One thread goes on, and the task does not change. -/
theorem stay (h : Fits pc n x) (hheld : p.Holds n ↔ (pc t).Holds n)
    (hkept : p.clears = some n ↔ (pc t).clears = some n)
    (hnode : p.node = some n → x.stage = p.stage ∧ (p.back = none ∨ p.back = some x.backTask.isSome))
    (hnext : p.next = some n → x.stage = (.initing, false, false))
    (hcleared : p.clears = some n → p.Cleared x) : Fits (Function.update pc t p) n x :=
  h.turn h.own (hheld.trans (h.held t)) (hkept.trans (h.kept t)) (fun _ _ => .rfl) (fun _ _ => .rfl)
    (.inl ⟨rfl, rfl⟩) (.inl ⟨rfl, id, id, id, rfl⟩) hnode hnext hcleared

/-- One thread goes on, and the task is not one of its own. -/
theorem pass (h : Fits pc n x) (hold : ¬ (pc t).Holds n) (hnew : ¬ p.Holds n)
    (hold' : (pc t).clears ≠ some n) (hnew' : p.clears ≠ some n) : Fits (Function.update pc t p) n x :=
  h.stay ⟨fun hp => absurd hp hnew, fun hp => absurd hp hold⟩
    ⟨fun hp => absurd hp hnew', fun hp => absurd hp hold'⟩ (fun hp => absurd (.inl hp) hnew)
    (fun hp => absurd (.inr hp) hnew) (fun hp => absurd hp hnew')

omit [DecidableEq T] in
/-- `Destroy` is set at the end. -/
theorem status_ne_destroy (h : Fits pc n x) (hkeeper : x.keeper ≠ .gone) : x.status ≠ .destroy := by
  intro hstatus
  have hrests := h.own.rests
  cases hp : x.place with
  | past =>
    rw [Node.Rests, hp] at hrests
    rcases hrests.2 with hgone | hr
    · exact hkeeper hgone
    · rw [hstatus] at hr
      cases hr
  | unmade | waiting | queued =>
    simp only [Node.Rests, hp, Node.stage, Prod.mk.injEq, hstatus] at hrests
    exact absurd hrests.1 (by decide)
  | saved b =>
    simp only [Node.Rests, hp, Node.stage, Prod.mk.injEq, hstatus] at hrests
    exact absurd hrests.1.1 (by decide)
  | held t =>
    rcases (h.held t).mpr hp with hnode | hnext
    · have hstage := congrArg Prod.fst (h.node t hnode).1
      exact stage_ne_destroy _ (hstage.symm.trans hstatus)
    · have hstage := congrArg Prod.fst (h.next t hnext)
      exact absurd (hstage.symm.trans hstatus) (by decide)

omit [DecidableEq T] in
/-- A task that is `Recoverable` and unlocked is over. -/
theorem over_of_recoverable (h : Fits pc n x) (hstatus : x.status = .recoverable)
    (hlocked : x.locked = false) (hplace : x.place = .past ∨ x.backTask = none) : x.place = .past := by
  have hrests := h.own.rests
  cases hp : x.place with
  | past => rfl
  | unmade | waiting | queued =>
    simp only [Node.Rests, hp, Node.stage, Prod.mk.injEq, hstatus] at hrests
    exact absurd hrests.1 (by decide)
  | saved b =>
    simp only [Node.Rests, hp, Node.stage, Prod.mk.injEq, hstatus] at hrests
    exact absurd hrests.1.1 (by decide)
  | held t =>
    have hback : x.backTask = none := hplace.resolve_left (by rw [hp]; nofun)
    rcases (h.held t).mpr hp with hnode | hnext
    · obtain ⟨hstage, hsuits⟩ := h.node t hnode
      rw [Node.stage, hstatus, hlocked] at hstage
      rw [back_of_stage hstage.symm, hback] at hsuits
      simp at hsuits
    · have hstage := h.next t hnext
      simp only [Node.stage, Prod.mk.injEq, hstatus] at hstage
      exact absurd hstage.1 (by decide)

end Fits

end QuietFlow.RunTask
