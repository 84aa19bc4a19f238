import QuietFlow.Graph.Util
import QuietFlow.Runs.System
import Mathlib.Data.Fintype.Card

/-! Starting a schedule: `Schedule::init`, `routine` and a thread's first `jump_in_schedule`.

`init` starts the threads and waits: first until each of them has put itself into
`thread_exec_vec`, then until the `thread_context` of each has the status `Yield`. Only then the
schedule is `Running`. A thread takes its `thread_idx_` from the size of the vector, under
`mutex_`, and so does its first `change_context_status`, because the schedule is still `Initing`. -/
namespace QuietFlow.Startup
open Runs

/-- The statement a thread executes next. -/
inductive Pc where
  | unstarted
  /-- `routine`. -/
  | lock
  | index
  | push
  | unlock
  | setReady
  | swap
  /-- `jump_in_schedule`, on the new context; with `mutex_` or without. -/
  | test
  | lockMutex
  | setRunning (locked : Bool)
  | setYield (locked : Bool)
  | clearPre (locked : Bool)
  | unlockMutex
  | doSchedule
  deriving DecidableEq

/-- The statement `init` executes next. -/
inductive Init (T : Type) where
  | start
  | lock
  | size
  | unlock (all : Bool)
  /-- The loop over `thread_exec_vec`, with what is left of it. -/
  | check (rest : List T)
  | setRunning
  | done
  deriving DecidableEq

structure State (T : Type) where
  /-- Who has `mutex_`: `init`, or a thread. -/
  mutex : Option (Option T)
  threadExecVec : List T
  threadIdx : T → Option ℕ
  /-- Of a thread's `thread_context`, and of the first context made for it. -/
  threadStatus : T → RunningStatus
  contextStatus : T → RunningStatus
  /-- Whether `context_pre_ptr` is the `thread_context`. -/
  contextPrePtr : T → Bool
  status : RunningStatus
  pc : T → Pc
  init : Init T

inductive Act (T : Type) where
  | start (t : T)
  | init
  | thread (t : T)
  deriving DecidableEq

variable {T : Type} [DecidableEq T]

namespace State
variable (s : State T) (t : T)

@[simp] def goto (pc : Pc) : State T := {s with pc := Function.update s.pc t pc}

/-- The thread's next step. -/
def advance : Option (State T) :=
  match s.pc t with
  | .unstarted | .doSchedule => none
  | .lock => if s.mutex = none then some ({s with mutex := some (some t)}.goto t .index) else none
  | .index =>
    some ({s with threadIdx := Function.update s.threadIdx t (some s.threadExecVec.length)}.goto t .push)
  | .push => some ({s with threadExecVec := s.threadExecVec ++ [t]}.goto t .unlock)
  | .unlock => some ({s with mutex := none}.goto t .setReady)
  | .setReady => some ({s with threadStatus := Function.update s.threadStatus t .ready}.goto t .swap)
  | .swap => some ({s with contextPrePtr := Function.update s.contextPrePtr t true}.goto t .test)
  | .test => some (s.goto t (if s.status = .initing then .lockMutex else .setRunning false))
  | .lockMutex =>
    if s.mutex = none then some ({s with mutex := some (some t)}.goto t (.setRunning true)) else none
  | .setRunning locked =>
    some ({s with contextStatus := Function.update s.contextStatus t .running}.goto t (.setYield locked))
  | .setYield locked =>
    if s.contextPrePtr t then
      some ({s with threadStatus := Function.update s.threadStatus t .yield}.goto t (.clearPre locked))
    else some (s.goto t (if locked then .unlockMutex else .doSchedule))
  | .clearPre locked =>
    some ({s with contextPrePtr := Function.update s.contextPrePtr t false}.goto t
      (if locked then .unlockMutex else .doSchedule))
  | .unlockMutex => some ({s with mutex := none}.goto t .doSchedule)

/-- The next step of `init`. -/
def advanceInit [Fintype T] : Option (State T) :=
  match s.init with
  | .start => if ∀ t, s.pc t ≠ .unstarted then some {s with init := .lock} else none
  | .lock => if s.mutex = none then some {s with mutex := some none, init := .size} else none
  | .size => some {s with init := .unlock (decide (s.threadExecVec.length = Fintype.card T))}
  | .unlock all =>
    some {s with mutex := none, init := if all then .check s.threadExecVec else .lock}
  | .check [] => some {s with init := .setRunning}
  | .check (t :: rest) =>
    -- A context that is not yet `Yield` starts the loop again.
    some {s with init := .check (if s.threadStatus t = .yield then rest else s.threadExecVec)}
  | .setRunning => some {s with status := .running, init := .done}
  | .done => none

def step [Fintype T] : Act T → Option (State T)
  | .start t => if s.init = .start ∧ s.pc t = .unstarted then some (s.goto t .lock) else none
  | .init => s.advanceInit
  | .thread t => s.advance t

end State

/-- `init` with the threads `T`. -/
def starting (T : Type) [Fintype T] [DecidableEq T] : System (State T) (Act T) where
  start :=
    { mutex := none
      threadExecVec := []
      threadIdx := fun _ => none
      threadStatus := fun _ => .initing
      contextStatus := fun _ => .initing
      contextPrePtr := fun _ => false
      status := .initing
      pc := fun _ => .unstarted
      init := .start }
  step s a := s.step a

/-! ### The invariant -/

/-- In a section under `mutex_`. -/
def Pc.locked : Pc → Bool
  | .index | .push | .unlock | .setRunning true | .setYield true | .clearPre true | .unlockMutex => true
  | _ => false

def Init.locked : Init T → Bool
  | .size | .unlock _ => true
  | _ => false

/-- In `thread_exec_vec`. -/
def Pc.registered : Pc → Bool
  | .unstarted | .lock | .index | .push => false
  | _ => true

/-- Its `thread_context` is `Yield`. -/
def Pc.yielded : Pc → Bool
  | .clearPre _ | .unlockMutex | .doSchedule => true
  | _ => false

/-- Its new context is `Running`. -/
def Pc.entered : Pc → Bool
  | .setYield _ | .clearPre _ | .unlockMutex | .doSchedule => true
  | _ => false

/-- Past the `swap_new_context`, and `context_pre_ptr` not yet cleared. -/
def Pc.entering : Pc → Bool
  | .test | .lockMutex | .setRunning _ | .setYield _ | .clearPre _ => true
  | _ => false

/-- Where only a thread comes that has found the schedule `Running`. -/
def Pc.unlocked : Pc → Bool
  | .setRunning false | .setYield false | .clearPre false => true
  | _ => false

/-- The threads that `init` has seen `Yield`, or needs no more to see. -/
def Init.Checked (s : State T) : Init T → Prop
  | .unlock all => all = true → ∀ t, t ∈ s.threadExecVec
  | .check rest => (∀ t, t ∈ s.threadExecVec) ∧ ∀ t, t ∈ rest ∨ s.threadStatus t = .yield
  | .setRunning | .done => ∀ t, t ∈ s.threadExecVec ∧ s.threadStatus t = .yield
  | _ => True

structure Own (s : State T) (t : T) : Prop where
  locked : (s.pc t).locked = true ↔ s.mutex = some (some t)
  registered : (s.pc t).registered = true ↔ t ∈ s.threadExecVec
  yielded : (s.pc t).yielded = true ↔ s.threadStatus t = .yield
  entering : (s.pc t).entering = true ↔ s.contextPrePtr t = true
  unlocked : (s.pc t).unlocked = false
  entered : (s.pc t).entered = true → s.contextStatus t = .running
  next : s.pc t = .push → s.threadIdx t = some s.threadExecVec.length
  index : t ∈ s.threadExecVec → ∃ i, s.threadIdx t = some i ∧ s.threadExecVec[i]? = some t

structure Starting (s : State T) : Prop where
  own : ∀ t, Own s t
  nodup : s.threadExecVec.Nodup
  locked : s.init.locked = true ↔ s.mutex = some none
  checked : s.init.Checked s
  status : s.status = if s.init = .done then .running else .initing

/-- The step does not change what a thread has. -/
structure Same (s s' : State T) (t : T) : Prop where
  pc : s'.pc t = s.pc t
  contextStatus : s'.contextStatus t = s.contextStatus t
  threadIdx : s'.threadIdx t = s.threadIdx t
  threadStatus : s'.threadStatus t = s.threadStatus t
  contextPrePtr : s'.contextPrePtr t = s.contextPrePtr t

section Step
variable {s s' : State T} {t : T}

omit [DecidableEq T] in
theorem Init.Checked.mono {i : Init T} (h : i.Checked s) (hvec : ∀ t ∈ s.threadExecVec, t ∈ s'.threadExecVec)
    (hyield : ∀ t, s.threadStatus t = .yield → s'.threadStatus t = .yield) : i.Checked s' := by
  cases i with
  | unlock all => exact fun hall t => hvec t (h hall t)
  | check rest => exact ⟨fun t => hvec t (h.1 t), fun t => (h.2 t).imp_right (hyield t)⟩
  | setRunning | done => exact fun t => ⟨hvec t (h t).1, hyield t (h t).2⟩
  | _ => trivial

omit [DecidableEq T] in
/-- A thread that does not step. -/
theorem Own.congr (h : Own s t) (hsame : Same s s' t)
    (hmutex : s'.mutex = some (some t) ↔ s.mutex = some (some t))
    (hvec : s'.threadExecVec = s.threadExecVec) : Own s' t := by
  obtain ⟨hpc, hcontext, hidx, hstatus, hptr⟩ := hsame
  refine ⟨?_, ?_, ?_, ?_, ?_, ?_, ?_, ?_⟩
  · rw [hpc, hmutex]
    exact h.locked
  · rw [hpc, hvec]
    exact h.registered
  · rw [hpc, hstatus]
    exact h.yielded
  · rw [hpc, hptr]
    exact h.entering
  · rw [hpc]
    exact h.unlocked
  · rw [hpc, hcontext]
    exact h.entered
  · rw [hpc, hidx, hvec]
    exact h.next
  · rw [hvec, hidx]
    exact h.index

/-- A thread's step that pushes nothing. The others see of it only who has the mutex. -/
theorem Starting.advance (h : Starting s) (hothers : ∀ t', t' ≠ t → Same s s' t')
    (hmutex : s'.mutex = s.mutex ∨ s.mutex = none ∧ s'.mutex = some (some t) ∨
      s.mutex = some (some t) ∧ s'.mutex = none)
    (hvec : s'.threadExecVec = s.threadExecVec)
    (hyield : s.threadStatus t = .yield → s'.threadStatus t = .yield)
    (hinit : s'.init = s.init) (hsched : s'.status = s.status) (hown : Own s' t) : Starting s' := by
  refine ⟨fun t' => ?_, hvec ▸ h.nodup, ?_, ?_, by rw [hsched, hinit, h.status]⟩
  · by_cases ht : t' = t
    · rw [ht]
      exact hown
    · refine (h.own t').congr (hothers t' ht) ?_ hvec
      rcases hmutex with hsame | ⟨hold, hnew⟩ | ⟨hold, hnew⟩
      · rw [hsame]
      · rw [hold, hnew]
        simp [Ne.symm ht]
      · rw [hold, hnew]
        simp [Ne.symm ht]
  · rw [hinit, h.locked]
    rcases hmutex with hsame | ⟨hold, hnew⟩ | ⟨hold, hnew⟩ <;> simp [*]
  · rw [hinit]
    refine h.checked.mono (fun t ht => hvec ▸ ht) fun t' ht' => ?_
    by_cases ht : t' = t
    · rw [ht] at ht' ⊢
      exact hyield ht'
    · rw [(hothers t' ht).threadStatus, ht']

theorem starting_push (h : Starting s) (hpc : s.pc t = .push) :
    Starting ({s with threadExecVec := s.threadExecVec ++ [t]}.goto t .unlock) := by
  have hown := h.own t
  have hlocked : s.mutex = some (some t) := hown.locked.mp (by rw [hpc]; rfl)
  have hnot : t ∉ s.threadExecVec := fun hmem => by
    have hreg := hown.registered.mpr hmem
    rw [hpc] at hreg
    cases hreg
  have hidx := hown.next hpc
  refine ⟨fun t' => ?_, ?_, h.locked, ?_, h.status⟩
  · by_cases ht : t' = t
    · subst ht
      have hyielded := hown.yielded
      have hentering := hown.entering
      rw [hpc] at hyielded hentering
      refine ⟨?_, ?_, ?_, ?_, ?_, ?_, ?_, fun _ => ⟨_, hidx, ?_⟩⟩ <;>
        simp_all [Pc.locked, Pc.registered, Pc.yielded, Pc.entering, Pc.unlocked, Pc.entered]
    · have hother := h.own t'
      have hsame : Function.update s.pc t .unlock t' = s.pc t' := Function.update_of_ne ht ..
      have hmem : t' ∈ s.threadExecVec ++ [t] ↔ t' ∈ s.threadExecVec := by simp [ht]
      refine ⟨?_, ?_, ?_, ?_, ?_, ?_, fun hpush => ?_, fun hin => ?_⟩
      · simpa [hsame] using hother.locked
      · simpa [hsame, ht] using hother.registered
      · simpa [hsame] using hother.yielded
      · simpa [hsame] using hother.entering
      · simpa [hsame] using hother.unlocked
      · simpa [hsame] using hother.entered
      · -- Only one thread is between its `size()` and its `push_back`.
        have hpush : s.pc t' = .push := hsame ▸ hpush
        have hmutex := hother.locked.mp (by rw [hpush]; rfl)
        rw [hlocked] at hmutex
        exact absurd (Option.some.inj (Option.some.inj hmutex)).symm ht
      · obtain ⟨i, hi, hget⟩ := hother.index (hmem.mp hin)
        refine ⟨i, hi, ?_⟩
        show (s.threadExecVec ++ [t])[i]? = some t'
        rw [List.getElem?_append_left (List.getElem?_eq_some_iff.mp hget).1, hget]
  · exact List.nodup_append.mpr ⟨h.nodup, List.nodup_singleton t, fun a ha b hb he =>
      hnot (List.mem_singleton.mp hb ▸ he ▸ ha)⟩
  · exact h.checked.mono (fun t ht => List.mem_append_left _ ht) fun t ht => ht

/-- A thread that enters finds the schedule `Initing`. -/
theorem Starting.initing (h : Starting s) (hpc : (s.pc t).yielded = false) : s.status = .initing := by
  rw [h.status, if_neg fun hdone => ?_]
  have hchecked := h.checked
  rw [hdone] at hchecked
  have hyielded := (h.own t).yielded.mpr (hchecked t).2
  rw [hpc] at hyielded
  cases hyielded

theorem starting_advance (h : Starting s) (hs : s.advance t = some s') : Starting s' := by
  have hown := h.own t
  obtain ⟨hlocked, hregistered, hyielded, hentering, hunlocked, hentered, -, hindex⟩ := hown
  cases hpc : s.pc t <;> rw [hpc] at hlocked hregistered hyielded hentering hunlocked hentered <;>
    simp only [State.advance, hpc, reduceCtorEq] at hs
  case push =>
    cases hs
    exact starting_push h hpc
  case' lock =>
    obtain ⟨hnone, hs⟩ := Option.ite_none_right_eq_some.mp hs
    cases hs
    refine h.advance (t := t) (fun t' ht => by constructor <;> simp [ht]) (.inr (.inl ⟨hnone, rfl⟩)) rfl id
      rfl rfl ?_
  case' index =>
    cases hs
    refine h.advance (t := t) (fun t' ht => by constructor <;> simp [ht]) (.inl rfl) rfl id rfl rfl ?_
  case' unlock =>
    cases hs
    have hmutex := hlocked.mp rfl
    refine h.advance (t := t) (fun t' ht => by constructor <;> simp [ht]) (.inr (.inr ⟨hmutex, rfl⟩)) rfl id
      rfl rfl ?_
  case' setReady =>
    cases hs
    refine h.advance (t := t) (fun t' ht => by constructor <;> simp [ht]) (.inl rfl) rfl (fun hy => ?_) rfl rfl ?_
    · cases hyielded.mpr hy
  case' swap =>
    cases hs
    refine h.advance (t := t) (fun t' ht => by constructor <;> simp [ht]) (.inl rfl) rfl id rfl rfl ?_
  case' test =>
    rw [if_pos (h.initing (t := t) (by rw [hpc]; rfl))] at hs
    cases hs
    refine h.advance (t := t) (fun t' ht => by constructor <;> simp [ht]) (.inl rfl) rfl id rfl rfl ?_
  case' lockMutex =>
    obtain ⟨hnone, hs⟩ := Option.ite_none_right_eq_some.mp hs
    cases hs
    refine h.advance (t := t) (fun t' ht => by constructor <;> simp [ht]) (.inr (.inl ⟨hnone, rfl⟩)) rfl id
      rfl rfl ?_
  case' setRunning locked =>
    obtain rfl : locked = true := by
      cases locked with
      | false => cases hunlocked
      | true => rfl
    cases hs
    refine h.advance (t := t) (fun t' ht => by constructor <;> simp [ht]) (.inl rfl) rfl id rfl rfl ?_
  case' setYield locked =>
    obtain rfl : locked = true := by
      cases locked with
      | false => cases hunlocked
      | true => rfl
    rw [if_pos (hentering.mp rfl)] at hs
    cases hs
    refine h.advance (t := t) (fun t' ht => by constructor <;> simp [ht]) (.inl rfl) rfl
      (fun _ => Function.update_self ..) rfl rfl ?_
  case' clearPre locked =>
    obtain rfl : locked = true := by
      cases locked with
      | false => cases hunlocked
      | true => rfl
    cases hs
    refine h.advance (t := t) (fun t' ht => by constructor <;> simp [ht]) (.inl rfl) rfl id rfl rfl ?_
  case' unlockMutex =>
    cases hs
    have hmutex := hlocked.mp rfl
    refine h.advance (t := t) (fun t' ht => by constructor <;> simp [ht]) (.inr (.inr ⟨hmutex, rfl⟩)) rfl id
      rfl rfl ?_
  all_goals constructor <;> simp_all [Pc.locked, Pc.registered, Pc.yielded, Pc.entering, Pc.unlocked,
    Pc.entered]

omit [DecidableEq T] in
theorem mem_of_length [Fintype T] (h : s.threadExecVec.Nodup) (hlen : s.threadExecVec.length = Fintype.card T)
    (t : T) : t ∈ s.threadExecVec := by
  classical
  have hcard : s.threadExecVec.toFinset.card = Fintype.card T := by rw [List.toFinset_card_of_nodup h, hlen]
  have hmem := Finset.mem_univ t
  rw [← Finset.eq_univ_of_card _ hcard] at hmem
  exact List.mem_toFinset.mp hmem

/-- A step of `init`, which changes no thread. -/
theorem Starting.init_step (h : Starting s) (hothers : ∀ t, Same s s' t)
    (hmutex : s'.mutex = s.mutex ∨ s.mutex = none ∧ s'.mutex = some none ∨
      s.mutex = some none ∧ s'.mutex = none)
    (hvec : s'.threadExecVec = s.threadExecVec)
    (hlocked : s'.init.locked = true ↔ s'.mutex = some none) (hchecked : s'.init.Checked s')
    (hsched : s'.status = if s'.init = .done then .running else .initing) : Starting s' := by
  refine ⟨fun t => (h.own t).congr (hothers t) ?_ hvec, hvec ▸ h.nodup, hlocked, hchecked, hsched⟩
  rcases hmutex with hsame | ⟨hold, hnew⟩ | ⟨hold, hnew⟩
  · rw [hsame]
  · rw [hold, hnew]
    simp
  · rw [hold, hnew]
    simp

theorem starting_init [Fintype T] (h : Starting s) (hs : s.advanceInit = some s') : Starting s' := by
  have hlocked := h.locked
  have hchecked := h.checked
  have hstatus := h.status
  cases hinit : s.init <;> rw [hinit] at hlocked hchecked hstatus <;>
    simp only [State.advanceInit, hinit, reduceCtorEq] at hs
  case start =>
    obtain ⟨-, hs⟩ := Option.ite_none_right_eq_some.mp hs
    cases hs
    exact h.init_step (fun _ => ⟨rfl, rfl, rfl, rfl, rfl⟩) (.inl rfl) rfl hlocked trivial hstatus
  case lock =>
    obtain ⟨hnone, hs⟩ := Option.ite_none_right_eq_some.mp hs
    cases hs
    exact h.init_step (fun _ => ⟨rfl, rfl, rfl, rfl, rfl⟩) (.inr (.inl ⟨hnone, rfl⟩)) rfl
      (by simp [Init.locked]) trivial hstatus
  case size =>
    cases hs
    exact h.init_step (fun _ => ⟨rfl, rfl, rfl, rfl, rfl⟩) (.inl rfl) rfl hlocked
      (fun hall => mem_of_length h.nodup (of_decide_eq_true hall)) hstatus
  case unlock all =>
    cases hs
    refine h.init_step (fun _ => ⟨rfl, rfl, rfl, rfl, rfl⟩) (.inr (.inr ⟨hlocked.mp rfl, rfl⟩)) rfl ?_ ?_ ?_
    · cases all <;> simp [Init.locked]
    · cases all with
      | false => trivial
      | true => exact ⟨hchecked rfl, fun t => .inl (hchecked rfl t)⟩
    · cases all <;> exact hstatus
  case check rest =>
    cases rest with
    | nil =>
      cases hs
      exact h.init_step (fun _ => ⟨rfl, rfl, rfl, rfl, rfl⟩) (.inl rfl) rfl hlocked
        (fun t => ⟨hchecked.1 t, (hchecked.2 t).resolve_left List.not_mem_nil⟩) hstatus
    | cons t rest =>
      cases hs
      refine h.init_step (fun _ => ⟨rfl, rfl, rfl, rfl, rfl⟩) (.inl rfl) rfl hlocked
        ⟨hchecked.1, fun t' => ?_⟩ hstatus
      by_cases hyield : s.threadStatus t = .yield
      · rw [if_pos hyield]
        rcases hchecked.2 t' with hmem | hyield'
        · rcases List.mem_cons.mp hmem with rfl | hmem
          · exact .inr hyield
          · exact .inl hmem
        · exact .inr hyield'
      · rw [if_neg hyield]
        exact .inl (hchecked.1 t')
  case setRunning =>
    cases hs
    exact h.init_step (fun _ => ⟨rfl, rfl, rfl, rfl, rfl⟩) (.inl rfl) rfl hlocked hchecked rfl

theorem starting_start (h : Starting s) (hpc : s.pc t = .unstarted) : Starting (s.goto t .lock) := by
  obtain ⟨hlocked, hregistered, hyielded, hentering, hunlocked, hentered, -, hindex⟩ := h.own t
  rw [hpc] at hlocked hregistered hyielded hentering hunlocked hentered
  refine h.advance (t := t) (fun t' ht => by constructor <;> simp [ht]) (.inl rfl) rfl id rfl rfl ?_
  constructor <;> simp_all [Pc.locked, Pc.registered, Pc.yielded, Pc.entering, Pc.unlocked,
    Pc.entered]

end Step

/-! ### Along a run -/

section Run
variable [Fintype T] {s : State T}

theorem begins (h : (starting T).Reached s) : Starting s := by
  refine h.induct ?_ fun s a s' _ ih hs _ => ?_
  · refine ⟨fun t => ?_, List.nodup_nil, by simp [starting, Init.locked], trivial, rfl⟩
    constructor <;> simp [starting, Pc.locked, Pc.registered, Pc.yielded, Pc.entering, Pc.unlocked, Pc.entered]
  · cases a with
    | start t =>
      obtain ⟨⟨-, hpc⟩, hs⟩ := Option.ite_none_right_eq_some.mp hs
      cases hs
      exact starting_start ih hpc
    | init => exact starting_init ih hs
    | thread t => exact starting_advance ih hs

omit [Fintype T] in
theorem Starting.index_inj (h : Starting s) {t t' : T} (ht : t ∈ s.threadExecVec) (ht' : t' ∈ s.threadExecVec)
    (hidx : s.threadIdx t = s.threadIdx t') : t = t' := by
  obtain ⟨i, hi, hget⟩ := (h.own t).index ht
  obtain ⟨i', hi', hget'⟩ := (h.own t').index ht'
  have hii : i = i' := Option.some.inj (hi.symm.trans (hidx.trans hi'))
  rw [hii, hget'] at hget
  exact (Option.some.inj hget).symm

omit [Fintype T] in
/-- A thread waits only for the mutex. -/
theorem advance_isSome (h : Starting s) {t : T} (hstarted : s.pc t ≠ .unstarted) (hends : s.pc t ≠ .doSchedule)
    (hfree : (s.pc t).locked = true ∨ s.mutex = none) : (s.advance t).isSome = true := by
  have hentering := (h.own t).entering
  cases hpc : s.pc t <;> rw [hpc] at hfree hentering <;> simp only [State.advance, hpc]
  case unstarted => exact absurd hpc hstarted
  case doSchedule => exact absurd hpc hends
  case lock => simp [hfree.resolve_left (by simp [Pc.locked])]
  case lockMutex => simp [hfree.resolve_left (by simp [Pc.locked])]
  case setYield locked => simp [hentering.mp rfl]
  all_goals rfl

/-- How many steps `init` takes when all threads wait for tasks. -/
def State.left (s : State T) : ℕ :=
  match s.init with
  | .start => Fintype.card T + 6
  | .lock => Fintype.card T + 5
  | .size => Fintype.card T + 4
  | .unlock true => Fintype.card T + 3
  | .unlock false => Fintype.card T + 6
  | .check rest => rest.length + 2
  | .setRunning => 1
  | .done => 0

omit [DecidableEq T] in
theorem length_of_mem (hnodup : s.threadExecVec.Nodup) (hmem : ∀ t, t ∈ s.threadExecVec) :
    s.threadExecVec.length = Fintype.card T := by
  classical
  rw [← List.toFinset_card_of_nodup hnodup, ← Finset.card_univ]
  exact congrArg Finset.card (Finset.eq_univ_iff_forall.mpr fun t => List.mem_toFinset.mpr (hmem t))

theorem advanceInit_left (h : Starting s) (hall : ∀ t, s.pc t = .doSchedule) (hdone : s.init ≠ .done) :
    ∃ s', s.advanceInit = some s' ∧ s'.pc = s.pc ∧ s'.left + 1 = s.left := by
  have hmem : ∀ t, t ∈ s.threadExecVec := fun t => (h.own t).registered.mp (by rw [hall t]; rfl)
  have hlength := length_of_mem h.nodup hmem
  have hlocked := h.locked
  cases hinit : s.init <;> rw [hinit] at hlocked <;> simp only [State.advanceInit, State.left, hinit]
  case start => exact ⟨_, if_pos fun t => by simp [hall t], rfl, rfl⟩
  case lock =>
    have hnone : s.mutex = none := by
      rcases hmutex : s.mutex with _ | (_ | t)
      · rfl
      · cases hlocked.mpr hmutex
      · have hpc := (h.own t).locked.mpr hmutex
        rw [hall t] at hpc
        cases hpc
    exact ⟨_, if_pos hnone, rfl, rfl⟩
  case size => exact ⟨_, rfl, rfl, by simp [hlength]⟩
  case unlock all =>
    refine ⟨_, rfl, rfl, ?_⟩
    cases all
    · rfl
    · simp [hlength]
  case check rest =>
    cases rest with
    | nil => exact ⟨_, rfl, rfl, rfl⟩
    | cons t rest =>
      have hyield := (h.own t).yielded.mp (by rw [hall t]; rfl)
      exact ⟨_, rfl, rfl, by simp [hyield]⟩
  case setRunning => exact ⟨_, rfl, rfl, rfl⟩
  case done => exact absurd hinit hdone

theorem init_returns (h : (starting T).Reached s) (hall : ∀ t, s.pc t = .doSchedule) :
    ∃ s', (starting T).run s (List.replicate s.left .init) = some s' ∧ s'.init = .done := by
  generalize hk : s.left = k
  induction k generalizing s with
  | zero =>
    refine ⟨s, rfl, by_contra fun hdone => ?_⟩
    obtain ⟨s', -, -, hleft⟩ := advanceInit_left (begins h) hall hdone
    omega
  | succ k ih =>
    have hdone : s.init ≠ .done := fun hdone => by simp [State.left, hdone] at hk
    obtain ⟨s', hs', hpc, hleft⟩ := advanceInit_left (begins h) hall hdone
    have hstep : (starting T).step s .init = some s' := hs'
    obtain ⟨m, hm, hend⟩ := ih (.step h hstep trivial) (fun t => hpc ▸ hall t) (by omega)
    refine ⟨m, ?_, hend⟩
    rw [List.replicate_succ, System.run, System.runBy, hstep]
    simpa using hm

/-- What holds while the threads start, and when `init` returns. -/
structure Begun (s : State T) : Prop where
  /-- `get_cur_exec` finds the item of the thread that calls it, and no other thread's. -/
  own : ∀ t, (s.pc t).registered = true → ∃ i, s.threadIdx t = some i ∧ s.threadExecVec[i]? = some t
  apart : ∀ t t', (s.pc t).registered = true → (s.pc t').registered = true →
    s.threadIdx t = s.threadIdx t' → t = t'
  alone : ∀ t, (s.pc t).locked = true → s.init.locked = false ∧ ∀ t', (s.pc t').locked = true → t' = t
  /-- No thread enters its first context without the mutex. -/
  guarded : ∀ t, (s.pc t).unlocked = false
  running : s.status = .running → s.threadExecVec.length = Fintype.card T ∧
    ∀ t, t ∈ s.threadExecVec ∧ s.threadStatus t = .yield ∧ s.contextStatus t = .running
  /-- The threads do not block each other. -/
  goes : s.mutex ≠ some none → (∀ t, s.advance t = none) → ∀ t, s.pc t = .unstarted ∨ s.pc t = .doSchedule
  /-- When all of them wait for tasks, `init` returns. -/
  returns : (∀ t, s.pc t = .doSchedule) →
    ∃ s', (starting T).run s (List.replicate s.left .init) = some s' ∧ s'.init = .done

/-- **`init` returns with every thread registered under its own index and on its own context**,
and until then no thread and no wait of `init` is stuck, in every interleaving. -/
theorem schedule_begun (h : (starting T).Reached s) : Begun s := by
  have hs := begins h
  refine ⟨fun t ht => (hs.own t).index ((hs.own t).registered.mp ht),
    fun t t' ht ht' => hs.index_inj ((hs.own t).registered.mp ht) ((hs.own t').registered.mp ht'),
    fun t ht => ?_, fun t => (hs.own t).unlocked, fun hrun => ?_, fun hmutex hstuck t => ?_, init_returns h⟩
  · have hmutex := (hs.own t).locked.mp ht
    refine ⟨Bool.eq_false_of_not_eq_true fun hinit => ?_, fun t' ht' => ?_⟩
    · rw [hs.locked.mp hinit] at hmutex
      cases hmutex
    · rw [(hs.own t').locked.mp ht'] at hmutex
      exact Option.some.inj (Option.some.inj hmutex)
  · have hdone : s.init = .done := by
      by_contra hdone
      rw [hs.status, if_neg hdone] at hrun
      cases hrun
    have hchecked := hs.checked
    rw [hdone] at hchecked
    refine ⟨length_of_mem hs.nodup fun t => (hchecked t).1, fun t => ⟨(hchecked t).1, (hchecked t).2, ?_⟩⟩
    refine (hs.own t).entered ?_
    have hyielded := (hs.own t).yielded.mpr (hchecked t).2
    cases hpc : s.pc t <;> rw [hpc] at hyielded <;> first | rfl | cases hyielded
  · by_contra hpc
    push Not at hpc
    -- Whoever has the mutex can go on; without one, everybody can.
    rcases hheld : s.mutex with _ | (_ | t')
    · have hsome := advance_isSome hs hpc.1 hpc.2 (.inr hheld)
      rw [hstuck t] at hsome
      cases hsome
    · exact hmutex hheld
    · have hlocked := (hs.own t').locked.mpr hheld
      have hsome := advance_isSome hs (fun he => by rw [he] at hlocked; cases hlocked)
        (fun he => by rw [he] at hlocked; cases hlocked) (.inl hlocked)
      rw [hstuck t'] at hsome
      cases hsome

/-- Thread 1 is the first to register; `init` looks once in between. -/
theorem schedule_begun_two : ∃ s, (starting (Fin 2)).Reached s ∧ Begun s ∧ s.status = .running ∧
    s.threadExecVec = [1, 0] ∧ s.threadIdx 0 = some 1 ∧ s.threadIdx 1 = some 0 := by
  obtain ⟨s, hs, hp⟩ := System.exists_reachedBy (starting (Fin 2)) (fun _ _ _ => True)
    ([.start 0, .start 1, .init] ++ List.replicate 4 (.thread 1) ++ List.replicate 3 .init ++
      List.replicate 12 (.thread 0) ++ List.replicate 8 (.thread 1) ++ List.replicate 7 .init)
    (fun s => s.status = .running ∧ s.threadExecVec = [1, 0] ∧ s.threadIdx 0 = some 1 ∧
      s.threadIdx 1 = some 0) (by decide)
  exact ⟨s, hs, schedule_begun hs, hp⟩

end Run

end QuietFlow.Startup
