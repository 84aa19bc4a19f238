import QuietFlow.Schedule.Coctx
import QuietFlow.Schedule.Lifetimes

/-! Switches, instruction by instruction.

`Schedule.exec` takes `coctx_swap` and `coctx_set` as one step. Here they are their
instructions, each a step, on a memory that all workers share: between two of them other
workers execute theirs, run C++ code, make contexts and delete them. `switched` says that
one step was right: whenever a worker is through, it has the registers and the stack of the
context it is on as that context's call of `coctx_swap`, or `coctx_make`, left them, and the
run is one of `crew` (`reached_forget`).

C++ code may write what it wants to its own stack and to memory that belongs to no context,
and an allocation returns memory that no context uses (`Proper`). Memory is sequentially
consistent, and `shrink_physical_memory` is part of the C++ code before the call. -/
namespace QuietFlow.Switches
open Runs Crew Machine Coctx
open Schedule (Shared Worker Act Pc Cont crew)

/-! ### Memory -/

/-- Where the `coctx_t` of a context is, and its stack. -/
structure Place where
  ctx : Word
  base : Word
  size : Word

namespace Place
variable (p : Place)

def area : Set Word := span p.ctx coctxSize

def stack : Set Word := span p.base p.size.toNat

def all : Set Word := p.area ∪ p.stack

structure Good : Prop where
  apart : Disjoint p.area p.stack
  room : Stack p.base p.size

end Place

/-- A context as its call of `coctx_swap`, or `coctx_make`, left it. -/
structure Frozen where
  regs : Reg → Word
  ret : Word
  mem : Mem

structure Board where
  mem : Mem
  place : ℕ → Place
  ----------
  frozen : ℕ → Frozen

/-- A worker, its registers and what is left of a call of `coctx_swap` or `coctx_set`. -/
structure Core where
  worker : Worker
  regs : Reg → Word
  rip : Word
  code : List Instr

def Core.state (w : Core) (m : Mem) : State := ⟨w.regs, m, w.rip⟩

inductive Move where
  | instr
  /-- C++ code. -/
  | compute (regs : Reg → Word) (rip : Word) (mem : Mem)
  /-- A step of `Schedule.exec`, with the place of the context it makes. -/
  | act (a : Act) (p : Place)

/-- `call` of a function with two arguments, with the return address on the stack. -/
def call (regs : Reg → Word) (m : Mem) (ret rdi rsi : Word) : State :=
  let sp := regs .rsp - 8
  let regs := Function.update (Function.update regs .rdi rdi) .rsi rsi
  ⟨Function.update regs .rsp sp, write m sp ret, ret⟩

section Machine
variable (jumpInSchedule : Word)

/-- `swap_new_context`, from `coctx_init` to `coctx_make`. -/
def prepare (p : Place) (m : Mem) : Mem :=
  let m := coctxInit p.ctx m
  let m := write m (off p.ctx 120) p.base
  let m := write m (off p.ctx 112) p.size
  coctxMake p.ctx jumpInSchedule 0 0 m

/-- What the statement does to memory; `v` is the worker after it, `n` the context it makes. -/
def enter (b : Board) (w : Core) (v : Worker) (n : ℕ) (p : Place) : Board × Core :=
  match w.worker.pc with
  | .created => ({b with place := Function.update b.place n p}, {w with worker := v})
  | .swapNew out _ =>
    let s := call w.regs (prepare jumpInSchedule p b.mem) w.rip (b.place out).ctx p.ctx
    ({ mem := s.mem
       place := Function.update b.place n p
       frozen := Function.update (Function.update b.frozen out ⟨s.regs, w.rip, s.mem⟩) n
        ⟨fresh (top p.base p.size) 0 0, jumpInSchedule, s.mem⟩ },
      ⟨v, s.regs, s.rip, coctxSwap⟩)
  | .setPtr _ c =>
    let s := call w.regs b.mem w.rip 0 (b.place c).ctx
    ({b with mem := s.mem}, ⟨v, s.regs, s.rip, coctxSet⟩)
  | _ => (b, {w with worker := v})

def execute (x : Shared × Board) (w : Core) (m : Move) : Option ((Shared × Board) × Core) :=
  match w.code, m with
  | [], .compute regs rip mem => some ((x.1, {x.2 with mem := mem}), {w with regs := regs, rip := rip})
  | [], .act a p => (Schedule.exec x.1 w.worker a).map fun y =>
    ((y.1, (enter jumpInSchedule x.2 w y.2 x.1.contexts p).1),
      (enter jumpInSchedule x.2 w y.2 x.1.contexts p).2)
  | [i], .instr =>
    let s := i.exec (w.state x.2.mem)
    -- the `ret` of the call: the step that `Schedule.exec` takes for all of it
    (Schedule.exec x.1 w.worker .step).map fun y =>
      ((y.1, {x.2 with mem := s.mem}), ⟨y.2, s.regs, s.rip, []⟩)
  | i :: j :: rest, .instr =>
    let s := i.exec (w.state x.2.mem)
    some ((x.1, {x.2 with mem := s.mem}), ⟨w.worker, s.regs, s.rip, j :: rest⟩)
  | _, _ => none

def machine (stored : ℤ) : Crew (Shared × Board) Core Move where
  start := ((crew stored).start, ⟨fun _ => 0, fun _ => ⟨0, 0, 0⟩, fun _ => ⟨fun _ => 0, 0, fun _ => 0⟩⟩)
  place := ⟨(crew stored).place, fun _ => 0, 0, []⟩
  exec := execute jumpInSchedule

end Machine

section Proper
variable {T : Type}

/-- What the code around the calls, and the allocator, keep to. -/
structure Proper (s : Crew.Config (Shared × Board) Core T) (a : T × Move)
    (s' : Crew.Config (Shared × Board) Core T) : Prop where
  /-- Code writes to no `coctx_t` and to no stack of another context. -/
  compute : ∀ regs rip mem, a.2 = .compute regs rip mem → ∀ c ∈ s.shared.1.live,
    Set.EqOn mem s.shared.2.mem (s.shared.2.place c).area ∧
      (c ∉ (s.places a.1).worker.owned → Set.EqOn mem s.shared.2.mem (s.shared.2.place c).stack)
  /-- A new context gets memory that no other uses. -/
  place : ∀ act p, a.2 = .act act p → s.shared.1.contexts < s'.shared.1.contexts →
    p.Good ∧ ∀ c ∈ s.shared.1.live, Disjoint p.all (s.shared.2.place c).all
  /-- The stack has room for the return address. -/
  call : ∀ act p, a.2 = .act act p → (s'.places a.1).code ≠ [] →
    span ((s.places a.1).regs .rsp - 8) 8 ⊆ (s.shared.2.place (s.places a.1).worker.stack).stack

def forget (s : Crew.Config (Shared × Board) Core T) : Crew.Config Shared Worker T :=
  ⟨s.shared.1, fun t => (s.places t).worker⟩

end Proper

/-! ### What a step can do -/

section Step
variable {jumpInSchedule : Word} {x : Shared × Board} {w : Core}

inductive Does (jumpInSchedule : Word) (x : Shared × Board) (w : Core) :
    Move → Shared × Board → Core → Prop where
  | compute {regs rip mem} : w.code = [] →
    Does jumpInSchedule x w (.compute regs rip mem) (x.1, {x.2 with mem := mem})
      {w with regs := regs, rip := rip}
  | act {a p y v} : w.code = [] → Schedule.exec x.1 w.worker a = some (y, v) →
    Does jumpInSchedule x w (.act a p)
      (y, (enter jumpInSchedule x.2 w v x.1.contexts p).1) (enter jumpInSchedule x.2 w v x.1.contexts p).2
  | instr {i j rest} : w.code = i :: j :: rest →
    Does jumpInSchedule x w .instr (x.1, {x.2 with mem := (i.exec (w.state x.2.mem)).mem})
      ⟨w.worker, (i.exec (w.state x.2.mem)).regs, (i.exec (w.state x.2.mem)).rip, j :: rest⟩
  | last {i y v} : w.code = [i] → Schedule.exec x.1 w.worker .step = some (y, v) →
    Does jumpInSchedule x w .instr (y, {x.2 with mem := (i.exec (w.state x.2.mem)).mem})
      ⟨v, (i.exec (w.state x.2.mem)).regs, (i.exec (w.state x.2.mem)).rip, []⟩

theorem does_of_execute {m : Move} {x' : Shared × Board} {w' : Core}
    (h : execute jumpInSchedule x w m = some (x', w')) : Does jumpInSchedule x w m x' w' := by
  unfold execute at h
  split at h
  · next hcode =>
    cases h
    exact .compute hcode
  · next hcode =>
    obtain ⟨⟨y, v⟩, hexec, heq⟩ := Option.map_eq_some_iff.mp h
    cases heq
    exact .act hcode hexec
  · next hcode =>
    obtain ⟨⟨y, v⟩, hexec, heq⟩ := Option.map_eq_some_iff.mp h
    cases heq
    exact .last hcode hexec
  · next hcode =>
    cases h
    exact .instr hcode
  · cases h

end Step

section Run
variable {T : Type} [Fintype T] [DecidableEq T] {jumpInSchedule : Word} {stored : ℤ}
  {s : Crew.Config (Shared × Board) Core T}

theorem enter_worker (b : Board) (w : Core) (v : Worker) (n : ℕ) (p : Place) :
    (enter jumpInSchedule b w v n p).2.worker = v := by
  rw [enter]
  split <;> rfl

omit [Fintype T] in
/-- A run of the machine is a run of the workers, in which most instructions are no step. -/
theorem reached_forget (h : ((machine jumpInSchedule stored).system T).ReachedBy Proper s) :
    ((crew stored).system T).Reached (forget s) := by
  refine h.simulate (f := forget) rfl fun s ⟨t, m⟩ s' _ _ hstep _ => ?_
  obtain ⟨⟨x, w⟩, hexec, hs⟩ := Option.map_eq_some_iff.mp hstep
  cases hs
  have hplaces : (forget ⟨x, Function.update s.places t w⟩).places =
      Function.update (forget s).places t w.worker := by
    funext t'
    by_cases ht : t' = t
    · subst ht
      simp [forget]
    · simp [forget, Function.update_of_ne ht]
  have hforget : ∀ y, x.1 = y → forget ⟨x, Function.update s.places t w⟩ =
      ⟨y, Function.update (forget s).places t w.worker⟩ := fun y hy => by
    rw [← hplaces, ← hy]
    rfl
  have hstay : x.1 = s.shared.1 → w.worker = (s.places t).worker →
      forget ⟨x, Function.update s.places t w⟩ = forget s := fun hx hw => by
    rw [hforget _ hx, hw]
    show (⟨s.shared.1, Function.update (forget s).places t ((forget s).places t)⟩ :
      Crew.Config Shared Worker T) = forget s
    rw [Function.update_eq_self]
    rfl
  have hmove : ∀ a y v, Schedule.exec s.shared.1 (s.places t).worker a = some (y, v) → x.1 = y →
      w.worker = v → ((crew stored).system T).step (forget s) (t, a) =
        some (forget ⟨x, Function.update s.places t w⟩) := fun a y v he hx hw => by
    rw [hforget y hx, hw]
    show (Schedule.exec s.shared.1 (s.places t).worker a).map _ = _
    rw [he]
    rfl
  cases does_of_execute hexec with
  | compute => exact .inl (hstay rfl rfl)
  | act hcode he => exact .inr ⟨_, hmove _ _ _ he rfl (enter_worker _ _ _ _ _), trivial⟩
  | instr => exact .inl (hstay rfl rfl)
  | last hcode he => exact .inr ⟨_, hmove _ _ _ he rfl rfl, trivial⟩

end Run

/-! ### Contexts of a crew -/

section Crew
variable {T : Type} [Fintype T] [DecidableEq T] {stored : ℤ} {s : Crew.Config Shared Worker T} {c : ℕ}
  {t t' : T} (h : ((crew stored).system T).Reached s)
include h

theorem live_of_owned (hc : c ∈ (s.places t).owned) : c ∈ s.shared.live := by
  obtain ⟨hlt, -, -, hfreed⟩ := Schedule.owned_only h hc
  exact Finset.mem_filter.mpr ⟨Finset.mem_range.mpr hlt, hfreed⟩

theorem live_of_saved (hc : c ∈ s.shared.saved.map Schedule.Saved.context) : c ∈ s.shared.live := by
  have hle := Schedule.saved_count_le h (c := c)
  have hpos := List.count_pos_iff.mpr hc
  split at hle
  · next hlt =>
    exact Finset.mem_filter.mpr ⟨Finset.mem_range.mpr hlt, List.count_eq_zero.mp (by omega)⟩
  · omega

theorem crossing_count :
    census (fun w : Worker => (w.crossing.count c : ℤ)) s.places ≤
      (s.shared.saved.map Schedule.Saved.context).count c := by
  have hleft := (Schedule.yields_of_reached h).balance c
  have hyields := Schedule.yields_nonneg s.shared.status c
  rw [Shared.left] at hleft
  omega

theorem saved_of_crossing (hc : c ∈ (s.places t).crossing) :
    c ∈ s.shared.saved.map Schedule.Saved.context := by
  have hone := le_census (f := fun w : Worker => (w.crossing.count c : ℤ))
    (fun w => Int.natCast_nonneg _) s.places t
  have hcount := crossing_count h (c := c)
  have hpos := List.count_pos_iff.mpr hc
  exact List.count_pos_iff.mp (by omega)

theorem crossing_unique (hc : c ∈ (s.places t).crossing) (hc' : c ∈ (s.places t').crossing) : t = t' := by
  by_contra hne
  have htwo := two_le_census (f := fun w : Worker => (w.crossing.count c : ℤ)) (p := s.places)
    (fun w => Int.natCast_nonneg _) hne (by exact_mod_cast List.count_pos_iff.mpr hc)
    (by exact_mod_cast List.count_pos_iff.mpr hc')
  have hcount := crossing_count h (c := c)
  have hle := Schedule.saved_count_le h (c := c)
  split at hle <;> omega

theorem not_owned_of_saved (hc : c ∈ s.shared.saved.map Schedule.Saved.context) :
    c ∉ (s.places t).owned := fun ht => (Schedule.owned_only h ht).2.2.1 hc

end Crew

/-! ### What the machine keeps -/

def Core.jumps (w : Core) : Option ℕ :=
  match w.worker.pc with
  | .jump _ => w.worker.contextPtr
  | _ => none

theorem Core.crossing_of_jumps {w : Core} {c : ℕ} (h : w.jumps = some c) : c ∈ w.worker.crossing := by
  unfold Core.jumps at h
  unfold Worker.crossing
  split at h
  · next b hpc =>
    rw [hpc, h]
    exact List.mem_singleton_self c
  · cases h

/-- The contexts that the call of a worker reads and writes. -/
def Core.grips (w : Core) : List ℕ :=
  match w.worker.pc with
  | .swap out _ => out :: w.worker.contextPtr.toList
  | .jump _ => w.worker.contextPtr.toList
  | _ => []

/-- A context is where it was, as it was. -/
structure Same (b b' : Board) (c : ℕ) : Prop where
  place : b'.place c = b.place c
  frozen : b'.frozen c = b.frozen c
  mem : Set.EqOn b.mem b'.mem (b.place c).all

/-- A context that can be switched to, as it was left. -/
structure Rests (m : Mem) (p : Place) (f : Frozen) : Prop where
  saved : Coctx.Saved m p.ctx f.regs f.ret
  top : span (f.regs .rsp) 8 ⊆ p.stack
  stack : Set.EqOn m f.mem p.stack

/-- What is left of a call stays in `A` and ends in context `c`. -/
structure Lands (b : Board) (w : Core) (A : Set Word) (c : ℕ) : Prop where
  within : Within A w.code (w.state b.mem)
  restored : Restored (Machine.run w.code (w.state b.mem)) (b.frozen c).regs (b.frozen c).ret
  stack : Set.EqOn (Machine.run w.code (w.state b.mem)).mem (b.frozen c).mem (b.place c).stack

/-- A worker is in a call only at the statement that makes it. -/
def Moving (b : Board) (w : Core) : Prop :=
  match w.worker.pc with
  | .swap out _ => w.code ≠ [] ∧ ∃ c, w.worker.contextPtr = some c ∧
    Lands b w ((b.place out).all ∪ (b.place c).all) c ∧
      Rests (Machine.run w.code (w.state b.mem)).mem (b.place out) (b.frozen out)
  | .jump _ => w.code ≠ [] ∧ ∃ c, w.worker.contextPtr = some c ∧ Lands b w (b.place c).all c
  | _ => w.code = []

section Frame
variable {b b' : Board} {w : Core} {A : Set Word} {c : ℕ}

theorem area_subset (p : Place) : span p.ctx 112 ⊆ p.area := by
  have h : span (off p.ctx 0) 112 ⊆ span p.ctx coctxSize := span_subset (by decide) (by decide)
  rwa [off_zero] at h

theorem Rests.congr {m m' : Mem} {p : Place} {f : Frozen} (h : Rests m p f) (hm : Set.EqOn m m' p.all) :
    Rests m' p f where
  saved := h.saved.congr (hm.mono ((area_subset p).trans Set.subset_union_left))
    (hm.mono (h.top.trans Set.subset_union_right))
  top := h.top
  stack := (hm.mono Set.subset_union_right).symm.trans h.stack

theorem Rests.same (h : Rests b.mem (b.place c) (b.frozen c)) (hc : Same b b' c) :
    Rests b'.mem (b'.place c) (b'.frozen c) := by
  rw [hc.place, hc.frozen]
  exact h.congr hc.mem

/-- What others write elsewhere changes nothing for a call. -/
theorem Lands.same (h : Lands b w A c) (hA : Set.EqOn b.mem b'.mem A) (hcA : (b.place c).all ⊆ A)
    (hc : Same b b' c) : Lands b' w A c := by
  have hagree : Agree A (w.state b.mem) (w.state b'.mem) := ⟨rfl, rfl, hA⟩
  obtain ⟨hwithin, hregs, hrip, hmem⟩ := run_agrees hagree h.within
  refine ⟨hwithin, ⟨fun p hp hne => ?_, ?_, ?_, ?_⟩, ?_⟩
  · rw [← hregs, hc.frozen]
    exact h.restored.kept p hp hne
  · rw [← hregs, hc.frozen]
    exact h.restored.rsi
  · rw [← hregs, hc.frozen]
    exact h.restored.rsp
  · rw [← hrip, hc.frozen]
    exact h.restored.rip
  · rw [hc.frozen, hc.place]
    exact (hmem.symm.mono (Set.subset_union_right.trans hcA)).trans h.stack

theorem Moving.same (h : Moving b w) (hw : ∀ c ∈ w.grips, Same b b' c) : Moving b' w := by
  unfold Moving at *
  unfold Core.grips at hw
  split at h
  · next out k hpc =>
    simp only [hpc] at hw ⊢
    obtain ⟨hcode, c, hptr, hlands, hrests⟩ := h
    have hout := hw out List.mem_cons_self
    have hc := hw c (by simp [hptr])
    have hA : Set.EqOn b.mem b'.mem ((b.place out).all ∪ (b.place c).all) := hout.mem.union hc.mem
    have hagree : Agree ((b.place out).all ∪ (b.place c).all) (w.state b.mem) (w.state b'.mem) :=
      ⟨rfl, rfl, hA⟩
    obtain ⟨-, -, -, hmem⟩ := run_agrees hagree hlands.within
    refine ⟨hcode, c, hptr, ?_, ?_⟩
    · rw [hout.place, hc.place]
      exact hlands.same hA Set.subset_union_right hc
    · rw [hout.place, hout.frozen]
      exact hrests.congr (hmem.mono Set.subset_union_left)
  · next bk hpc =>
    simp only [hpc] at hw ⊢
    obtain ⟨hcode, c, hptr, hlands⟩ := h
    have hc := hw c (by simp [hptr])
    refine ⟨hcode, c, hptr, ?_⟩
    rw [hc.place]
    exact hlands.same hc.mem subset_rfl hc
  · exact h

end Frame

/-! ### A call begins -/

section Call
variable {jumpInSchedule : Word} {b : Board} {w : Core} {v : Worker} {p : Place} {n out c : ℕ} {m : Mem}
  {A : Set Word}

variable (jumpInSchedule) in
theorem prepare_make (p : Place) (m : Mem) : ∃ m' : Mem,
    prepare jumpInSchedule p m = coctxMake p.ctx jumpInSchedule 0 0 m' ∧
      read m' (off p.ctx 120) = p.base ∧ read m' (off p.ctx 112) = p.size ∧
        ∀ A, Disjoint p.area A → Set.EqOn m' m A := by
  refine ⟨_, rfl, ?_, read_write _ _ _, fun A hA => ?_⟩
  · rw [read_write_of_disjoint (disjoint_off (by decide) (by decide) (by decide)), read_write]
  · have hword : ∀ k, k + 8 ≤ coctxSize → Disjoint (span (off p.ctx k) 8) A := fun k hk =>
      hA.mono_left (span_subset hk (by decide))
    exact (write_eqOn (hword 112 (by decide))).trans
      ((write_eqOn (hword 120 (by decide))).trans (zero_eqOn hA))

theorem top_subset (h : p.Good) : span (top p.base p.size) 8 ⊆ p.stack := top_mem h.room

theorem prepare_saved (h : p.Good) (m : Mem) :
    Coctx.Saved (prepare jumpInSchedule p m) p.ctx (fresh (top p.base p.size) 0 0) jumpInSchedule := by
  obtain ⟨m', hmake, hbase, hsize, -⟩ := prepare_make jumpInSchedule p m
  rw [hmake]
  exact make_saved (h.apart.symm.mono (top_subset h) (area_subset p)) hbase hsize

theorem prepare_keeps (h : p.Good) (hA : Disjoint p.all A) :
    Set.EqOn (prepare jumpInSchedule p m) m A := by
  obtain ⟨m', hmake, hbase, hsize, hkeep⟩ := prepare_make jumpInSchedule p m
  rw [hmake]
  refine (make_keeps hbase hsize ?_).trans (hkeep A (hA.mono_left Set.subset_union_left))
  exact hA.mono_left (Set.union_subset_union (area_subset p) (top_subset h))

theorem call_keeps {regs : Reg → Word} {ret rdi rsi : Word} (hA : Disjoint (span (regs .rsp - 8) 8) A) :
    Set.EqOn (call regs m ret rdi rsi).mem m A := write_eqOn hA

/-- At its call of `coctx_swap`, a worker will save its context and land in the new one. -/
theorem moving_swap {k : Cont} (hpc : w.worker.pc = .swapNew out k) (hv : v.pc = .swap out k)
    (hptr : v.contextPtr = some n) (hne : out ≠ n) (hp : p.Good) (hout : (b.place out).Good)
    (hapart : Disjoint p.all (b.place out).all)
    (hcall : span (w.regs .rsp - 8) 8 ⊆ (b.place out).stack) :
    Moving (enter jumpInSchedule b w v n p).1 (enter jumpInSchedule b w v n p).2 := by
  obtain ⟨hareas, hareaStack⟩ := Set.disjoint_union_right.mp (hapart.mono_left Set.subset_union_left)
  obtain ⟨hstackArea, hstacks⟩ := Set.disjoint_union_right.mp (hapart.mono_left Set.subset_union_right)
  let s : State := call w.regs (prepare jumpInSchedule p b.mem) w.rip (b.place out).ctx p.ctx
  have hdi : s.regs .rdi = (b.place out).ctx := by simp [s, call]
  have hsi : s.regs .rsi = p.ctx := by simp [s, call]
  have hsp : s.regs .rsp = w.regs .rsp - 8 := by simp [s, call]
  have hret : read s.mem (s.regs .rsp) = w.rip := by rw [hsp]; exact read_write _ _ _
  have hnew : Coctx.Saved s.mem (s.regs .rsi) (fresh (top p.base p.size) 0 0) jumpInSchedule := by
    rw [hsi]
    have hkeep : ∀ A, Disjoint (b.place out).stack A → Set.EqOn (prepare jumpInSchedule p b.mem) s.mem A :=
      fun A hA => (call_keeps (hA.mono_left hcall)).symm
    exact (prepare_saved hp b.mem).congr (hkeep _ (hareaStack.symm.mono_right (area_subset p)))
      (hkeep _ (hstacks.symm.mono_right (top_subset hp)))
  have hcaller : Caller s := ⟨by rw [hdi, hsp]; exact hout.apart.mono (area_subset _) hcall⟩
  have hother : Other s (fresh (top p.base p.size) 0 0) :=
    ⟨by rw [hdi, hsi]; exact hareas.symm.mono (area_subset _) (area_subset p),
      by rw [hdi]; exact hstackArea.symm.mono (area_subset _) (top_subset hp)⟩
  obtain ⟨hrestored, hsaved, hkeep⟩ := swap_spec hnew hcaller hother
  rw [hdi] at hkeep hsaved
  rw [hret] at hsaved
  have hwithin : Within ((b.place out).all ∪ p.all) coctxSwap s := by
    refine within_swap hnew hother ?_ ?_ ?_ ?_
    · rw [hdi]
      exact (area_subset _).trans (Set.subset_union_left.trans Set.subset_union_left)
    · rw [hsp]
      exact hcall.trans (Set.subset_union_right.trans Set.subset_union_left)
    · rw [hsi]
      exact (area_subset p).trans (Set.subset_union_left.trans Set.subset_union_right)
    · exact (top_subset hp).trans (Set.subset_union_right.trans Set.subset_union_right)
  have henter : enter jumpInSchedule b w v n p =
      ({ mem := s.mem
         place := Function.update b.place n p
         frozen := Function.update (Function.update b.frozen out ⟨s.regs, w.rip, s.mem⟩) n
          ⟨fresh (top p.base p.size) 0 0, jumpInSchedule, s.mem⟩ },
        ⟨v, s.regs, s.rip, coctxSwap⟩) := by
    unfold enter
    rw [hpc]
  rw [henter]
  simp only [Moving, hv]
  refine ⟨List.cons_ne_nil _ _, n, hptr, ⟨?_, ?_, ?_⟩, ?_⟩
  · simp only [Function.update_self, Function.update_of_ne hne]
    exact hwithin
  · simp only [Function.update_self]
    exact hrestored
  · simp only [Function.update_self]
    exact hkeep.mono (hstackArea.mono_right (area_subset _)).subset_compl_right
  · simp only [Function.update_self, Function.update_of_ne hne]
    have htop : span (s.regs .rsp) 8 ⊆ (b.place out).stack := by rw [hsp]; exact hcall
    refine ⟨hsaved, htop, ?_⟩
    exact hkeep.mono (hout.apart.symm.mono_right (area_subset _)).subset_compl_right

/-- At its call of `coctx_set`, a worker will land in a context that rests. -/
theorem moving_jump {bk : ℕ} (hpc : w.worker.pc = .setPtr bk c) (hv : v.pc = .jump bk)
    (hptr : v.contextPtr = some c) (hrests : Rests b.mem (b.place c) (b.frozen c))
    (hapart : Disjoint (span (w.regs .rsp - 8) 8) (b.place c).all) :
    Moving (enter jumpInSchedule b w v n p).1 (enter jumpInSchedule b w v n p).2 := by
  let s : State := call w.regs b.mem w.rip 0 (b.place c).ctx
  have hsi : s.regs .rsi = (b.place c).ctx := by simp [s, call]
  have hrests' : Rests s.mem (b.place c) (b.frozen c) := hrests.congr (call_keeps hapart).symm
  have hsaved : Coctx.Saved s.mem (s.regs .rsi) (b.frozen c).regs (b.frozen c).ret := by
    rw [hsi]
    exact hrests'.saved
  obtain ⟨hrestored, hmem⟩ := set_restores hsaved
  have henter : enter jumpInSchedule b w v n p =
      ({b with mem := s.mem}, ⟨v, s.regs, s.rip, coctxSet⟩) := by
    unfold enter
    rw [hpc]
  rw [henter]
  simp only [Moving, hv]
  have hwithin : Within (b.place c).all coctxSet s := by
    refine within_set hsaved ?_ (hrests.top.trans Set.subset_union_right)
    rw [hsi]
    exact (area_subset _).trans Set.subset_union_left
  refine ⟨List.cons_ne_nil _ _, c, hptr, hwithin, hrestored, ?_⟩
  · show Set.EqOn (Machine.run coctxSet s).mem _ _
    rw [hmem]
    exact hrests'.stack

end Call

/-! ### What a step of a worker means for its calls -/

section Effect
variable {x x' : Shared} {v v' : Worker} {c : ℕ}

theorem live_step (h : Schedule.Effect x v x' v') (hc : c ∈ x'.live) :
    c ∈ x.live ∨ c = x.contexts ∧ x.contexts < x'.contexts := by
  have hmake : c ∈ x.newContext.live → c ∈ x.live ∨ c = x.contexts ∧ x.contexts < x.contexts + 1 := by
    intro hc
    obtain ⟨hlt, hfreed⟩ := Finset.mem_filter.mp hc
    rcases Nat.lt_succ_iff_lt_or_eq.mp (Finset.mem_range.mp hlt) with hlt | heq
    · exact .inl (Finset.mem_filter.mpr ⟨Finset.mem_range.mpr hlt, hfreed⟩)
    · exact .inr ⟨heq, Nat.lt_succ_self _⟩
  cases h
  case created | swapNew => exact hmake hc
  case resumedDelete =>
    obtain ⟨hlt, hfreed⟩ := Finset.mem_filter.mp hc
    exact .inl (Finset.mem_filter.mpr ⟨hlt, fun hin => hfreed (List.mem_append_left _ hin)⟩)
  all_goals exact .inl hc

theorem contexts_eq (h : Schedule.Effect x v x' v') (hcreated : v.pc ≠ .created)
    (hswap : ∀ out k, v.pc ≠ .swapNew out k) : x'.contexts = x.contexts := by
  cases h
  case created => exact absurd rfl hcreated
  case swapNew => exact absurd rfl (hswap _ _)
  all_goals rfl

theorem saved_step (h : Schedule.Effect x v x' v') (hc : c ∈ x'.saved.map Schedule.Saved.context) :
    c ∈ x.saved.map Schedule.Saved.context ∨ ∃ k, v.pc = .swap c k := by
  cases h
  case swap st d q out k =>
    rw [List.map_append, List.mem_append] at hc
    rcases hc with hc | hc
    · exact .inl hc
    · rw [List.map_singleton, List.mem_singleton] at hc
      exact .inr ⟨k, by rw [hc]⟩
  case jump st d q b w hmem =>
    obtain ⟨e, he, rfl⟩ := List.mem_map.mp hc
    exact .inl (List.mem_map_of_mem (List.mem_of_mem_erase he))
  all_goals exact .inl hc

theorem saved_of_setPtr {b d : ℕ} (h : Schedule.Effect x v x' v') (hpc : v.pc = .setPtr b d)
    (hc : c ∈ x'.saved.map Schedule.Saved.context) : c ∈ x.saved.map Schedule.Saved.context := by
  rcases saved_step h hc with hsaved | ⟨k, hswap⟩
  · exact hsaved
  · rw [hpc] at hswap
    cases hswap

/-- The statements that call, and what they leave in `context_ptr`. -/
theorem call_step (h : Schedule.Effect x v x' v') :
    (∃ out k, v.pc = .swapNew out k ∧ v'.pc = .swap out k ∧ v'.contextPtr = some x.contexts ∧
        x.contexts < x'.contexts) ∨
      (∃ b c, v.pc = .setPtr b c ∧ v'.pc = .jump b ∧ v'.contextPtr = some c) ∨
        (∀ out k, v.pc ≠ .swapNew out k) ∧ (∀ b c, v.pc ≠ .setPtr b c) ∧
          (∀ out k, v'.pc ≠ .swap out k) ∧ ∀ b, v'.pc ≠ .jump b := by
  cases h
  case swapNew => exact .inl ⟨_, _, rfl, rfl, rfl, Nat.lt_succ_self _⟩
  case setPtr => exact .inr (.inl ⟨_, _, rfl, rfl, rfl⟩)
  all_goals exact .inr (.inr ⟨by simp, by simp, by simp, by simp⟩)

/-- The statements that a call ends at. -/
theorem return_step (h : Schedule.Effect x v x' v') :
    (∀ out k, v.pc = .swap out k → v'.pc = .enter ∧ v.contextPtr = some v'.stack) ∧
      ∀ b, v.pc = .jump b → (∃ w, v'.pc = .resumed w) ∧ v.contextPtr = some v'.stack := by
  cases h
  case swap => exact ⟨fun _ _ _ => ⟨rfl, rfl⟩, by simp⟩
  case jump => exact ⟨by simp, fun _ _ => ⟨⟨_, rfl⟩, rfl⟩⟩
  all_goals exact ⟨by simp, by simp⟩

end Effect

section Moving
variable {b : Board} {w : Core}

theorem Moving.idle (h : Moving b w) (hcode : w.code = []) :
    (∀ out k, w.worker.pc ≠ .swap out k) ∧ ∀ bk, w.worker.pc ≠ .jump bk := by
  refine ⟨fun out k hpc => ?_, fun bk hpc => ?_⟩
  · simp only [Moving, hpc] at h
    exact h.1 hcode
  · simp only [Moving, hpc] at h
    exact h.1 hcode

theorem moving_of_idle (hcode : w.code = []) (hswap : ∀ out k, w.worker.pc ≠ .swap out k)
    (hjump : ∀ bk, w.worker.pc ≠ .jump bk) : Moving b w := by
  unfold Moving
  split
  · next hpc => exact absurd hpc (hswap _ _)
  · next hpc => exact absurd hpc (hjump _)
  · exact hcode

/-- A worker with instructions left is in a call. -/
theorem Moving.calling (h : Moving b w) (hcode : w.code ≠ []) :
    ∃ A c, w.worker.contextPtr = some c ∧ Lands b w A c ∧ (A = (b.place c).all ∧ w.jumps = some c ∨
      ∃ out k, w.worker.pc = .swap out k ∧ A = (b.place out).all ∪ (b.place c).all ∧
        Rests (Machine.run w.code (w.state b.mem)).mem (b.place out) (b.frozen out)) := by
  unfold Moving at h
  split at h
  · next out k hpc =>
    obtain ⟨-, c, hptr, hlands, hrests⟩ := h
    exact ⟨_, c, hptr, hlands, .inr ⟨out, k, hpc, rfl, hrests⟩⟩
  · next bk hpc =>
    obtain ⟨-, c, hptr, hlands⟩ := h
    exact ⟨_, c, hptr, hlands, .inl ⟨rfl, by rw [Core.jumps, hpc]; exact hptr⟩⟩
  · exact absurd h hcode

/-- The next instruction, of several. -/
theorem Moving.tail {i j : Instr} {rest : List Instr} (h : Moving b w) (hcode : w.code = i :: j :: rest) :
    Moving {b with mem := (i.exec (w.state b.mem)).mem}
      ⟨w.worker, (i.exec (w.state b.mem)).regs, (i.exec (w.state b.mem)).rip, j :: rest⟩ := by
  have hlands : ∀ {A c}, Lands b w A c → Lands {b with mem := (i.exec (w.state b.mem)).mem}
      ⟨w.worker, (i.exec (w.state b.mem)).regs, (i.exec (w.state b.mem)).rip, j :: rest⟩ A c := by
    rintro A c ⟨hwithin, hrestored, hstack⟩
    rw [hcode] at hwithin hrestored hstack
    exact ⟨hwithin.2, hrestored, hstack⟩
  unfold Moving at *
  split at h
  · next out k hpc =>
    obtain ⟨-, c, hptr, hland, hrests⟩ := h
    rw [hcode] at hrests
    simp only [hpc]
    exact ⟨List.cons_ne_nil _ _, c, hptr, hlands hland, hrests⟩
  · next bk hpc =>
    obtain ⟨-, c, hptr, hland⟩ := h
    simp only [hpc]
    exact ⟨List.cons_ne_nil _ _, c, hptr, hlands hland⟩
  · rw [h] at hcode
    cases hcode

end Moving

/-! ### Along a run -/

section Kept
variable {T : Type} {jumpInSchedule : Word} {stored : ℤ}
  {s s' : Crew.Config (Shared × Board) Core T} {t : T} {m : Move} {c : ℕ}

/-- Live contexts are apart, those that were left rest, and every call lands. -/
structure Kept (s : Crew.Config (Shared × Board) Core T) : Prop where
  good : ∀ c ∈ s.shared.1.live, (s.shared.2.place c).Good
  apart : ∀ c ∈ s.shared.1.live, ∀ d ∈ s.shared.1.live, c ≠ d →
    Disjoint (s.shared.2.place c).all (s.shared.2.place d).all
  rests : ∀ c ∈ s.shared.1.saved.map Schedule.Saved.context, (∀ t, (s.places t).jumps ≠ some c) →
    Rests s.shared.2.mem (s.shared.2.place c) (s.shared.2.frozen c)
  moving : ∀ t, Moving s.shared.2 (s.places t)

theorem lt_of_live {x : Shared} (hc : c ∈ x.live) : c < x.contexts :=
  Finset.mem_range.mp (Finset.mem_filter.mp hc).1

section Took
variable [Fintype T] [DecidableEq T]
  (htook : (machine jumpInSchedule stored).Took Proper s t m s') (hkept : Kept s)
include htook

omit [Fintype T] in
theorem does : Does jumpInSchedule s.shared (s.places t) m s'.shared (s'.places t) :=
  does_of_execute htook.exec

omit [Fintype T] in
/-- A context is where it was made. -/
theorem place_step (hc : c < s.shared.1.contexts) : s'.shared.2.place c = s.shared.2.place c := by
  have hne : c ≠ s.shared.1.contexts := hc.ne
  have hdoes := does htook
  generalize s'.shared = x' at hdoes
  generalize s'.places t = w' at hdoes
  cases hdoes with
  | compute | instr | last => rfl
  | act hcode hexec =>
    unfold enter
    split
    · exact Function.update_of_ne hne _ _
    · exact Function.update_of_ne hne _ _
    · rfl
    · rfl

include hkept

/-- The memory of a call is that of contexts which the worker owns or jumps to. -/
theorem disjoint_call (hc : c ∈ s.shared.1.live) (howned : c ∉ (s.places t).worker.owned)
    (hjumps : (s.places t).jumps ≠ some c) (hcode : (s.places t).code ≠ []) :
    ∃ A d, Lands s.shared.2 (s.places t) A d ∧ Disjoint A (s.shared.2.place c).all := by
  have hreached := reached_forget htook.reached
  have hsound := (Schedule.linked hreached).sound t
  have hapart : ∀ {d}, d ∈ s.shared.1.live → d ≠ c →
      Disjoint (s.shared.2.place d).all (s.shared.2.place c).all := fun hd hne =>
    hkept.apart _ hd c hc hne
  obtain ⟨A, d, hptr, hlands, hcases⟩ := (hkept.moving t).calling hcode
  refine ⟨A, d, hlands, ?_⟩
  rcases hcases with ⟨rfl, hjump⟩ | ⟨out, k, hpc, rfl, -⟩
  · have hsaved := saved_of_crossing hreached (t := t) (Core.crossing_of_jumps hjump)
    refine hapart (live_of_saved hreached hsaved) ?_
    rintro rfl
    exact hjumps hjump
  · have howns : (s.places t).worker.owned = [(s.places t).worker.stack, d] := by
      rw [Worker.owned, hpc, hptr]
      rfl
    rw [Worker.Sound] at hsound
    have hout : out = (s.places t).worker.stack := by
      have hsound' : ((forget s).places t).pc = .swap out k := hpc
      simp only [hsound'] at hsound
      exact hsound.1
    have hmem : ∀ e ∈ [(s.places t).worker.stack, d], e ∈ s.shared.1.live ∧ e ≠ c := by
      intro e he
      rw [← howns] at he
      refine ⟨live_of_owned hreached (t := t) he, ?_⟩
      rintro rfl
      exact howned he
    rw [hout]
    obtain ⟨hlive, hne⟩ := hmem _ List.mem_cons_self
    obtain ⟨hlive', hne'⟩ := hmem d (List.mem_cons_of_mem _ List.mem_cons_self)
    exact Set.disjoint_union_left.mpr ⟨hapart hlive hne, hapart hlive' hne'⟩

/-- What a step writes, it writes to its worker's own contexts, to the one it jumps to, to a
new one, and where there is none. -/
theorem same_step (hc : c ∈ s.shared.1.live) (howned : c ∉ (s.places t).worker.owned)
    (hjumps : (s.places t).jumps ≠ some c) : Same s.shared.2 s'.shared.2 c := by
  have hreached := reached_forget htook.reached
  have hsound := (Schedule.linked hreached).sound t
  have hne : c ≠ s.shared.1.contexts := (lt_of_live hc).ne
  -- its own stack is another
  have hstack : (s.places t).worker.pc ≠ .created →
      span ((s.places t).regs .rsp - 8) 8 ⊆ (s.shared.2.place (s.places t).worker.stack).stack →
        Disjoint (span ((s.places t).regs .rsp - 8) 8) (s.shared.2.place c).all := fun hpc hin => by
    have hmem := Schedule.mem_owned (s := forget s) (t := t) hpc
    refine (hkept.apart _ (live_of_owned hreached hmem) c hc ?_).mono_left
      (hin.trans Set.subset_union_right)
    intro heq
    exact howned (heq ▸ hmem)
  have hdoes := does htook
  obtain ⟨hcompute, hplace, hcall⟩ := htook.ok
  generalize s'.shared = x' at hdoes hplace ⊢
  generalize s'.places t = w' at hdoes hcall
  cases hdoes with
  | compute hcode =>
    obtain ⟨harea, hown⟩ := hcompute _ _ _ rfl c hc
    exact ⟨rfl, rfl, (harea.union (hown howned)).symm⟩
  | @act a p y v hcode hexec =>
    rcases call_step (Schedule.effect_of_exec hexec) with
      ⟨out, k, hpc, hpc', hptr, hgrow⟩ | ⟨bk, d, hpc, hpc', hptr⟩ | ⟨hswap, hset, -, -⟩
    · have hout : out = (s.places t).worker.stack := by
        have hpc : ((forget s).places t).pc = .swapNew out k := hpc
        rw [Worker.Sound] at hsound
        simp only [hpc] at hsound
        exact hsound.1
      have hnew := hplace a p rfl hgrow
      have hcalls := hcall a p rfl (by unfold enter; rw [hpc]; exact List.cons_ne_nil _ _)
      have hout' : c ≠ out := by
        rintro rfl
        rw [hout] at howned
        exact howned (Schedule.mem_owned (s := forget s) (t := t) (by simp [forget, hpc]))
      unfold enter
      rw [hpc]
      refine ⟨Function.update_of_ne hne _ _, ?_, ?_⟩
      · simp only [Function.update_of_ne hne, Function.update_of_ne hout']
      · have hprepare : Set.EqOn (prepare jumpInSchedule p s.shared.2.mem) s.shared.2.mem
            (s.shared.2.place c).all := prepare_keeps hnew.1 (hnew.2 c hc)
        have hpush : Set.EqOn (call (s.places t).regs (prepare jumpInSchedule p s.shared.2.mem)
            (s.places t).rip (s.shared.2.place out).ctx p.ctx).mem
            (prepare jumpInSchedule p s.shared.2.mem) (s.shared.2.place c).all :=
          call_keeps (hstack (by simp [hpc]) hcalls)
        exact (hpush.trans hprepare).symm
    · have hcalls := hcall a p rfl (by unfold enter; rw [hpc]; exact List.cons_ne_nil _ _)
      have hpush : Set.EqOn (call (s.places t).regs s.shared.2.mem (s.places t).rip 0
          (s.shared.2.place d).ctx).mem s.shared.2.mem (s.shared.2.place c).all :=
        call_keeps (hstack (by simp [hpc]) hcalls)
      unfold enter
      rw [hpc]
      exact ⟨rfl, rfl, hpush.symm⟩
    · unfold enter
      split
      · exact ⟨Function.update_of_ne hne _ _, rfl, fun _ _ => rfl⟩
      · next hpc => exact absurd hpc (hswap _ _)
      · next hpc => exact absurd hpc (hset _ _)
      · exact ⟨rfl, rfl, fun _ _ => rfl⟩
  | instr hcode =>
    obtain ⟨A, d, hlands, hdisjoint⟩ := disjoint_call htook hkept hc howned hjumps
      (by rw [hcode]; exact List.cons_ne_nil _ _)
    have hwithin := hlands.within
    rw [hcode] at hwithin
    exact ⟨rfl, rfl, (exec_keeps hwithin.1 hdisjoint).symm⟩
  | last hcode hexec =>
    obtain ⟨A, d, hlands, hdisjoint⟩ := disjoint_call htook hkept hc howned hjumps
      (by rw [hcode]; exact List.cons_ne_nil _ _)
    have hwithin := hlands.within
    rw [hcode] at hwithin
    exact ⟨rfl, rfl, (exec_keeps hwithin.1 hdisjoint).symm⟩

/-- The calls of the other workers go on. -/
theorem moving_other {t' : T} (ht : t' ≠ t) : Moving s'.shared.2 (s'.places t') := by
  have hreached := reached_forget htook.reached
  have hsound := (Schedule.linked hreached).sound t'
  rw [htook.other ht]
  refine (hkept.moving t').same fun c hc => ?_
  have hcases : c ∈ (s.places t').worker.owned ∨ (s.places t').jumps = some c := by
    unfold Core.grips at hc
    split at hc
    · next out k hpc =>
      have hpc' : ((forget s).places t').pc = .swap out k := hpc
      rw [Worker.Sound] at hsound
      simp only [hpc'] at hsound
      have hout : out = (s.places t').worker.stack := hsound.1
      rw [hout] at hc
      rw [Worker.owned, hpc]
      exact .inl hc
    · next bk hpc =>
      rw [Core.jumps, hpc]
      exact .inr (Option.mem_toList.mp hc)
    · cases hc
  rcases hcases with howned | hjumps
  · refine same_step htook hkept (live_of_owned hreached (t := t') howned) (fun howned' => ?_)
      fun hjumps => ?_
    · exact ht (Schedule.owner_unique hreached (t := t') howned howned')
    · have hsaved := saved_of_crossing hreached (t := t) (Core.crossing_of_jumps hjumps)
      exact not_owned_of_saved hreached hsaved (t := t') howned
  · have hcrossing := Core.crossing_of_jumps hjumps
    have hsaved := saved_of_crossing hreached (t := t') hcrossing
    refine same_step htook hkept (live_of_saved hreached hsaved)
      (not_owned_of_saved hreached hsaved (t := t)) fun hjumps' => ?_
    exact ht (crossing_unique hreached (t := t') hcrossing (Core.crossing_of_jumps hjumps'))

/-- Who was left rests, until someone jumps there. -/
theorem rests_step (hc : c ∈ s'.shared.1.saved.map Schedule.Saved.context)
    (hjumps : ∀ t, (s'.places t).jumps ≠ some c) :
    Rests s'.shared.2.mem (s'.shared.2.place c) (s'.shared.2.frozen c) := by
  have hreached := reached_forget htook.reached
  have hreached' := reached_forget htook.next
  -- a context that stays saved is not the worker's, and the worker was not jumping there
  have hold : c ∈ s.shared.1.saved.map Schedule.Saved.context →
      (s.places t).jumps ≠ some c → Rests s'.shared.2.mem (s'.shared.2.place c) (s'.shared.2.frozen c) := by
    intro hsaved hjump
    have hsame := same_step htook hkept (live_of_saved hreached hsaved)
      (not_owned_of_saved hreached hsaved (t := t)) hjump
    refine (hkept.rests c hsaved fun t' => ?_).same hsame
    by_cases ht : t' = t
    · rw [ht]
      exact hjump
    · rw [← htook.other ht]
      exact hjumps t'
  have hjump' := hjumps t
  have howned' := not_owned_of_saved hreached' hc (t := t)
  have hmoving := hkept.moving t
  have hdoes := does htook
  generalize s'.shared = x' at hdoes hold hc ⊢
  have hplaces : (forget s').places t = (s'.places t).worker := rfl
  rw [hplaces] at howned'
  generalize s'.places t = w' at hdoes hjump' howned'
  cases hdoes with
  | compute hcode => exact hold hc hjump'
  | instr hcode => exact hold hc hjump'
  | act hcode hexec =>
    obtain ⟨hswap, hjump⟩ := hmoving.idle hcode
    rcases saved_step (Schedule.effect_of_exec hexec) hc with hsaved | ⟨k, hpc⟩
    · refine hold hsaved ?_
      unfold Core.jumps
      split
      · next hpc => exact absurd hpc (hjump _)
      · simp
    · exact absurd hpc (hswap _ _)
  | @last i y v hcode hexec =>
    have heff := Schedule.effect_of_exec hexec
    rcases saved_step heff hc with hsaved | ⟨k, hpc⟩
    · refine hold hsaved fun hjump => ?_
      -- the jump ends here: the context is the worker's own
      unfold Core.jumps at hjump
      split at hjump
      · next bk hpc =>
        obtain ⟨⟨u, hu⟩, hstack⟩ := (return_step heff).2 bk hpc
        rw [hjump, Option.some.injEq] at hstack
        rw [hstack, Worker.owned, hu] at howned'
        exact howned' List.mem_cons_self
      · cases hjump
    · simp only [Moving, hpc] at hmoving
      obtain ⟨-, d, -, -, hrests⟩ := hmoving
      rw [hcode] at hrests
      exact hrests

/-- The call of the worker itself goes on. -/
theorem moving_step : Moving s'.shared.2 (s'.places t) := by
  have hreached := reached_forget htook.reached
  have hreached' := reached_forget htook.next
  have hsound := (Schedule.linked hreached).sound t
  have hmoving := hkept.moving t
  have hdoes := does htook
  obtain ⟨-, hplace, hcall⟩ := htook.ok
  have hplaces : (forget s').places t = (s'.places t).worker := rfl
  have hcrossing : ∀ d, (s'.places t).jumps = some d →
      d ∈ s'.shared.1.saved.map Schedule.Saved.context := fun d hd =>
    saved_of_crossing hreached' (t := t) (Core.crossing_of_jumps hd)
  have hother : ∀ d, (s'.places t).jumps = some d → ∀ t', t' ≠ t → (s.places t').jumps ≠ some d := by
    intro d hd t' ht hjumps
    rw [← htook.other ht] at hjumps
    exact ht (crossing_unique hreached' (t := t') (Core.crossing_of_jumps hjumps)
      (Core.crossing_of_jumps hd))
  generalize s'.shared = x' at hdoes hplace hcrossing ⊢
  generalize s'.places t = w' at hdoes hcall hcrossing hother ⊢
  cases hdoes with
  | compute hcode =>
    obtain ⟨hswap, hjump⟩ := hmoving.idle hcode
    exact moving_of_idle hcode hswap hjump
  | instr hcode => exact hmoving.tail hcode
  | @last i y v hcode hexec =>
    have hreturn := return_step (Schedule.effect_of_exec hexec)
    obtain ⟨A, d, -, -, hcases⟩ := hmoving.calling (by rw [hcode]; exact List.cons_ne_nil _ _)
    rcases hcases with ⟨-, hjumps⟩ | ⟨out, k, hpc, -, -⟩
    · unfold Core.jumps at hjumps
      split at hjumps
      · next bk hpc =>
        obtain ⟨⟨u, hu⟩, -⟩ := hreturn.2 bk hpc
        exact moving_of_idle rfl (by simp [hu]) (by simp [hu])
      · cases hjumps
    · obtain ⟨hu, -⟩ := hreturn.1 out k hpc
      exact moving_of_idle rfl (by simp [hu]) (by simp [hu])
  | @act a p y v hcode hexec =>
    rcases call_step (Schedule.effect_of_exec hexec) with
      ⟨out, k, hpc, hpc', hptr, hgrow⟩ | ⟨bk, d, hpc, hpc', hptr⟩ | ⟨hswap, hset, hswap', hjump'⟩
    · have hpcf : ((forget s).places t).pc = .swapNew out k := hpc
      have hmem := Schedule.mem_owned (s := forget s) (t := t) (by simp [hpcf])
      rw [Worker.Sound] at hsound
      simp only [hpcf] at hsound
      have hout : out = (s.places t).worker.stack := hsound.1
      have hlive : out ∈ s.shared.1.live := by
        rw [hout]
        exact live_of_owned hreached hmem
      have hnew := hplace a p rfl hgrow
      have hcalls := hcall a p rfl (by unfold enter; rw [hpc]; exact List.cons_ne_nil _ _)
      refine moving_swap hpc hpc' hptr (lt_of_live hlive).ne hnew.1 (hkept.good out hlive)
        (hnew.2 out hlive) ?_
      rw [hout]
      exact hcalls
    · have hcalls := hcall a p rfl (by unfold enter; rw [hpc]; exact List.cons_ne_nil _ _)
      have hmem := Schedule.mem_owned (s := forget s) (t := t) (by simp [forget, hpc])
      have hjumps : (enter jumpInSchedule s.shared.2 (s.places t) v s.shared.1.contexts p).2.jumps =
          some d := by
        rw [Core.jumps, enter_worker, hpc']
        exact hptr
      have hsaved : d ∈ s.shared.1.saved.map Schedule.Saved.context :=
        saved_of_setPtr (Schedule.effect_of_exec hexec) hpc (hcrossing d hjumps)
      refine moving_jump hpc hpc' hptr (hkept.rests d hsaved fun t' => ?_) ?_
      · by_cases ht : t' = t
        · rw [ht, Core.jumps, hpc]
          simp
        · exact hother d hjumps t' ht
      · refine (hkept.apart _ (live_of_owned hreached hmem) d (live_of_saved hreached hsaved) ?_).mono_left
          (hcalls.trans Set.subset_union_right)
        intro heq
        exact not_owned_of_saved hreached hsaved (t := t) (heq ▸ hmem)
    · refine moving_of_idle ?_ (by rw [enter_worker]; exact hswap') (by rw [enter_worker]; exact hjump')
      unfold enter
      split
      · exact hcode
      · next hpc => exact absurd hpc (hswap _ _)
      · next hpc => exact absurd hpc (hset _ _)
      · exact hcode

omit [Fintype T] in
/-- A new context is apart from all that live. -/
theorem place_new (hgrow : s.shared.1.contexts < s'.shared.1.contexts) :
    (s'.shared.2.place s.shared.1.contexts).Good ∧ ∀ c ∈ s.shared.1.live,
      Disjoint (s'.shared.2.place s.shared.1.contexts).all (s.shared.2.place c).all := by
  have hdoes := does htook
  have hmoving := hkept.moving t
  have hplace := htook.ok.place
  generalize s'.shared = x' at hdoes hplace hgrow ⊢
  generalize s'.places t = w' at hdoes
  cases hdoes with
  | compute | instr => exact absurd hgrow (lt_irrefl _)
  | @act a p y v hcode hexec =>
    have hnew := hplace a p rfl hgrow
    unfold enter
    split
    · simp only [Function.update_self]
      exact hnew
    · simp only [Function.update_self]
      exact hnew
    · next hpc =>
      have heff := Schedule.effect_of_exec hexec
      rw [contexts_eq heff (by simp [hpc]) (by simp [hpc])] at hgrow
      exact absurd hgrow (lt_irrefl _)
    · next hcreated hswap _ =>
      have heff := Schedule.effect_of_exec hexec
      rw [contexts_eq heff hcreated hswap] at hgrow
      exact absurd hgrow (lt_irrefl _)
  | @last i y v hcode hexec =>
    have heff := Schedule.effect_of_exec hexec
    obtain ⟨A, d, -, -, hcases⟩ := hmoving.calling (by rw [hcode]; exact List.cons_ne_nil _ _)
    have hpc : (s.places t).worker.pc ≠ .created ∧ ∀ out k, (s.places t).worker.pc ≠ .swapNew out k := by
      rcases hcases with ⟨-, hjumps⟩ | ⟨out, k, hpc, -, -⟩
      · unfold Core.jumps at hjumps
        split at hjumps
        · next hpc => exact ⟨by simp [hpc], by simp [hpc]⟩
        · cases hjumps
      · exact ⟨by simp [hpc], by simp [hpc]⟩
    rw [contexts_eq heff hpc.1 hpc.2] at hgrow
    exact absurd hgrow (lt_irrefl _)

end Took

theorem effect_or_same [Fintype T] [DecidableEq T]
    (htook : (machine jumpInSchedule stored).Took Proper s t m s') :
    s'.shared.1 = s.shared.1 ∨
      Schedule.Effect s.shared.1 (s.places t).worker s'.shared.1 (s'.places t).worker := by
  have hdoes := does htook
  generalize s'.shared = x' at hdoes ⊢
  generalize s'.places t = w' at hdoes ⊢
  cases hdoes with
  | compute | instr => exact .inl rfl
  | act hcode hexec =>
    rw [enter_worker]
    exact .inr (Schedule.effect_of_exec hexec)
  | last hcode hexec => exact .inr (Schedule.effect_of_exec hexec)

theorem kept [Fintype T] [DecidableEq T]
    (h : ((machine jumpInSchedule stored).system T).ReachedBy Proper s) : Kept s := by
  refine Crew.induct (I := Kept) ?_ (fun s t m s' htook ih => ?_) h
  · have hlive : ∀ c, c ∉ (((machine jumpInSchedule stored).system T).start).shared.1.live :=
      fun c hc => absurd (lt_of_live hc) (Nat.not_lt_zero c)
    exact ⟨fun c hc => absurd hc (hlive c), fun c hc => absurd hc (hlive c),
      fun c hc => absurd hc List.not_mem_nil, fun _ => rfl⟩
  · have hlive : ∀ c ∈ s'.shared.1.live, c ∈ s.shared.1.live ∨
        c = s.shared.1.contexts ∧ s.shared.1.contexts < s'.shared.1.contexts := fun c hc => by
      rcases effect_or_same htook with heq | heff
      · rw [heq] at hc
        exact .inl hc
      · exact live_step heff hc
    refine ⟨fun c hc => ?_, fun c hc d hd hne => ?_, fun c hc hjumps => rests_step htook ih hc hjumps,
      fun t' => ?_⟩
    · rcases hlive c hc with hold | ⟨rfl, hgrow⟩
      · rw [place_step htook (lt_of_live hold)]
        exact ih.good c hold
      · exact (place_new htook ih hgrow).1
    · rcases hlive c hc with hc' | ⟨rfl, hgrow⟩ <;> rcases hlive d hd with hd' | ⟨rfl, hgrow'⟩
      · rw [place_step htook (lt_of_live hc'), place_step htook (lt_of_live hd')]
        exact ih.apart c hc' d hd' hne
      · rw [place_step htook (lt_of_live hc')]
        exact ((place_new htook ih hgrow').2 c hc').symm
      · rw [place_step htook (lt_of_live hd')]
        exact (place_new htook ih hgrow).2 d hd'
      · exact absurd rfl hne
    · by_cases ht : t' = t
      · subst ht
        exact moving_step htook ih
      · exact moving_other htook ih ht

/-- The step of `crew` for a call is defined, and goes to the context that `context_ptr` names. -/
theorem exec_of_calling [Fintype T] [DecidableEq T] {r : Crew.Config Shared Worker T}
    (h : ((crew stored).system T).Reached r)
    (hpc : (∃ out k, (r.places t).pc = .swap out k) ∨ ∃ bk, (r.places t).pc = .jump bk)
    (hptr : (r.places t).contextPtr = some c) :
    ∃ y v, Schedule.exec r.shared (r.places t) .step = some (y, v) ∧ v.stack = c := by
  rcases hpc with ⟨out, k, hpc⟩ | ⟨bk, hpc⟩
  · refine ⟨{r.shared with saved := r.shared.saved ++ [⟨out, k⟩]},
      {r.places t with pc := .enter, stack := c}, ?_, rfl⟩
    unfold Schedule.exec
    simp only [hpc, hptr, Option.map_some]
  · obtain ⟨c', w, hptr', hsaved, -⟩ := Schedule.saved_of_jump h hpc
    rw [hptr, Option.some.injEq] at hptr'
    subst hptr'
    obtain ⟨e, hfind⟩ : ∃ e, r.shared.saved.find? (fun e => e.context = c) = some e :=
      Option.isSome_iff_exists.mp (List.find?_isSome.mpr ⟨_, hsaved, by simp⟩)
    have hctx : e.context = c := by simpa using List.find?_some hfind
    obtain ⟨context, cont⟩ := e
    subst hctx
    have hcont : cont = .wait w :=
      Schedule.saved_unique h (List.mem_of_find?_eq_some hfind) hsaved
    subst hcont
    refine ⟨{r.shared with saved := r.shared.saved.erase ⟨context, .wait w⟩},
      {r.places t with pc := .resumed w, stack := context}, ?_, rfl⟩
    unfold Schedule.exec
    simp only [hpc, hptr, Option.bind_some, hfind]

/-- **A switch is one step.** In every interleaving of instructions, the last one of a call of
`coctx_swap` or `coctx_set` can be executed, and the worker is then on its context with the registers,
the return address and the stack of that context's own call of `coctx_swap`, or those that
`coctx_make` gave it; with the instructions forgotten the run is one of `crew`. -/
theorem switched [Fintype T] [DecidableEq T]
    (h : ((machine jumpInSchedule stored).system T).ReachedBy Proper s) {i : Instr}
    (hlast : (s.places t).code = [i]) :
    ((crew stored).system T).Reached (forget s) ∧
    ∃ s', ((machine jumpInSchedule stored).system T).step s (t, .instr) = some s' ∧
      (s.places t).worker.contextPtr = some (s'.places t).worker.stack ∧
      Restored ((s'.places t).state s'.shared.2.mem)
        (s.shared.2.frozen (s'.places t).worker.stack).regs
        (s.shared.2.frozen (s'.places t).worker.stack).ret ∧
      Set.EqOn s'.shared.2.mem (s.shared.2.frozen (s'.places t).worker.stack).mem
        (s.shared.2.place (s'.places t).worker.stack).stack := by
  obtain ⟨A, c, hptr, ⟨-, hrestored, hstack⟩, hcases⟩ :=
    ((kept h).moving t).calling (by rw [hlast]; exact List.cons_ne_nil _ _)
  have hpc : (∃ out k, (s.places t).worker.pc = .swap out k) ∨ ∃ bk, (s.places t).worker.pc = .jump bk := by
    rcases hcases with ⟨-, hjumps⟩ | ⟨out, k, hpc, -, -⟩
    · unfold Core.jumps at hjumps
      split at hjumps
      · next bk hpc => exact .inr ⟨bk, hpc⟩
      · cases hjumps
    · exact .inl ⟨out, k, hpc⟩
  obtain ⟨y, v, hexec, hv⟩ := exec_of_calling (t := t) (reached_forget h) hpc hptr
  rw [hlast] at hrestored hstack
  let u : State := i.exec ((s.places t).state s.shared.2.mem)
  have hmachine : execute jumpInSchedule s.shared (s.places t) .instr =
      some ((y, {s.shared.2 with mem := u.mem}), ⟨v, u.regs, u.rip, []⟩) := by
    have hexec : Schedule.exec s.shared.1 (s.places t).worker .step = some (y, v) := hexec
    unfold execute
    simp only [hlast, hexec, Option.map_some]
    rfl
  refine ⟨reached_forget h, _, congrArg (Option.map _) hmachine, ?_⟩
  simp only [Function.update_self, hv]
  exact ⟨hptr, hrestored, hstack⟩

/-- A call goes on to its last instruction, if no one else moves. -/
theorem reach_last [DecidableEq T] (h : ((machine jumpInSchedule stored).system T).ReachedBy Proper s)
    {l : List Instr} {i : Instr} (hcode : (s.places t).code = l ++ [i]) :
    ∃ s', ((machine jumpInSchedule stored).system T).ReachedBy Proper s' ∧ (s'.places t).code = [i] := by
  induction l generalizing s with
  | nil => exact ⟨s, h, hcode⟩
  | cons k l ih =>
    obtain ⟨j, rest, hrest⟩ : ∃ j rest, l ++ [i] = j :: rest := List.exists_cons_of_ne_nil (by simp)
    let u : State := k.exec ((s.places t).state s.shared.2.mem)
    have hmachine : execute jumpInSchedule s.shared (s.places t) .instr =
        some ((s.shared.1, {s.shared.2 with mem := u.mem}),
          ⟨(s.places t).worker, u.regs, u.rip, l ++ [i]⟩) := by
      unfold execute
      simp only [hcode, List.cons_append, hrest]
      rfl
    have hstep : ((machine jumpInSchedule stored).system T).step s (t, .instr) =
        some ⟨(s.shared.1, {s.shared.2 with mem := u.mem}),
          Function.update s.places t ⟨(s.places t).worker, u.regs, u.rip, l ++ [i]⟩⟩ :=
      congrArg (Option.map _) hmachine
    refine ih (.step h hstep ⟨by simp, by simp, by simp⟩) ?_
    simp

/-- A step of C++ that the allocator and the stack allow. -/
theorem reach_act [DecidableEq T] (h : ((machine jumpInSchedule stored).system T).ReachedBy Proper s)
    {a : Act} {p : Place} {y : Shared} {v : Worker} (hcode : (s.places t).code = [])
    (hexec : Schedule.exec s.shared.1 (s.places t).worker a = some (y, v))
    (hplace : s.shared.1.contexts < y.contexts →
      p.Good ∧ ∀ c ∈ s.shared.1.live, Disjoint p.all (s.shared.2.place c).all)
    (hcall : (enter jumpInSchedule s.shared.2 (s.places t) v s.shared.1.contexts p).2.code ≠ [] →
      span ((s.places t).regs .rsp - 8) 8 ⊆ (s.shared.2.place (s.places t).worker.stack).stack) :
    ∃ s', ((machine jumpInSchedule stored).system T).ReachedBy Proper s' ∧
      s'.shared = (y, (enter jumpInSchedule s.shared.2 (s.places t) v s.shared.1.contexts p).1) ∧
      s'.places t = (enter jumpInSchedule s.shared.2 (s.places t) v s.shared.1.contexts p).2 := by
  have hmachine : execute jumpInSchedule s.shared (s.places t) (.act a p) =
      some ((y, (enter jumpInSchedule s.shared.2 (s.places t) v s.shared.1.contexts p).1),
        (enter jumpInSchedule s.shared.2 (s.places t) v s.shared.1.contexts p).2) := by
    unfold execute
    simp only [hcode, hexec, Option.map_some]
  have hstep : ((machine jumpInSchedule stored).system T).step s (t, .act a p) =
      some ⟨_, Function.update s.places t _⟩ := congrArg (Option.map _) hmachine
  refine ⟨_, .step h hstep ⟨by simp, ?_, ?_⟩, rfl, Function.update_self _ _ _⟩
  · rintro a' p' heq hgrow
    cases heq
    exact hplace hgrow
  · rintro a' p' heq hnot
    simp only [Function.update_self] at hnot
    exact hcall hnot

/-- A thread's stack at the end of memory, and a coroutine's. -/
def osPlace : Place := ⟨0x1000, 0xfffffffffffff000, 0x1000⟩

def coroutinePlace : Place := ⟨0x2000, 0x10000, 0x1000⟩

theorem departure_reached : ∃ s, ((machine 77 1).system Unit).ReachedBy Proper s ∧
    (s.places ()).code = coctxSwap := by
  have hos : osPlace.Good := by
    refine ⟨disjoint_span ?_ ?_, ?_, ?_⟩ <;> decide
  have hcoroutine : coroutinePlace.Good := by
    refine ⟨disjoint_span ?_ ?_, ?_, ?_⟩ <;> decide
  have hapart : Disjoint coroutinePlace.all osPlace.all := by
    refine Set.disjoint_union_left.mpr ⟨Set.disjoint_union_right.mpr ⟨(disjoint_span ?_ ?_).symm,
      disjoint_span ?_ ?_⟩, Set.disjoint_union_right.mpr ⟨(disjoint_span ?_ ?_).symm, disjoint_span ?_ ?_⟩⟩ <;>
      decide
  have hstart : ((machine 77 1).system Unit).ReachedBy Proper ((machine 77 1).system Unit).start := .start
  -- `routine` makes the context of its thread
  obtain ⟨s₁, h₁, hx₁, hw₁⟩ := reach_act (t := ()) (a := .step) (p := osPlace) hstart rfl rfl
    (fun _ => ⟨hos, fun c hc => absurd (lt_of_live hc) (Nat.not_lt_zero c)⟩) (fun hcode => absurd rfl hcode)
  obtain ⟨s₂, h₂, hx₂, hw₂⟩ := reach_act (t := ()) (a := .step) (p := osPlace) h₁ (by rw [hw₁]; rfl)
    (by rw [hx₁, hw₁]; rfl) (by rw [hx₁]; exact fun h => absurd h (lt_irrefl _))
    (by rw [hw₁]; exact fun hcode => absurd rfl hcode)
  obtain ⟨s₃, h₃, hx₃, hw₃⟩ := reach_act (t := ()) (a := .step) (p := osPlace) h₂ (by rw [hw₂, hw₁]; rfl)
    (by rw [hx₂, hx₁, hw₂, hw₁]; rfl) (by rw [hx₂, hx₁]; exact fun h => absurd h (lt_irrefl _))
    (by rw [hw₂, hw₁]; exact fun hcode => absurd rfl hcode)
  have hpush : span ((0 : Word) - 8) 8 ⊆ osPlace.stack := by
    have hofs : (0 : Word) - 8 = off osPlace.base 0xff8 := by decide
    rw [hofs]
    exact span_subset (by decide) (by decide)
  have hcode : (s₃.places ()).code = [] := by rw [hw₃, hw₂, hw₁]; rfl
  have hregs : (s₃.places ()).regs = fun _ => 0 := by rw [hw₃, hw₂, hw₁]; rfl
  have hworker : (s₃.places ()).worker = ⟨.swapNew 0 .routine, 0, none, some 0⟩ := by
    rw [hw₃, hw₂, hw₁]
    rfl
  have hcontexts : s₃.shared.1.contexts = 1 := by rw [hx₃, hx₂, hx₁]; rfl
  have hset : ∀ place : ℕ → Place, Function.update place 0 osPlace 0 = osPlace := fun _ =>
    Function.update_self _ _ _
  have hplace₁ : s₁.shared.2.place 0 = osPlace := by
    rw [hx₁]
    exact hset fun _ => ⟨0, 0, 0⟩
  have hplace : s₃.shared.2.place 0 = osPlace := by
    rw [hx₃, hw₂, hw₁, hx₂, hw₁]
    exact hplace₁
  have hlive : ∀ c ∈ s₃.shared.1.live, c = 0 := fun c hc => by
    have hlt := lt_of_live hc
    omega
  -- and calls `coctx_swap`
  obtain ⟨s₄, h₄, -, hw₄⟩ := reach_act (t := ()) (a := .step) (p := coroutinePlace) h₃ hcode
    (by rw [hworker]; rfl)
    (fun _ => ⟨hcoroutine, fun c hc => by rw [hlive c hc, hplace]; exact hapart⟩)
    (fun _ => by rw [hregs, hworker, hplace]; exact hpush)
  refine ⟨s₄, h₄, ?_⟩
  rw [hw₄]
  unfold enter
  rw [hworker]

theorem switched_departure : ∃ s, ((machine 77 1).system Unit).ReachedBy Proper s ∧
    (s.places ()).code = [.ret] ∧ ((crew 1).system Unit).Reached (forget s) ∧
    ∃ s', ((machine 77 1).system Unit).step s ((), .instr) = some s' ∧
      (s.places ()).worker.contextPtr = some (s'.places ()).worker.stack ∧
      Restored ((s'.places ()).state s'.shared.2.mem)
        (s.shared.2.frozen (s'.places ()).worker.stack).regs
        (s.shared.2.frozen (s'.places ()).worker.stack).ret ∧
      Set.EqOn s'.shared.2.mem (s.shared.2.frozen (s'.places ()).worker.stack).mem
        (s.shared.2.place (s'.places ()).worker.stack).stack := by
  obtain ⟨s, hs, hcode⟩ := departure_reached
  obtain ⟨s', hs', hlast⟩ := reach_last hs (l := coctxSwap.dropLast) (i := .ret) hcode
  exact ⟨s', hs', hlast, switched hs' hlast⟩

end Kept
end QuietFlow.Switches
