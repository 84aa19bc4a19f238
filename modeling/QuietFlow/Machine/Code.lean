import Mathlib.Data.List.Nodup
import Mathlib.Logic.Function.Basic
import QuietFlow.Machine.Memory

/-! Straight-line x86-64 code.

Instructions have the order of operands of the assembler: source first. Flags are left
out, as no instruction here reads them, and `rip` is where the last `ret` went. `Within A`
says that code run from a state touches nothing outside `A`: then a run in any memory
that agrees on `A` does the same there (`exec_agrees`), which is what lets other
processors write elsewhere between two instructions. -/
namespace QuietFlow.Machine

inductive Reg where
  | rax | rbx | rcx | rdx | rsi | rdi | rbp | rsp | r8 | r9 | r10 | r11 | r12 | r13 | r14 | r15
  deriving DecidableEq

/-- `disp(base)`. -/
structure Operand where
  disp : ℕ
  base : Reg

inductive Instr where
  | lea (src : Operand) (dst : Reg)
  | load (src : Operand) (dst : Reg)
  | store (src : Reg) (dst : Operand)
  | xor (src dst : Reg)
  | push (src : Operand)
  | ret

structure State where
  regs : Reg → Word
  mem : Mem
  rip : Word

namespace State
variable (s : State)

def ea (o : Operand) : Word := off (s.regs o.base) o.disp

def set (r : Reg) (v : Word) : State := {s with regs := Function.update s.regs r v}

end State

namespace Instr

def exec (s : State) : Instr → State
  | .lea src dst => s.set dst (s.ea src)
  | .load src dst => s.set dst (read s.mem (s.ea src))
  | .store src dst => {s with mem := write s.mem (s.ea dst) (s.regs src)}
  | .xor src dst => s.set dst (s.regs dst ^^^ s.regs src)
  | .push src =>
    {s.set .rsp (s.regs .rsp - 8) with mem := write s.mem (s.regs .rsp - 8) (read s.mem (s.ea src))}
  | .ret => {s.set .rsp (s.regs .rsp + 8) with rip := read s.mem (s.regs .rsp)}

/-- The words an instruction reads and writes. -/
def touches (s : State) : Instr → List Word
  | .lea _ _ | .xor _ _ => []
  | .load src _ => [s.ea src]
  | .store _ dst => [s.ea dst]
  | .push src => [s.ea src, s.regs .rsp - 8]
  | .ret => [s.regs .rsp]

end Instr

def run (code : List Instr) (s : State) : State := code.foldl Instr.exec s

@[simp] theorem run_nil (s : State) : run [] s = s := rfl

@[simp] theorem run_cons (i : Instr) (rest : List Instr) (s : State) :
    run (i :: rest) s = run rest (i.exec s) := rfl

theorem run_append (code rest : List Instr) (s : State) :
    run (code ++ rest) s = run rest (run code s) := List.foldl_append

/-! ### What code touches -/

/-- All words that code touches, run from a state, lie in a set. -/
def Within (A : Set Word) : List Instr → State → Prop
  | [], _ => True
  | i :: rest, s => (∀ a ∈ i.touches s, span a 8 ⊆ A) ∧ Within A rest (i.exec s)

section Within
variable {A B : Set Word} {s s' : State} {i : Instr}

theorem within_append (code rest : List Instr) (s : State) :
    Within A (code ++ rest) s ↔ Within A code s ∧ Within A rest (run code s) := by
  induction code generalizing s with
  | nil => simp [Within]
  | cons i code ih => simp only [List.cons_append, Within, ih, run_cons, and_assoc]

/-- States that differ outside a set. -/
structure Agree (A : Set Word) (s s' : State) : Prop where
  regs : s.regs = s'.regs
  rip : s.rip = s'.rip
  mem : Set.EqOn s.mem s'.mem A

/-- An instruction that stays in a set does there what it does in any state that agrees. -/
theorem exec_agrees (h : Agree A s s') (hin : ∀ a ∈ i.touches s, span a 8 ⊆ A) :
    Agree A (i.exec s) (i.exec s') := by
  obtain ⟨hregs, hrip, hmem⟩ := h
  have hea : ∀ o, s.ea o = s'.ea o := fun o => by rw [State.ea, State.ea, hregs]
  have hread : ∀ a ∈ i.touches s, read s.mem a = read s'.mem a := fun a ha =>
    read_congr (hmem.mono (hin a ha))
  cases i with
  | lea src dst => exact ⟨by simp [Instr.exec, State.set, hregs, hea], hrip, hmem⟩
  | xor src dst => exact ⟨by simp [Instr.exec, State.set, hregs], hrip, hmem⟩
  | load src dst =>
    have hsrc := hread (s.ea src) List.mem_cons_self
    rw [hea] at hsrc
    exact ⟨by simp [Instr.exec, State.set, hregs, hea, hsrc], hrip, hmem⟩
  | store src dst =>
    refine ⟨hregs, hrip, ?_⟩
    simp only [Instr.exec, hregs, hea]
    exact write_congr hmem
  | push src =>
    have hsrc := hread (s.ea src) List.mem_cons_self
    rw [hea] at hsrc
    refine ⟨by simp [Instr.exec, State.set, hregs], hrip, ?_⟩
    simp only [Instr.exec, hregs, hea, hsrc]
    exact write_congr hmem
  | ret =>
    have hsrc := hread (s.regs .rsp) List.mem_cons_self
    rw [hregs] at hsrc
    exact ⟨by simp [Instr.exec, State.set, hregs], by simp [Instr.exec, hregs, hsrc], hmem⟩

/-- An instruction that stays in a set leaves what is apart from it alone. -/
theorem exec_keeps (hin : ∀ a ∈ i.touches s, span a 8 ⊆ A) (hB : Disjoint A B) :
    Set.EqOn (i.exec s).mem s.mem B := by
  have hwrite : ∀ a ∈ i.touches s, ∀ v, Set.EqOn (write s.mem a v) s.mem B := fun a ha v =>
    write_eqOn (hB.mono_left (hin a ha))
  cases i with
  | store src dst => exact hwrite _ List.mem_cons_self _
  | push src => exact hwrite (s.regs .rsp - 8) (List.mem_cons_of_mem _ List.mem_cons_self) _
  | _ => exact fun _ _ => rfl

theorem touches_congr (h : s.regs = s'.regs) : i.touches s = i.touches s' := by
  have hea : ∀ o, s.ea o = s'.ea o := fun o => by rw [State.ea, State.ea, h]
  cases i <;> simp [Instr.touches, hea, h]

/-- Code that stays in a set does there what it does in any state that agrees. -/
theorem run_agrees {code : List Instr} (h : Agree A s s') (hin : Within A code s) :
    Within A code s' ∧ Agree A (run code s) (run code s') := by
  induction code generalizing s s' with
  | nil => exact ⟨trivial, h⟩
  | cons i rest ih =>
    obtain ⟨hfirst, hrest⟩ := hin
    obtain ⟨hwithin, hagree⟩ := ih (exec_agrees h hfirst) hrest
    refine ⟨⟨?_, hwithin⟩, hagree⟩
    rw [← touches_congr h.regs]
    exact hfirst

theorem run_keeps {code : List Instr} (hin : Within A code s) (hB : Disjoint A B) :
    Set.EqOn (run code s).mem s.mem B := by
  induction code generalizing s with
  | nil => exact fun _ _ => rfl
  | cons i rest ih => exact (ih hin.2).trans (exec_keeps hin.1 hB)

end Within

/-! ### Blocks of stores and loads -/

/-- A register and where it is kept. -/
abbrev Slot := Reg × ℕ

def stores (base : Reg) (slots : List Slot) : List Instr := slots.map fun p => .store p.1 ⟨p.2, base⟩

def loads (base : Reg) (slots : List Slot) : List Instr := slots.map fun p => .load ⟨p.2, base⟩ p.1

section Blocks
variable {base : Reg} {slots : List Slot} {n : ℕ} {s : State} {A : Set Word}

/-- The words of a block, in a structure of `n` bytes. -/
structure Fits (slots : List Slot) (n : ℕ) : Prop where
  size : n ≤ 2 ^ 64
  bound : ∀ p ∈ slots, p.2 + 8 ≤ n
  apart : slots.Pairwise fun p q => p.2 + 8 ≤ q.2 ∨ q.2 + 8 ≤ p.2

theorem Fits.tail {p : Slot} (h : Fits (p :: slots) n) : Fits slots n :=
  ⟨h.size, fun q hq => h.bound q (List.mem_cons_of_mem p hq), h.apart.of_cons⟩

@[simp] theorem run_stores_regs (base : Reg) (slots : List Slot) (s : State) :
    (run (stores base slots) s).regs = s.regs := by
  induction slots generalizing s with
  | nil => rfl
  | cons p rest ih => exact ih _

@[simp] theorem run_stores_rip (base : Reg) (slots : List Slot) (s : State) :
    (run (stores base slots) s).rip = s.rip := by
  induction slots generalizing s with
  | nil => rfl
  | cons p rest ih => exact ih _

theorem within_stores (h : Fits slots n) (hA : span (s.regs base) n ⊆ A) :
    Within A (stores base slots) s := by
  induction slots generalizing s with
  | nil => trivial
  | cons p rest ih =>
    refine ⟨fun a ha => ?_, ih h.tail hA⟩
    rw [List.mem_singleton.mp ha]
    exact (span_subset (h.bound p List.mem_cons_self) h.size).trans hA

/-- A word that no store of a block overlaps stays. -/
theorem read_stores_of_apart (h : Fits slots n) {k : ℕ} (hk : k + 8 ≤ n)
    (hapart : ∀ p ∈ slots, p.2 + 8 ≤ k ∨ k + 8 ≤ p.2) :
    read (run (stores base slots) s).mem (off (s.regs base) k) = read s.mem (off (s.regs base) k) := by
  induction slots generalizing s with
  | nil => rfl
  | cons p rest ih =>
    have hrest := ih (s := Instr.exec s (.store p.1 ⟨p.2, base⟩)) h.tail
      fun q hq => hapart q (List.mem_cons_of_mem p hq)
    refine hrest.trans (read_write_of_disjoint ?_)
    exact disjoint_off (hapart p List.mem_cons_self)
      ((h.bound p List.mem_cons_self).trans h.size) (hk.trans h.size)

/-- Every register of a block of stores is kept in its slot. -/
theorem read_stores (h : Fits slots n) {p : Slot} (hp : p ∈ slots) :
    read (run (stores base slots) s).mem (off (s.regs base) p.2) = s.regs p.1 := by
  induction slots generalizing s with
  | nil => cases hp
  | cons q rest ih =>
    rcases List.mem_cons.mp hp with rfl | hmem
    · refine (read_stores_of_apart (s := Instr.exec s (.store p.1 ⟨p.2, base⟩)) h.tail
        (h.bound p List.mem_cons_self)
        fun q hq => ((List.pairwise_cons.mp h.apart).1 q hq).symm).trans ?_
      exact read_write _ _ _
    · exact ih (s := Instr.exec s (.store q.1 ⟨q.2, base⟩)) h.tail hmem

@[simp] theorem run_loads_mem (base : Reg) (slots : List Slot) (s : State) :
    (run (loads base slots) s).mem = s.mem := by
  induction slots generalizing s with
  | nil => rfl
  | cons p rest ih => exact ih _

@[simp] theorem run_loads_rip (base : Reg) (slots : List Slot) (s : State) :
    (run (loads base slots) s).rip = s.rip := by
  induction slots generalizing s with
  | nil => rfl
  | cons p rest ih => exact ih _

theorem run_loads_of_notMem {r : Reg} (hr : r ∉ slots.map Prod.fst) :
    (run (loads base slots) s).regs r = s.regs r := by
  induction slots generalizing s with
  | nil => rfl
  | cons p rest ih =>
    rw [List.map_cons, List.mem_cons, not_or] at hr
    refine (ih (s := Instr.exec s (.load ⟨p.2, base⟩ p.1)) hr.2).trans ?_
    exact Function.update_of_ne hr.1 _ _

theorem within_loads (h : Fits slots n) (hbase : base ∉ slots.map Prod.fst)
    (hA : span (s.regs base) n ⊆ A) : Within A (loads base slots) s := by
  induction slots generalizing s with
  | nil => trivial
  | cons p rest ih =>
    rw [List.map_cons, List.mem_cons, not_or] at hbase
    refine ⟨fun a ha => ?_, ih h.tail hbase.2 ?_⟩
    · rw [List.mem_singleton.mp ha]
      exact (span_subset (h.bound p List.mem_cons_self) h.size).trans hA
    · simpa [Instr.exec, State.set, Function.update_of_ne hbase.1] using hA

/-- Every register of a block of loads is read from its slot. -/
theorem run_loads (hbase : base ∉ slots.map Prod.fst) (hnodup : (slots.map Prod.fst).Nodup) {p : Slot}
    (hp : p ∈ slots) : (run (loads base slots) s).regs p.1 = read s.mem (off (s.regs base) p.2) := by
  induction slots generalizing s with
  | nil => cases hp
  | cons q rest ih =>
    rw [List.map_cons, List.mem_cons, not_or] at hbase
    obtain ⟨hq, hrest⟩ := List.nodup_cons.mp hnodup
    rcases List.mem_cons.mp hp with rfl | hmem
    · refine (run_loads_of_notMem (s := Instr.exec s (.load ⟨p.2, base⟩ p.1)) hq).trans ?_
      exact Function.update_self _ _ _
    · refine (ih (s := Instr.exec s (.load ⟨q.2, base⟩ q.1)) hbase.2 hrest hmem).trans ?_
      simp [Instr.exec, State.set, Function.update_of_ne hbase.1]

end Blocks
end QuietFlow.Machine
