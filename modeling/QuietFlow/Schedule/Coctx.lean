import QuietFlow.Machine.Code

/-! The context switch: `coctx_swap.S` and `coctx.cpp` for x86-64.

`coctx_swap(out, in)` saves the registers of its caller and its return address in `out` and
restores those of `in`; `coctx_set(nullptr, in)` only restores. A saved context is one
whose `coctx_t` holds registers and a return address, and whose stack has that address on
top (`Saved`): what `coctx_swap` leaves behind is one (`swap_spec`), what `coctx_make`
prepares is one, and what either function restores is the saved registers, popped and
returned from (`restore_spec`). -/
namespace QuietFlow.Coctx
open Machine

/-! ### The assembler -/

/-- `coctx_swap(rdi, rsi)`. -/
def coctxSwap : List Instr :=
  [.lea ⟨0, .rsp⟩ .rax,
   .store .rax ⟨104, .rdi⟩,
   .store .rbx ⟨96, .rdi⟩,
   .store .rcx ⟨88, .rdi⟩,
   .store .rdx ⟨80, .rdi⟩,
   .load ⟨0, .rax⟩ .rax,
   .store .rax ⟨72, .rdi⟩,
   .store .rsi ⟨64, .rdi⟩,
   .store .rdi ⟨56, .rdi⟩,
   .store .rbp ⟨48, .rdi⟩,
   .store .r8 ⟨40, .rdi⟩,
   .store .r9 ⟨32, .rdi⟩,
   .store .r12 ⟨24, .rdi⟩,
   .store .r13 ⟨16, .rdi⟩,
   .store .r14 ⟨8, .rdi⟩,
   .store .r15 ⟨0, .rdi⟩,
   .xor .rax .rax,
   .load ⟨48, .rsi⟩ .rbp,
   .load ⟨104, .rsi⟩ .rsp,
   .load ⟨0, .rsi⟩ .r15,
   .load ⟨8, .rsi⟩ .r14,
   .load ⟨16, .rsi⟩ .r13,
   .load ⟨24, .rsi⟩ .r12,
   .load ⟨32, .rsi⟩ .r9,
   .load ⟨40, .rsi⟩ .r8,
   .load ⟨56, .rsi⟩ .rdi,
   .load ⟨80, .rsi⟩ .rdx,
   .load ⟨88, .rsi⟩ .rcx,
   .load ⟨96, .rsi⟩ .rbx,
   .lea ⟨8, .rsp⟩ .rsp,
   .push ⟨72, .rsi⟩,
   .load ⟨64, .rsi⟩ .rsi,
   .ret]

/-- `coctx_set(rdi, rsi)`. -/
def coctxSet : List Instr :=
  [.lea ⟨0, .rsp⟩ .rax,
   .load ⟨48, .rsi⟩ .rbp,
   .load ⟨104, .rsi⟩ .rsp,
   .load ⟨0, .rsi⟩ .r15,
   .load ⟨8, .rsi⟩ .r14,
   .load ⟨16, .rsi⟩ .r13,
   .load ⟨24, .rsi⟩ .r12,
   .load ⟨32, .rsi⟩ .r9,
   .load ⟨40, .rsi⟩ .r8,
   .load ⟨56, .rsi⟩ .rdi,
   .load ⟨80, .rsi⟩ .rdx,
   .load ⟨88, .rsi⟩ .rcx,
   .load ⟨96, .rsi⟩ .rbx,
   .lea ⟨8, .rsp⟩ .rsp,
   .push ⟨72, .rsi⟩,
   .load ⟨64, .rsi⟩ .rsi,
   .ret]

/-! ### `coctx.cpp` -/

/-- `sizeof(coctx_t)`: 14 registers, `ss_size` and `ss_sp`. -/
def coctxSize : ℕ := 128

def coctxInit (ctx : Word) (m : Mem) : Mem := zero m ctx coctxSize

/-- `coctx_make(ctx, pfn, s, s1)`. -/
def coctxMake (ctx pfn s s1 : Word) (m : Mem) : Mem :=
  let sp := (read m (off ctx 120) + read m (off ctx 112) - 8) &&& (-16 : Word)
  let m := zero m ctx 112
  let m := write m sp pfn
  let m := write m (off ctx 104) sp
  let m := write m (off ctx 72) pfn
  let m := write m (off ctx 56) s
  write m (off ctx 64) s1

/-! ### What is saved -/

/-- Where `coctx_t` keeps registers, in the order they are restored. -/
def kept : List Slot :=
  [(.rbp, 48), (.rsp, 104), (.r15, 0), (.r14, 8), (.r13, 16), (.r12, 24), (.r9, 32), (.r8, 40),
    (.rdi, 56), (.rdx, 80), (.rcx, 88), (.rbx, 96)]

/-- The registers and the return address a `coctx_t` holds. -/
structure Holds (m : Mem) (ctx : Word) (regs : Reg → Word) (ret : Word) : Prop where
  kept : ∀ p ∈ kept, read m (off ctx p.2) = regs p.1
  rsi : read m (off ctx 64) = regs .rsi
  ret : read m (off ctx 72) = ret

/-- The registers of `s`, as a switch to a saved context leaves them. -/
structure Restored (s : State) (regs : Reg → Word) (ret : Word) : Prop where
  kept : ∀ p ∈ kept, p.1 ≠ .rsp → s.regs p.1 = regs p.1
  rsi : s.regs .rsi = regs .rsi
  rsp : s.regs .rsp = regs .rsp + 8
  rip : s.rip = ret

def restoreTail : List Instr := [.lea ⟨8, .rsp⟩ .rsp, .push ⟨72, .rsi⟩, .load ⟨64, .rsi⟩ .rsi, .ret]

def restore : List Instr := loads .rsi kept ++ restoreTail

theorem fits_kept : Fits kept 112 := by
  refine ⟨by decide, by decide, by decide⟩

theorem Holds.congr {m m' : Mem} {ctx ret : Word} {regs : Reg → Word} (h : Holds m ctx regs ret)
    (hm : Set.EqOn m m' (span ctx 112)) : Holds m' ctx regs ret := by
  have hword : ∀ k, k + 8 ≤ 112 → read m' (off ctx k) = read m (off ctx k) := fun k hk =>
    (read_congr (hm.mono (span_subset hk (by decide)))).symm
  refine ⟨fun p hp => ?_, ?_, ?_⟩
  · rw [hword _ (fits_kept.bound p hp), h.kept p hp]
  · rw [hword _ (by decide), h.rsi]
  · rw [hword _ (by decide), h.ret]

section Restore
variable {s : State} {ctx ret : Word} {regs : Reg → Word} {A : Set Word}

theorem run_loads_kept (h : Holds s.mem (s.regs .rsi) regs ret) :
    (∀ p ∈ kept, (run (loads .rsi kept) s).regs p.1 = regs p.1) ∧
      (run (loads .rsi kept) s).regs .rsi = s.regs .rsi :=
  ⟨fun _ hp => (run_loads (by decide) (by decide) hp).trans (h.kept _ hp),
    run_loads_of_notMem (by decide)⟩

/-- **A saved context is restored: its registers, with the return address popped and gone to.** The
return address is pushed where the saved stack pointer is. -/
theorem restore_spec (h : Holds s.mem (s.regs .rsi) regs ret)
    (hapart : Disjoint (span (regs .rsp) 8) (span (s.regs .rsi) 112)) :
    Restored (run restore s) regs ret ∧ (run restore s).mem = write s.mem (regs .rsp) ret := by
  obtain ⟨hkept, hrsi⟩ := run_loads_kept h
  have hrsp : (run (loads .rsi kept) s).regs .rsp = regs .rsp := hkept (.rsp, 104) (by decide)
  have hsi : read (write s.mem (regs .rsp) ret) (off (s.regs .rsi) 64) = regs .rsi := by
    rw [read_write_of_disjoint (hapart.mono_right (span_subset (by decide) (by decide))), h.rsi]
  rw [restore, run_append]
  generalize hu : run (loads .rsi kept) s = u at hkept hrsi hrsp
  have hmem : u.mem = s.mem := by rw [← hu, run_loads_mem]
  have hpush : read u.mem (off (u.regs .rsi) 72) = ret := by rw [hmem, hrsi, h.ret]
  refine ⟨⟨fun p hp hne => ?_, ?_, ?_, ?_⟩, ?_⟩
  · have hp' : p.1 ≠ .rsi := by
      rintro he
      have hmem := List.mem_map_of_mem (f := Prod.fst) hp
      rw [he] at hmem
      exact absurd hmem (by decide)
    simp [restoreTail, Instr.exec, State.set, State.ea, hne, hp', hkept p hp]
  · simp [restoreTail, Instr.exec, State.set, State.ea, hmem, hrsi, hrsp, h.ret, hsi]
  · simp [restoreTail, Instr.exec, State.set, State.ea, hrsp]
  · simp [restoreTail, Instr.exec, State.set, State.ea, hmem, hrsi, hrsp, h.ret]
  · simp [restoreTail, Instr.exec, State.set, State.ea, hmem, hrsi, hrsp, h.ret]

theorem within_restore (h : Holds s.mem (s.regs .rsi) regs ret)
    (hctx : span (s.regs .rsi) 112 ⊆ A) (hstack : span (regs .rsp) 8 ⊆ A) : Within A restore s := by
  obtain ⟨hkept, hrsi⟩ := run_loads_kept h
  have hrsp : (run (loads .rsi kept) s).regs .rsp = regs .rsp := hkept (.rsp, 104) (by decide)
  have hword : ∀ k, k + 8 ≤ 112 → span (off (s.regs .rsi) k) 8 ⊆ A := fun k hk =>
    (span_subset hk (by decide)).trans hctx
  rw [restore, within_append]
  refine ⟨within_loads fits_kept (by decide) hctx, ?_⟩
  generalize run (loads .rsi kept) s = u at hkept hrsi hrsp
  simp [Within, restoreTail, Instr.touches, Instr.exec, State.set, State.ea, hrsi, hrsp, hstack,
    hword]

end Restore

/-! ### `coctx_swap` saves its caller -/

/-- The registers stored before `rax` is overwritten, and those after. -/
def early : List Slot := [(.rax, 104), (.rbx, 96), (.rcx, 88), (.rdx, 80)]

def late : List Slot :=
  [(.rax, 72), (.rsi, 64), (.rdi, 56), (.rbp, 48), (.r8, 40), (.r9, 32), (.r12, 24), (.r13, 16),
    (.r14, 8), (.r15, 0)]

def save : List Instr :=
  [.lea ⟨0, .rsp⟩ .rax] ++ stores .rdi early ++ [.load ⟨0, .rax⟩ .rax] ++ stores .rdi late ++
    [.xor .rax .rax]

theorem coctxSwap_eq : coctxSwap = save ++ restore := rfl

theorem coctxSet_eq : coctxSet = [.lea ⟨0, .rsp⟩ .rax] ++ restore := rfl

theorem fits_early : Fits early 112 := by
  refine ⟨by decide, by decide, by decide⟩

theorem fits_late : Fits late 112 := by
  refine ⟨by decide, by decide, by decide⟩

section Save
variable {s : State} {A : Set Word}

/-- The stores in the order of the code, with what `rax` is at each block. -/
theorem run_save (s : State) :
    ∃ u v : State, u.regs = Function.update s.regs .rax (s.regs .rsp) ∧
      v.regs = Function.update s.regs .rax (read (run (stores .rdi early) u).mem (s.regs .rsp)) ∧
      u.mem = s.mem ∧ v.mem = (run (stores .rdi early) u).mem ∧ u.rip = s.rip ∧ v.rip = s.rip ∧
      run save s = Instr.exec (run (stores .rdi late) v) (.xor .rax .rax) := by
  let u : State := s.set .rax (s.regs .rsp)
  let v : State := Instr.exec (run (stores .rdi early) u) (.load ⟨0, .rax⟩ .rax)
  have hu : u.regs = Function.update s.regs .rax (s.regs .rsp) := rfl
  refine ⟨u, v, hu, ?_, rfl, rfl, rfl, ?_, ?_⟩
  · simp [v, Instr.exec, State.set, State.ea, hu]
  · simp [v, u, Instr.exec, State.set]
  · have hlea : Instr.exec s (.lea ⟨0, .rsp⟩ .rax) = u := by simp [u, Instr.exec, State.ea]
    simp only [save, run_append, run_cons, run_nil, hlea]
    rfl

theorem run_save_regs (s : State) {r : Reg} (hr : r ≠ .rax) : (run save s).regs r = s.regs r := by
  obtain ⟨u, v, -, hv, -, -, -, -, hrun⟩ := run_save s
  simp [hrun, Instr.exec, State.set, hr, hv]

/-- Nothing is written outside of where the caller is saved. -/
theorem save_keeps (hA : Disjoint (span (s.regs .rdi) 112) A) : Set.EqOn (run save s).mem s.mem A := by
  obtain ⟨u, v, hu, hv, humem, hvmem, -, -, hrun⟩ := run_save s
  have hudi : u.regs .rdi = s.regs .rdi := by rw [hu]; exact Function.update_of_ne (by decide) _ _
  have hvdi : v.regs .rdi = s.regs .rdi := by rw [hv]; exact Function.update_of_ne (by decide) _ _
  have hearly : Set.EqOn (run (stores .rdi early) u).mem u.mem A :=
    run_keeps (within_stores fits_early (by rw [hudi])) hA
  have hlate : Set.EqOn (run (stores .rdi late) v).mem v.mem A :=
    run_keeps (within_stores fits_late (by rw [hvdi])) hA
  rw [hvmem] at hlate
  rw [humem] at hearly
  rw [hrun]
  exact hlate.trans hearly

/-- **The caller is saved: its registers, and the return address on top of its stack.** -/
theorem save_spec (hapart : Disjoint (span (s.regs .rdi) 112) (span (s.regs .rsp) 8)) :
    Holds (run save s).mem (s.regs .rdi) s.regs (read s.mem (s.regs .rsp)) := by
  obtain ⟨u, v, hu, hv, humem, hvmem, -, -, hrun⟩ := run_save s
  have hmem : (run save s).mem = (run (stores .rdi late) v).mem := by rw [hrun]; rfl
  have hudi : u.regs .rdi = s.regs .rdi := by rw [hu]; exact Function.update_of_ne (by decide) _ _
  have hvdi : v.regs .rdi = s.regs .rdi := by rw [hv]; exact Function.update_of_ne (by decide) _ _
  have hret : v.regs .rax = read s.mem (s.regs .rsp) := by
    have hkeep : Set.EqOn (run (stores .rdi early) u).mem u.mem (span (s.regs .rsp) 8) :=
      run_keeps (within_stores fits_early (by rw [hudi])) hapart
    rw [hv, Function.update_self, read_congr hkeep, humem]
  have hlate : ∀ p ∈ late, read (run save s).mem (off (s.regs .rdi) p.2) = v.regs p.1 := by
    intro p hp
    rw [hmem, ← hvdi]
    exact read_stores fits_late hp
  -- no late store overlaps an early slot
  have hearly : ∀ p ∈ early, read (run save s).mem (off (s.regs .rdi) p.2) = u.regs p.1 := by
    intro p hp
    have hlater : ∀ q ∈ late, q.2 + 8 ≤ p.2 ∨ p.2 + 8 ≤ q.2 :=
      (by decide : ∀ p ∈ early, ∀ q ∈ late, q.2 + 8 ≤ p.2 ∨ p.2 + 8 ≤ q.2) p hp
    rw [hmem, ← hvdi, read_stores_of_apart fits_late (fits_early.bound p hp) hlater, hvmem, hvdi,
      ← hudi]
    exact read_stores fits_early hp
  have hplain : ∀ p ∈ early ++ late, p.1 ≠ .rax →
      read (run save s).mem (off (s.regs .rdi) p.2) = s.regs p.1 := by
    intro p hp hne
    rcases List.mem_append.mp hp with hp | hp
    · rw [hearly p hp, hu, Function.update_of_ne hne]
    · rw [hlate p hp, hv, Function.update_of_ne hne]
  have hslots : ∀ p ∈ kept, p = (.rsp, 104) ∨ p ∈ early ++ late ∧ p.1 ≠ .rax := by decide
  refine ⟨fun p hp => ?_, hplain (.rsi, 64) (by decide) (by decide), ?_⟩
  · rcases hslots p hp with rfl | ⟨hp, hne⟩
    · rw [hearly (.rax, 104) (by decide), hu, Function.update_self]
    · exact hplain p hp hne
  · rw [hlate (.rax, 72) (by decide), hret]

theorem within_save (hctx : span (s.regs .rdi) 112 ⊆ A) (hstack : span (s.regs .rsp) 8 ⊆ A) :
    Within A save s := by
  have hdi : (s.set .rax (s.regs .rsp)).regs .rdi = s.regs .rdi := by simp [State.set]
  simp only [save, within_append, run_append, run_cons, run_nil]
  have hlea : Instr.exec s (.lea ⟨0, .rsp⟩ .rax) = s.set .rax (s.regs .rsp) := by
    simp [Instr.exec, State.ea]
  rw [hlea]
  refine ⟨⟨⟨⟨?_, within_stores fits_early (hdi ▸ hctx)⟩, ?_⟩, within_stores fits_late ?_⟩, ?_⟩
  · simp [Within, Instr.touches]
  · simpa [Within, Instr.touches, State.ea, State.set] using hstack
  · simpa [Instr.exec, State.set] using hctx
  · simp [Within, Instr.touches]

end Save

/-! ### Switches -/

/-- A context that can be switched to: its return address is also on top of its stack. -/
structure Saved (m : Mem) (ctx : Word) (regs : Reg → Word) (ret : Word) : Prop where
  holds : Holds m ctx regs ret
  top : read m (regs .rsp) = ret
  apart : Disjoint (span (regs .rsp) 8) (span ctx 112)

theorem Saved.congr {m m' : Mem} {ctx ret : Word} {regs : Reg → Word} (h : Saved m ctx regs ret)
    (hctx : Set.EqOn m m' (span ctx 112)) (htop : Set.EqOn m m' (span (regs .rsp) 8)) :
    Saved m' ctx regs ret :=
  ⟨h.holds.congr hctx, (read_congr htop).symm.trans h.top, h.apart⟩

section Switch
variable {s : State} {ret : Word} {regs : Reg → Word}

/-- The return address is pushed where it is already: a switch to a saved context writes nothing. -/
theorem restore_saved (h : Saved s.mem (s.regs .rsi) regs ret) :
    Restored (run restore s) regs ret ∧ (run restore s).mem = s.mem := by
  obtain ⟨hrestored, hmem⟩ := restore_spec h.holds h.apart
  refine ⟨hrestored, ?_⟩
  rw [hmem, ← h.top, write_read]

theorem set_restores (h : Saved s.mem (s.regs .rsi) regs ret) :
    Restored (run coctxSet s) regs ret ∧ (run coctxSet s).mem = s.mem := by
  let u : State := Instr.exec s (.lea ⟨0, .rsp⟩ .rax)
  have hsaved : Saved u.mem (u.regs .rsi) regs ret := by
    simpa [u, Instr.exec, State.set] using h
  obtain ⟨hrestored, hmem⟩ := restore_saved hsaved
  exact ⟨hrestored, hmem⟩

/-- What `coctx_swap` needs to know of the stack that its caller runs on. -/
structure Caller (s : State) : Prop where
  stack : Disjoint (span (s.regs .rdi) 112) (span (s.regs .rsp) 8)

/-- The context that is switched to is apart from where the caller is saved. -/
structure Other (s : State) (regs : Reg → Word) : Prop where
  ctx : Disjoint (span (s.regs .rdi) 112) (span (s.regs .rsi) 112)
  stack : Disjoint (span (s.regs .rdi) 112) (span (regs .rsp) 8)

/-- The context that is switched to is still saved once the caller is. -/
theorem saved_after_save (hin : Saved s.mem (s.regs .rsi) regs ret) (hother : Other s regs) :
    Saved (run save s).mem ((run save s).regs .rsi) regs ret := by
  have hkeep : Set.EqOn (run save s).mem s.mem (span (s.regs .rdi) 112)ᶜ :=
    save_keeps disjoint_compl_right
  rw [run_save_regs s (by decide)]
  exact hin.congr (hkeep.symm.mono hother.ctx.subset_compl_left)
    (hkeep.symm.mono hother.stack.subset_compl_left)

/-- **`coctx_swap(out, in)` enters `in`, leaves `out` saved, and writes nothing but `out`.** -/
theorem swap_spec (hin : Saved s.mem (s.regs .rsi) regs ret) (hcaller : Caller s)
    (hother : Other s regs) :
    Restored (run coctxSwap s) regs ret ∧
      Saved (run coctxSwap s).mem (s.regs .rdi) s.regs (read s.mem (s.regs .rsp)) ∧
      Set.EqOn (run coctxSwap s).mem s.mem (span (s.regs .rdi) 112)ᶜ := by
  have hkeep : Set.EqOn (run save s).mem s.mem (span (s.regs .rdi) 112)ᶜ :=
    save_keeps disjoint_compl_right
  obtain ⟨hrestored, hmem⟩ := restore_saved (saved_after_save hin hother)
  rw [coctxSwap_eq, run_append, hmem]
  refine ⟨hrestored, ⟨save_spec hcaller.stack, ?_, hcaller.stack.symm⟩, hkeep⟩
  exact read_congr (hkeep.mono hcaller.stack.subset_compl_left)

variable {A : Set Word}

theorem within_swap (hin : Saved s.mem (s.regs .rsi) regs ret) (hother : Other s regs)
    (hout : span (s.regs .rdi) 112 ⊆ A) (hcall : span (s.regs .rsp) 8 ⊆ A)
    (hctx : span (s.regs .rsi) 112 ⊆ A) (hstack : span (regs .rsp) 8 ⊆ A) : Within A coctxSwap s := by
  rw [coctxSwap_eq, within_append]
  refine ⟨within_save hout hcall, within_restore (saved_after_save hin hother).holds ?_ hstack⟩
  rw [run_save_regs s (by decide)]
  exact hctx

theorem within_set (hin : Saved s.mem (s.regs .rsi) regs ret) (hctx : span (s.regs .rsi) 112 ⊆ A)
    (hstack : span (regs .rsp) 8 ⊆ A) : Within A coctxSet s := by
  let u : State := Instr.exec s (.lea ⟨0, .rsp⟩ .rax)
  have hu : u.regs .rsi = s.regs .rsi := by simp [u, Instr.exec, State.set]
  have hlea : Within A [.lea ⟨0, .rsp⟩ .rax] s := by simp [Within, Instr.touches]
  rw [coctxSet_eq, within_append]
  exact ⟨hlea, within_restore (s := u) (by rw [hu]; exact hin.holds) (by rw [hu]; exact hctx) hstack⟩

end Switch

/-! ### `coctx_make` prepares a saved context -/

/-- The stack pointer that `coctx_make` computes. -/
def top (base size : Word) : Word := (base + size - 8) &&& (-16 : Word)

/-- The registers of a new context. -/
def fresh (sp s s1 : Word) : Reg → Word
  | .rsp => sp
  | .rdi => s
  | .rsi => s1
  | _ => 0

section Make
variable {m : Mem} {ctx base size pfn s s1 : Word}

theorem mask_sixteen (x : Word) : (x &&& (-16 : Word)).toNat = x.toNat / 16 * 16 := by
  have hshift : x &&& (-16 : Word) = (x >>> 4) <<< 4 := by
    apply BitVec.eq_of_getLsbD_eq
    intro i hi
    have hlow : (-16 : Word).getLsbD i = decide (4 ≤ i) := by
      have hall : ∀ i < 64, (-16 : Word).getLsbD i = decide (4 ≤ i) := by decide
      exact hall i hi
    rw [BitVec.getLsbD_and, hlow, BitVec.getLsbD_shiftLeft, BitVec.getLsbD_ushiftRight]
    by_cases h : i < 4
    · simp [h, Nat.not_le.mpr h]
    · have hle : 4 ≤ i := Nat.not_lt.mp h
      simp [hi, h, hle, Nat.add_sub_cancel' hle]
  have hx := x.isLt
  rw [hshift, BitVec.toNat_shiftLeft, BitVec.toNat_ushiftRight, Nat.shiftRight_eq_div_pow,
    Nat.shiftLeft_eq]
  omega

/-- The stack of a new context: room for the alignment, and no wrap of addresses. -/
structure Stack (base size : Word) : Prop where
  room : 24 ≤ size.toNat
  bound : base.toNat + size.toNat ≤ 2 ^ 64

theorem top_toNat (h : Stack base size) :
    (top base size).toNat = (base.toNat + size.toNat - 8) / 16 * 16 := by
  have hroom := h.room
  have hbound := h.bound
  have hbase := base.isLt
  have hend : (base + size - 8).toNat = base.toNat + size.toNat - 8 := by
    rw [BitVec.toNat_sub, BitVec.toNat_add]
    have height : (8 : Word).toNat = 8 := rfl
    rw [height]
    omega
  rw [top, mask_sixteen, hend]

theorem top_mem (h : Stack base size) : span (top base size) 8 ⊆ span base size.toNat := by
  have hroom := h.room
  have hbound := h.bound
  have htop := top_toNat h
  intro x hx
  obtain ⟨k, hk, rfl⟩ := off_of_mem hx
  have hofs : top base size = off base ((top base size).toNat - base.toNat) := by
    apply BitVec.eq_of_toNat_eq
    rw [off, BitVec.toNat_add, BitVec.toNat_ofNat]
    have hlt := (top base size).isLt
    omega
  rw [hofs, off_off]
  exact off_mem (by omega) (by omega)

/-- A word of `ctx` after the four writes of `coctx_make` to it. -/
theorem read_made {k : ℕ} {sp : Word} (hk : k + 8 ≤ 112) (hsp : Disjoint (span sp 8) (span ctx 112))
    (halone : ∀ l ∈ [104, 72, 56, 64], l + 8 ≤ k ∨ k + 8 ≤ l) :
    read (write (write (write (write (write (zero m ctx 112) sp pfn) (off ctx 104) sp)
      (off ctx 72) pfn) (off ctx 56) s) (off ctx 64) s1) (off ctx k) = 0 := by
  have hword : span (off ctx k) 8 ⊆ span ctx 112 := span_subset hk (by decide)
  have hoff : ∀ l ∈ [104, 72, 56, 64], Disjoint (span (off ctx l) 8) (span (off ctx k) 8) := by
    intro l hl
    have hl' : l + 8 ≤ 112 := (by decide : ∀ l ∈ [104, 72, 56, 64], l + 8 ≤ 112) l hl
    exact disjoint_off (halone l hl) (hl'.trans (by decide)) (hk.trans (by decide))
  rw [read_write_of_disjoint (hoff 64 (by decide)), read_write_of_disjoint (hoff 56 (by decide)),
    read_write_of_disjoint (hoff 72 (by decide)), read_write_of_disjoint (hoff 104 (by decide)),
    read_write_of_disjoint (hsp.mono_right hword), read_zero hword]

/-- Where `coctx_make` writes, its context can be switched to. -/
theorem make_saved (hsp : Disjoint (span (top base size) 8) (span ctx 112))
    (hbase : read m (off ctx 120) = base) (hsize : read m (off ctx 112) = size) :
    Saved (coctxMake ctx pfn s s1 m) ctx (fresh (top base size) s s1) pfn := by
  have hmake : coctxMake ctx pfn s s1 m =
      write (write (write (write (write (zero m ctx 112) (top base size) pfn)
        (off ctx 104) (top base size)) (off ctx 72) pfn) (off ctx 56) s) (off ctx 64) s1 := by
    rw [coctxMake, hbase, hsize]
    rfl
  have hoff : ∀ {k l}, k + 8 ≤ 112 → l + 8 ≤ 112 → (k + 8 ≤ l ∨ l + 8 ≤ k) →
      Disjoint (span (off ctx k) 8) (span (off ctx l) 8) := fun hk hl hkl =>
    disjoint_off hkl (hk.trans (by decide)) (hl.trans (by decide))
  have hword : ∀ {k}, k + 8 ≤ 112 → Disjoint (span (off ctx k) 8) (span (top base size) 8) :=
    fun hk => (hsp.mono_right (span_subset hk (by decide))).symm
  rw [hmake]
  refine ⟨⟨fun p hp => ?_, ?_, ?_⟩, ?_, hsp⟩
  · have hcases : p = (.rsp, 104) ∨ p = (.rdi, 56) ∨
        (∀ sp s s1, fresh sp s s1 p.1 = 0) ∧ p.2 + 8 ≤ 112 ∧
          ∀ l ∈ [104, 72, 56, 64], l + 8 ≤ p.2 ∨ p.2 + 8 ≤ l := by
      simp only [kept, List.mem_cons, List.not_mem_nil, or_false] at hp
      rcases hp with rfl | rfl | rfl | rfl | rfl | rfl | rfl | rfl | rfl | rfl | rfl | rfl
      all_goals simp [fresh]
    rcases hcases with rfl | rfl | ⟨hzero, hk, halone⟩
    · rw [read_write_of_disjoint (hoff (by decide) (by decide) (by decide)),
        read_write_of_disjoint (hoff (by decide) (by decide) (by decide)),
        read_write_of_disjoint (hoff (by decide) (by decide) (by decide)), read_write]
      rfl
    · rw [read_write_of_disjoint (hoff (by decide) (by decide) (by decide)), read_write]
      rfl
    · rw [read_made hk hsp halone, hzero]
  · exact read_write _ _ _
  · rw [read_write_of_disjoint (hoff (by decide) (by decide) (by decide)),
      read_write_of_disjoint (hoff (by decide) (by decide) (by decide)), read_write]
  · show read _ (top base size) = pfn
    rw [read_write_of_disjoint (hword (by decide)), read_write_of_disjoint (hword (by decide)),
      read_write_of_disjoint (hword (by decide)), read_write_of_disjoint (hword (by decide)), read_write]

/-- Nothing else is written. -/
theorem make_keeps {A : Set Word} (hbase : read m (off ctx 120) = base)
    (hsize : read m (off ctx 112) = size)
    (hA : Disjoint (span ctx 112 ∪ span (top base size) 8) A) :
    Set.EqOn (coctxMake ctx pfn s s1 m) m A := by
  obtain ⟨hctx, hsp⟩ := Set.disjoint_union_left.mp hA
  have hword : ∀ k, k + 8 ≤ 112 → Disjoint (span (off ctx k) 8) A := fun k hk =>
    hctx.mono_left (span_subset hk (by decide))
  rw [coctxMake, hbase, hsize]
  exact (write_eqOn (hword 64 (by decide))).trans
    ((write_eqOn (hword 56 (by decide))).trans
      ((write_eqOn (hword 72 (by decide))).trans
        ((write_eqOn (hword 104 (by decide))).trans ((write_eqOn hsp).trans (zero_eqOn hctx)))))

end Make

/-! ### Round trips -/

section Trips
variable {s w : State} {m : Mem} {ctx base size pfn arg arg1 ret : Word} {regs : Reg → Word}

/-- A state that runs on, with a saved context and the top of its stack left alone. -/
structure Later (t w : State) (ctx sp : Word) : Prop where
  rsi : w.regs .rsi = ctx
  ctx : Set.EqOn t.mem w.mem (span ctx 112)
  top : Set.EqOn t.mem w.mem (span sp 8)

/-- **Two switches are a plain return.** `coctx_swap(out, in)` goes where `in` was saved. Whatever
runs then, as long as it leaves `out` and the top of the stack of `out` alone: `coctx_set` with
`out`, and `coctx_swap` with `out` from any other context, continue after the call, with the
registers of the call. -/
theorem swap_returns (hin : Saved s.mem (s.regs .rsi) regs ret) (hcaller : Caller s)
    (hother : Other s regs) :
    Restored (run coctxSwap s) regs ret ∧
      ∀ w, Later (run coctxSwap s) w (s.regs .rdi) (s.regs .rsp) →
        (Restored (run coctxSet w) s.regs (read s.mem (s.regs .rsp)) ∧
          (run coctxSet w).mem = w.mem) ∧
        (Caller w → Other w s.regs →
          Restored (run coctxSwap w) s.regs (read s.mem (s.regs .rsp)) ∧
            Set.EqOn (run coctxSwap w).mem w.mem (span (w.regs .rdi) 112)ᶜ) := by
  obtain ⟨hrestored, hsaved, -⟩ := swap_spec hin hcaller hother
  refine ⟨hrestored, fun w hw => ?_⟩
  have hback : Saved w.mem (w.regs .rsi) s.regs (read s.mem (s.regs .rsp)) := by
    rw [hw.rsi]
    exact hsaved.congr hw.ctx hw.top
  refine ⟨set_restores hback, fun hcaller' hother' => ?_⟩
  obtain ⟨hthere, -, hkeep⟩ := swap_spec hback hcaller' hother'
  exact ⟨hthere, hkeep⟩

/-- A caller at `0x7000`, saved at `0x3000`, and a new context at `0x2000` with its stack at `0x5000`. -/
def made : State where
  regs
    | .rdi => 0x3000
    | .rsi => 0x2000
    | .rsp => 0x7000
    | _ => 5
  mem := coctxMake 0x2000 77 1 2 (write (write (fun _ => 0) (off 0x2000 120) 0x5000) (off 0x2000 112) 64)
  rip := 0

theorem saved_made : Saved made.mem (made.regs .rsi) (fresh (top 0x5000 64) 1 2) 77 := by
  have hwords : Disjoint (span (off 0x2000 112) 8) (span (off 0x2000 120) 8) :=
    disjoint_off (by decide) (by decide) (by decide)
  refine make_saved (disjoint_span ?_ ?_).symm ?_ (read_write _ _ _)
  · decide
  · decide
  · rw [read_write_of_disjoint hwords, read_write]

theorem swap_returns_made :
    Restored (run coctxSwap made) (fresh (top 0x5000 64) 1 2) 77 ∧
      ∀ w, Later (run coctxSwap made) w 0x3000 0x7000 →
        (Restored (run coctxSet w) made.regs (read made.mem 0x7000) ∧
          (run coctxSet w).mem = w.mem) ∧
        (Caller w → Other w made.regs →
          Restored (run coctxSwap w) made.regs (read made.mem 0x7000) ∧
            Set.EqOn (run coctxSwap w).mem w.mem (span (w.regs .rdi) 112)ᶜ) :=
  swap_returns saved_made ⟨disjoint_span (by decide) (by decide)⟩
    ⟨(disjoint_span (by decide) (by decide)).symm, disjoint_span (by decide) (by decide)⟩

/-- A function starts, with both arguments, all other saved registers zero, the stack aligned as
after a call, and all but at most 16 bytes of the stack below it. -/
structure Starts (t : State) (pfn arg arg1 base size : Word) : Prop where
  rip : t.rip = pfn
  rdi : t.regs .rdi = arg
  rsi : t.regs .rsi = arg1
  zero : ∀ r ∈ [Reg.rbx, .rbp, .r12, .r13, .r14, .r15], t.regs r = 0
  aligned : (t.regs .rsp).toNat % 16 = 8
  le : (t.regs .rsp).toNat ≤ base.toNat + size.toNat
  room : base.toNat + size.toNat < (t.regs .rsp).toNat + 16

theorem starts_of_restored {t : State} (hstack : Stack base size)
    (h : Restored t (fresh (top base size) arg arg1) pfn) : Starts t pfn arg arg1 base size := by
  have htop := top_toNat hstack
  have hroom := hstack.room
  have hbound := hstack.bound
  have hnat : (t.regs .rsp).toNat = (top base size).toNat + 8 := by
    have height : (8 : Word).toNat = 8 := rfl
    rw [h.rsp, show fresh (top base size) arg arg1 .rsp = top base size from rfl, BitVec.toNat_add, height]
    omega
  refine ⟨h.rip, h.kept (.rdi, 56) (by decide) (by decide), h.rsi, fun r hr => ?_, by omega, by omega, by omega⟩
  have hslot : ∃ k, (r, k) ∈ kept ∧ r ≠ .rsp ∧ ∀ sp a b, fresh sp a b r = 0 := by
    simp only [List.mem_cons, List.not_mem_nil, or_false] at hr
    rcases hr with rfl | rfl | rfl | rfl | rfl | rfl
    · exact ⟨96, by decide, by decide, fun _ _ _ => rfl⟩
    · exact ⟨48, by decide, by decide, fun _ _ _ => rfl⟩
    · exact ⟨24, by decide, by decide, fun _ _ _ => rfl⟩
    · exact ⟨16, by decide, by decide, fun _ _ _ => rfl⟩
    · exact ⟨8, by decide, by decide, fun _ _ _ => rfl⟩
    · exact ⟨0, by decide, by decide, fun _ _ _ => rfl⟩
  obtain ⟨k, hk, hne, hzero⟩ := hslot
  exact (h.kept (r, k) hk hne).trans (hzero _ _ _)

/-- **A new context starts its function**, by `coctx_swap` as in `swap_new_context`, which saves its
caller and writes nothing else, and by `coctx_set`, which writes nothing. -/
theorem make_starts (hstack : Stack base size) (hapart : Disjoint (span base size.toNat) (span ctx 112))
    (hbase : read m (off ctx 120) = base) (hsize : read m (off ctx 112) = size)
    (hw : Later ⟨fun _ => 0, coctxMake ctx pfn arg arg1 m, 0⟩ w ctx (top base size)) :
    (Caller w → Disjoint (span (w.regs .rdi) 112) (span ctx 112) →
      Disjoint (span (w.regs .rdi) 112) (span base size.toNat) →
        Starts (run coctxSwap w) pfn arg arg1 base size ∧
        Saved (run coctxSwap w).mem (w.regs .rdi) w.regs (read w.mem (w.regs .rsp)) ∧
        Set.EqOn (run coctxSwap w).mem w.mem (span (w.regs .rdi) 112)ᶜ) ∧
      Starts (run coctxSet w) pfn arg arg1 base size ∧ (run coctxSet w).mem = w.mem := by
  have hsp : Disjoint (span (top base size) 8) (span ctx 112) := hapart.mono_left (top_mem hstack)
  have hsaved : Saved w.mem (w.regs .rsi) (fresh (top base size) arg arg1) pfn := by
    rw [hw.rsi]
    exact (make_saved hsp hbase hsize).congr hw.ctx hw.top
  obtain ⟨hset, hmem⟩ := set_restores hsaved
  refine ⟨fun hcaller hctx hout => ?_, starts_of_restored hstack hset, hmem⟩
  obtain ⟨hswap, hback, hkeep⟩ := swap_spec hsaved hcaller
    ⟨by rw [hw.rsi]; exact hctx, hout.mono_right (top_mem hstack)⟩
  exact ⟨starts_of_restored hstack hswap, hback, hkeep⟩

theorem make_starts_made :
    (Starts (run coctxSwap made) 77 1 2 0x5000 64 ∧
      Saved (run coctxSwap made).mem 0x3000 made.regs (read made.mem 0x7000) ∧
      Set.EqOn (run coctxSwap made).mem made.mem (span 0x3000 112)ᶜ) ∧
    Starts (run coctxSet made) 77 1 2 0x5000 64 ∧ (run coctxSet made).mem = made.mem := by
  have hwords : Disjoint (span (off 0x2000 112) 8) (span (off 0x2000 120) 8) :=
    disjoint_off (by decide) (by decide) (by decide)
  have hstack : Stack 0x5000 64 := ⟨by decide, by decide⟩
  have hapart : Disjoint (span 0x5000 (64 : Word).toNat) (span 0x2000 112) :=
    (disjoint_span (by decide) (by decide)).symm
  have hmade : Later ⟨fun _ => 0, made.mem, 0⟩ made 0x2000 (top 0x5000 64) :=
    ⟨rfl, fun _ _ => rfl, fun _ _ => rfl⟩
  obtain ⟨hswap, hset⟩ := make_starts hstack hapart (by rw [read_write_of_disjoint hwords, read_write])
    (read_write _ _ _) hmade
  exact ⟨hswap ⟨disjoint_span (by decide) (by decide)⟩ (disjoint_span (by decide) (by decide)).symm
    (disjoint_span (by decide) (by decide)), hset⟩

end Trips
end QuietFlow.Coctx
