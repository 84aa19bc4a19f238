import Mathlib.Data.Set.Basic
import QuietFlow.Schedule.Contexts

/-! The memory that a leaving context gives back.

`swap_new_context` calls `shrink_physical_memory` of the context it leaves, which gives back the
memory from `stack_ptr` to a page below its own frame. That is right for a context whose code
runs on its mapping. The context of `routine` has a mapping of one byte, which nothing ever runs
on: its frames are on the stack of the OS thread, wherever that is. `shrink_iff` says for which
calls the range is the context's own. -/
namespace QuietFlow.Schedule
open Runs Crew

/-- `COROUTINE_STACK_SIZE`. -/
def coroutineStackSize : ℕ := 8192 * 1024

def offset : BitVec 64 := 1 <<< 12

/-- The `size` of `shrink_physical_memory`, from the address of its local. -/
def shrinkSize (frame stackPtr : BitVec 64) : BitVec 64 :=
  ((frame - offset) &&& ~~~(offset - 1)) - stackPtr

/-- The range passed to `madvise`, if it is called: its start and its size. -/
def givenBack (frame stackPtr : BitVec 64) : Option (BitVec 64 × BitVec 64) :=
  let size := shrinkSize frame stackPtr
  if 0 < size.toInt then some (stackPtr, size) else none

/-- A mapping returned by `mmap`: whole pages from `p` on, in user space. -/
def Mapped (p : BitVec 64) (size : ℕ) : Prop := p.toNat % 4096 = 0 ∧ p.toNat + size ≤ 2 ^ 47

instance (p : BitVec 64) (size : ℕ) : Decidable (Mapped p size) := inferInstanceAs (Decidable (_ ∧ _))

/-- The stacks of the contexts made so far. -/
structure Memory where
  stackPtr : ℕ → BitVec 64
  stackSize : ℕ → ℕ
  /-- `coctx_make` set the context up to run on its stack. -/
  made : ℕ → Bool

namespace Memory
variable (m : Memory) (c : ℕ) (p : BitVec 64)

def place (size : ℕ) (made : Bool) : Memory where
  stackPtr := Function.update m.stackPtr c p
  stackSize := Function.update m.stackSize c size
  made := Function.update m.made c made

/-- What a statement does to the stacks, when the next context has number `c`: `routine` makes
one of size 1, `swap_new_context` one with a coroutine's stack, from the pool or from `mmap`. -/
def after : Pc → Option Memory
  | .created => if Mapped p 1 then some (m.place c p 1 false) else none
  | .swapNew _ _ =>
    if Mapped p coroutineStackSize then some (m.place c p coroutineStackSize true) else none
  | _ => some m

/-- A context that runs on the stack of the OS thread. -/
def Native : Prop := m.made c = false ∧ m.stackSize c = 1 ∧ Mapped (m.stackPtr c) 1

def Coroutine : Prop :=
  m.made c = true ∧ m.stackSize c = coroutineStackSize ∧ Mapped (m.stackPtr c) coroutineStackSize

end Memory

/-- A step of a worker, with the address that a new context's stack gets. -/
def execAt (x : Shared × Memory) (w : Worker) (a : Act × BitVec 64) :
    Option ((Shared × Memory) × Worker) :=
  (exec x.1 w a.1).bind fun (y, w') => (x.2.after x.1.contexts a.2 w.pc).map fun m => ((y, m), w')

/-- The workers of a schedule and the stacks of their contexts. -/
def placed (stored : ℤ) : Crew (Shared × Memory) Worker (Act × BitVec 64) where
  start := ((crew stored).start, ⟨fun _ => 0, fun _ => 0, fun _ => false⟩)
  place := (crew stored).place
  exec := execAt

/-- `a` is an address of the stack that the worker runs on: its context's own, or that of the OS
thread. -/
def OnStack (osStack : Set (BitVec 64)) (m : Memory) (w : Worker) (a : BitVec 64) : Prop :=
  if m.made w.stack then
    (m.stackPtr w.stack).toNat ≤ a.toNat ∧ a.toNat < (m.stackPtr w.stack).toNat + m.stackSize w.stack
  else
    a ∈ osStack

/-- What is given back for `out` is memory of its own mapping, a page or more below the frame. -/
def GivesOwn (m : Memory) (out : ℕ) (frame : BitVec 64) : Prop :=
  ∀ start size, givenBack frame (m.stackPtr out) = some (start, size) →
    (m.stackPtr out).toNat ≤ start.toNat ∧
    start.toNat + size.toNat ≤ (m.stackPtr out).toNat + m.stackSize out ∧
    start.toNat + size.toNat + 4096 ≤ frame.toNat

/-! ### The size -/

section Size
variable {frame p : BitVec 64}

theorem mask_page (x : BitVec 64) : (x &&& ~~~(offset - 1)).toNat = x.toNat / 4096 * 4096 := by
  have hshift : x &&& ~~~(offset - 1) = (x >>> 12) <<< 12 := by
    apply BitVec.eq_of_getLsbD_eq
    intro i hi
    have hlow : (offset - 1).getLsbD i = decide (i < 12) := by
      have hall : ∀ i < 64, (offset - 1).getLsbD i = decide (i < 12) := by decide
      exact hall i hi
    rw [BitVec.getLsbD_and, BitVec.getLsbD_not, hlow, BitVec.getLsbD_shiftLeft,
      BitVec.getLsbD_ushiftRight]
    by_cases h : i < 12
    · simp [hi, h]
    · simp [hi, h, Nat.add_sub_cancel' (Nat.not_lt.mp h)]
  have hx := x.isLt
  rw [hshift, BitVec.toNat_shiftLeft, BitVec.toNat_ushiftRight, Nat.shiftRight_eq_div_pow,
    Nat.shiftLeft_eq]
  omega

/-- In user space no difference leaves a `long long`. -/
theorem shrinkSize_toInt (hframe : frame.toNat < 2 ^ 47) (hp : p.toNat ≤ 2 ^ 47) :
    (shrinkSize frame p).toInt = (frame.toNat / 4096 * 4096 : ℕ) - 4096 - p.toNat := by
  have hbelow : (frame - offset).toNat = (2 ^ 64 - 4096 + frame.toNat) % 2 ^ 64 := BitVec.toNat_sub _ _
  have hsize : (shrinkSize frame p).toNat =
      (2 ^ 64 - p.toNat + (frame - offset).toNat / 4096 * 4096) % 2 ^ 64 := by
    rw [shrinkSize, BitVec.toNat_sub, mask_page]
  rw [BitVec.toInt_eq_toNat_cond]
  by_cases hsign : 2 * (shrinkSize frame p).toNat < 2 ^ 64
  · rw [if_pos hsign]
    omega
  · rw [if_neg hsign]
    omega

/-- What `madvise` gets, as numbers. -/
theorem givenBack_eq (hframe : frame.toNat < 2 ^ 47) (hp : p.toNat ≤ 2 ^ 47) {start size : BitVec 64}
    (h : givenBack frame p = some (start, size)) :
    start = p ∧ p.toNat + size.toNat + 4096 = frame.toNat / 4096 * 4096 := by
  simp only [givenBack, Option.ite_none_right_eq_some, Option.some.injEq, Prod.mk.injEq] at h
  obtain ⟨hpos, rfl, rfl⟩ := h
  have hint := shrinkSize_toInt hframe hp
  rw [BitVec.toInt_eq_toNat_cond] at hint hpos
  refine ⟨rfl, ?_⟩
  by_cases hsign : 2 * (shrinkSize frame p).toNat < 2 ^ 64
  · rw [if_pos hsign] at hint
    omega
  · rw [if_neg hsign] at hpos
    have := (shrinkSize frame p).isLt
    omega

/-- It gets something where the frame is a whole page or more above the first of the mapping. -/
theorem givenBack_isSome (hframe : frame.toNat < 2 ^ 47) (hp : p.toNat ≤ 2 ^ 47) :
    (givenBack frame p).isSome ↔ p.toNat + 4096 < frame.toNat / 4096 * 4096 := by
  have hint := shrinkSize_toInt hframe hp
  simp only [givenBack, Option.isSome_ite, hint]
  omega

/-- A context that runs on its mapping gives back what it does not use of it. -/
theorem givesOwn_coroutine {m : Memory} {out : ℕ} (h : m.Coroutine out)
    (hhi : frame.toNat < (m.stackPtr out).toNat + m.stackSize out) : GivesOwn m out frame := by
  obtain ⟨-, hstack, -, hmapped⟩ := h
  rw [hstack] at hhi
  intro start size hgiven
  obtain ⟨rfl, hsum⟩ := givenBack_eq (by omega) (by omega) hgiven
  rw [hstack]
  omega

/-- A context that runs elsewhere gives back nothing, or memory that is not its own. -/
theorem givesOwn_native {m : Memory} {out : ℕ} (h : m.Native out) (hframe : frame.toNat < 2 ^ 47) :
    GivesOwn m out frame ↔ frame.toNat < (m.stackPtr out).toNat + 8192 := by
  obtain ⟨-, hstack, halign, hmapped⟩ := h
  have hsome := givenBack_isSome hframe (show (m.stackPtr out).toNat ≤ 2 ^ 47 by omega)
  refine ⟨fun hown => ?_, fun hlt => ?_⟩
  · by_contra hge
    obtain ⟨⟨start, size⟩, hgiven⟩ := Option.isSome_iff_exists.mp (hsome.mpr (by omega))
    obtain ⟨rfl, hsum⟩ := givenBack_eq hframe (by omega) hgiven
    have := (hown _ _ hgiven).2.1
    rw [hstack] at this
    omega
  · intro start size hgiven
    have := hsome.mp (by rw [hgiven]; rfl)
    omega

end Size

/-! ### On which stack a worker runs -/

/-- The code of `routine`, up to its `coctx_swap`. -/
def Pc.onThread : Pc → Bool
  | .routine | .swapPre _ .routine | .swapNew _ .routine | .swap _ .routine => true
  | _ => false

/-- The stack of the context is of one kind or the other, as the code needs it. -/
def Memory.Fits (m : Memory) (pc : Pc) (c : ℕ) : Prop := if pc.onThread then m.Native c else m.Coroutine c

section Invariant
variable {x x' : Shared} {w w' : Worker} {m m' : Memory} {p : BitVec 64} {c : ℕ}

/-- The worker runs on a stack of the right kind, and leaves for a coroutine. -/
structure Stacked (x : Shared) (m : Memory) (w : Worker) : Prop where
  stack : w.pc ≠ .created → w.stack < x.contexts ∧ m.Fits w.pc w.stack
  target : ∀ out k, w.pc = .swap out k → ∀ c ∈ w.contextPtr, c < x.contexts ∧ m.Coroutine c

/-- Who was saved in a wait runs on its mapping. -/
def SavedStacks (x : Shared) (m : Memory) : Prop :=
  ∀ c v, ⟨c, .wait v⟩ ∈ x.saved → c < x.contexts ∧ m.Coroutine c

/-- The stacks made before are as they were. -/
structure Kept (x : Shared) (m : Memory) (x' : Shared) (m' : Memory) : Prop where
  contexts : x.contexts ≤ x'.contexts
  native : ∀ c < x.contexts, m.Native c → m'.Native c
  coroutine : ∀ c < x.contexts, m.Coroutine c → m'.Coroutine c

theorem Kept.fits (h : Kept x m x' m') {pc : Pc} (hc : c < x.contexts) (hfits : m.Fits pc c) :
    m'.Fits pc c := by
  unfold Memory.Fits at *
  split
  · next hpc =>
    rw [if_pos hpc] at hfits
    exact h.native c hc hfits
  · next hpc =>
    rw [if_neg hpc] at hfits
    exact h.coroutine c hc hfits

theorem Kept.stacked (h : Kept x m x' m') (hs : Stacked x m w) : Stacked x' m' w where
  stack hpc := by
    obtain ⟨hlt, hfits⟩ := hs.stack hpc
    exact ⟨hlt.trans_le h.contexts, h.fits hlt hfits⟩
  target out k hpc c hc := by
    obtain ⟨hlt, hcoroutine⟩ := hs.target out k hpc c hc
    exact ⟨hlt.trans_le h.contexts, h.coroutine c hlt hcoroutine⟩

theorem place_other {size : ℕ} {made : Bool} {c' : ℕ} (h : c' ≠ c) :
    ((m.place c p size made).Native c' ↔ m.Native c') ∧
      ((m.place c p size made).Coroutine c' ↔ m.Coroutine c') := by
  simp [Memory.place, Memory.Native, Memory.Coroutine, Function.update_of_ne h]

theorem native_place (h : Mapped p 1) : (m.place c p 1 false).Native c := by
  simp [Memory.place, Memory.Native, h]

theorem coroutine_place (h : Mapped p coroutineStackSize) :
    (m.place c p coroutineStackSize true).Coroutine c := by
  simp [Memory.place, Memory.Coroutine, h]

/-- Most steps leave the stacks alone, and the worker where it is. -/
theorem stacked_same (hI : SavedStacks x m) (hJ : Stacked x m w) (hcontexts : x'.contexts = x.contexts)
    (hsaved : x'.saved = x.saved) (hst : w'.stack = w.stack) (hpc : w.pc ≠ .created)
    (hthread : w'.pc.onThread = w.pc.onThread) (hswap : ∀ out k, w'.pc ≠ .swap out k) :
    Kept x m x' m ∧ SavedStacks x' m ∧ Stacked x' m w' := by
  refine ⟨⟨hcontexts.ge, fun _ _ h => h, fun _ _ h => h⟩, fun c v hc => ?_, ⟨fun _ => ?_, fun out k h => ?_⟩⟩
  · rw [hsaved] at hc
    rw [hcontexts]
    exact hI c v hc
  · obtain ⟨hlt, hfits⟩ := hJ.stack hpc
    rw [hcontexts, hst, Memory.Fits, hthread]
    exact ⟨hlt, hfits⟩
  · exact absurd h (hswap out k)

theorem stacked_step (h : Effect x w x' w') (hafter : m.after x.contexts p w.pc = some m')
    (hsound : w.Sound) (hI : SavedStacks x m) (hJ : Stacked x m w) :
    Kept x m x' m' ∧ SavedStacks x' m' ∧ Stacked x' m' w' := by
  cases h
  case created st q r =>
    simp only [Memory.after, Option.ite_none_right_eq_some, Option.some.injEq] at hafter
    obtain ⟨hmapped, rfl⟩ := hafter
    have hkept : Kept x m x.newContext (m.place x.contexts p 1 false) :=
      ⟨Nat.le_succ _, fun c hc => (place_other hc.ne).1.mpr, fun c hc => (place_other hc.ne).2.mpr⟩
    refine ⟨hkept, fun c v hc => ?_, ⟨fun _ => ⟨Nat.lt_succ_self _, native_place hmapped⟩, nofun⟩⟩
    obtain ⟨hlt, hcoroutine⟩ := hI c v hc
    exact ⟨hlt.trans_le hkept.contexts, hkept.coroutine c hlt hcoroutine⟩
  case swapNew st q r out k =>
    simp only [Memory.after, Option.ite_none_right_eq_some, Option.some.injEq] at hafter
    obtain ⟨hmapped, rfl⟩ := hafter
    have hkept : Kept x m x.newContext (m.place x.contexts p coroutineStackSize true) :=
      ⟨Nat.le_succ _, fun c hc => (place_other hc.ne).1.mpr, fun c hc => (place_other hc.ne).2.mpr⟩
    obtain ⟨hlt, hfits⟩ := hJ.stack nofun
    have hthread : (Pc.swap out k).onThread = (Pc.swapNew out k).onThread := by cases k <;> rfl
    refine ⟨hkept, fun c v hc => ?_, ⟨fun _ => ⟨hlt.trans_le hkept.contexts, ?_⟩, fun _ _ _ c hc => ?_⟩⟩
    · obtain ⟨hlt, hcoroutine⟩ := hI c v hc
      exact ⟨hlt.trans_le hkept.contexts, hkept.coroutine c hlt hcoroutine⟩
    · rw [Memory.Fits, hthread]
      exact hkept.fits hlt hfits
    · cases hc
      exact ⟨Nat.lt_succ_self _, coroutine_place hmapped⟩
  case swap st c r out k =>
    cases hafter
    obtain ⟨hlt, hfits⟩ := hJ.stack nofun
    obtain ⟨hclt, hcoroutine⟩ := hJ.target out k rfl c rfl
    refine ⟨⟨le_rfl, fun _ _ h => h, fun _ _ h => h⟩, fun d v hd => ?_, ⟨fun _ => ⟨hclt, hcoroutine⟩, nofun⟩⟩
    rcases List.mem_append.mp hd with hd | hd
    · exact hI d v hd
    · obtain ⟨rfl, rfl⟩ := Saved.mk.inj (List.mem_singleton.mp hd)
      have hout : d = st := hsound.1
      rw [hout]
      exact ⟨hlt, hfits⟩
  case jump st c r b v hmem =>
    cases hafter
    refine ⟨⟨le_rfl, fun _ _ h => h, fun _ _ h => h⟩, fun d u hd => hI d u (List.mem_of_mem_erase hd), ?_⟩
    exact ⟨fun _ => hI c v hmem, nofun⟩
  case swapPre st q r out k =>
    cases hafter
    exact stacked_same hI hJ rfl rfl rfl nofun (by cases k <;> rfl) nofun
  all_goals
    cases hafter
    exact stacked_same hI hJ rfl rfl rfl nofun rfl nofun

end Invariant

section Run
variable {T : Type} [Fintype T] [DecidableEq T] {stored : ℤ}
  {s : Crew.Config (Shared × Memory) Worker T} {t : T}

omit [Fintype T] [DecidableEq T] in
theorem exec_of_execAt {x x' : Shared × Memory} {w w' : Worker} {a : Act × BitVec 64}
    (h : execAt x w a = some (x', w')) :
    exec x.1 w a.1 = some (x'.1, w') ∧ x.2.after x.1.contexts a.2 w.pc = some x'.2 := by
  obtain ⟨⟨y, v⟩, hexec, hmap⟩ := Option.bind_eq_some_iff.mp h
  obtain ⟨m, hafter, heq⟩ := Option.map_eq_some_iff.mp hmap
  cases heq
  exact ⟨hexec, hafter⟩

omit [Fintype T] in
/-- A run with addresses is a run of the workers. -/
theorem reached_forget (h : ((placed stored).system T).Reached s) :
    ((crew stored).system T).Reached ⟨s.shared.1, s.places⟩ := by
  refine Crew.induct (I := fun s => ((crew stored).system T).Reached ⟨s.shared.1, s.places⟩) .start
    (fun s t a s' htook ih => ?_) h
  have hexec := (exec_of_execAt htook.exec).1
  refine .step (a := (t, a.1)) ih ?_ trivial
  change (exec s.shared.1 (s.places t) a.1).map _ = _
  rw [hexec, Option.map_some, htook.others, Function.update_self]

theorem stacked (h : ((placed stored).system T).Reached s) :
    SavedStacks s.shared.1 s.shared.2 ∧ ∀ t, Stacked s.shared.1 s.shared.2 (s.places t) := by
  refine Crew.invariant (I := fun x : Shared × Memory => SavedStacks x.1 x.2)
    (J := fun x w => Stacked x.1 x.2 w) (fun _ _ hc => absurd hc List.not_mem_nil)
    ⟨fun hpc => absurd rfl hpc, fun out k hpc => absurd (show Pc.created = .swap out k from hpc) nofun⟩
    (fun s t a s' htook hI hJ => ?_) h
  obtain ⟨hexec, hafter⟩ := exec_of_execAt htook.exec
  have hsound := (linked (reached_forget htook.reached)).sound t
  obtain ⟨hkept, hI', hJ'⟩ := stacked_step (effect_of_exec hexec) hafter hsound hI (hJ t)
  exact ⟨hI', hJ', fun t' _ => hkept.stacked (hJ t')⟩

/-- **What a leaving context gives back is its own** in every call of `require_node` and
`wait_graph`, and in the call of `routine` exactly where its frame, on the stack of the OS
thread, is not two pages or more above the start of the context's mapping. -/
theorem shrink_iff (osStack : T → Set (BitVec 64)) (huser : ∀ t, ∀ a ∈ osStack t, a.toNat < 2 ^ 47)
    (h : ((placed stored).system T).Reached s) {out : ℕ} {k : Cont} (hpc : (s.places t).pc = .swap out k)
    {frame : BitVec 64} (hframe : OnStack (osStack t) s.shared.2 (s.places t) frame) :
    GivesOwn s.shared.2 out frame ↔
      k ≠ .routine ∨ frame.toNat < (s.shared.2.stackPtr out).toNat + 8192 := by
  have hsound := (linked (reached_forget h)).sound t
  rw [Worker.Sound, hpc] at hsound
  obtain ⟨-, hfits⟩ := ((stacked h).2 t).stack (by rw [hpc]; nofun)
  rw [← hsound.1, hpc] at hfits
  rw [OnStack, ← hsound.1] at hframe
  cases k with
  | routine =>
    have hnative : s.shared.2.Native out := hfits
    rw [if_neg (by rw [hnative.1]; nofun)] at hframe
    simp only [ne_eq, not_true_eq_false, false_or]
    exact givesOwn_native hnative (huser t frame hframe)
  | wait v =>
    have hcoroutine : s.shared.2.Coroutine out := hfits
    rw [if_pos hcoroutine.1] at hframe
    exact iff_of_true (givesOwn_coroutine hcoroutine hframe.2) (.inl nofun)

/-- The steps of `routine` to its `coctx_swap`, with its context's mapping at `p` and the
coroutine's at `p'`. -/
def departure (p p' : BitVec 64) : List (Unit × Act × BitVec 64) :=
  [((), .step, p), ((), .step, 0), ((), .step, 0), ((), .step, p')]

/-- A thread's stack of 8 megabytes, a gigabyte above. -/
def stackAbove : Set (BitVec 64) := {a | 0x7f003f800000 ≤ a.toNat ∧ a.toNat < 0x7f0040000000}

theorem departure_reached : ∃ s, ((placed 1).system Unit).Reached s ∧
    (s.places ()).pc = .swap 0 .routine ∧ s.shared.2.stackPtr 0 = 0x7f0000000000#64 ∧
    s.shared.2.stackPtr 1 = 0x7effff000000#64 ∧ s.shared.2.stackSize 0 = 1 ∧
    s.shared.2.made (s.places ()).stack = false :=
  System.exists_reachedBy ((placed 1).system Unit) (fun _ _ _ => True)
    (departure 0x7f0000000000 0x7effff000000)
    (fun s => (s.places ()).pc = .swap 0 .routine ∧ s.shared.2.stackPtr 0 = 0x7f0000000000#64 ∧
      s.shared.2.stackPtr 1 = 0x7effff000000#64 ∧ s.shared.2.stackSize 0 = 1 ∧
      s.shared.2.made (s.places ()).stack = false)
    (by decide)

/-- `routine` gives back most of the gigabyte between its context's page and its frame. -/
theorem gives_foreign : ∃ s, ((placed 1).system Unit).Reached s ∧
    (s.places ()).pc = .swap 0 .routine ∧
    ((s.shared.2.stackPtr 1).toNat + coroutineStackSize ≤ (s.shared.2.stackPtr 0).toNat ∧
      ∀ a ∈ stackAbove, (s.shared.2.stackPtr 0).toNat + 4096 ≤ a.toNat) ∧
    ∃ frame, OnStack stackAbove s.shared.2 (s.places ()) frame ∧ ¬ GivesOwn s.shared.2 0 frame := by
  obtain ⟨s, hr, hpc, hptr, hptr', hsize, hmade⟩ := departure_reached
  refine ⟨s, hr, hpc, ⟨?_, fun a ha => ?_⟩, 0x7f003fffe000#64, ?_, fun hown => ?_⟩
  · rw [hptr, hptr']
    decide
  · rw [hptr]
    exact le_trans (by decide) ha.1
  · rw [OnStack, if_neg (by rw [hmade]; nofun)]
    exact ⟨by decide, by decide⟩
  · have hgiven : givenBack 0x7f003fffe000#64 0x7f0000000000#64 =
        some (0x7f0000000000#64, 0x3fffd000#64) := by decide
    have hrange := (hown _ _ (by rw [hptr]; exact hgiven)).2.1
    rw [hptr, hsize] at hrange
    exact absurd hrange (by decide)

theorem shrink_iff_departure : ∃ s, ((placed 1).system Unit).Reached s ∧
    (GivesOwn s.shared.2 0 0x7f003fffe000#64 ↔ Cont.routine ≠ .routine ∨
      (0x7f003fffe000#64).toNat < (s.shared.2.stackPtr 0).toNat + 8192) := by
  obtain ⟨s, hr, hpc, -, -, -, hmade⟩ := departure_reached
  refine ⟨s, hr, shrink_iff (t := ()) (fun _ => stackAbove) (fun _ a ha => ha.2.trans (by decide)) hr hpc ?_⟩
  rw [OnStack, if_neg (by rw [hmade]; nofun)]
  exact ⟨by decide, by decide⟩

end Run
end QuietFlow.Schedule
