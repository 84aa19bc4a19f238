import QuietFlow.Schedule.Idle
import Mathlib.Data.Finset.Card

/-! Who owns a context.

A context belongs to one worker, which runs on its stack, has just made it or is about to
delete it, or to the list of saved contexts, or it was deleted. A `BackNode` refers to the
context of the wait that made it, until that wait is resumed. -/
namespace QuietFlow.Schedule
open Runs Crew

/-! ### What the places of a worker hold -/

def Cont.backs : Cont → List ℕ
  | .routine => []
  | .wait v => [v.back]

namespace Worker
variable (w : Worker)

/-- The contexts that no one else refers to. -/
def owned : List ℕ :=
  match w.pc with
  | .created => []
  | .swap _ _ => w.stack :: w.contextPtr.toList
  | .resumed _ | .resumedDelete _ => w.stack :: w.contextPrePtr.toList
  | _ => [w.stack]

/-- The `BackNode` of the wait that the worker begins or ends. -/
def held : List ℕ :=
  match w.pc with
  | .publish v | .idleAdd v | .resumed v => [v.back]
  | .swapPre _ k | .swapNew _ k | .swap _ k => k.backs
  | _ => []

/-- The pointers of the worker's `Thread`, at each statement. -/
def Sound : Prop :=
  match w.pc with
  | .created | .routine => True
  | .swapPre out _ => out = w.stack
  | .swapNew out _ => out = w.stack ∧ w.contextPrePtr = some w.stack
  | .swap out _ => out = w.stack ∧ w.contextPrePtr = some w.stack
  | .enter | .enterYield => w.contextPtr = some w.stack ∧ ∃ c, w.contextPrePtr = some c
  | .setPtr _ _ => w.contextPtr = some w.stack ∧ w.contextPrePtr = some w.stack
  | .jump _ => w.contextPrePtr = some w.stack
  | .resumed _ | .resumedDelete _ => w.contextPtr = some w.stack ∧ ∃ c, w.contextPrePtr = some c
  | _ => w.contextPtr = some w.stack

/-- How often the worker holds a `BackNode` for a context. -/
def holds (b c : ℕ) : ℤ := if w.stack = c then w.held.count b else 0

theorem holds_nonneg (b c : ℕ) : 0 ≤ w.holds b c := by
  unfold holds
  split <;> omega

end Worker

/-- How often the saved contexts hold a `BackNode` for a context. -/
def savedBacks (saved : List Saved) (b c : ℕ) : ℤ :=
  (saved.flatMap fun e => if e.context = c then e.cont.backs else []).count b

/-- How often a `BackNode` refers to a context. -/
def refers (ptr : ℕ → Option ℕ) (b c : ℕ) : ℤ := if ptr b = some c then 1 else 0

theorem refers_update_self (ptr : ℕ → Option ℕ) (p : Option ℕ) (b c : ℕ) :
    refers (Function.update ptr b p) b c = if p = some c then 1 else 0 := by
  rw [refers, Function.update_self]

theorem refers_update_ne (ptr : ℕ → Option ℕ) (p : Option ℕ) {b b' : ℕ} (h : b ≠ b') (c : ℕ) :
    refers (Function.update ptr b' p) b c = refers ptr b c := by
  rw [refers, Function.update_of_ne h]
  rfl

theorem count_flatMap_erase {α β : Type} [DecidableEq α] [DecidableEq β] {l : List α} {e : α}
    (h : e ∈ l) (f : α → List β) (b : β) :
    (l.flatMap f).count b = (f e).count b + ((l.erase e).flatMap f).count b := by
  rw [((List.perm_cons_erase h).flatMap_right f).count_eq b, List.flatMap_cons, List.count_append]

/-! ### BackNodes and the contexts they refer to -/

section Step
variable {x x' : Shared} {w w' : Worker}

theorem sound_step (h : Effect x w x' w') (hs : w.Sound)
    (hback : ∀ b, b ∈ w.held → x.backRunContextPtr b = some w.stack) : w'.Sound := by
  cases h
  case idleAdd st p q v c hc =>
    have hst := hback v.back List.mem_cons_self
    rw [hc] at hst
    exact Option.some.inj hst
  case created => trivial
  case routine => rfl
  case swapPre st p q out k =>
    have hout : out = st := hs
    exact ⟨hout, by rw [hout]⟩
  case swap st c q out k => exact ⟨rfl, st, hs.2⟩
  case setPre st p q b c =>
    have hp : p = some st := hs
    exact ⟨hp, hp⟩
  case setPtr st p q b c => exact hs.2
  case jump st c q b v hmem => exact ⟨rfl, st, hs⟩
  case enterYield | enterYieldNull | resumedDelete | resumedDeleteNull => exact hs.1
  all_goals exact hs

/-- Each reference of a `BackNode` is held once, by a worker or by a saved context. -/
theorem refers_step {n : ℕ → ℕ → ℤ} (h : Effect x w x' w') (hs : w.Sound) (hn : ∀ b c, 0 ≤ n b c)
    (hfresh : ∀ b, x.backs ≤ b → x.backRunContextPtr b = none)
    (hrefers : ∀ b c, refers x.backRunContextPtr b c = n b c + w.holds b c + savedBacks x.saved b c) (b c : ℕ) :
    refers x'.backRunContextPtr b c = n b c + w'.holds b c + savedBacks x'.saved b c := by
  have hsaved : ∀ b c, 0 ≤ savedBacks x.saved b c := fun b c => Int.natCast_nonneg _
  cases h
  case created st p q =>
    have hold := hrefers b c
    have hidle : Worker.holds ⟨.created, st, p, q⟩ b c = 0 := by simp [Worker.holds, Worker.held]
    have hnew : Worker.holds ⟨.routine, x.contexts, p, q⟩ b c = 0 := by simp [Worker.holds, Worker.held]
    rw [hidle] at hold
    rw [hnew]
    exact hold
  case backNode st p q body =>
    have hp : p = some st := hs
    have hold := hrefers b c
    by_cases hb : b = x.backs
    · subst hb
      have hnonneg := hn x.backs c
      have hkept := hsaved x.backs c
      have hnone : refers x.backRunContextPtr x.backs c = 0 := by rw [refers, hfresh _ le_rfl]; rfl
      have hnew : Worker.holds ⟨.publish ⟨x.backs, body⟩, st, p, q⟩ x.backs c = if st = c then 1 else 0 := by
        simp [Worker.holds, Worker.held]
      have hidle : Worker.holds ⟨.backNode body, st, p, q⟩ x.backs c = 0 := by
        simp [Worker.holds, Worker.held]
      rw [hnone, hidle] at hold
      rw [hnew, refers_update_self, hp]
      show _ = _ + savedBacks x.saved x.backs c
      simp only [Option.some.injEq]
      omega
    · have hnew : Worker.holds ⟨.publish ⟨x.backs, body⟩, st, p, q⟩ b c = 0 := by
        simp [Worker.holds, Worker.held, Ne.symm hb]
      have hidle : Worker.holds ⟨.backNode body, st, p, q⟩ b c = 0 := by
        simp [Worker.holds, Worker.held]
      rw [hidle] at hold
      rw [hnew, refers_update_ne _ _ hb]
      exact hold
  case swap st d q out k =>
    have hout : out = st := hs.1
    have hold := hrefers b c
    have hnew : Worker.holds ⟨.enter, d, some d, q⟩ b c = 0 := by simp [Worker.holds, Worker.held]
    have hsave : savedBacks (x.saved ++ [⟨out, k⟩]) b c =
        savedBacks x.saved b c + Worker.holds ⟨.swap out k, st, some d, q⟩ b c := by
      simp only [savedBacks, Worker.holds, Worker.held, List.flatMap_append, List.flatMap_singleton,
        List.count_append, hout]
      split <;> simp
    rw [hnew]
    show refers x.backRunContextPtr b c = n b c + 0 + savedBacks (x.saved ++ [⟨out, k⟩]) b c
    omega
  case jump st d q b' v hmem =>
    have hold := hrefers b c
    have herase := count_flatMap_erase hmem (fun e => if e.context = c then e.cont.backs else []) b
    have hidle : Worker.holds ⟨.jump b', st, some d, q⟩ b c = 0 := by simp [Worker.holds, Worker.held]
    have hsave : savedBacks x.saved b c = Worker.holds ⟨.resumed v, d, some d, q⟩ b c +
        savedBacks (x.saved.erase ⟨d, .wait v⟩) b c := by
      rw [savedBacks, herase, savedBacks, Worker.holds, Worker.held]
      push_cast
      split <;> simp [Cont.backs]
    rw [hidle, hsave] at hold
    show refers x.backRunContextPtr b c = n b c + _ + savedBacks (x.saved.erase ⟨d, .wait v⟩) b c
    omega
  case resumed st p q v =>
    have hold := hrefers b c
    have hnew : Worker.holds ⟨.resumedDelete v, st, p, q⟩ b c = 0 := by simp [Worker.holds, Worker.held]
    rw [hnew]
    by_cases hb : b = v.back
    · subst hb
      have hself := hrefers v.back st
      have hone : Worker.holds ⟨.resumed v, st, p, q⟩ v.back st = 1 := by simp [Worker.holds, Worker.held]
      rw [hone] at hself
      have hnonneg := hn v.back st
      have hkept := hsaved v.back st
      have hptr : x.backRunContextPtr v.back = some st := by
        by_contra hne
        rw [refers, if_neg hne] at hself
        omega
      have hzero : n v.back c = 0 ∧ savedBacks x.saved v.back c = 0 := by
        rw [refers, if_pos hptr] at hself
        by_cases hc : st = c
        · subst hc
          omega
        · have hother : Worker.holds ⟨.resumed v, st, p, q⟩ v.back c = 0 := by
            simp [Worker.holds, hc]
          have hne : ¬ x.backRunContextPtr v.back = some c := by
            rw [hptr]
            simpa using hc
          rw [hother, refers, if_neg hne] at hold
          have hnonneg := hn v.back c
          have hkept := hsaved v.back c
          omega
      rw [refers_update_self]
      simp [hzero]
    · have hidle : Worker.holds ⟨.resumed v, st, p, q⟩ b c = 0 := by
        simp [Worker.holds, Worker.held, Ne.symm hb]
      rw [hidle] at hold
      rw [refers_update_ne _ _ hb]
      exact hold
  all_goals exact hrefers b c

theorem fresh_step (h : Effect x w x' w')
    (hfresh : ∀ b, x.backs ≤ b → x.backRunContextPtr b = none) (b : ℕ) (hb : x'.backs ≤ b) :
    x'.backRunContextPtr b = none := by
  cases h
  case backNode st p q body =>
    have hne : b ≠ x.backs := fun he => by
      have hle : x.backs + 1 ≤ b := hb
      omega
    show Function.update x.backRunContextPtr x.backs p b = none
    rw [Function.update_of_ne hne]
    exact hfresh b (Nat.le_of_succ_le hb)
  case resumed st p q v =>
    show Function.update x.backRunContextPtr v.back none b = none
    rw [Function.update_apply, hfresh b hb, ite_self]
  all_goals exact hfresh b hb

/-- The contexts that no worker owns, less all that were made. -/
def ledger (saved freed : List ℕ) (contexts c : ℕ) : ℤ :=
  saved.count c + freed.count c - if c < contexts then 1 else 0

theorem ledger_make (saved freed : List ℕ) (contexts c : ℕ) :
    ledger saved freed (contexts + 1) c + ([contexts] : List ℕ).count c = ledger saved freed contexts c := by
  unfold ledger
  by_cases hc : c = contexts
  · simp [hc]
  · have hiff : c < contexts + 1 ↔ c < contexts := by omega
    simp [hiff, Ne.symm hc]

def Shared.ledger (x : Shared) (c : ℕ) : ℤ :=
  Schedule.ledger (x.saved.map Saved.context) x.freed x.contexts c

/-- A step moves contexts from one owner to the next. -/
theorem owned_step (h : Effect x w x' w') (hs : w.Sound) (c : ℕ) :
    x'.ledger c + w'.owned.count c = x.ledger c + w.owned.count c := by
  have hcons : ∀ (n : ℕ) (l : List ℕ), ((n :: l).count c : ℤ) = l.count c + ([n] : List ℕ).count c :=
    fun n l => by
      rw [← List.singleton_append, List.count_append]
      push_cast
      omega
  cases h
  case created st p q =>
    have hmake := ledger_make (x.saved.map Saved.context) x.freed x.contexts c
    show ledger (x.saved.map Saved.context) x.freed (x.contexts + 1) c +
      (([x.contexts] : List ℕ).count c : ℤ) = x.ledger c + (([] : List ℕ).count c : ℤ)
    rw [hmake, List.count_nil]
    exact (add_zero _).symm
  case swapNew st p q out k =>
    have hmake := ledger_make (x.saved.map Saved.context) x.freed x.contexts c
    show ledger (x.saved.map Saved.context) x.freed (x.contexts + 1) c +
      (([st, x.contexts] : List ℕ).count c : ℤ) =
        ledger (x.saved.map Saved.context) x.freed x.contexts c + (([st] : List ℕ).count c : ℤ)
    rw [hcons st [x.contexts]]
    omega
  case swap st d q out k =>
    have hout : out = st := hs.1
    subst hout
    have hmap : (x.saved ++ [(⟨out, k⟩ : Saved)]).map Saved.context =
        x.saved.map Saved.context ++ [out] := List.map_append
    show ledger ((x.saved ++ [(⟨out, k⟩ : Saved)]).map Saved.context) x.freed x.contexts c +
      (([d] : List ℕ).count c : ℤ) = x.ledger c + (([out, d] : List ℕ).count c : ℤ)
    rw [hmap, hcons out [d], Shared.ledger, ledger, ledger, List.count_append]
    push_cast
    omega
  case jump st d q b v hmem =>
    have hq : q = some st := hs
    subst hq
    have hperm : (x.saved.map Saved.context).count c =
        (d :: (x.saved.erase ⟨d, .wait v⟩).map Saved.context).count c :=
      ((List.perm_cons_erase hmem).map Saved.context).count_eq c
    have hcount := hcons d ((x.saved.erase ⟨d, .wait v⟩).map Saved.context)
    show ledger ((x.saved.erase ⟨d, .wait v⟩).map Saved.context) x.freed x.contexts c +
      (([d, st] : List ℕ).count c : ℤ) = x.ledger c + (([st] : List ℕ).count c : ℤ)
    rw [hcons d [st], Shared.ledger, ledger, ledger, hperm]
    omega
  case resumedDelete st p d v =>
    show ledger (x.saved.map Saved.context) (x.freed ++ [d]) x.contexts c +
      (([st] : List ℕ).count c : ℤ) = x.ledger c + (([st, d] : List ℕ).count c : ℤ)
    have hst := hcons st [d]
    rw [Shared.ledger, ledger, ledger, List.count_append]
    push_cast
    omega
  all_goals rfl

end Step

/-! ### Along a run -/

section Run
variable {T : Type} [Fintype T] [DecidableEq T] {stored : ℤ} {s : Crew.Config Shared Worker T}

structure Linked (s : Crew.Config Shared Worker T) : Prop where
  fresh : ∀ b, s.shared.backs ≤ b → s.shared.backRunContextPtr b = none
  sound : ∀ t, (s.places t).Sound
  refers : ∀ b c, refers s.shared.backRunContextPtr b c =
    census (fun w : Worker => w.holds b c) s.places + savedBacks s.shared.saved b c

omit [DecidableEq T] in
theorem Linked.ptr_of_held (h : Linked s) {t : T} {b : ℕ} (hb : b ∈ (s.places t).held) :
    s.shared.backRunContextPtr b = some (s.places t).stack := by
  have hone : 1 ≤ (s.places t).holds b (s.places t).stack := by
    have hpos := List.count_pos_iff.mpr hb
    rw [Worker.holds, if_pos rfl]
    omega
  have hle := hone.trans (le_census (fun w => Worker.holds_nonneg w b (s.places t).stack) s.places t)
  have hrefers := h.refers b (s.places t).stack
  have hsaved : 0 ≤ savedBacks s.shared.saved b (s.places t).stack := Int.natCast_nonneg _
  by_contra hne
  rw [Schedule.refers, if_neg hne] at hrefers
  omega

theorem linked (h : ((crew stored).system T).Reached s) : Linked s := by
  refine Crew.induct (I := Linked) ?_ (fun s t a s' htook ih => ?_) h
  · refine ⟨fun _ _ => rfl, fun _ => trivial, fun b c => ?_⟩
    have hzero : census (fun w : Worker => w.holds b c) (((crew stored).system T).start).places = 0 :=
      census_eq_zero fun t => by simp [Worker.holds, Worker.held, system, crew]
    rw [hzero]
    rfl
  · have heff := effect_of_exec htook.exec
    refine ⟨fresh_step heff ih.fresh, fun t' => ?_, fun b c => ?_⟩
    · by_cases ht : t' = t
      · subst ht
        exact sound_step heff (ih.sound t') fun b hb => ih.ptr_of_held hb
      · rw [htook.other ht]
        exact ih.sound t'
    · have hcensus := htook.census fun w => w.holds b c
      have hstep := refers_step (n := fun b c => census (fun w : Worker => w.holds b c) s.places -
        (s.places t).holds b c) heff (ih.sound t)
        (fun b c => Int.sub_nonneg.mpr (le_census (fun w => Worker.holds_nonneg w b c) s.places t))
        ih.fresh (fun b c => by rw [ih.refers b c]; omega) b c
      omega

/-- Each context that was made has one owner. -/
theorem owned_once (h : ((crew stored).system T).Reached s) (c : ℕ) :
    census (fun w : Worker => (w.owned.count c : ℤ)) s.places +
      ((s.shared.saved.map Saved.context).count c + s.shared.freed.count c) =
        if c < s.shared.contexts then 1 else 0 := by
  have hbalance := Crew.balance (fun x : Shared => x.ledger c) (fun w => (w.owned.count c : ℤ))
    (fun s t a s' htook => owned_step (effect_of_exec htook.exec) ((linked htook.reached).sound t) c) h
  have hplace : census (fun w : Worker => (w.owned.count c : ℤ)) (fun _ : T => (crew stored).place) = 0 :=
    census_eq_zero fun _ => rfl
  have hstart : (crew stored).start.ledger c = 0 := by simp [crew, Shared.ledger, ledger]
  rw [hplace, hstart, Shared.ledger, ledger] at hbalance
  omega

section Owner
variable (h : ((crew stored).system T).Reached s) {c : ℕ} {t t' : T}
include h

theorem owner_unique (ht : c ∈ (s.places t).owned) (ht' : c ∈ (s.places t').owned) : t = t' := by
  by_contra hne
  have hone := owned_once h c
  have htwo := two_le_census (f := fun w : Worker => (w.owned.count c : ℤ)) (p := s.places)
    (fun w => Int.natCast_nonneg _) hne (by exact_mod_cast List.count_pos_iff.mpr ht)
    (by exact_mod_cast List.count_pos_iff.mpr ht')
  split at hone <;> omega

/-- What a worker owns is made, not saved and not deleted. -/
theorem owned_only (ht : c ∈ (s.places t).owned) : c < s.shared.contexts ∧
    (s.places t).owned.count c = 1 ∧ c ∉ s.shared.saved.map Saved.context ∧ c ∉ s.shared.freed := by
  have hone := owned_once h c
  have hle := le_census (f := fun w : Worker => (w.owned.count c : ℤ)) (fun w => Int.natCast_nonneg _)
    s.places t
  have hpos := List.count_pos_iff.mpr ht
  split at hone
  · next hlt =>
    exact ⟨hlt, by omega, List.count_eq_zero.mp (by omega), List.count_eq_zero.mp (by omega)⟩
  · omega

theorem saved_count_le : (s.shared.saved.map Saved.context).count c + s.shared.freed.count c ≤
    if c < s.shared.contexts then 1 else 0 := by
  have hone := owned_once h c
  have hnonneg := census_nonneg (f := fun w : Worker => (w.owned.count c : ℤ))
    (fun w => Int.natCast_nonneg _) s.places
  split_ifs at hone ⊢ <;> omega

/-- A context is saved once. -/
theorem saved_unique {k k' : Cont} (hk : ⟨c, k⟩ ∈ s.shared.saved) (hk' : ⟨c, k'⟩ ∈ s.shared.saved) :
    k = k' := by
  by_contra hne
  have hle := saved_count_le h (c := c)
  have herase : ⟨c, k'⟩ ∈ s.shared.saved.erase ⟨c, k⟩ :=
    (List.mem_erase_of_ne fun he => hne (congrArg Saved.cont he).symm).mpr hk'
  have hperm := ((List.perm_cons_erase hk).map Saved.context).count_eq c
  rw [List.map_cons, List.count_cons_self] at hperm
  have hpos := List.count_pos_iff.mpr (List.mem_map_of_mem (f := Saved.context) herase)
  have hpos : 0 < ((s.shared.saved.erase ⟨c, k⟩).map Saved.context).count c := hpos
  split at hle <;> omega

end Owner
end Run

end QuietFlow.Schedule
