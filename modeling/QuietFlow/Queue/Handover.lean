import QuietFlow.Queue.Slots

/-! What is in the slots.

`Contents` follows the items: the one an enqueue carries is the one its ticket was
drawn for, a slot whose write ticket is filled still has that item until the dequeue
of the same ticket clears it, and a dequeue that has loaded an item has loaded that
one. Together with `InTurn` it is kept by every step of a run with bounded overlap
(`Handover.advance`). -/
namespace QuietFlow.FreeLock
open Runs

/-- The ticket and the item of a call that has one. -/
def Pc.carries {α : Type} : Pc α → Option (ℕ × α)
  | .spin (.enqueue x) n _ _ | .asleep (.enqueue x) n _ => some (n, x)
  | .clear n x | .put n x | .store _ n x | .wake _ n x => some (n, x)
  | _ => none

/-- The ticket and the item of a call that has put it into its slot or loaded it from there. -/
def Pc.handles {α : Type} : Pc α → Option (ℕ × α)
  | .clear n x | .store _ n x | .wake _ n x => some (n, x)
  | _ => none

@[simp] theorem woken_handles {α : Type} (p : Pc α) : p.woken.handles = p.handles := by cases p <;> rfl

@[simp] theorem woken_carries {α : Type} (p : Pc α) : p.woken.carries = p.carries := by
  rcases p with _ | _ | _ | _ | _ | _ | _ | _ | _ | ⟨_ | _, _, _⟩ | _ | _ | _ | _ | _ | _ <;> rfl

variable {T α : Type}

structure Contents (c : ℕ) (s : State T α) (r : Turns) : Prop where
  length : s.written.length = (s.cursor .write).claimed
  item : ∀ t n x, (s.pc t).carries = some (n, x) → s.written[n]? = some x
  stored : ∀ n x, (n, x) ∈ s.stored → s.written[n]? = some x
  handled : ∀ t n x, (s.pc t).handles = some (n, x) → (n, x) ∈ s.stored
  full : ∀ i, i < c → r.full i = true → ∃ x, (r.turn c i, x) ∈ s.stored ∧
    (s.vec (word i) = some x ∨ ∃ t, s.pc t = .store .read (r.turn c i) x)
  filled : ∀ t n x, s.pc t = .store .write n x → s.vec (slot (word c) n) = some x
  cleared : ∀ n, r.Done c .read n ∨ (∃ t x, s.pc t = .store .read n x) → n ∈ s.cleared
  returned : ∀ n x, (n, x) ∈ s.returned → (n, x) ∈ s.stored
  safe : ∀ t n, s.pc t ≠ .failed n

namespace Contents
variable {c k : ℕ} {s s' : State T α} {r : Turns}

/-- A slot whose read turn it is still has the item, unless that dequeue has already
cleared it. -/
theorem loaded (h : Contents (2 ^ k) s r) (hturn : InTurn (2 ^ k) s r) (hk : k ≤ 63) {t : T} {n : ℕ}
    (hat : r.At (2 ^ k) .read n) (hheld : (s.pc t).holds = some (.read, n))
    (hfree : ∀ x, s.pc t ≠ .store .read n x) :
    ∃ x, s.vec (slot (word (2 ^ k)) n) = some x ∧ (n, x) ∈ s.stored := by
  obtain ⟨x, hx, hvec | ⟨t', ht'⟩⟩ :=
    h.full (n % 2 ^ k) (Nat.mod_lt _ (Nat.two_pow_pos k)) (by simpa using hat.2)
  · rw [Turns.turn_of_at hat] at hx
    exact ⟨x, by rw [slot_eq hk, hvec], hx⟩
  · rw [Turns.turn_of_at hat] at ht'
    have hsame := hturn.unique t' t (.read, n) (by rw [ht']; rfl) hheld
    exact absurd (hsame ▸ ht') (hfree x)

variable [DecidableEq T]

theorem start (k : ℕ) :
    Contents (2 ^ k) (queue (word (2 ^ k)) T α).start ⟨fun _ => 0, fun _ => false⟩ where
  length := rfl
  item := by rintro t n x ⟨⟩
  stored := by rintro n x ⟨⟩
  handled := by rintro t n x ⟨⟩
  full := by rintro i _ ⟨⟩
  filled := by rintro t n x ⟨⟩
  cleared := by
    rintro n (hn | ⟨t, x, ⟨⟩⟩)
    exact absurd hn (Nat.not_lt_zero _)
  returned := by rintro n x ⟨⟩
  safe := by rintro t n ⟨⟩

/-- A step away from the slots; the history only grows. -/
theorem carry (h : Contents c s r) (t : T) (p : Pc α) (hpc : s'.pc = Function.update s.pc t p)
    (hvec : s'.vec = s.vec) (hstored : s'.stored = s.stored) (hcleared : s'.cleared = s.cleared)
    (hwritten : s.written <+: s'.written) (hlength : s'.written.length = (s'.cursor .write).claimed)
    (hitem : ∀ n x, p.carries = some (n, x) → s'.written[n]? = some x)
    (hhandles : ∀ n x, p.handles = some (n, x) → (n, x) ∈ s.stored)
    (hreturned : ∀ n x, (n, x) ∈ s'.returned → (n, x) ∈ s.returned ∨ (n, x) ∈ s.stored)
    (hstore : ∀ side n x, p = .store side n x ↔ s.pc t = .store side n x)
    (hsafe : ∀ n, p = .failed n → s.pc t = .failed n) : Contents c s' r := by
  have hkept : ∀ {n : ℕ} {x : α}, s.written[n]? = some x → s'.written[n]? = some x := by
    intro n x hx
    obtain ⟨more, hmore⟩ := hwritten
    rw [← hmore, List.getElem?_append_left (List.getElem?_eq_some_iff.mp hx).1, hx]
  have hstore : ∀ t' side n x, s'.pc t' = .store side n x ↔ s.pc t' = .store side n x := by
    intro t' side n x
    rw [hpc]
    by_cases he : t' = t
    · rw [he, Function.update_self]
      exact hstore side n x
    · rw [Function.update_of_ne he]
  constructor
  case length => exact hlength
  case item =>
    intro t' n x hx
    rw [hpc] at hx
    by_cases he : t' = t
    · rw [he, Function.update_self] at hx
      exact hitem n x hx
    · rw [Function.update_of_ne he] at hx
      exact hkept (h.item t' n x hx)
  case stored =>
    rw [hstored]
    exact fun n x hx => hkept (h.stored n x hx)
  case handled =>
    intro t' n x hx
    rw [hpc] at hx
    rw [hstored]
    by_cases he : t' = t
    · rw [he, Function.update_self] at hx
      exact hhandles n x hx
    · rw [Function.update_of_ne he] at hx
      exact h.handled t' n x hx
  case full =>
    intro i hi hfull
    obtain ⟨x, hx, hplace⟩ := h.full i hi hfull
    refine ⟨x, hstored ▸ hx, ?_⟩
    rw [hvec]
    exact hplace.imp_right fun ⟨t', ht'⟩ => ⟨t', (hstore t' _ _ _).mpr ht'⟩
  case filled =>
    intro t' n x ht'
    rw [hvec]
    exact h.filled t' n x ((hstore t' _ _ _).mp ht')
  case cleared =>
    intro n hn
    rw [hcleared]
    exact h.cleared n (hn.imp_right fun ⟨t', x, ht'⟩ => ⟨t', x, (hstore t' _ _ _).mp ht'⟩)
  case returned =>
    intro n x hx
    rw [hstored]
    exact (hreturned n x hx).elim (h.returned n x) id
  case safe =>
    intro t' n
    rw [hpc]
    by_cases he : t' = t
    · rw [he, Function.update_self]
      exact fun hp => h.safe t n (hsafe n hp)
    · rw [Function.update_of_ne he]
      exact h.safe t' n

/-- A call whose turn it is writes its slot and goes on to store the version. -/
theorem access (h : Contents (2 ^ k) s r) (hturn : InTurn (2 ^ k) s r) (hk : k ≤ 63) {t : T}
    {side : Side} {n : ℕ} {x : α} {item : Option α} (howns : (s.pc t).owns = some (side, n))
    (hx : (s.pc t).carries = some (n, x)) (hfree : ∀ side n x, s.pc t ≠ .store side n x)
    (hpc : s'.pc = Function.update s.pc t (.store side n x))
    (hvec : s'.vec = Function.update s.vec (slot (word (2 ^ k)) n) item)
    (hput : side = .write → item = some x) (hstored : ∀ e, e ∈ s'.stored ↔ e ∈ s.stored ∨ e = (n, x))
    (hcleared : s'.cleared = if side = .read then s.cleared ++ [n] else s.cleared)
    (hwritten : s'.written = s.written) (hreturned : s'.returned = s.returned)
    (hclaimed : (s'.cursor .write).claimed = (s.cursor .write).claimed) :
    Contents (2 ^ k) s' r := by
  have hat : r.At (2 ^ k) side n := hturn.turn t side n howns
  have hnew : s'.pc t = .store side n x := by rw [hpc, Function.update_self]
  have hother : ∀ t', t' ≠ t → s'.pc t' = s.pc t' := fun t' he => by
    rw [hpc, Function.update_of_ne he]
  have hkeep : ∀ t' side n x, s.pc t' = .store side n x → s'.pc t' = .store side n x := by
    intro t' side' n' x' ht'
    rw [hother t' fun he => ?_, ht']
    exact hfree _ _ _ (he ▸ ht')
  constructor
  case length => rw [hwritten, hclaimed, h.length]
  case item =>
    intro t' m y hy
    rw [hwritten]
    by_cases he : t' = t
    · rw [he, hnew] at hy
      exact h.item t m y (hx.trans hy)
    · exact h.item t' m y (hother t' he ▸ hy)
  case stored =>
    intro m y hy
    rw [hwritten]
    rcases (hstored _).mp hy with hy | hy
    · exact h.stored m y hy
    · cases hy
      exact h.item t n x hx
  case handled =>
    intro t' m y hy
    by_cases he : t' = t
    · rw [he, hnew] at hy
      exact (hstored _).mpr (.inr (Option.some.inj hy).symm)
    · exact (hstored _).mpr (.inl (h.handled t' m y (hother t' he ▸ hy)))
  case full =>
    intro i hi hfull
    obtain ⟨y, hy, hplace⟩ := h.full i hi hfull
    refine ⟨y, (hstored _).mpr (.inl hy), ?_⟩
    by_cases he : i = n % 2 ^ k
    · -- the slot is being emptied, for the item is on its way out
      subst he
      have hside : side = .read := by simpa [hat.2] using hfull
      subst hside
      rw [Turns.turn_of_at hat] at hy ⊢
      have hxy := (h.stored n y hy).symm.trans (h.item t n x hx)
      cases hxy
      exact .inr ⟨t, hnew⟩
    · refine hplace.imp (fun hv => ?_) fun ⟨t', ht'⟩ => ⟨t', hkeep t' _ _ _ ht'⟩
      have hne : word i ≠ slot (word (2 ^ k)) n := by
        have hmod := Nat.mod_lt n (Nat.two_pow_pos k)
        have hle : 2 ^ k ≤ 2 ^ 63 := Nat.pow_le_pow_right (by decide) hk
        rw [slot_eq hk, Ne, word_eq_iff]
        omega
      rw [hvec, Function.update_of_ne hne, hv]
  case filled =>
    intro t' m y ht'
    by_cases he : t' = t
    · rw [he, hnew] at ht'
      cases ht'
      rw [hvec, Function.update_self, hput rfl]
    · rw [hother t' he] at ht'
      have hat' := hturn.turn t' .write m (by rw [ht']; rfl)
      have hne : slot (word (2 ^ k)) m ≠ slot (word (2 ^ k)) n := by
        rw [Ne, slot_inj hk]
        intro hslot
        obtain ⟨rfl, rfl⟩ := Turns.at_unique hat' hat hslot
        exact he (hturn.unique t' t (.write, m) (by rw [ht']; rfl) (Pc.owns_holds howns))
      rw [hvec, Function.update_of_ne hne]
      exact h.filled t' m y ht'
  case cleared =>
    have hmono : ∀ {m}, m ∈ s.cleared → m ∈ s'.cleared := by
      intro m hm
      rw [hcleared]
      split
      · exact List.mem_append_left _ hm
      · exact hm
    rintro m (hd | ⟨t', y, ht'⟩)
    · exact hmono (h.cleared m (.inl hd))
    · by_cases he : t' = t
      · rw [he, hnew] at ht'
        cases ht'
        simp [hcleared]
      · exact hmono (h.cleared m (.inr ⟨t', y, hother t' he ▸ ht'⟩))
  case returned =>
    rw [hreturned]
    exact fun m y hy => (hstored _).mpr (.inl (h.returned m y hy))
  case safe =>
    intro t' m hm
    by_cases he : t' = t
    · rw [he, hnew] at hm
      cases hm
    · exact h.safe t' m (hother t' he ▸ hm)

/-- The version is stored: the ticket is done. -/
theorem finish (h : Contents (2 ^ k) s r) (hturn : InTurn (2 ^ k) s r) (hk : k ≤ 63) {t : T}
    {side : Side} {n : ℕ} {x : α} (ht : s.pc t = .store side n x)
    (hpc : s'.pc = Function.update s.pc t (.wake side n x)) (hvec : s'.vec = s.vec)
    (hstored : s'.stored = s.stored) (hcleared : s'.cleared = s.cleared)
    (hwritten : s'.written = s.written) (hreturned : s'.returned = s.returned)
    (hclaimed : (s'.cursor .write).claimed = (s.cursor .write).claimed) :
    Contents (2 ^ k) s' (r.finish (2 ^ k) side n) := by
  have hat : r.At (2 ^ k) side n := hturn.turn t side n (by rw [ht]; rfl)
  have hnew : s'.pc t = .wake side n x := by rw [hpc, Function.update_self]
  have hother : ∀ t', t' ≠ t → s'.pc t' = s.pc t' := fun t' he => by
    rw [hpc, Function.update_of_ne he]
  have hstore : ∀ {t' side' m y}, s'.pc t' = .store side' m y →
      t' ≠ t ∧ s.pc t' = .store side' m y := by
    intro t' side' m y ht'
    by_cases he : t' = t
    · rw [he, hnew] at ht'
      cases ht'
    · exact ⟨he, hother t' he ▸ ht'⟩
  constructor
  case length => rw [hwritten, hclaimed, h.length]
  case item =>
    intro t' m y hy
    rw [hwritten]
    by_cases he : t' = t
    · rw [he, hnew] at hy
      exact h.item t m y (by rw [ht]; exact hy)
    · exact h.item t' m y (hother t' he ▸ hy)
  case stored =>
    rw [hstored, hwritten]
    exact h.stored
  case handled =>
    intro t' m y hy
    rw [hstored]
    by_cases he : t' = t
    · rw [he, hnew] at hy
      exact h.handled t m y (by rw [ht]; exact hy)
    · exact h.handled t' m y (hother t' he ▸ hy)
  case full =>
    intro i hi hfull
    rw [hstored, hvec]
    by_cases he : i = n % 2 ^ k
    · subst he
      cases side with
      | read => simp [Turns.finish] at hfull
      | write =>
        rw [Turns.turn_finish_write hat]
        exact ⟨x, h.handled t n x (by rw [ht]; rfl), .inl (slot_eq hk n ▸ h.filled t n x ht)⟩
    · have hsame : (r.finish (2 ^ k) side n).turn (2 ^ k) i = r.turn (2 ^ k) i ∧
          (r.finish (2 ^ k) side n).full i = r.full i := by
        cases side <;> simp [Turns.finish, Turns.turn, Function.update_of_ne he]
      rw [hsame.2] at hfull
      rw [hsame.1]
      obtain ⟨y, hy, hplace⟩ := h.full i hi hfull
      refine ⟨y, hy, hplace.imp_right (Exists.imp fun t' ht' => ?_)⟩
      rw [hother t' fun htt => ?_, ht']
      rw [htt, ht] at ht'
      have hmod : r.turn (2 ^ k) i % 2 ^ k = i := by simp [Turns.turn, Nat.mod_eq_of_lt hi]
      injection ht' with _ hn
      exact he (by rw [hn, hmod])
  case filled =>
    intro t' m y ht'
    rw [hvec]
    exact h.filled t' m y (hstore ht').2
  case cleared =>
    rw [hcleared]
    rintro m (hd | ⟨t', y, ht'⟩)
    · rcases (Turns.done_finish hat .read m).mp hd with hd | ⟨rfl, rfl⟩
      · exact h.cleared m (.inl hd)
      · exact h.cleared m (.inr ⟨t, x, ht⟩)
    · exact h.cleared m (.inr ⟨t', y, (hstore ht').2⟩)
  case returned =>
    rw [hreturned, hstored]
    exact h.returned
  case safe =>
    intro t' m hm
    by_cases he : t' = t
    · rw [he, hnew] at hm
      cases hm
    · exact h.safe t' m (hother t' he ▸ hm)

end Contents

/-! ### Waking -/

section Wake
variable [DecidableEq T]

theorem futexWake_pc (s : State T α) (i : BitVec 64) (t : T) (h : (s.pc t).woken = s.pc t) :
    (futexWake s i).pc t = s.pc t := by
  unfold futexWake
  split
  · rfl
  · next x rest hw =>
    simp only [State.setPc]
    by_cases ht : t = x
    · rw [← ht, Function.update_self, h]
    · rw [Function.update_of_ne ht]

theorem futexWake_pc_or (s : State T α) (i : BitVec 64) (t : T) :
    (futexWake s i).pc t = s.pc t ∨ (futexWake s i).pc t = (s.pc t).woken := by
  unfold futexWake
  split
  · exact .inl rfl
  · next x rest hw =>
    simp only [State.setPc]
    by_cases ht : t = x
    · rw [← ht, Function.update_self]
      exact .inr rfl
    · rw [Function.update_of_ne ht]
      exact .inl rfl

/-- A thread's step leaves the others where they are, or wakes one. -/
theorem advance_pc_of_ne {capacity : BitVec 64} {s s' : State T α} {t t' : T} (hne : t' ≠ t)
    (hs : advance capacity s t = some s') :
    s'.pc t' = s.pc t' ∨ s'.pc t' = (s.pc t').woken := by
  have hset : ∀ p, Function.update s.pc t p t' = s.pc t' := fun p => Function.update_of_ne hne _ _
  cases hpc : s.pc t with
  | wake side n x =>
    simp only [advance, hpc, Option.some.injEq] at hs
    subst hs
    simp only [State.setPc, Function.update_of_ne hne]
    exact futexWake_pc_or s _ t'
  | spin op n i cur =>
    left
    cases i <;> simp only [advance, hpc, futexWait, Option.some.injEq] at hs
    · subst hs
      split <;> exact hset _
    · split at hs <;> cases hs <;> exact hset _
  | _ =>
    left
    simp only [advance, hpc] at hs
    try split at hs
    all_goals cases hs
    all_goals exact hset _

/-- Waking changes nothing but where the woken thread stands. -/
@[simp] theorem futexWake_returned (s : State T α) (i : BitVec 64) :
    (futexWake s i).returned = s.returned := by
  unfold futexWake
  split <;> rfl

@[simp] theorem futexWake_cursor (s : State T α) (i : BitVec 64) :
    (futexWake s i).cursor = s.cursor := by
  unfold futexWake
  split <;> rfl

@[simp] theorem futexWake_flagVec (s : State T α) (i : BitVec 64) :
    (futexWake s i).flagVec = s.flagVec := by
  unfold futexWake
  split <;> rfl

@[simp] theorem futexWake_vec (s : State T α) (i : BitVec 64) : (futexWake s i).vec = s.vec := by
  unfold futexWake
  split <;> rfl

end Wake

/-! ### All steps together -/

def Handover (c : ℕ) (s : State T α) : Prop := ∃ r, InTurn c s r ∧ Contents c s r

namespace Handover
variable {c k : ℕ} {s s' : State T α}

theorem read_claimed_le (h : Handover c s) (hadm : Admission c s) (hb : Bounded s) :
    (s.cursor .read).claimed ≤ 2 ^ 32 := by
  obtain ⟨r, hturn, -⟩ := h
  -- the reader of ticket 2^31 never sees its version
  have hnot : ¬ r.Done c .read (2 ^ 31) := fun hd =>
    absurd (hturn.fits (2 ^ 31) (.inl hd)) (by decide)
  by_contra hlt
  have := hturn.undone_lag hadm hb .read (by omega) hnot
  omega

variable [DecidableEq T]

theorem start (k : ℕ) : Handover (2 ^ k) (queue (word (2 ^ k)) T α).start :=
  ⟨_, InTurn.start k, Contents.start k⟩

/-- A step that changes neither the slots nor the tickets: the call moves on with what
it has. -/
theorem carry (h : Handover c s) (t : T) {q : Pc α} (hpc : s.pc t = q) (p : Pc α)
    (hpc' : s'.pc = Function.update s.pc t p) (hflag : s'.flagVec = s.flagVec) (hvec : s'.vec = s.vec)
    (hclaimed : ∀ side, (s'.cursor side).claimed = (s.cursor side).claimed)
    (hwritten : s'.written = s.written) (hstored : s'.stored = s.stored)
    (hcleared : s'.cleared = s.cleared)
    (hreturned : ∀ n x, (n, x) ∈ s'.returned → (n, x) ∈ s.returned ∨ q.handles = some (n, x))
    (hholds : p.holds = q.holds)
    (howns : ∀ side n, p.owns = some (side, n) → q.owns = some (side, n) ∨
      ∀ r, InTurn c s r → r.At c side n ∧ (side = .read → Fits n))
    (hcarries : ∀ n x, p.carries = some (n, x) → q.carries = some (n, x) ∨ (n, x) ∈ s.stored)
    (hhandles : ∀ n x, p.handles = some (n, x) → q.handles = some (n, x) ∨ (n, x) ∈ s.stored)
    (hstore : ∀ side n x, p = .store side n x ↔ q = .store side n x)
    (hsafe : ∀ n, p = .failed n → q = .failed n) : Handover c s' := by
  obtain ⟨r, hturn, hcont⟩ := h
  subst hpc
  refine ⟨r, hturn.carry t p hpc' hflag hclaimed hholds ?_, hcont.carry t p hpc' hvec hstored hcleared
    (by rw [hwritten]) (by rw [hwritten, hclaimed, hcont.length]) ?_ ?_ ?_ hstore hsafe⟩
  · exact fun side n ho => (howns side n ho).imp_right fun hr => hr r hturn
  · intro n x hx
    rw [hwritten]
    exact (hcarries n x hx).elim (hcont.item t n x) (hcont.stored n x)
  · exact fun n x hx => (hhandles n x hx).elim (hcont.handled t n x) id
  · exact fun n x hx => (hreturned n x hx).imp_right (hcont.handled t n x)

theorem call {t : T} {op : Op α} (h : Handover c s) (hs : call s t op = some s') : Handover c s' := by
  unfold FreeLock.call at hs
  split at hs
  case h_2 => cases hs
  case h_1 hpc =>
    cases hs
    exact h.carry t hpc _ rfl rfl rfl (fun _ => rfl) rfl rfl rfl (fun _ _ hx => .inl hx) rfl
      (fun _ _ => nofun) (fun _ _ => nofun) (fun _ _ => nofun) (fun _ _ _ => ⟨nofun, nofun⟩) (fun _ => nofun)

/-- A waiter is woken. -/
theorem wake (h : Handover c s) (i : BitVec 64) : Handover c (futexWake s i) := by
  unfold futexWake
  split
  · exact h
  · next x rest hw =>
    refine h.carry x rfl (s.pc x).woken rfl rfl rfl (fun _ => rfl) rfl rfl rfl (fun _ _ hx => .inl hx)
      (woken_holds _) (fun _ _ ho => .inl (woken_owns (s.pc x) ▸ ho))
      (fun _ _ hx => .inl (woken_carries (s.pc x) ▸ hx))
      (fun _ _ hx => .inl (woken_handles (s.pc x) ▸ hx)) (fun side n y => ?_) (fun n => ?_)
    · cases s.pc x <;> simp [Pc.woken]
    · cases s.pc x <;> simp [Pc.woken]

/-- **One step**, in a state in which no slot is `2^32` tickets behind a call that waits there. -/
theorem advance {t : T} (h : Handover (2 ^ k) s)
    (hnear : ∀ r, InTurn (2 ^ k) s r → ∀ side n, (s.pc t).holds = some (side, n) →
      side = .read ∨ r.full (n % 2 ^ k) = false → n < r.turn (2 ^ k) (n % 2 ^ k) + 2 ^ 32)
    (hk : 1 ≤ k) (hk' : k ≤ 63) (hs : advance (word (2 ^ k)) s t = some s') :
    Handover (2 ^ k) s' := by
  cases hpc : s.pc t with
  | idle | asleep op n cur | failed n => simp [FreeLock.advance, hpc] at hs
  | bound op | missed op b | claim op m | miss op a =>
    simp only [FreeLock.advance, hpc, Option.some.injEq] at hs
    subst hs
    refine h.carry t hpc _ rfl rfl rfl (fun side => ?_) rfl rfl rfl (fun _ _ hx => .inl hx) rfl
      (by simp [Pc.owns]) (by simp [Pc.carries]) (by simp [Pc.handles]) (by simp) (by simp)
    simp only [State.setPc, State.setCursor]
    try cases side <;> cases op <;> rfl
  | ahead op b m =>
    simp only [FreeLock.advance, hpc] at hs
    split at hs <;> cases hs <;>
      exact h.carry t hpc _ rfl rfl rfl (fun _ => rfl) rfl rfl rfl (fun _ _ hx => .inl hx) rfl
        (by simp [Pc.owns]) (by simp [Pc.carries]) (by simp [Pc.handles]) (by simp) (by simp)
  | retest op m a =>
    simp only [FreeLock.advance, hpc] at hs
    split at hs <;> cases hs <;>
      exact h.carry t hpc _ rfl rfl rfl (fun _ => rfl) rfl rfl rfl (fun _ _ hx => .inl hx) rfl
        (by simp [Pc.owns]) (by simp [Pc.carries]) (by simp [Pc.handles]) (by simp) (by simp)
  | ticket op a =>
    simp only [FreeLock.advance, hpc, Option.some.injEq] at hs
    subst hs
    obtain ⟨r, hturn, hcont⟩ := h
    refine ⟨r, hturn.draw t op _ rfl rfl (fun side => ?_) (by rw [hpc]; rfl) rfl rfl,
      hcont.carry t _ rfl rfl rfl rfl ?_ ?_ ?_ (by simp [Pc.handles]) (fun _ _ hx => .inl hx)
        ?_ (by simp)⟩
    · by_cases he : side = op.side
      · subst he
        simp [State.setPc, State.setCursor, State.drawn]
      · simp [State.setPc, State.setCursor, State.drawn, he]
    · cases op with
      | dequeue => exact List.prefix_rfl
      | enqueue x => exact List.prefix_append _ _
    · cases op with
      | dequeue => exact hcont.length
      | enqueue x =>
        simp [State.setPc, State.setCursor, State.drawn, Op.side, hcont.length]
    · intro n x hx
      cases op with
      | dequeue => cases hx
      | enqueue y =>
        cases hx
        change (s.written ++ [x])[(s.cursor .write).claimed]? = some x
        rw [← hcont.length, List.getElem?_concat_length]
    · rw [hpc]
      simp
  | spin op n i cur =>
    cases i with
    | zero =>
      simp only [FreeLock.advance, hpc, futexWait, Option.some.injEq] at hs
      subst hs
      split <;>
        exact h.carry t hpc _ rfl rfl rfl (fun _ => rfl) rfl rfl rfl (fun _ _ hx => .inl hx) rfl
          (by simp [Pc.owns]) (fun _ _ hx => .inl (by cases op <;> exact hx)) (by simp [Pc.handles])
          (by simp) (by simp)
    | succ i =>
      simp only [FreeLock.advance, hpc] at hs
      split at hs
      case isFalse =>
        cases hs
        exact h.carry t hpc _ rfl rfl rfl (fun _ => rfl) rfl rfl rfl (fun _ _ hx => .inl hx) rfl
          (by simp [Pc.owns]) (fun _ _ hx => .inl (by cases op <;> exact hx)) (by simp [Pc.handles])
          (by simp) (by simp)
      case isTrue hready =>
        cases hs
        refine h.carry t hpc (op.begin n) rfl rfl rfl (fun _ => rfl) rfl rfl rfl (fun _ _ hx => .inl hx) ?_
          (fun side m ho => .inr fun r hturn => ?_) (fun _ _ hx => .inl ?_) (fun m y hy => ?_) ?_
          (fun m hm => ?_)
        · cases op <;> rfl
        · have hheld : (s.pc t).holds = some (op.side, n) := by rw [hpc]; rfl
          have hnow := hturn.at_of_ready hk hk' hheld (hnear r hturn op.side n hheld) hready
          cases op with
          | dequeue =>
            cases ho
            exact ⟨hnow, fun _ => ((versionReady_read_iff _ _ _).mp hready).2⟩
          | enqueue x =>
            cases ho
            exact ⟨hnow, by simp⟩
        · cases op with
          | dequeue => cases hx
          | enqueue x => exact hx
        · cases op <;> cases hy
        · cases op <;> simp [Op.begin]
        · cases op <;> cases hm
  | take n =>
    obtain ⟨r, hturn, hcont⟩ := h
    obtain ⟨x, hvec, hx⟩ := hcont.loaded hturn hk' (t := t)
      (hturn.turn t .read n (by rw [hpc]; rfl)) (by rw [hpc]; rfl) (by rw [hpc]; simp)
    simp only [FreeLock.advance, hpc, hvec, Option.some.injEq] at hs
    subst hs
    refine carry ⟨r, hturn, hcont⟩ t hpc _ rfl rfl rfl (fun _ => rfl) rfl rfl rfl (fun _ _ hx => .inl hx) rfl
      (fun _ _ ho => .inl ho) (fun m y hy => ?_) (fun m y hy => ?_) (by simp) (by simp) <;> cases hy <;> exact .inr hx
  | clear n x =>
    simp only [FreeLock.advance, hpc, Option.some.injEq] at hs
    subst hs
    obtain ⟨r, hturn, hcont⟩ := h
    refine ⟨r, hturn.carry t _ rfl rfl (fun _ => rfl) (by rw [hpc]; rfl) (fun _ _ ho => .inl ?_),
      hcont.access hturn hk' (by rw [hpc]; rfl) (by rw [hpc]; rfl) (by rw [hpc]; simp) rfl rfl (by simp)
        (fun e => ⟨.inl, ?_⟩) rfl rfl rfl rfl⟩
    · rw [hpc]
      exact ho
    · rintro (he | rfl)
      · exact he
      · exact hcont.handled t n x (by rw [hpc]; rfl)
  | put n x =>
    simp only [FreeLock.advance, hpc, Option.some.injEq] at hs
    subst hs
    obtain ⟨r, hturn, hcont⟩ := h
    refine ⟨r, hturn.carry t _ rfl rfl (fun _ => rfl) (by rw [hpc]; rfl) (fun _ _ ho => .inl ?_),
      hcont.access hturn hk' (by rw [hpc]; rfl) (by rw [hpc]; rfl) (by rw [hpc]; simp) rfl rfl
        (fun _ => rfl) (fun e => List.mem_append.trans (or_congr_right List.mem_singleton)) rfl rfl rfl
        rfl⟩
    rw [hpc]
    exact ho
  | store side n x =>
    simp only [FreeLock.advance, hpc, Option.some.injEq] at hs
    subst hs
    obtain ⟨r, hturn, hcont⟩ := h
    exact ⟨_, hturn.finish hk' _ hpc rfl rfl (fun _ => rfl) rfl,
      hcont.finish hturn hk' hpc rfl rfl rfl rfl rfl rfl rfl⟩
  | wake side n x =>
    simp only [FreeLock.advance, hpc, Option.some.injEq] at hs
    subst hs
    have hpc' : (futexWake s (slot (word (2 ^ k)) n)).pc t = .wake side n x := by
      rw [futexWake_pc s _ t (by rw [hpc]; rfl), hpc]
    refine (h.wake (slot (word (2 ^ k)) n)).carry t hpc' .idle rfl rfl rfl (fun _ => rfl) rfl rfl
      rfl (fun m y hy => ?_) rfl (by simp [Pc.owns]) (by simp [Pc.carries]) (by simp [Pc.handles]) (by simp)
      (by simp)
    rw [futexWake_returned]
    cases side with
    | read => simpa [Pc.handles, eq_comm] using hy
    | write => exact .inl hy

end Handover

/-! ### Whole runs -/

/-- The tickets of each side so far are the words of `0, 1, 2, …`. -/
def Numbered (s : State T α) : Prop :=
  ∀ side, s.tickets side = (List.range (s.cursor side).claimed).map word

section Runs
variable [DecidableEq T] {k : ℕ} {s s' : State T α}

theorem Numbered.step {capacity : BitVec 64} {a : Action T α} (h : Numbered s)
    (hs : (queue capacity T α).step s a = some s') : Numbered s' := by
  have hkeep : ∀ {s'' : State T α}, s''.tickets = s.tickets →
      (∀ side, (s''.cursor side).claimed = (s.cursor side).claimed) → Numbered s'' := by
    intro s'' ht hc side
    rw [ht, hc]
    exact h side
  cases a with
  | call t op =>
    simp only [queue, call] at hs
    split at hs <;> cases hs
    exact hkeep rfl fun _ => rfl
  | step t =>
    simp only [queue] at hs
    cases hpc : s.pc t with
    | ticket op a =>
      simp only [advance, hpc, Option.some.injEq] at hs
      subst hs
      intro side
      by_cases he : side = op.side
      · subst he
        simp [State.setPc, State.setCursor, State.drawn, h op.side, List.range_succ]
      · simp [State.setPc, State.setCursor, State.drawn, he, h side]
    | claim op m | miss op a =>
      simp only [advance, hpc, Option.some.injEq] at hs
      subst hs
      refine hkeep rfl fun side => ?_
      cases side <;> cases op <;> rfl
    | spin op n i cur =>
      cases i <;> simp only [advance, hpc, futexWait, Option.some.injEq] at hs
      · subst hs
        split <;> exact hkeep rfl fun _ => rfl
      · split at hs <;> cases hs <;> exact hkeep rfl fun _ => rfl
    | wake side n x =>
      simp only [advance, hpc, futexWake, Option.some.injEq] at hs
      subst hs
      split <;> exact hkeep rfl fun _ => rfl
    | _ =>
      simp only [advance, hpc] at hs
      try split at hs
      all_goals cases hs
      all_goals exact hkeep rfl fun _ => rfl

/-- What holds along a run in which each call overlaps fewer than `2^31` attempts. -/
theorem bounded_invariant (hk : 1 ≤ k) (hk' : k ≤ 63)
    (h : (queue (word (2 ^ k)) T α).ReachedBy (fun _ _ s' => Bounded s') s) :
    Bounded s ∧ Admission (2 ^ k) s ∧ Handover (2 ^ k) s ∧ Numbered s := by
  have hle : 2 ^ k ≤ 2 ^ 63 := Nat.pow_le_pow_right (by decide) hk'
  refine h.induct (I := fun s => Bounded s ∧ Admission (2 ^ k) s ∧ Handover (2 ^ k) s ∧ Numbered s)
    ⟨?_, .start, .start k, fun _ => rfl⟩ ?_
  · exact fun t ht => absurd rfl ht
  · rintro s a s' - ⟨hb, hadm, hhand, hnum⟩ hs hb'
    refine ⟨hb', ?_, ?_, hnum.step hs⟩
    · cases a with
      | call t op => exact hadm.call hs
      | step t => exact hadm.advance hb hle hs
    · cases a with
      | call t op => exact hhand.call hs
      | step t =>
        exact hhand.advance (fun r hturn side n ht => hturn.turn_near hadm hb (Nat.two_pow_pos k) ht) hk hk' hs

/-- Items are exchanged by ticket. -/
structure Exchange (capacity : ℕ) (s : State T α) : Prop where
  read_le_write : (s.cursor .read).claimed ≤ (s.cursor .write).claimed
  write_le_read : (s.cursor .write).claimed ≤ (s.cursor .read).claimed + capacity
  /-- A returned dequeue yields what the enqueue of the same ticket stored. -/
  returned : ∀ n x, (n, x) ∈ s.returned → (n, x) ∈ s.stored
  stored : ∀ n x, (n, x) ∈ s.stored → s.written[n]? = some x
  /-- No two calls of a side draw the same ticket, as a 64-bit word. -/
  tickets : ∀ side, (s.tickets side).Nodup
  /-- `QuietFlowAssert(*item != nullptr)` never fires. -/
  safe : ∀ t n, s.pc t ≠ .failed n
  /-- A slot is written again only after it has been cleared. -/
  cleared : ∀ t n x, s.pc t = .put (n + capacity) x → n ∈ s.cleared

/-- **The bounded queue hands items over by ticket**, in every run whose calls overlap
fewer than `2^31` attempts of other calls. -/
theorem exchange_of_bounded (hk : 1 ≤ k) (hk' : k ≤ 63)
    (h : (queue (word (2 ^ k)) T α).ReachedBy (fun _ _ s' => Bounded s') s) :
    Exchange (2 ^ k) s := by
  obtain ⟨hb, hadm, hhand, hnum⟩ := bounded_invariant hk hk' h
  have hle : 2 ^ k ≤ 2 ^ 63 := Nat.pow_le_pow_right (by decide) hk'
  have hread := hhand.read_claimed_le hadm hb
  have hrw := hadm.read_le_write
  have hwr := hadm.write_le_read
  obtain ⟨r, hturn, hcont⟩ := hhand
  refine ⟨hrw, hwr, hcont.returned, hcont.stored, fun side => ?_, hcont.safe, fun t n x ht => ?_⟩
  · rw [hnum side]
    have hlt : (s.cursor side).claimed ≤ 2 ^ 64 := by cases side <;> omega
    refine List.Nodup.map_on (fun m hm n hn heq => ?_) List.nodup_range
    have hm := List.mem_range.mp hm
    have hn := List.mem_range.mp hn
    rw [word_eq_iff] at heq
    omega
  · have hat := hturn.turn t .write (n + 2 ^ k) (by rw [ht]; rfl)
    have hpos : 0 < 2 ^ k := Nat.two_pow_pos k
    refine hcont.cleared n (.inl ?_)
    have hround := hat.1
    rw [Nat.add_div_right _ hpos, Nat.add_mod_right] at hround
    exact Nat.lt_of_succ_le hround.le

end Runs

/-- One thread enqueues an item and then dequeues one. -/
def roundTrip {α : Type} (x : α) : List (Action Unit α) :=
  .call () (.enqueue x) :: List.replicate 10 (.step ()) ++
    .call () .dequeue :: List.replicate 11 (.step ())

theorem exchange_roundTrip : ∃ s : State Unit ℕ, s.returned = [(0, 7)] ∧ Exchange (2 ^ 1) s := by
  obtain ⟨s, hreach, hreturned⟩ := System.exists_reachedBy (queue (word (2 ^ 1)) Unit ℕ)
    (fun _ _ s' => Bounded s') (roundTrip 7) (fun s => s.returned = [(0, 7)]) (by decide)
  exact ⟨s, hreturned, exchange_of_bounded (by decide) (by decide) hreach⟩

end QuietFlow.FreeLock
