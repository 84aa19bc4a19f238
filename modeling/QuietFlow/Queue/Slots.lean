import QuietFlow.Queue.Admits

/-! Whose turn it is at a slot.

The tickets of slot `i` are `i`, `i + capacity`, `i + 2 * capacity`, …; each is filled
by its enqueue and then emptied by its dequeue, in that order and one after the
other. `Turns` counts how far every slot has come. `InTurn` says that the version in
the slot encodes exactly that, that every claimed and unfinished ticket is held by
one call, and that a call past its spin loop is the one whose turn it is.

The reader compares half words and every version wraps, so a version matches a
ticket by chance if the slot lags behind by a multiple of `2^32`; the overlap bound
keeps every slot within `2^31` tickets of the counters (`undone_lag`). -/
namespace QuietFlow.FreeLock
open Runs

section Pc
variable {α : Type}

/-- The unfinished ticket a call holds. -/
def Pc.holds : Pc α → Option (Side × ℕ)
  | .spin op n _ _ | .asleep op n _ => some (op.side, n)
  | .take n | .clear n _ => some (.read, n)
  | .put n _ => some (.write, n)
  | .store side n _ => some (side, n)
  | _ => none

/-- The ticket whose slot a call is working on. -/
def Pc.owns : Pc α → Option (Side × ℕ)
  | .take n | .clear n _ => some (.read, n)
  | .put n _ => some (.write, n)
  | .store side n _ => some (side, n)
  | _ => none

theorem Pc.holds_side {p : Pc α} {side : Side} {n : ℕ} (h : p.holds = some (side, n)) :
    p.side = some side := by
  cases p <;> simp_all [Pc.holds, Pc.side]

theorem Pc.holds_fact {p : Pc α} {side : Side} {n : ℕ} (h : p.holds = some (side, n)) {L : Ledger}
    {c : Cursor} {since : ℕ} (hf : Fact L c since p) : since ≤ n + c.missed := by
  cases p <;> simp_all [Pc.holds, Fact]

theorem Pc.owns_holds {p : Pc α} {x : Side × ℕ} (h : p.owns = some x) : p.holds = some x := by
  cases p <;> simp_all [Pc.holds, Pc.owns]

@[simp] theorem woken_holds (p : Pc α) : p.woken.holds = p.holds := by cases p <;> rfl

@[simp] theorem woken_owns (p : Pc α) : p.woken.owns = p.owns := by cases p <;> rfl

end Pc

/-! ### Turns -/

/-- For each slot, how many of its tickets have been emptied, and whether the next one
has been filled. -/
structure Turns where
  round : ℕ → ℕ
  full : ℕ → Bool

namespace Turns
variable (r : Turns) (c : ℕ)

/-- The ticket whose turn it is at slot `i`. -/
def turn (i : ℕ) : ℕ := i + r.round i * c

def version (i : ℕ) : BitVec 64 :=
  if r.full i then word (r.turn c i) else targetVersion (word c) .write (r.turn c i)

/-- The ticket has been filled, or emptied. -/
def Done : Side → ℕ → Prop
  | .read, n => n / c < r.round (n % c)
  | .write, n => n / c < r.round (n % c) ∨ n / c = r.round (n % c) ∧ r.full (n % c) = true

/-- It is the ticket's turn on its side. -/
def At (side : Side) (n : ℕ) : Prop :=
  n / c = r.round (n % c) ∧ r.full (n % c) = decide (side = .read)

/-- A ticket is filled or emptied. -/
def finish (side : Side) (n : ℕ) : Turns :=
  match side with
  | .write => {r with full := Function.update r.full (n % c) true}
  | .read => ⟨Function.update r.round (n % c) (n / c + 1), Function.update r.full (n % c) false⟩

variable {r c}

theorem turn_of_at {side : Side} {n : ℕ} (h : r.At c side n) : r.turn c (n % c) = n := by
  rw [turn, ← h.1]
  exact Nat.mod_add_div' n c

/-- Two tickets of one slot whose turn it is are the same ticket on the same side. -/
theorem at_unique {side side' : Side} {n n' : ℕ} (h : r.At c side n) (h' : r.At c side' n')
    (hslot : n % c = n' % c) : side = side' ∧ n = n' := by
  have hn : n = n' := by
    rw [← turn_of_at h, ← turn_of_at h', hslot]
  subst hn
  refine ⟨?_, rfl⟩
  have hfull := h.2.symm.trans h'.2
  cases side <;> cases side' <;> simp at hfull ⊢

theorem done_finish {side : Side} {n : ℕ} (h : r.At c side n) (side' : Side) (m : ℕ) :
    (r.finish c side n).Done c side' m ↔ r.Done c side' m ∨ side' = side ∧ m = n := by
  obtain ⟨hround, hfull⟩ := h
  by_cases hslot : m % c = n % c
  · have hsame : m = n ↔ m / c = n / c := by
      constructor
      · rintro rfl
        rfl
      · intro hq
        rw [← Nat.mod_add_div' m c, ← Nat.mod_add_div' n c, hslot, hq]
    cases side <;> cases side' <;>
      simp only [finish, Done, hslot, Function.update_self, hsame, hfull, ← hround] <;> simp <;> omega
  · have hne : m ≠ n := fun h => hslot (h ▸ rfl)
    cases side <;> cases side' <;> simp [finish, Done, Function.update_of_ne hslot, hne]

theorem at_finish {side side' : Side} {n m : ℕ} (h : r.At c side' m) (hslot : m % c ≠ n % c) :
    (r.finish c side n).At c side' m := by
  cases side <;> simpa [finish, At, Function.update_of_ne hslot] using h

theorem turn_finish_write {n : ℕ} (h : r.At c .write n) :
    (r.finish c .write n).turn c (n % c) = n :=
  (turn_of_at h : r.turn c (n % c) = n)

/-- The version stored by a finished ticket is that of the next turn. -/
theorem storedVersion_eq {side : Side} {n : ℕ} (h : r.At c side n) :
    storedVersion side n = (r.finish c side n).version c (n % c) := by
  cases side with
  | write =>
    simp only [Turns.version, turn_finish_write h]
    simp [finish, storedVersion]
  | read =>
    have hn : (r.finish c .read n).turn c (n % c) = n + c := by
      simp only [Turns.turn, Turns.finish, Function.update_self]
      rw [Nat.add_mul, Nat.one_mul, ← Nat.add_assoc, Nat.mod_add_div']
    simp only [Turns.version, hn, targetVersion, capacityBitmap, storedVersion]
    simp only [Turns.finish, Function.update_self, Bool.false_eq_true, if_false, word_add]
    bv_omega

end Turns

/-! ### The invariant of the slots -/

variable {T α : Type}

structure InTurn (c : ℕ) (s : State T α) (r : Turns) : Prop where
  version : ∀ i, i < c → s.flagVec (word i) = r.version c i
  done_lt : ∀ side n, r.Done c side n → n < (s.cursor side).claimed
  held : ∀ side n, n < (s.cursor side).claimed → r.Done c side n ∨
    ∃ t, (s.pc t).holds = some (side, n)
  mine : ∀ t side n, (s.pc t).holds = some (side, n) → n < (s.cursor side).claimed ∧ ¬ r.Done c side n
  unique : ∀ t t' x, (s.pc t).holds = some x → (s.pc t').holds = some x → t = t'
  turn : ∀ t side n, (s.pc t).owns = some (side, n) → r.At c side n
  fits : ∀ n, r.Done c .read n ∨ (∃ t, (s.pc t).owns = some (.read, n)) → Fits n

/-- A call that holds ticket `n` has seen the counter move by at most `2^31` since. -/
theorem claimed_le_of_holds {c : ℕ} {s : State T α} (hadm : Admission c s) (hb : Bounded s) {t : T}
    {side : Side} {n : ℕ} (ht : (s.pc t).holds = some (side, n)) :
    (s.cursor side).claimed ≤ n + 2 ^ 31 := by
  obtain ⟨L, hL⟩ := hadm side
  have hfact := Pc.holds_fact ht (hL.fact t (Pc.holds_side ht))
  have hahead := hb.ahead_le (t := t) (fun hidle => by rw [hidle] at ht; cases ht) side
  have hover := hL.over_le
  omega

namespace InTurn
variable {c k : ℕ} {s s' : State T α} {r : Turns}

/-- A slot lags behind the counters by at most `2^31` tickets. -/
theorem undone_lag (h : InTurn c s r) (hadm : Admission c s) (hb : Bounded s) (side : Side) {n : ℕ}
    (hlt : n < (s.cursor side).claimed) (hn : ¬ r.Done c side n) :
    (s.cursor side).claimed ≤ n + 2 ^ 31 := by
  rcases h.held side n hlt with hd | ⟨t, ht⟩
  · exact absurd hd hn
  · exact claimed_le_of_holds hadm hb ht

/-- The ticket whose turn it is at a slot is not far behind any claimed ticket of that
slot: within `2^31`, and for a write ticket within another capacity when the slot is
full. -/
theorem turn_lag (h : InTurn c s r) (hadm : Admission c s) (hb : Bounded s) (hc : 0 < c)
    {side : Side} {n : ℕ} (hlt : n < (s.cursor side).claimed)
    (hbehind : r.round (n % c) < n / c) :
    r.turn c (n % c) + c ≤ n ∧
      (side = .read ∨ r.full (n % c) = false → n < r.turn c (n % c) + 2 ^ 31) ∧
      n < r.turn c (n % c) + 2 ^ 31 + c := by
  have hrw := hadm.read_le_write
  have hwr := hadm.write_le_read
  have hmod : r.turn c (n % c) % c = n % c := by simp [Turns.turn]
  have hdiv : r.turn c (n % c) / c = r.round (n % c) := by
    rw [Turns.turn, Nat.add_mul_div_right _ _ hc, Nat.div_eq_of_lt (Nat.mod_lt _ hc), Nat.zero_add]
  have hturn : r.turn c (n % c) + c ≤ n := by
    have hn := Nat.mod_add_div' n c
    have hmul : (r.round (n % c) + 1) * c ≤ n / c * c := Nat.mul_le_mul_right c hbehind
    rw [Nat.add_mul, Nat.one_mul] at hmul
    simp only [Turns.turn]
    omega
  have hread : r.full (n % c) = true → (s.cursor .read).claimed ≤ r.turn c (n % c) + 2 ^ 31 := by
    intro _
    refine h.undone_lag hadm hb .read ?_ ?_
    · cases side <;> omega
    · simp [Turns.Done, hmod, hdiv]
  have hwrite : r.full (n % c) = false → (s.cursor .write).claimed ≤ r.turn c (n % c) + 2 ^ 31 := by
    intro hfull
    refine h.undone_lag hadm hb .write ?_ ?_
    · cases side <;> omega
    · simp [Turns.Done, hmod, hdiv, hfull]
  refine ⟨hturn, ?_, ?_⟩
  · rintro (rfl | hfull)
    · cases hfull : r.full (n % c)
      · have := hwrite hfull
        omega
      · have := hread hfull
        omega
    · have := hwrite hfull
      cases side <;> omega
  · cases hfull : r.full (n % c)
    · have := hwrite hfull
      cases side <;> omega
    · have := hread hfull
      cases side <;> omega

/-- A slot is less than `2^32` tickets behind the ticket that its version is compared with. -/
theorem turn_near (h : InTurn c s r) (hadm : Admission c s) (hb : Bounded s) (hc : 0 < c) {t : T}
    {side : Side} {n : ℕ} (ht : (s.pc t).holds = some (side, n))
    (hside : side = .read ∨ r.full (n % c) = false) : n < r.turn c (n % c) + 2 ^ 32 := by
  obtain ⟨hlt, hnot⟩ := h.mine t side n ht
  have hround : r.round (n % c) ≤ n / c := by
    cases side <;> simp only [Turns.Done] at hnot <;> omega
  rcases Nat.lt_or_eq_of_le hround with hbehind | hnow
  · have hlag := (h.turn_lag hadm hb hc hlt hbehind).2.1 hside
    omega
  · have hn : r.turn c (n % c) = n := by
      rw [Turns.turn, hnow]
      exact Nat.mod_add_div' n c
    omega

/-- **A version matches a waiting ticket only when it is that ticket's turn**, half-word
comparison and wrapping notwithstanding. -/
theorem at_of_ready (h : InTurn (2 ^ k) s r) (hk : 1 ≤ k) (hk' : k ≤ 63) {t : T} {side : Side} {n : ℕ}
    (ht : (s.pc t).holds = some (side, n))
    (hnear : side = .read ∨ r.full (n % 2 ^ k) = false → n < r.turn (2 ^ k) (n % 2 ^ k) + 2 ^ 32)
    (hready : versionReady (word (2 ^ k)) side n (s.flagVec (slot (word (2 ^ k)) n)) = true) :
    r.At (2 ^ k) side n := by
  have hc : 0 < 2 ^ k := Nat.two_pow_pos k
  have hle : 2 ^ k ≤ 2 ^ 63 := Nat.pow_le_pow_right (by decide) hk'
  have heven : 2 ∣ 2 ^ k := Dvd.dvd.trans (by decide : 2 ∣ 2 ^ 1) (Nat.pow_dvd_pow 2 hk)
  obtain ⟨hlt, hnot⟩ := h.mine t side n ht
  have hturn : r.turn (2 ^ k) (n % 2 ^ k) % 2 = n % 2 := by
    rw [← Nat.mod_mod_of_dvd (r.turn _ _) heven, ← Nat.mod_mod_of_dvd n heven]
    simp [Turns.turn]
  rw [slot_eq hk', h.version _ (Nat.mod_lt _ hc), Turns.version, targetVersion,
    capacityBitmap_eq] at hready
  -- the distance between the ticket and the slot's turn is even, the bitmap is odd
  have hodd : (2 ^ k - 1) % 2 = 1 := by
    obtain ⟨e, he⟩ := heven
    omega
  have hround : r.round (n % 2 ^ k) ≤ n / 2 ^ k := by
    cases side <;> simp only [Turns.Done] at hnot <;> omega
  have hfar : r.round (n % 2 ^ k) < n / 2 ^ k → r.turn (2 ^ k) (n % 2 ^ k) + 2 ^ k ≤ n := by
    intro hbehind
    have hn := Nat.mod_add_div' n (2 ^ k)
    have hmul : (r.round (n % 2 ^ k) + 1) * 2 ^ k ≤ n / 2 ^ k * 2 ^ k := Nat.mul_le_mul_right _ hbehind
    rw [Nat.add_mul, Nat.one_mul] at hmul
    simp only [Turns.turn]
    omega
  generalize hm : r.turn (2 ^ k) (n % 2 ^ k) = m at hready hturn hfar hnear
  generalize hmask : 2 ^ k - 1 = mask at hready hodd
  have hmasklt : mask < 2 ^ 63 := by omega
  rcases Nat.lt_or_eq_of_le hround with hbehind | hnow
  · -- the slot lags behind: no version it can hold matches
    exfalso
    have hfar := hfar hbehind
    cases side with
    | read =>
      have hnear := hnear (.inl rfl)
      have hlow := congrArg BitVec.toNat ((versionReady_read_iff _ _ _).mp hready).1
      rw [low_word] at hlow
      split at hlow
      · rw [low_word] at hlow
        omega
      · rw [low, BitVec.truncate_eq_setWidth, BitVec.toNat_setWidth, BitVec.toNat_sub, word_toNat,
          word_toNat] at hlow
        omega
    | write =>
      simp only [versionReady, targetVersion, capacityBitmap_eq, hmask, beq_iff_eq] at hready
      have hword := congrArg BitVec.toNat hready
      split at hword
      · rw [BitVec.toNat_sub, word_toNat, word_toNat, word_toNat] at hword
        omega
      · next hfull =>
        have hnear := hnear (.inr (by simpa using hfull))
        rw [BitVec.toNat_sub, BitVec.toNat_sub, word_toNat, word_toNat, word_toNat] at hword
        omega
  · have hmn : m = n := by
      rw [← hm, Turns.turn, hnow]
      exact Nat.mod_add_div' n _
    refine ⟨hnow.symm, ?_⟩
    cases side with
    | read =>
      -- an empty slot's version differs from the ticket by the odd bitmap
      by_contra hfull
      have hlow := congrArg BitVec.toNat ((versionReady_read_iff _ _ _).mp hready).1
      rw [if_neg (by simpa using hfull), low_word, low, BitVec.truncate_eq_setWidth,
        BitVec.toNat_setWidth, BitVec.toNat_sub, word_toNat, word_toNat] at hlow
      omega
    | write =>
      simp only [Turns.Done, not_or, not_and] at hnot
      simpa using hnot.2 hnow.symm

/-! ### Steps -/

theorem start [DecidableEq T] (k : ℕ) :
    InTurn (2 ^ k) (queue (word (2 ^ k)) T α).start ⟨fun _ => 0, fun _ => false⟩ where
  version := by
    intro i _
    simp [queue, FreeLock.start, Turns.version, Turns.turn, targetVersion]
  done_lt := by
    intro side n hn
    cases side <;> simp [Turns.Done] at hn
  held := fun _ _ hn => absurd hn (Nat.not_lt_zero _)
  mine := by rintro t side n ⟨⟩
  unique := by rintro t t' x ⟨⟩
  turn := by rintro t side n ⟨⟩
  fits := by
    rintro n (hn | ⟨t, ⟨⟩⟩)
    exact absurd hn (Nat.not_lt_zero _)

variable [DecidableEq T]

/-- A call moves on with its ticket, if any; it may turn to the slot when its turn has come. -/
theorem carry (h : InTurn c s r) (t : T) (p : Pc α) (hpc : s'.pc = Function.update s.pc t p)
    (hflag : s'.flagVec = s.flagVec)
    (hclaimed : ∀ side, (s'.cursor side).claimed = (s.cursor side).claimed)
    (hholds : p.holds = (s.pc t).holds)
    (howns : ∀ side n, p.owns = some (side, n) →
      (s.pc t).owns = some (side, n) ∨ r.At c side n ∧ (side = .read → Fits n)) :
    InTurn c s' r := by
  have hsame : ∀ t', (s'.pc t').holds = (s.pc t').holds := by
    intro t'
    rw [hpc]
    by_cases ht : t' = t
    · rw [ht, Function.update_self, hholds]
    · rw [Function.update_of_ne ht]
  constructor
  case version => rw [hflag]; exact h.version
  case done_lt => exact fun side n hn => hclaimed side ▸ h.done_lt side n hn
  case held =>
    intro side n hn
    simp only [hsame]
    exact h.held side n (hclaimed side ▸ hn)
  case mine =>
    intro t' side n ht
    rw [hclaimed]
    exact h.mine t' side n (hsame t' ▸ ht)
  case unique => exact fun t₁ t₂ x h₁ h₂ => h.unique t₁ t₂ x (hsame t₁ ▸ h₁) (hsame t₂ ▸ h₂)
  case turn =>
    intro t' side n ht
    rw [hpc] at ht
    by_cases he : t' = t
    · rw [he, Function.update_self] at ht
      rcases howns side n ht with hold | hat
      · exact h.turn t side n hold
      · exact hat.1
    · rw [Function.update_of_ne he] at ht
      exact h.turn t' side n ht
  case fits =>
    rintro n (hd | ⟨t', ht⟩)
    · exact h.fits n (.inl hd)
    · rw [hpc] at ht
      by_cases he : t' = t
      · rw [he, Function.update_self] at ht
        rcases howns .read n ht with hold | hat
        · exact h.fits n (.inr ⟨t, hold⟩)
        · exact hat.2 rfl
      · rw [Function.update_of_ne he] at ht
        exact h.fits n (.inr ⟨t', ht⟩)

/-- The next ticket of a side is drawn. -/
theorem draw (h : InTurn c s r) (t : T) (op : Op α) (p : Pc α)
    (hpc : s'.pc = Function.update s.pc t p) (hflag : s'.flagVec = s.flagVec)
    (hclaimed : ∀ side, (s'.cursor side).claimed =
      (s.cursor side).claimed + if side = op.side then 1 else 0)
    (hnone : (s.pc t).holds = none)
    (hholds : p.holds = some (op.side, (s.cursor op.side).claimed)) (howns : p.owns = none) :
    InTurn c s' r := by
  have hnew : ∀ n, n < (s.cursor op.side).claimed + 1 ↔
      n < (s.cursor op.side).claimed ∨ n = (s.cursor op.side).claimed := fun n => by omega
  -- the holders are the old ones and `t`
  have hcases : ∀ t' x, (s'.pc t').holds = some x →
      t' = t ∧ x = (op.side, (s.cursor op.side).claimed) ∨ (s.pc t').holds = some x := by
    intro t' x ht
    rw [hpc] at ht
    by_cases he : t' = t
    · rw [he, Function.update_self, hholds] at ht
      exact .inl ⟨he, (Option.some.inj ht).symm⟩
    · rw [Function.update_of_ne he] at ht
      exact .inr ht
  constructor
  case version => rw [hflag]; exact h.version
  case done_lt =>
    intro side n hn
    have := h.done_lt side n hn
    rw [hclaimed]
    omega
  case held =>
    intro side n hn
    rw [hclaimed] at hn
    have hlt : n < (s.cursor side).claimed ∨ side = op.side ∧ n = (s.cursor op.side).claimed := by
      split at hn
      · next he => subst he; exact ((hnew n).mp hn).imp_right fun hn => ⟨rfl, hn⟩
      · exact .inl hn
    rcases hlt with hlt | ⟨rfl, rfl⟩
    · rcases h.held side n hlt with hd | ⟨t', ht'⟩
      · exact .inl hd
      · refine .inr ⟨t', ?_⟩
        rw [hpc, Function.update_of_ne fun he => ?_, ht']
        rw [he, hnone] at ht'
        cases ht'
    · exact .inr ⟨t, by rw [hpc, Function.update_self, hholds]⟩
  case mine =>
    intro t' side n ht
    rcases hcases t' _ ht with ⟨-, hx⟩ | hold
    · cases hx
      refine ⟨by rw [hclaimed, if_pos rfl]; omega, fun hd => ?_⟩
      exact lt_irrefl _ (h.done_lt _ _ hd)
    · obtain ⟨hlt, hnot⟩ := h.mine t' side n hold
      exact ⟨by rw [hclaimed]; omega, hnot⟩
  case unique =>
    intro t₁ t₂ x h₁ h₂
    have hfresh : ∀ t', (s.pc t').holds ≠ some (op.side, (s.cursor op.side).claimed) :=
      fun t' ht' => lt_irrefl _ (h.mine t' _ _ ht').1
    rcases hcases t₁ x h₁ with ⟨rfl, rfl⟩ | ho₁ <;> rcases hcases t₂ _ h₂ with ⟨rfl, hx⟩ | ho₂
    · rfl
    · exact absurd ho₂ (hfresh t₂)
    · subst hx
      exact absurd ho₁ (hfresh t₁)
    · exact h.unique t₁ t₂ x ho₁ ho₂
  case turn =>
    intro t' side n ht
    rw [hpc] at ht
    by_cases he : t' = t
    · rw [he, Function.update_self, howns] at ht
      cases ht
    · rw [Function.update_of_ne he] at ht
      exact h.turn t' side n ht
  case fits =>
    rintro n (hd | ⟨t', ht⟩)
    · exact h.fits n (.inl hd)
    · rw [hpc] at ht
      by_cases he : t' = t
      · rw [he, Function.update_self, howns] at ht
        cases ht
      · rw [Function.update_of_ne he] at ht
        exact h.fits n (.inr ⟨t', ht⟩)

/-- A finished ticket hands the slot to the next turn. -/
theorem finish (h : InTurn (2 ^ k) s r) (hk : k ≤ 63) {t : T} {side : Side} {n : ℕ} {x : α} (p : Pc α)
    (ht : s.pc t = .store side n x) (hpc : s'.pc = Function.update s.pc t p)
    (hflag : s'.flagVec =
      Function.update s.flagVec (slot (word (2 ^ k)) n) (storedVersion side n))
    (hclaimed : ∀ side, (s'.cursor side).claimed = (s.cursor side).claimed)
    (hnone : p.holds = none) : InTurn (2 ^ k) s' (r.finish (2 ^ k) side n) := by
  have hc : 0 < 2 ^ k := Nat.two_pow_pos k
  have hle : 2 ^ k ≤ 2 ^ 63 := Nat.pow_le_pow_right (by decide) hk
  have hheld : (s.pc t).holds = some (side, n) := by rw [ht]; rfl
  have hat : r.At (2 ^ k) side n := h.turn t side n (by rw [ht]; rfl)
  have hkeep : ∀ t' y, (s'.pc t').holds = some y → t' ≠ t ∧ (s.pc t').holds = some y := by
    intro t' y hy
    rw [hpc] at hy
    by_cases he : t' = t
    · rw [he, Function.update_self, hnone] at hy
      cases hy
    · rw [Function.update_of_ne he] at hy
      exact ⟨he, hy⟩
  constructor
  case version =>
    intro i hi
    rw [hflag, slot_eq hk]
    by_cases he : i = n % 2 ^ k
    · rw [he, Function.update_self]
      exact Turns.storedVersion_eq hat
    · have hne : word i ≠ word (n % 2 ^ k) := by
        have := Nat.mod_lt n hc
        rw [Ne, word_eq_iff]
        omega
      rw [Function.update_of_ne hne, h.version i hi]
      cases side <;> simp [Turns.version, Turns.turn, Turns.finish, Function.update_of_ne he]
  case done_lt =>
    intro side' m hm
    rw [hclaimed]
    rcases (Turns.done_finish hat side' m).mp hm with hm | ⟨rfl, rfl⟩
    · exact h.done_lt side' m hm
    · exact (h.mine t _ _ hheld).1
  case held =>
    intro side' m hm
    rw [Turns.done_finish hat]
    rcases h.held side' m (hclaimed side' ▸ hm) with hd | ⟨t', ht'⟩
    · exact .inl (.inl hd)
    · by_cases he : t' = t
      · rw [he, hheld] at ht'
        cases ht'
        exact .inl (.inr ⟨rfl, rfl⟩)
      · exact .inr ⟨t', by rw [hpc, Function.update_of_ne he, ht']⟩
  case mine =>
    intro t' side' m hm
    obtain ⟨hne, hm⟩ := hkeep t' _ hm
    obtain ⟨hlt, hnot⟩ := h.mine t' side' m hm
    refine ⟨by rw [hclaimed]; exact hlt, fun hd => ?_⟩
    rcases (Turns.done_finish hat side' m).mp hd with hd | ⟨rfl, rfl⟩
    · exact hnot hd
    · exact hne (h.unique t' t _ hm hheld)
  case unique =>
    intro t₁ t₂ y h₁ h₂
    exact h.unique t₁ t₂ y (hkeep t₁ y h₁).2 (hkeep t₂ y h₂).2
  case turn =>
    intro t' side' m hm
    obtain ⟨hne, hheld'⟩ := hkeep t' _ (Pc.owns_holds hm)
    rw [hpc, Function.update_of_ne hne] at hm
    have hat' := h.turn t' side' m hm
    refine Turns.at_finish hat' fun hslot => hne ?_
    obtain ⟨rfl, rfl⟩ := Turns.at_unique hat' hat hslot
    exact h.unique t' t _ hheld' hheld
  case fits =>
    rintro m (hd | ⟨t', ht'⟩)
    · rcases (Turns.done_finish hat .read m).mp hd with hd | ⟨rfl, rfl⟩
      · exact h.fits m (.inl hd)
      · exact h.fits m (.inr ⟨t, by rw [ht]; rfl⟩)
    · obtain ⟨hne, -⟩ := hkeep t' _ (Pc.owns_holds ht')
      rw [hpc, Function.update_of_ne hne] at ht'
      exact h.fits m (.inr ⟨t', ht'⟩)

end InTurn
end QuietFlow.FreeLock
