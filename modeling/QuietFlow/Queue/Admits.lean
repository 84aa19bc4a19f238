import Mathlib.Data.Fintype.Basic
import QuietFlow.Queue.Window
import QuietFlow.Runs.Admission

/-! Who may draw a ticket.

Both sides of the queue accept their calls through the numbered attempts of
`Runs.Ledger`: the number is the value of `ahead`, a repaired miss is a lost attempt,
and the limit is the number of claimed tickets on the other side (plus the capacity,
for the writer). `Admits` ties the three counters of a side and the calls under way
on it to a ledger. It is kept by every step in which each call overlaps fewer than
`2^31` attempts (`Bounded`); the wrapped tests then agree with the ledger's, so no
more reads are claimed than writes, and no more writes than reads and free slots. -/
namespace QuietFlow.FreeLock
open Runs

section Pc
variable {α : Type}

/-- The side a call is working on, until it has stored its version. -/
def Pc.side : Pc α → Option Side
  | .idle | .wake _ _ _ | .failed _ => none
  | .bound op | .missed op _ | .ahead op _ _ | .claim op _ | .retest op _ _ | .miss op _
  | .ticket op _ | .spin op _ _ _ | .asleep op _ _ => some op.side
  | .take _ | .clear _ _ => some .read
  | .put _ _ => some .write
  | .store side _ _ => some side

/-- The attempt number a call holds and has not yet turned into a ticket or a miss. -/
def Pc.attempt : Pc α → Option ℕ
  | .retest _ _ a | .miss _ a | .ticket _ a => some a
  | _ => none

/-- Whether the call has already taken an attempt number of its own. -/
def Pc.entered : Pc α → ℕ
  | .idle | .bound _ | .missed _ _ | .ahead _ _ _ | .claim _ _ => 0
  | _ => 1

/-- What a call on a side with counters `c` knows, `since` attempts having been over
when it began. -/
def Fact (L : Ledger) (c : Cursor) (since : ℕ) : Pc α → Prop
  | .bound _ | .missed _ _ => since ≤ c.claimed + c.missed
  | .ahead _ _ m | .claim _ m => since ≤ c.claimed + m ∧ m ≤ c.missed
  | .retest _ m a => since ≤ c.claimed + m ∧ m ≤ L.lostBelow a ∧ since ≤ a ∧ L.Open a
  | .miss _ a => L.Open a
  | .ticket _ a => since ≤ c.claimed + c.missed ∧ a ∈ L.admitted ∧ a ∉ L.drawn
  | .spin _ n _ _ | .asleep _ n _ | .take n | .clear n _ | .put n _ | .store _ n _ =>
    since ≤ n + c.missed
  | .idle | .wake _ _ _ | .failed _ => True

theorem Fact.mono {L L' : Ledger} {c c' : Cursor} {since : ℕ} {p : Pc α} (h : Fact L c since p)
    (hclaimed : c.claimed ≤ c'.claimed) (hmissed : c.missed ≤ c'.missed)
    (hlost : ∀ a, L.lostBelow a ≤ L'.lostBelow a)
    (hopen : ∀ a, p.attempt = some a → L.Open a → L'.Open a)
    (hpending : ∀ a, p.attempt = some a → a ∈ L.admitted → a ∉ L.drawn →
      a ∈ L'.admitted ∧ a ∉ L'.drawn) : Fact L' c' since p := by
  cases p with
  | bound op | missed op b =>
    simp only [Fact] at h ⊢
    omega
  | ahead op b m | claim op m =>
    simp only [Fact] at h ⊢
    omega
  | retest op m a =>
    obtain ⟨hc, hm, ha, ho⟩ := h
    exact ⟨by omega, hm.trans (hlost a), ha, hopen a rfl ho⟩
  | miss op a => exact hopen a rfl h
  | ticket op a =>
    obtain ⟨hs, ha, hd⟩ := h
    exact ⟨by omega, hpending a rfl ha hd⟩
  | spin op n i cur | asleep op n cur | take n | clear n x | put n x | store side n x =>
    simp only [Fact] at h ⊢
    omega
  | idle | wake side n x | failed n => trivial

@[simp] theorem woken_side (p : Pc α) : p.woken.side = p.side := by cases p <;> rfl

@[simp] theorem woken_attempt (p : Pc α) : p.woken.attempt = p.attempt := by cases p <;> rfl

theorem woken_fact {L : Ledger} {c : Cursor} {since : ℕ} {p : Pc α} (h : Fact L c since p) :
    Fact L c since p.woken := by
  cases p <;> exact h

@[simp] theorem begin_side (op : Op α) (n : ℕ) : (op.begin n).side = some op.side := by
  cases op <;> rfl

@[simp] theorem begin_attempt (op : Op α) (n : ℕ) : (op.begin n).attempt = none := by
  cases op <;> rfl

theorem begin_fact {L : Ledger} {c : Cursor} {since n i : ℕ} {op : Op α} {cur : BitVec 32}
    (h : Fact L c since (.spin op n i cur)) : Fact L c since (op.begin n) := by
  cases op <;> exact h

end Pc

/-- How many tickets a side may claim, given the other side's. -/
def limit (capacity : ℕ) (cursor : Side → Cursor) : Side → ℕ
  | .read => (cursor .write).claimed
  | .write => (cursor .read).claimed + capacity

theorem limit_update_le (capacity : ℕ) (cursor : Side → Cursor) (side side' : Side) (c : Cursor)
    (hle : (cursor side').claimed ≤ c.claimed) :
    limit capacity cursor side ≤ limit capacity (Function.update cursor side' c) side := by
  cases side <;> cases side' <;> simp [limit, Function.update] <;> exact hle

variable {T α : Type}

/-- The counters of `side` and the calls on it follow the ledger `L`. -/
structure Admits (capacity : ℕ) (cursor : Side → Cursor) (since : T → Side → ℕ) (pc : T → Pc α)
    (side : Side) (L : Ledger) : Prop where
  sound : L.Sound (limit capacity cursor side)
  attempts : L.attempts = (cursor side).ahead
  drawn : L.drawn.card = (cursor side).claimed
  lost : L.lost.card = (cursor side).missed
  fact : ∀ t, (pc t).side = some side → Fact L (cursor side) (since t side) (pc t)
  distinct : ∀ t t' a, (pc t).side = some side → (pc t').side = some side →
    (pc t).attempt = some a → (pc t').attempt = some a → t = t'

namespace Admits
variable {capacity : ℕ} {cursor : Side → Cursor} {since : T → Side → ℕ} {pc : T → Pc α}
  {side : Side} {L : Ledger}

theorem claimed_le (h : Admits capacity cursor since pc side L) :
    (cursor side).claimed ≤ limit capacity cursor side := h.drawn ▸ h.sound.card_drawn_le

theorem over_le (h : Admits capacity cursor since pc side L) :
    (cursor side).claimed + (cursor side).missed ≤ (cursor side).ahead := by
  rw [← h.drawn, ← h.lost, ← h.attempts]
  exact h.sound.drawn_add_lost_le

theorem attempt_lt (h : Admits capacity cursor since pc side L) {t : T} {a : ℕ}
    (hs : (pc t).side = some side) (ha : (pc t).attempt = some a) : a < (cursor side).ahead := by
  have hfact := h.fact t hs
  rw [← h.attempts]
  cases hpc : pc t with
  | retest op m b =>
    rw [hpc] at hfact ha
    cases ha
    exact hfact.2.2.2.1
  | miss op b =>
    rw [hpc] at hfact ha
    cases ha
    exact hfact.1
  | ticket op b =>
    rw [hpc] at hfact ha
    cases ha
    exact h.sound.admitted_lt _ hfact.2.1
  | _ => rw [hpc] at ha; cases ha

/-- The other side's counters change; it claims no fewer tickets. -/
theorem raise (h : Admits capacity cursor since pc side L) {other : Side} (hne : other ≠ side)
    (c : Cursor) (hle : (cursor other).claimed ≤ c.claimed) :
    Admits capacity (Function.update cursor other c) since pc side L := by
  have hside : Function.update cursor other c side = cursor side := Function.update_of_ne hne.symm _ _
  exact ⟨h.sound.mono (limit_update_le capacity cursor side other c hle), by rw [hside]; exact h.attempts,
    by rw [hside]; exact h.drawn, by rw [hside]; exact h.lost, by rw [hside]; exact h.fact, h.distinct⟩

variable [DecidableEq T]

/-- A thread outside every call may note a new beginning. -/
theorem retime (h : Admits capacity cursor since pc side L) (t : T) (hout : (pc t).side = none)
    (f : Side → ℕ) : Admits capacity cursor (Function.update since t f) pc side L :=
  {h with
    fact := by
      intro t' hs
      by_cases ht : t' = t
      · subst ht
        rw [hout] at hs
        cases hs
      · rw [Function.update_of_ne ht]
        exact h.fact t' hs}

/-- A call moves on without a new attempt number, knowing what its new place needs. -/
theorem move (h : Admits capacity cursor since pc side L) (t : T) (p : Pc α)
    (hp : p.side = some side → Fact L (cursor side) (since t side) p ∧
      (p.attempt = none ∨ p.attempt = (pc t).attempt ∧ (pc t).side = some side)) :
    Admits capacity cursor since (Function.update pc t p) side L where
  sound := h.sound
  attempts := h.attempts
  drawn := h.drawn
  lost := h.lost
  fact := by
    intro t'
    by_cases ht : t' = t
    · subst ht
      rw [Function.update_self]
      exact fun hs => (hp hs).1
    · rw [Function.update_of_ne ht]
      exact h.fact t'
  distinct := by
    have hold : ∀ t' a, (Function.update pc t p t').side = some side →
        (Function.update pc t p t').attempt = some a →
        (pc t').side = some side ∧ (pc t').attempt = some a := by
      intro t' a hs ha
      by_cases ht : t' = t
      · subst ht
        rw [Function.update_self] at hs ha
        rcases (hp hs).2 with hnone | ⟨hsame, hside⟩
        · rw [hnone] at ha
          cases ha
        · exact ⟨hside, hsame ▸ ha⟩
      · rw [Function.update_of_ne ht] at hs ha
        exact ⟨hs, ha⟩
    intro t₁ t₂ a hs₁ hs₂ ha₁ ha₂
    obtain ⟨hs₁, ha₁⟩ := hold t₁ a hs₁ ha₁
    obtain ⟨hs₂, ha₂⟩ := hold t₂ a hs₂ ha₂
    exact h.distinct t₁ t₂ a hs₁ hs₂ ha₁ ha₂

/-- A call on the other side, or out of the side's sight, moves. -/
theorem move_other (h : Admits capacity cursor since pc side L) (t : T) (p : Pc α)
    (hp : p.side ≠ some side) : Admits capacity cursor since (Function.update pc t p) side L :=
  h.move t p fun hs => absurd hs hp

/-- The ledger and the counters of the side change under a step of `t`, which ends
with the attempt it had, if any. -/
theorem advance (h : Admits capacity cursor since pc side L) (t : T) (p : Pc α) {L' : Ledger}
    {c : Cursor} (hsound : L'.Sound (limit capacity (Function.update cursor side c) side))
    (hattempts : L'.attempts = c.ahead) (hdrawn : L'.drawn.card = c.claimed)
    (hlost : L'.lost.card = c.missed) (hclaimed : (cursor side).claimed ≤ c.claimed)
    (hmissed : (cursor side).missed ≤ c.missed) (hbelow : ∀ a, L.lostBelow a ≤ L'.lostBelow a)
    (hp : Fact L' c (since t side) p)
    (hopen : ∀ a, (pc t).attempt ≠ some a → L.Open a → L'.Open a)
    (hpending : ∀ a, (pc t).attempt ≠ some a → a ∈ L.admitted → a ∉ L.drawn →
      a ∈ L'.admitted ∧ a ∉ L'.drawn)
    (hside : (pc t).side = some side)
    (hold : ∀ a, p.attempt = some a → (pc t).attempt = some a ∨
      ∀ t', (pc t').side = some side → (pc t').attempt ≠ some a) :
    Admits capacity (Function.update cursor side c) since (Function.update pc t p) side L' where
  sound := hsound
  attempts := by rw [Function.update_self]; exact hattempts
  drawn := by rw [Function.update_self]; exact hdrawn
  lost := by rw [Function.update_self]; exact hlost
  fact := by
    intro t' hs
    rw [Function.update_self]
    by_cases ht : t' = t
    · subst ht
      rw [Function.update_self]
      exact hp
    · rw [Function.update_of_ne ht] at hs ⊢
      have hne : ∀ a, (pc t').attempt = some a → (pc t).attempt ≠ some a :=
        fun a ha hta => ht (h.distinct t' t a hs hside ha hta)
      exact (h.fact t' hs).mono hclaimed hmissed hbelow (fun a ha => hopen a (hne a ha))
        (fun a ha => hpending a (hne a ha))
  distinct := by
    intro t₁ t₂ a hs₁ hs₂ ha₁ ha₂
    by_cases h₁ : t₁ = t <;> by_cases h₂ : t₂ = t
    · rw [h₁, h₂]
    · subst h₁
      rw [Function.update_self] at hs₁ ha₁
      rw [Function.update_of_ne h₂] at hs₂ ha₂
      rcases hold a ha₁ with hsame | hfresh
      · exact h.distinct _ _ a hside hs₂ hsame ha₂
      · exact absurd ha₂ (hfresh t₂ hs₂)
    · subst h₂
      rw [Function.update_of_ne h₁] at hs₁ ha₁
      rw [Function.update_self] at hs₂ ha₂
      rcases hold a ha₂ with hsame | hfresh
      · exact h.distinct _ _ a hs₁ hside ha₁ hsame
      · exact absurd ha₁ (hfresh t₁ hs₁)
    · rw [Function.update_of_ne h₁] at hs₁ ha₁
      rw [Function.update_of_ne h₂] at hs₂ ha₂
      exact h.distinct t₁ t₂ a hs₁ hs₂ ha₁ ha₂

end Admits

/-! ### The overlap bound -/

/-- How many attempts of other calls the thread's call has overlapped so far: those
that were not over when it began and those begun since, its own aside. -/
def State.overlaps (s : State T α) (t : T) : ℕ :=
  ((s.cursor .read).ahead - s.since t .read) + ((s.cursor .write).ahead - s.since t .write) -
    (s.pc t).entered

/-- Each call overlaps fewer than `2^31` attempts of other calls. -/
def Bounded (s : State T α) : Prop := ∀ t, s.pc t ≠ .idle → s.overlaps t < 2 ^ 31

instance [Fintype T] [DecidableEq α] (s : State T α) : Decidable (Bounded s) :=
  inferInstanceAs (Decidable (∀ t, s.pc t ≠ .idle → s.overlaps t < 2 ^ 31))

theorem Bounded.ahead_le {s : State T α} (h : Bounded s) {t : T} (ht : s.pc t ≠ .idle) (side : Side) :
    (s.cursor side).ahead ≤ s.since t side + 2 ^ 31 := by
  have hlt := h t ht
  have hone : (s.pc t).entered ≤ 1 := by cases s.pc t <;> simp [Pc.entered]
  simp only [State.overlaps] at hlt
  cases side <;> omega

/-! ### The two sides together -/

/-- Each side follows some ledger. -/
def Admission (capacity : ℕ) (s : State T α) : Prop :=
  ∀ side, ∃ L, Admits capacity s.cursor s.since s.pc side L

namespace Admission
variable {capacity : ℕ} {s s' : State T α}

theorem read_le_write (h : Admission capacity s) :
    (s.cursor .read).claimed ≤ (s.cursor .write).claimed :=
  let ⟨_, hL⟩ := h .read
  hL.claimed_le

theorem write_le_read (h : Admission capacity s) :
    (s.cursor .write).claimed ≤ (s.cursor .read).claimed + capacity :=
  let ⟨_, hL⟩ := h .write
  hL.claimed_le

/-- The limit of a side is at most a capacity ahead of what it has claimed. -/
theorem limit_le (h : Admission capacity s) (side : Side) :
    limit capacity s.cursor side ≤ (s.cursor side).claimed + capacity := by
  have := h.read_le_write
  have := h.write_le_read
  cases side <;> simp only [limit] <;> omega

/-- The second test agrees with the ledger's. -/
theorem refused_iff (h : Admission capacity s) (hb : Bounded s) (hcap : capacity ≤ 2 ^ 63) {t : T}
    {op : Op α} {m a : ℕ} (hpc : s.pc t = .retest op m a) :
    refused (word capacity) op a m (s.cursor op.side.other).claimed = true ↔
      m + limit capacity s.cursor op.side ≤ a := by
  obtain ⟨L, hL⟩ := h op.side
  have hfact := hL.fact t (by rw [hpc]; rfl)
  rw [hpc] at hfact
  obtain ⟨hsince, hm, ha, hopen⟩ := hfact
  have hahead := hb.ahead_le (t := t) (by rw [hpc]; nofun) op.side
  have hover := hL.over_le
  have hclaimed := hL.claimed_le
  have hlimit := h.limit_le op.side
  have hlt := hopen.1
  have hlost : L.lostBelow a ≤ (s.cursor op.side).missed :=
    hL.lost ▸ Finset.card_le_card (Finset.filter_subset _ _)
  rw [hL.attempts] at hlt
  cases op with
  | dequeue =>
    simp only [Op.side, Side.other, limit] at *
    exact isEmpty_iff _ _ _ (by omega) (by omega)
  | enqueue x =>
    simp only [Op.side, Side.other, limit] at *
    exact isFull_iff _ _ _ _ (by omega) (by omega)

theorem start [DecidableEq T] : Admission (T := T) (α := α) capacity (queue (word capacity) T α).start := by
  intro side
  refine ⟨.empty, Ledger.sound_empty _, rfl, rfl, rfl, fun t ht => ?_, fun t t' a ht => ?_⟩ <;> cases ht

variable [DecidableEq T]

theorem call {t : T} {op : Op α} (h : Admission capacity s) (hs : call s t op = some s') :
    Admission capacity s' := by
  unfold FreeLock.call at hs
  split at hs
  case h_2 => cases hs
  case h_1 hpc =>
    cases hs
    intro side
    obtain ⟨L, hL⟩ := h side
    have hnone : (s.pc t).side = none := by rw [hpc]; rfl
    refine ⟨L, (hL.retime t hnone _).move t (.bound op) fun _ => ⟨?_, .inl rfl⟩⟩
    simp only [Fact, Function.update_self]
    exact Nat.le_refl _

/-- A step that only moves its own call. -/
theorem move (h : Admission capacity s) (t : T) (p : Pc α)
    (hp : ∀ side L, Admits capacity s.cursor s.since s.pc side L → p.side = some side →
      Fact L (s.cursor side) (s.since t side) p ∧
        (p.attempt = none ∨ p.attempt = (s.pc t).attempt ∧ (s.pc t).side = some side)) :
    Admission capacity (s.setPc t p) := by
  intro side
  obtain ⟨L, hL⟩ := h side
  exact ⟨L, hL.move t p (hp side L hL)⟩

/-- A call moves on with its attempt, knowing what it knew. -/
theorem carry (h : Admission capacity s) (t : T) {q : Pc α} (hpc : s.pc t = q) (p : Pc α)
    (hside : p.side = q.side) (hattempt : p.attempt = q.attempt)
    (hfact : ∀ (L : Ledger) c since, Fact L c since q → Fact L c since p) :
    Admission capacity (s.setPc t p) := by
  subst hpc
  exact h.move t p fun _ L hL hp =>
    ⟨hfact L _ _ (hL.fact t (hside ▸ hp)), .inr ⟨hattempt, hside ▸ hp⟩⟩

theorem drop (h : Admission capacity s) (t : T) (p : Pc α) (hside : p.side = none) :
    Admission capacity (s.setPc t p) :=
  h.move t p fun side L _ hp => by rw [hside] at hp; cases hp

theorem claim {t : T} {op : Op α} {m : ℕ} (h : Admission capacity s) (hpc : s.pc t = .claim op m) :
    Admission capacity ((s.setCursor op.side
      {s.cursor op.side with ahead := (s.cursor op.side).ahead + 1}).setPc t
        (.retest op m (s.cursor op.side).ahead)) := by
  intro side
  obtain ⟨L, hL⟩ := h side
  by_cases hop : op.side = side
  · subst hop
    obtain ⟨hsince, hm⟩ : Fact L _ _ (.claim op m : Pc α) := hpc ▸ hL.fact t (by rw [hpc]; rfl)
    have hover := hL.over_le
    refine ⟨L.attempt, hL.advance t _ ?_ ?_ hL.drawn hL.lost le_rfl le_rfl (fun _ => le_rfl) ?_ ?_ ?_
      (by rw [hpc]; rfl) ?_⟩
    · exact hL.sound.attempt.mono (limit_update_le _ _ _ _ _ le_rfl)
    · exact congrArg (· + 1) hL.attempts
    · refine ⟨hsince, ?_, by omega, ?_⟩
      · rw [← hL.attempts]
        exact (hm.trans hL.lost.ge).trans hL.sound.lostBelow_attempts.ge
      · rw [← hL.attempts]
        exact ⟨Nat.lt_succ_self _, fun ha => absurd (hL.sound.admitted_lt _ ha) (lt_irrefl _),
          fun ha => absurd (hL.sound.lost_lt _ ha) (lt_irrefl _)⟩
    · exact fun a _ ho => ⟨Nat.lt_succ_of_lt ho.1, ho.2⟩
    · exact fun a _ ha hd => ⟨ha, hd⟩
    · intro a ha
      refine .inr fun t' hs' ha' => ?_
      have hlt := hL.attempt_lt hs' ha'
      cases ha
      exact absurd hlt (lt_irrefl _)
  · exact ⟨L, (hL.raise hop {s.cursor op.side with ahead := (s.cursor op.side).ahead + 1}
      le_rfl).move_other t (.retest op m _) fun hp => hop (Option.some.inj hp)⟩

/-- The second test is passed: the attempt is admitted. -/
theorem pass {t : T} {op : Op α} {m a : ℕ} (h : Admission capacity s) (hpc : s.pc t = .retest op m a)
    (hlim : a < m + limit capacity s.cursor op.side) :
    Admission capacity (s.setPc t (.ticket op a)) := by
  intro side
  obtain ⟨L, hL⟩ := h side
  by_cases hop : op.side = side
  · subst hop
    obtain ⟨hsince, hm, _, ho⟩ : Fact L _ _ (.retest op m a : Pc α) :=
      hpc ▸ hL.fact t (by rw [hpc]; rfl)
    have hlost : L.lostBelow a ≤ (s.cursor op.side).missed :=
      hL.lost ▸ Finset.card_le_card (Finset.filter_subset _ _)
    have hmine : (s.pc t).attempt = some a := by rw [hpc]; rfl
    refine ⟨L.accept a, ?_⟩
    rw [show (s.setPc t (.ticket op a)).cursor = Function.update s.cursor op.side (s.cursor op.side) from
      (Function.update_eq_self _ _).symm]
    refine hL.advance t _ ?_ hL.attempts hL.drawn hL.lost le_rfl le_rfl (fun _ => le_rfl) ?_ ?_ ?_
      (by rw [hpc]; rfl) (fun b hb => .inl (hmine.trans hb))
    · rw [Function.update_eq_self]
      exact hL.sound.accept ho (by omega)
    · exact ⟨by omega, Finset.mem_insert_self _ _, fun hd => ho.2.1 (hL.sound.drawn_sub hd)⟩
    · intro b hb hopen
      refine ⟨hopen.1, fun hin => ?_, hopen.2.2⟩
      rcases Finset.mem_insert.mp hin with rfl | hin
      · exact hb hmine
      · exact hopen.2.1 hin
    · exact fun b _ hb hd => ⟨Finset.mem_insert_of_mem hb, hd⟩
  · exact ⟨L, hL.move_other t _ fun hp => hop (Option.some.inj hp)⟩

/-- A miss is counted. -/
theorem lose {t : T} {op : Op α} {a : ℕ} (h : Admission capacity s) (hpc : s.pc t = .miss op a) :
    Admission capacity ((s.setCursor op.side
      {s.cursor op.side with missed := (s.cursor op.side).missed + 1}).setPc t .idle) := by
  intro side
  obtain ⟨L, hL⟩ := h side
  by_cases hop : op.side = side
  · subst hop
    have ho : L.Open a := by simpa [hpc, Fact] using hL.fact t (by rw [hpc]; rfl)
    have hmine : (s.pc t).attempt = some a := by rw [hpc]; rfl
    refine ⟨L.lose a, hL.advance t _ ?_ hL.attempts hL.drawn ?_ le_rfl (Nat.le_succ _)
      (L.lostBelow_lose_le a) trivial ?_ ?_ (by rw [hpc]; rfl) (fun b hb => by cases hb)⟩
    · exact (hL.sound.lose ho).mono (limit_update_le _ _ _ _ _ le_rfl)
    · simp only [Ledger.lose, Finset.card_insert_of_notMem ho.2.2, hL.lost]
    · intro b hb hopen
      refine ⟨hopen.1, hopen.2.1, fun hin => ?_⟩
      rcases Finset.mem_insert.mp hin with rfl | hin
      · exact hb hmine
      · exact hopen.2.2 hin
    · exact fun b _ hb hd => ⟨hb, hd⟩
  · exact ⟨L, (hL.raise hop {s.cursor op.side with missed := (s.cursor op.side).missed + 1}
      le_rfl).move_other t .idle nofun⟩

/-- A ticket is drawn. -/
theorem draw {t : T} {op : Op α} {a : ℕ} (h : Admission capacity s) (hpc : s.pc t = .ticket op a) :
    Admission capacity (((s.setCursor op.side
      {s.cursor op.side with claimed := (s.cursor op.side).claimed + 1}).drawn op
        (s.cursor op.side).claimed).setPc t (.spin op (s.cursor op.side).claimed spinCycle 0)) := by
  intro side
  obtain ⟨L, hL⟩ := h side
  by_cases hop : op.side = side
  · subst hop
    obtain ⟨hsince, ha, hd⟩ : Fact L _ _ (.ticket op a : Pc α) := hpc ▸ hL.fact t (by rw [hpc]; rfl)
    have hmine : (s.pc t).attempt = some a := by rw [hpc]; rfl
    refine ⟨L.draw a, hL.advance t _ ?_ hL.attempts ?_ hL.lost (Nat.le_succ _) le_rfl
      (fun _ => le_rfl) hsince (fun b _ ho => ho) ?_ (by rw [hpc]; rfl) (fun b hb => by cases hb)⟩
    · exact (hL.sound.draw ha).mono (limit_update_le _ _ _ _ _ (Nat.le_succ _))
    · simp only [Ledger.draw, Finset.card_insert_of_notMem hd, hL.drawn]
    · intro b hb hin hnd
      refine ⟨hin, fun hdrawn => ?_⟩
      rcases Finset.mem_insert.mp hdrawn with rfl | hdrawn
      · exact hb hmine
      · exact hnd hdrawn
  · exact ⟨L, (hL.raise hop {s.cursor op.side with claimed := (s.cursor op.side).claimed + 1}
      (Nat.le_succ _)).move_other t (.spin op _ spinCycle 0) fun hp => hop (Option.some.inj hp)⟩

theorem wake (h : Admission capacity s) (i : BitVec 64) : Admission capacity (futexWake s i) := by
  unfold futexWake
  split
  · exact h
  · next x rest _ =>
    show Admission capacity (s.setPc x (s.pc x).woken)
    exact h.carry x rfl _ (woken_side _) (woken_attempt _) (fun L c since hf => woken_fact hf)

/-- Every access keeps the admission, as long as calls overlap boundedly. -/
theorem advance {t : T} (h : Admission capacity s) (hb : Bounded s) (hcap : capacity ≤ 2 ^ 63)
    (hs : advance (word capacity) s t = some s') : Admission capacity s' := by
  cases hpc : s.pc t with
  | idle | asleep op n cur | failed n => simp [FreeLock.advance, hpc] at hs
  | bound op =>
    simp only [FreeLock.advance, hpc, Option.some.injEq] at hs
    subst hs
    exact h.carry t hpc _ rfl rfl (fun L c since hf => hf)
  | missed op b =>
    simp only [FreeLock.advance, hpc, Option.some.injEq] at hs
    subst hs
    refine h.move t _ fun side L hL hp => ⟨?_, .inl rfl⟩
    cases hp
    exact ⟨by simpa only [hpc, Fact] using hL.fact t (by rw [hpc]; rfl), le_rfl⟩
  | ahead op b m =>
    simp only [FreeLock.advance, hpc] at hs
    split at hs <;> cases hs
    · exact h.drop t _ rfl
    · exact h.carry t hpc _ rfl rfl (fun L c since hf => hf)
  | claim op m =>
    simp only [FreeLock.advance, hpc, Option.some.injEq] at hs
    subst hs
    exact h.claim hpc
  | retest op m a =>
    simp only [FreeLock.advance, hpc, h.refused_iff hb hcap hpc] at hs
    split at hs <;> cases hs
    · exact h.carry t hpc _ rfl rfl (fun L c since hf => hf.2.2.2)
    · exact h.pass hpc (by omega)
  | miss op a =>
    simp only [FreeLock.advance, hpc, Option.some.injEq] at hs
    subst hs
    exact h.lose hpc
  | ticket op a =>
    simp only [FreeLock.advance, hpc, Option.some.injEq] at hs
    subst hs
    exact h.draw hpc
  | spin op n i cur =>
    cases i with
    | zero =>
      simp only [FreeLock.advance, hpc, futexWait, Option.some.injEq] at hs
      subst hs
      split <;> exact h.carry t hpc _ rfl rfl (fun L c since hf => hf)
    | succ i =>
      simp only [FreeLock.advance, hpc] at hs
      split at hs <;> cases hs
      · exact h.carry t hpc _ (begin_side op n) (begin_attempt op n) (fun L c since hf => begin_fact hf)
      · exact h.carry t hpc _ rfl rfl (fun L c since hf => hf)
  | take n =>
    simp only [FreeLock.advance, hpc] at hs
    split at hs <;> cases hs
    · exact h.drop t _ rfl
    · exact h.carry t hpc _ rfl rfl (fun L c since hf => hf)
  | clear n x | put n x =>
    simp only [FreeLock.advance, hpc, Option.some.injEq] at hs
    subst hs
    exact h.carry t hpc _ rfl rfl (fun L c since hf => hf)
  | store side n x =>
    simp only [FreeLock.advance, hpc, Option.some.injEq] at hs
    subst hs
    exact h.drop t _ rfl
  | wake side n x =>
    simp only [FreeLock.advance, hpc, Option.some.injEq] at hs
    subst hs
    exact (h.wake (slot (word capacity) n)).drop t .idle rfl

end Admission
end QuietFlow.FreeLock
