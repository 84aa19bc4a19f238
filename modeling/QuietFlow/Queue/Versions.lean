import QuietFlow.Queue.Handover

/-! Which tickets are ever completed.

The reader's spin loop keeps the slot version in an `int`. A version from `2^31` up
to `2^64 - 2^31` does not survive that, so a `try_dequeue` that drew such a ticket
never gets out of its loop, whatever the other threads do (`stuck_run`), while every
other ticket is completed once its version is there (`completes_iff`). The tests of
the wrap-around start the counters near `2^64` and stay on the good side;
`completes_fails` runs the queue from its start for `2^31` items. -/
namespace QuietFlow.FreeLock
open Runs

/-- How many steps are left to a call whose version is there. -/
def Op.rest {α : Type} : Op α → ℕ
  | .dequeue => 5
  | .enqueue _ => 4

variable {T α : Type} [DecidableEq T]

section Completes
variable (capacity : BitVec 64)

/-- The call of `t`, which holds ticket `n` and is about to load the version, finds its
own version there and goes on to its end: a dequeue returns the item in the slot. -/
def Completes (s : State T α) (t : T) (op : Op α) (n : ℕ) : Prop :=
  versionReady capacity op.side n (s.flagVec (slot capacity n)) = true ∧
    ∃ s', (queue capacity T α).run s (List.replicate op.rest (.step t)) = some s' ∧
      s'.pc t = .idle ∧
      match op with
      | .dequeue => ∃ x, s.vec (slot capacity n) = some x ∧ s'.returned = s.returned ++ [(n, x)]
      | .enqueue x => s'.vec (slot capacity n) = some x

end Completes

/-! ### A call that is let through -/

section Solo
variable {capacity : BitVec 64} {s s' : State T α} {t : T} {n i : ℕ} {cur : BitVec 32} {x : α}

theorem run_step (h : advance capacity s t = some s') (m : ℕ) :
    (queue capacity T α).run s (List.replicate (m + 1) (.step t)) =
      (queue capacity T α).run s' (List.replicate m (.step t)) :=
  System.run_cons (show (queue capacity T α).step s (.step t) = some s' from h) _

/-- A dequeue that finds its version takes the item and frees the slot. -/
theorem dequeue_runs (hpc : s.pc t = .spin .dequeue n (i + 1) cur)
    (hready : versionReady capacity .read n (s.flagVec (slot capacity n)) = true)
    (hvec : s.vec (slot capacity n) = some x) :
    ∃ s', (queue capacity T α).run s (List.replicate 5 (.step t)) = some s' ∧ s'.pc t = .idle ∧
      s'.returned = s.returned ++ [(n, x)] ∧ s'.cursor = s.cursor ∧
      s'.flagVec = Function.update s.flagVec (slot capacity n) (storedVersion .read n) := by
  have hload : advance capacity s t = some (s.setPc t (.take n)) := by
    simp [advance, hpc, hready, Op.side, Op.begin]
  generalize h₁ : s.setPc t (.take n) = s₁ at hload
  have htake : advance capacity s₁ t = some (s₁.setPc t (.clear n x)) := by
    simp [advance, ← h₁, State.setPc, hvec]
  generalize h₂ : s₁.setPc t (.clear n x) = s₂ at htake
  have hclear : advance capacity s₂ t = some {(s₂.setVec (slot capacity n) none).setPc t
      (.store .read n x) with cleared := s₂.cleared ++ [n]} := by
    simp [advance, ← h₂, State.setPc]
  generalize h₃ : {(s₂.setVec (slot capacity n) none).setPc t (.store .read n x) with
    cleared := s₂.cleared ++ [n]} = s₃ at hclear
  have hstore : advance capacity s₃ t = some {s₃.setPc t (.wake .read n x) with
      flagVec := Function.update s₃.flagVec (slot capacity n) (storedVersion .read n)} := by
    simp [advance, ← h₃, State.setPc]
  generalize h₄ : {s₃.setPc t (.wake .read n x) with
    flagVec := Function.update s₃.flagVec (slot capacity n) (storedVersion .read n)} = s₄ at hstore
  have hwake : advance capacity s₄ t = some {(futexWake s₄ (slot capacity n)).setPc t .idle with
      returned := s₄.returned ++ [(n, x)]} := by
    simp [advance, ← h₄, State.setPc]
  generalize h₅ : {(futexWake s₄ (slot capacity n)).setPc t .idle with
    returned := s₄.returned ++ [(n, x)]} = s₅ at hwake
  refine ⟨s₅, ?_, ?_⟩
  · rw [run_step hload, run_step htake, run_step hclear, run_step hstore, run_step hwake]
    rfl
  · simp [← h₅, ← h₄, ← h₃, ← h₂, ← h₁, State.setPc, State.setVec]

/-- An enqueue that finds its version fills the slot. -/
theorem enqueue_runs (hpc : s.pc t = .spin (.enqueue x) n (i + 1) cur)
    (hready : versionReady capacity .write n (s.flagVec (slot capacity n)) = true) :
    ∃ s', (queue capacity T α).run s (List.replicate 4 (.step t)) = some s' ∧ s'.pc t = .idle ∧
      s'.vec (slot capacity n) = some x ∧ s'.returned = s.returned ∧ s'.cursor = s.cursor ∧
      s'.flagVec = Function.update s.flagVec (slot capacity n) (storedVersion .write n) := by
  have hload : advance capacity s t = some (s.setPc t (.put n x)) := by
    simp [advance, hpc, hready, Op.side, Op.begin]
  generalize h₁ : s.setPc t (.put n x) = s₁ at hload
  have hput : advance capacity s₁ t = some {(s₁.setVec (slot capacity n) (some x)).setPc t
      (.store .write n x) with stored := s₁.stored ++ [(n, x)]} := by
    simp [advance, ← h₁, State.setPc]
  generalize h₂ : {(s₁.setVec (slot capacity n) (some x)).setPc t (.store .write n x) with
    stored := s₁.stored ++ [(n, x)]} = s₂ at hput
  have hstore : advance capacity s₂ t = some {s₂.setPc t (.wake .write n x) with
      flagVec := Function.update s₂.flagVec (slot capacity n) (storedVersion .write n)} := by
    simp [advance, ← h₂, State.setPc]
  generalize h₃ : {s₂.setPc t (.wake .write n x) with
    flagVec := Function.update s₂.flagVec (slot capacity n) (storedVersion .write n)} = s₃ at hstore
  have hwake : advance capacity s₃ t = some ((futexWake s₃ (slot capacity n)).setPc t .idle) := by
    simp [advance, ← h₃, State.setPc]
  generalize h₄ : (futexWake s₃ (slot capacity n)).setPc t .idle = s₄ at hwake
  refine ⟨s₄, ?_, ?_⟩
  · rw [run_step hload, run_step hput, run_step hstore, run_step hwake]
    rfl
  · simp [← h₄, ← h₃, ← h₂, ← h₁, State.setPc, State.setVec]

/-- A call alone loads the counters for its first test. -/
theorem load_runs (capacity : BitVec 64) (op : Op α) (hpc : s.pc t = .idle) :
    ∃ s', (queue capacity T α).run s (.call t op :: List.replicate 2 (.step t)) = some s' ∧
      s'.pc t = .ahead op (s.cursor op.side.other).claimed (s.cursor op.side).missed ∧
      s'.cursor = s.cursor ∧ s'.flagVec = s.flagVec ∧ s'.vec = s.vec ∧ s'.returned = s.returned := by
  generalize h₀ : {s.setPc t (.bound op) with since := Function.update s.since t fun side =>
    (s.cursor side).claimed + (s.cursor side).missed} = s₀
  have hcall : (queue capacity T α).step s (.call t op) = some s₀ := by
    simp [queue, call, hpc, ← h₀]
  generalize h₁ : s₀.setPc t (.missed op (s.cursor op.side.other).claimed) = s₁
  have hbound : advance capacity s₀ t = some s₁ := by
    simp [advance, ← h₁, ← h₀, State.setPc]
  generalize h₂ : s₁.setPc t (.ahead op (s.cursor op.side.other).claimed (s.cursor op.side).missed) = s₂
  have hmissed : advance capacity s₁ t = some s₂ := by
    simp [advance, ← h₂, ← h₁, ← h₀, State.setPc]
  refine ⟨s₂, ?_, ?_⟩
  · rw [System.run_cons hcall, run_step hbound, run_step hmissed]
    rfl
  · simp [← h₂, ← h₁, ← h₀, State.setPc]

/-- Alone, the second test sees what the first has seen. -/
theorem test_runs (capacity : BitVec 64) (op : Op α)
    (hpc : s.pc t = .ahead op (s.cursor op.side.other).claimed (s.cursor op.side).missed)
    (hpass : refused capacity op (s.cursor op.side).ahead (s.cursor op.side).missed
      (s.cursor op.side.other).claimed = false) :
    ∃ s', (queue capacity T α).run s (List.replicate 3 (.step t)) = some s' ∧
      s'.pc t = .ticket op (s.cursor op.side).ahead ∧
      s'.cursor = Function.update s.cursor op.side
        {s.cursor op.side with ahead := (s.cursor op.side).ahead + 1} ∧
      s'.flagVec = s.flagVec ∧ s'.vec = s.vec ∧ s'.returned = s.returned := by
  have hother : op.side.other ≠ op.side := by cases op <;> nofun
  generalize hc : s.cursor op.side = c at hpass hpc ⊢
  generalize hb : (s.cursor op.side.other).claimed = b at hpass hpc
  generalize h₁ : s.setPc t (.claim op c.missed) = s₁
  have hahead : advance capacity s t = some s₁ := by
    simp [advance, ← h₁, hpc, hc, hpass]
  generalize h₂ : (s₁.setCursor op.side {c with ahead := c.ahead + 1}).setPc t
    (.retest op c.missed c.ahead) = s₂
  have hclaim : advance capacity s₁ t = some s₂ := by
    simp [advance, ← h₂, ← h₁, State.setPc, State.setCursor, hc]
  generalize h₃ : s₂.setPc t (.ticket op c.ahead) = s₃
  have hretest : advance capacity s₂ t = some s₃ := by
    simp [advance, ← h₃, ← h₂, ← h₁, State.setPc, State.setCursor, hother, hb, hpass]
  refine ⟨s₃, ?_, ?_⟩
  · rw [run_step hahead, run_step hclaim, run_step hretest]
    rfl
  · simp [← h₃, ← h₂, ← h₁, State.setPc, State.setCursor]

/-- A call alone that passes the test draws the next ticket of its side. -/
theorem call_runs (capacity : BitVec 64) (op : Op α) (hpc : s.pc t = .idle)
    (hpass : refused capacity op (s.cursor op.side).ahead (s.cursor op.side).missed
      (s.cursor op.side.other).claimed = false) :
    ∃ s', (queue capacity T α).run s (.call t op :: List.replicate 6 (.step t)) = some s' ∧
      s'.pc t = .spin op (s.cursor op.side).claimed spinCycle 0 ∧
      s'.cursor = Function.update s.cursor op.side ⟨(s.cursor op.side).claimed + 1,
        (s.cursor op.side).missed, (s.cursor op.side).ahead + 1⟩ ∧
      s'.flagVec = s.flagVec ∧ s'.vec = s.vec ∧ s'.returned = s.returned := by
  obtain ⟨s₁, hload, hpc₁, hcur₁, hflag₁, hvec₁, hret₁⟩ := load_runs capacity op hpc
  obtain ⟨s₂, htest, hpc₂, hcur₂, hflag₂, hvec₂, hret₂⟩ :=
    test_runs (s := s₁) capacity op (by rw [hcur₁]; exact hpc₁) (by rw [hcur₁]; exact hpass)
  rw [hcur₁] at hpc₂ hcur₂
  generalize hc : s.cursor op.side = c at hpc₂ hcur₂ ⊢
  generalize h₃ : ((s₂.setCursor op.side ⟨c.claimed + 1, c.missed, c.ahead + 1⟩).drawn op
    c.claimed).setPc t (.spin op c.claimed spinCycle 0) = s₃
  have hticket : advance capacity s₂ t = some s₃ := by
    simp [advance, hpc₂, hcur₂, ← h₃]
  refine ⟨s₃, ?_, ?_⟩
  · rw [show 6 = 2 + (3 + 1) from rfl, List.replicate_add, List.replicate_add, ← List.cons_append,
      System.run_append, hload, Option.bind_some, System.run_append, htest, Option.bind_some,
      run_step hticket]
    rfl
  · simp [← h₃, State.setPc, State.setCursor, State.drawn, hcur₂, hflag₂, hvec₂, hret₂, hflag₁, hvec₁, hret₁]

end Solo

/-! ### Which calls are let through -/

section Complete
variable {capacity : BitVec 64} {s s' : State T α} {t : T} {n i : ℕ} {cur : BitVec 32} {op : Op α}

theorem Completes.ready (h : Completes capacity s t op n)
    (hversion : s.flagVec (slot capacity n) = targetVersion capacity op.side n) :
    op.side = .read → Fits n := by
  have hready := h.1
  rwa [hversion, versionReady_target_iff] at hready

theorem completes_of_fits (hpc : s.pc t = .spin op n (i + 1) cur)
    (hversion : s.flagVec (slot capacity n) = targetVersion capacity op.side n)
    (hfits : op.side = .read → Fits n ∧ s.vec (slot capacity n) ≠ none) :
    Completes capacity s t op n := by
  have hready : versionReady capacity op.side n (s.flagVec (slot capacity n)) = true := by
    rw [hversion, versionReady_target_iff]
    exact fun h => (hfits h).1
  cases op with
  | dequeue =>
    obtain ⟨x, hx⟩ := Option.ne_none_iff_exists'.mp (hfits rfl).2
    obtain ⟨s', hrun, hidle, hret, -⟩ := dequeue_runs hpc hready hx
    exact ⟨hready, s', hrun, hidle, x, hx, hret⟩
  | enqueue x =>
    obtain ⟨s', hrun, hidle, hx, -⟩ := enqueue_runs hpc hready
    exact ⟨hready, s', hrun, hidle, hx⟩

/-- With bounded overlap, the slot of a reader whose version is there has the item. -/
theorem slot_full {k : ℕ} (hk : 1 ≤ k) (hk' : k ≤ 63)
    (hs : (queue (word (2 ^ k)) T α).ReachedBy (fun _ _ s' => Bounded s') s)
    (hpc : s.pc t = .spin .dequeue n i cur) (hfits : Fits n)
    (hversion : s.flagVec (slot (word (2 ^ k)) n) = word n) :
    s.vec (slot (word (2 ^ k)) n) ≠ none := by
  obtain ⟨hb, hadm, ⟨r, hturn, hcont⟩, -⟩ := bounded_invariant hk hk' hs
  have hheld : (s.pc t).holds = some (.read, n) := by rw [hpc]; rfl
  have hready : versionReady (word (2 ^ k)) .read n (s.flagVec (slot (word (2 ^ k)) n)) = true := by
    rw [hversion, versionReady_read_iff]
    exact ⟨rfl, hfits⟩
  have hat := hturn.at_of_ready hk hk' hheld (hturn.turn_near hadm hb (Nat.two_pow_pos k) hheld) hready
  obtain ⟨x, hx, -⟩ := hcont.loaded hturn hk' hat hheld (by rw [hpc]; nofun)
  rw [hx]
  nofun

/-- **A ticket whose version is in its slot is completed exactly when it fits** (for a
dequeue; an enqueue always is), provided the slot has an item; with bounded overlap
it has. -/
theorem completes_iff (hpc : s.pc t = .spin op n (i + 1) cur)
    (hversion : s.flagVec (slot capacity n) = targetVersion capacity op.side n) :
    (Completes capacity s t op n ↔ (op.side = .read → Fits n ∧ s.vec (slot capacity n) ≠ none)) ∧
    ∀ k, 1 ≤ k → k ≤ 63 → capacity = word (2 ^ k) →
      (queue capacity T α).ReachedBy (fun _ _ s' => Bounded s') s →
      (Completes capacity s t op n ↔ (op.side = .read → Fits n)) := by
  constructor
  · refine ⟨fun h hop => ⟨h.ready hversion hop, ?_⟩, completes_of_fits hpc hversion⟩
    cases op with
    | dequeue =>
      obtain ⟨_, _, _, _, x, hx, _⟩ := h
      rw [hx]
      nofun
    | enqueue x => cases hop
  · rintro k hk hk' rfl hs
    refine ⟨fun h => h.ready hversion, fun h => completes_of_fits hpc hversion fun hop => ⟨h hop, ?_⟩⟩
    cases op with
    | dequeue => exact slot_full hk hk' hs hpc (h rfl) hversion
    | enqueue x => cases hop

/-- The dequeue of ticket `n` is in its spin loop. -/
def Waiting (s : State T α) (t : T) (n : ℕ) : Prop :=
  ∃ i cur, s.pc t = .spin .dequeue n i cur ∨ s.pc t = .asleep .dequeue n cur

/-- **A reader whose ticket does not fit never leaves its loop**, whatever the versions
and whatever the others do. -/
theorem stuck_step {a : Action T α} (hn : ¬ Fits n) (hw : Waiting s t n)
    (hs : (queue capacity T α).step s a = some s') : Waiting s' t n := by
  obtain ⟨i, cur, hpc⟩ := hw
  cases a with
  | call t' op =>
    simp only [queue, call] at hs
    split at hs <;> cases hs
    next hidle =>
    have hne : t ≠ t' := by
      rintro rfl
      simp [hidle] at hpc
    exact ⟨i, cur, by simpa [State.setPc, Function.update_of_ne hne] using hpc⟩
  | step t' =>
    simp only [queue] at hs
    by_cases hne : t = t'
    · subst hne
      rcases hpc with hpc | hpc
      · cases i with
        | zero =>
          simp only [advance, hpc, futexWait, Option.some.injEq] at hs
          subst hs
          split
          · exact ⟨0, cur, .inr (Function.update_self ..)⟩
          · exact ⟨spinCycle, cur, .inl (Function.update_self ..)⟩
        | succ i =>
          have hnot : versionReady capacity .read n (s.flagVec (slot capacity n)) = false := by
            rw [← Bool.not_eq_true, versionReady_read_iff]
            exact fun h => hn h.2
          simp only [advance, hpc, Op.side, hnot, Bool.false_eq_true, if_false,
            Option.some.injEq] at hs
          subst hs
          exact ⟨i, _, .inl (Function.update_self ..)⟩
      · simp [advance, hpc] at hs
    · rcases advance_pc_of_ne hne hs with hsame | hwoken
      · exact ⟨i, cur, by rwa [hsame]⟩
      · rcases hpc with hpc | hpc
        · exact ⟨i, cur, .inl (by rw [hwoken, hpc]; rfl)⟩
        · exact ⟨spinCycle, cur, .inl (by rw [hwoken, hpc]; rfl)⟩

theorem stuck_run (hn : ¬ Fits n) (hw : Waiting s t n) (as : List (Action T α))
    (hs : (queue capacity T α).run s as = some s') : Waiting s' t n := by
  induction as generalizing s with
  | nil => cases hs; exact hw
  | cons a rest ih =>
    simp only [System.runBy, if_true, Option.bind_eq_some_iff] at hs
    obtain ⟨m, hstep, hs⟩ := hs
    exact ih (stuck_step hn hw hstep) hs

end Complete

/-! ### The first ticket that is not -/

section Unfit
variable {k m : ℕ} {s : State Unit α}

/-- After `m` items have passed through, one at a time. -/
structure AtRest (c m : ℕ) (s : State Unit α) : Prop where
  idle : s.pc () = .idle
  cursor : ∀ side, s.cursor side = ⟨m, 0, m⟩
  version : ∀ j, j < c → s.flagVec (slot (word c) (m + j)) = targetVersion (word c) .write (m + j)

theorem atRest_start (hk : k ≤ 63) : AtRest (2 ^ k) 0 (queue (word (2 ^ k)) Unit α).start where
  idle := rfl
  cursor := fun _ => rfl
  version := by
    intro j hj
    rw [slot_eq hk, Nat.zero_add, Nat.mod_eq_of_lt hj]
    rfl

/-- One item is enqueued, and a dequeue draws its ticket. -/
theorem AtRest.meets (h : AtRest (2 ^ k) m s) (hk : k ≤ 63) (x : α) :
    ∃ s', (queue (word (2 ^ k)) Unit α).run s (.call () (.enqueue x) :: List.replicate 10 (.step ()) ++
        .call () .dequeue :: List.replicate 6 (.step ())) = some s' ∧
      s'.pc () = .spin .dequeue m spinCycle 0 ∧ (∀ side, s'.cursor side = ⟨m + 1, 0, m + 1⟩) ∧
      s'.vec (slot (word (2 ^ k)) m) = some x ∧
      s'.flagVec = Function.update s.flagVec (slot (word (2 ^ k)) m) (word m) := by
  have hle : 2 ^ k ≤ 2 ^ 63 := Nat.pow_le_pow_right (by decide) hk
  have hpos : 0 < 2 ^ k := Nat.two_pow_pos k
  have hroom : refused (word (2 ^ k)) (.enqueue x) m 0 m = false := by
    rw [refused, ← Bool.not_eq_true, isFull_iff (2 ^ k) m 0 m (by omega) (by omega)]
    omega
  have hitem : refused (word (2 ^ k)) (.dequeue : Op α) m 0 (m + 1) = false := by
    rw [refused, ← Bool.not_eq_true, isEmpty_iff m 0 (m + 1) (by omega) (by omega)]
    omega
  -- the enqueue draws ticket m
  obtain ⟨s₁, hrun₁, hpc₁, hcur₁, hflag₁, -⟩ := call_runs (word (2 ^ k))
    (.enqueue x) h.idle (by simpa only [h.cursor] using hroom)
  simp only [h.cursor, Op.side] at hpc₁ hcur₁
  -- and fills the slot
  obtain ⟨s₂, hrun₂, hpc₂, hvec₂, -, hcur₂, hflag₂⟩ := enqueue_runs hpc₁
    ((versionReady_write_iff _ _ _).mpr (hflag₁ ▸ h.version 0 hpos))
  have hread₂ : s₂.cursor .read = ⟨m, 0, m⟩ := by
    rw [hcur₂, hcur₁, Function.update_of_ne (by decide), h.cursor]
  have hwrite₂ : s₂.cursor .write = ⟨m + 1, 0, m + 1⟩ := by rw [hcur₂, hcur₁, Function.update_self]
  -- the dequeue draws ticket m too
  obtain ⟨s₃, hrun₃, hpc₃, hcur₃, hflag₃, hvec₃, -⟩ := call_runs (word (2 ^ k))
    .dequeue hpc₂ (by simpa only [Op.side, Side.other, hread₂, hwrite₂] using hitem)
  simp only [Op.side, hread₂] at hpc₃ hcur₃
  refine ⟨s₃, ?_, hpc₃, ?_, by rw [hvec₃, hvec₂], by rw [hflag₃, hflag₂, hflag₁]; rfl⟩
  · rw [show 10 = 6 + 4 from rfl, List.replicate_add, ← List.cons_append, System.run_append,
      System.run_append, hrun₁, Option.bind_some, hrun₂, Option.bind_some, hrun₃]
  · rintro (_ | _)
    · rw [hcur₃, Function.update_self]
    · rw [hcur₃, Function.update_of_ne (by decide), hwrite₂]

/-- One item passes through. -/
theorem AtRest.round (h : AtRest (2 ^ k) m s) (hk : k ≤ 63) (hm : Fits m) (x : α) :
    ∃ s', (queue (word (2 ^ k)) Unit α).run s (roundTrip x) = some s' ∧ AtRest (2 ^ k) (m + 1) s' := by
  obtain ⟨s₁, hrun₁, hpc₁, hcur₁, hvec₁, hflag₁⟩ := h.meets hk x
  have hready : versionReady (word (2 ^ k)) .read m (s₁.flagVec (slot (word (2 ^ k)) m)) = true := by
    rw [hflag₁, Function.update_self, versionReady_read_iff]
    exact ⟨rfl, hm⟩
  obtain ⟨s₂, hrun₂, hpc₂, -, hcur₂, hflag₂⟩ := dequeue_runs hpc₁ hready hvec₁
  refine ⟨s₂, ?_, hpc₂, fun side => by rw [hcur₂, hcur₁], fun j hj => ?_⟩
  · rw [roundTrip, show 11 = 6 + 5 from rfl, List.replicate_add, ← List.cons_append,
      ← List.append_assoc, System.run_append, hrun₁, Option.bind_some, hrun₂]
  · have hpos : 0 < 2 ^ k := Nat.two_pow_pos k
    rw [hflag₂, hflag₁]
    by_cases hlast : j + 1 = 2 ^ k
    · -- the slot just freed
      have hslot : slot (word (2 ^ k)) (m + 1 + j) = slot (word (2 ^ k)) m := by
        rw [slot_inj hk, show m + 1 + j = m + 2 ^ k by omega, Nat.add_mod_right]
      rw [hslot, Function.update_self, show m + 1 + j = m + 2 ^ k by omega]
      simp only [targetVersion, storedVersion, capacityBitmap, word_add]
      bv_omega
    · have hslot : slot (word (2 ^ k)) (m + 1 + j) ≠ slot (word (2 ^ k)) m := by
        rw [Ne, slot_inj hk]
        intro heq
        have hdvd := Nat.dvd_of_mod_eq_zero (Nat.sub_mod_eq_zero_of_mod_eq heq)
        have := Nat.le_of_dvd (by omega) hdvd
        omega
      rw [Function.update_of_ne hslot, Function.update_of_ne hslot,
        show m + 1 + j = m + (j + 1) by omega]
      exact h.version (j + 1) (by omega)

theorem atRest_rounds (hk : k ≤ 63) (x : α) : ∀ m ≤ 2 ^ 31, ∃ s : State Unit α,
    (queue (word (2 ^ k)) Unit α).Reached s ∧ AtRest (2 ^ k) m s := by
  intro m
  induction m with
  | zero => exact fun _ => ⟨_, .start, atRest_start hk⟩
  | succ m ih =>
    intro hm
    obtain ⟨s, hs, hrest⟩ := ih (by omega)
    have hfits : Fits m := .inl (by omega)
    obtain ⟨s', hrun, hrest'⟩ := hrest.round hk hfits x
    exact ⟨s', hs.run _ hrun, hrest'⟩

/-- The first dequeue of all, by contrast, completes. -/
theorem completes_iff_first : ∃ s : State Unit ℕ, (queue (word (2 ^ 1)) Unit ℕ).Reached s ∧
    (Completes (word (2 ^ 1)) s () .dequeue 0 ↔
      (Side.read = .read → Fits 0 ∧ s.vec (slot (word (2 ^ 1)) 0) ≠ none)) ∧
    Completes (word (2 ^ 1)) s () .dequeue 0 := by
  obtain ⟨s, hrun, hpc, -, hvec, hflag⟩ := AtRest.meets (k := 1) (atRest_start (by decide)) (by decide) 7
  have hversion : s.flagVec (slot (word (2 ^ 1)) 0) = word 0 := by rw [hflag, Function.update_self]
  have hiff := (completes_iff hpc hversion).1
  exact ⟨s, System.ReachedBy.start.run _ hrun, hiff,
    hiff.mpr fun _ => ⟨by decide, by rw [hvec]; nofun⟩⟩

/-- **The queue gets stuck** at read ticket `2^31`: with two slots and `2^31` items passed
along one at a time, the version is the ticket, and the dequeue does not see it. -/
theorem completes_fails : ∃ s : State Unit ℕ,
    (queue (word (2 ^ 1)) Unit ℕ).Reached s ∧ s.pc () = .spin .dequeue (2 ^ 31) spinCycle 0 ∧
      s.flagVec (slot (word (2 ^ 1)) (2 ^ 31)) = word (2 ^ 31) ∧
      s.vec (slot (word (2 ^ 1)) (2 ^ 31)) = some 7 ∧
      ¬ Completes (word (2 ^ 1)) s () .dequeue (2 ^ 31) := by
  obtain ⟨s, hs, hrest⟩ := atRest_rounds (k := 1) (by decide) 0 (2 ^ 31) (by decide)
  obtain ⟨s', hrun, hpc, -, hvec, hflag⟩ := hrest.meets (by decide) 7
  have hversion : s'.flagVec (slot (word (2 ^ 1)) (2 ^ 31)) = word (2 ^ 31) := by
    rw [hflag, Function.update_self]
  refine ⟨s', hs.run _ hrun, hpc, hversion, hvec, fun h => ?_⟩
  exact absurd (h.ready hversion rfl) (by decide)

end Unfit
end QuietFlow.FreeLock
