import QuietFlow.Schedule.Statuses

/-! A task changes hands.

`Kept` says that every task fits the threads. A thread works on the task it holds, or destroys
one; it takes a queued task, leaves it when it is over or suspended, and goes on with a suspended
one; and it begins to destroy a task and ends that. -/
namespace QuietFlow.RunTask
open Runs

variable {T : Type}

structure Kept (s : State T) : Prop where
  fits : ∀ n, Fits s.pc n (s.nodes n)
  fresh : ∀ n, s.made ≤ n → (s.nodes n).place = .unmade ∧ (s.nodes n).keeper = .raw
  /-- A saved context keeps its `BackNode`. -/
  saved : ∀ a b, (s.nodes a).place = .saved b →
    (s.nodes b).keeper = .saved ∧ (s.nodes b).backTask = some a
  safe : ∀ t, s.pc t ≠ .failed

namespace Kept
variable [DecidableEq T] {s s' : State T} {t : T} {n m : ℕ} {p : Pc} {x : Node T}

theorem start (worker : T → Bool) : Kept (threads worker).start where
  fits n := by
    have hpc : ∀ t, (threads worker).start.pc t = .dequeue ∨ (threads worker).start.pc t = .outside := by
      intro t
      show (if _ then _ else _) = _ ∨ (if _ then _ else _) = _
      split
      · exact .inl rfl
      · exact .inr rfl
    refine ⟨Node.own_new rfl rfl rfl (.inl rfl) nofun nofun rfl rfl, fun t => ?_, fun t => ?_,
      fun t hp => ?_, fun t hp => ?_, fun t hp => ?_⟩
    · rcases hpc t with h | h <;> rw [h] <;> simp [Pc.Holds, Pc.node, Pc.next, threads, Node.blank]
    · rcases hpc t with h | h <;> rw [h] <;> simp [Pc.clears, threads, Node.blank]
    all_goals rcases hpc t with h | h <;> rw [h] at hp <;> cases hp
  fresh n _ := ⟨rfl, rfl⟩
  saved a b h := by cases h
  safe t h := by
    have h : (if worker t then Pc.dequeue else .outside) = .failed := h
    split at h <;> cases h

omit [DecidableEq T] in
theorem lt_made (h : Kept s) (hplace : (s.nodes n).place ≠ .unmade) : n < s.made := by
  by_contra hn
  exact hplace (h.fresh n (not_lt.mp hn)).1

theorem safe_goto (h : Kept s) (hsafe : p ≠ .failed) (t' : T) : Function.update s.pc t p t' ≠ .failed := by
  by_cases ht : t' = t
  · rw [ht, Function.update_self]
    exact hsafe
  · rw [Function.update_of_ne ht]
    exact h.safe t'

omit [DecidableEq T] in
theorem fresh_set (h : Kept s)
    (hmade : n < s.made ∨ x.place = (s.nodes n).place ∧ x.keeper = (s.nodes n).keeper) :
    ∀ m, s.made ≤ m → (Function.update s.nodes n x m).place = .unmade ∧
      (Function.update s.nodes n x m).keeper = .raw := by
  intro m hm
  by_cases hmn : m = n
  · subst hmn
    rw [Function.update_self]
    rcases hmade with hmade | ⟨hp, hk⟩
    · exact absurd hm (not_le.mpr hmade)
    · rw [hp, hk]
      exact h.fresh m hm
  · rw [Function.update_of_ne hmn]
    exact h.fresh m hm

omit [DecidableEq T] in
theorem saved_set (h : Kept s) (hplace : x.place = (s.nodes n).place ∨ ∀ b, x.place ≠ .saved b)
    (hkeeper : x.keeper = (s.nodes n).keeper ∧ x.backTask = (s.nodes n).backTask ∨
      (s.nodes n).keeper ≠ .saved) :
    ∀ a b, (Function.update s.nodes n x a).place = .saved b →
      (Function.update s.nodes n x b).keeper = .saved ∧
      (Function.update s.nodes n x b).backTask = some a := by
  intro a b hab
  have hold : (s.nodes a).place = .saved b := by
    by_cases ha : a = n
    · subst ha
      rw [Function.update_self] at hab
      rcases hplace with hp | hp
      · rw [← hp]
        exact hab
      · exact absurd hab (hp b)
    · rwa [Function.update_of_ne ha] at hab
  obtain ⟨hk, hb⟩ := h.saved a b hold
  by_cases hbn : b = n
  · subst hbn
    rw [Function.update_self]
    rcases hkeeper with ⟨hk', hb'⟩ | hk'
    · rw [hk', hb']
      exact ⟨hk, hb⟩
    · exact absurd hk hk'
  · rw [Function.update_of_ne hbn]
    exact ⟨hk, hb⟩

/-- One task changes, and perhaps its hands. -/
theorem hand (h : Kept s) (hfits : ∀ m, Fits (Function.update s.pc t p) m (Function.update s.nodes n x m))
    (hmade : n < s.made ∨ x.place = (s.nodes n).place ∧ x.keeper = (s.nodes n).keeper)
    (hplace : x.place = (s.nodes n).place ∨ ∀ b, x.place ≠ .saved b)
    (hkeeper : x.keeper = (s.nodes n).keeper ∧ x.backTask = (s.nodes n).backTask ∨
      (s.nodes n).keeper ≠ .saved)
    (hsafe : p ≠ .failed) : Kept ((s.set n x).goto t p) :=
  ⟨hfits, h.fresh_set hmade, h.saved_set hplace hkeeper, h.safe_goto hsafe⟩

section Hold
variable {q : Pc} (h : Kept s) (hq : s.pc t = q)
include h hq

/-- The holder of a task goes on, and may change its fields. -/
theorem work (hn : q.node = some n) (hnode : p.node = some n) (hnext : p.next = q.next)
    (hclears : p.clears = q.clears) (hcleared : ∀ y : Node T, q.Cleared y → p.Cleared y) (hown : x.Own)
    (hplace : x.place = (s.nodes n).place) (hkeeper : x.keeper = (s.nodes n).keeper)
    (hlater : (s.nodes n).Later x)
    (hstage : x.stage = p.stage ∧ (p.back = none ∨ p.back = some x.backTask.isSome))
    (hsafe : p ≠ .failed) : Kept ((s.set n x).goto t p) := by
  subst hq
  refine h.hand (fun m => ?_) (.inr ⟨hplace, hkeeper⟩) (.inl hplace) (.inl ⟨hkeeper, hlater.back⟩) hsafe
  have hfits := h.fits m
  by_cases hm : m = n
  · subst hm
    have hheld : (s.nodes m).place = .held t := (hfits.held t).mp (.inl hn)
    rw [Function.update_self]
    refine hfits.turn hown ?_ ?_ (fun t' _ => by rw [hplace]) (fun t' _ => by rw [hkeeper])
      (.inr fun t' ht hp => ht ?_) (.inl hlater) (fun _ => hstage) (fun hm => ?_) (fun hm => ?_)
    · rw [hplace, hheld]
      exact ⟨fun _ => rfl, fun _ => .inl hnode⟩
    · rw [hclears, hkeeper]
      exact hfits.kept t
    · rw [hheld] at hp
      cases hp
      rfl
    · rw [hnext] at hm
      have hold := hfits.next t hm
      rw [(hfits.node t hn).1] at hold
      exact absurd hold (stage_of_next hm)
    · rw [hclears] at hm
      exact cleared_later hlater (hcleared _ (hfits.cleared t hm))
  · rw [Function.update_of_ne hm]
    refine hfits.stay ?_ (by rw [hclears]) (fun hp => ?_) (fun hp => ?_) (fun hp => ?_)
    · simp only [Pc.Holds, hn, hnode, hnext]
    · rw [hnode] at hp
      exact absurd (Option.some.inj hp).symm hm
    · rw [hnext] at hp
      exact hfits.next t hp
    · rw [hclears] at hp
      exact hcleared _ (hfits.cleared t hp)

/-- The thread that destroys a task goes on, and may change what its holder does not read. -/
theorem sweep (hn : q.clears = some n) (hclears : p.clears = some n) (hnode : p.node = q.node)
    (hnext : p.next = q.next) (hstage : p.stage = q.stage) (hback : p.back = q.back) (hown : x.Own) (hplace : x.place = (s.nodes n).place)
    (hkeeper : x.keeper = (s.nodes n).keeper) (hback' : x.backTask = (s.nodes n).backTask)
    (hstage' : x.stage = (s.nodes n).stage) (hcleared : p.Cleared x) (hsafe : p ≠ .failed) :
    Kept ((s.set n x).goto t p) := by
  subst hq
  refine h.hand (fun m => ?_) (.inr ⟨hplace, hkeeper⟩) (.inl hplace) (.inl ⟨hkeeper, hback'⟩) hsafe
  have hfits := h.fits m
  have hholds : p.Holds m ↔ (s.pc t).Holds m := by simp only [Pc.Holds, hnode, hnext]
  by_cases hm : m = n
  · subst hm
    rw [Function.update_self]
    have hkept : (s.nodes m).keeper = .thread t := (hfits.kept t).mp hn
    refine hfits.turn hown ?_ ?_ (fun t' _ => by rw [hplace]) (fun t' _ => by rw [hkeeper])
      (.inl ⟨hstage', hback'⟩) (.inr fun t' ht hk => ht ?_) (fun hp => ?_) (fun hp => ?_) (fun _ => hcleared)
    · rw [hplace]
      exact hholds.trans (hfits.held t)
    · rw [hkeeper, hkept]
      exact ⟨fun _ => rfl, fun _ => hclears⟩
    · rw [hkept] at hk
      cases hk
      rfl
    · rw [hnode] at hp
      rw [hstage', hstage, hback, hback']
      exact hfits.node t hp
    · rw [hnext] at hp
      rw [hstage']
      exact hfits.next t hp
  · rw [Function.update_of_ne hm]
    refine hfits.stay hholds (by rw [hclears, hn]) (fun hp => ?_) (fun hp => ?_) (fun hp => ?_)
    · rw [hnode] at hp
      rw [hstage, hback]
      exact hfits.node t hp
    · rw [hnext] at hp
      exact hfits.next t hp
    · rw [hclears] at hp
      exact absurd (Option.some.inj hp).symm hm

omit [DecidableEq T] in
theorem unset (hn : q.node = some n) : (s.nodes n).stage = q.stage ∧
    (q.back = none ∨ q.back = some (s.nodes n).backTask.isSome) := by
  subst hq
  exact (h.fits n).node t hn

omit [DecidableEq T] in
theorem held_of (hn : q.node = some n) : (s.nodes n).place = .held t := by
  subst hq
  exact ((h.fits n).held t).mp (.inl hn)

/-- The holder of a task sets its status. -/
theorem setStatus {v v' : RunningStatus} {locked ran : Bool} (hn : q.node = some n)
    (hnode : p.node = some n) (hnext : p.next = q.next) (hclears : p.clears = q.clears)
    (hold : q.stage = (v, locked, ran)) (hnew : p.stage = (v', locked, ran)) (hv : v ≠ .recoverable)
    (hback : p.back = none ∨ p.back = some (s.nodes n).backTask.isSome)
    (hfollows : follows (s.nodes n).backTask.isSome v v' = true) (hsafe : p ≠ .failed)
    (hcleared : ∀ y : Node T, q.Cleared y → p.Cleared y) :
    Kept ((s.set n ((s.nodes n).setStatus v')).goto t p) := by
  have hstage := (h.unset hq hn).1
  rw [hold, Node.stage, Prod.mk.injEq, Prod.mk.injEq] at hstage
  obtain ⟨hstatus, hlocked, hran⟩ := hstage
  have hheld := h.held_of hq hn
  refine h.work hq hn hnode hnext hclears hcleared ?_ rfl rfl ⟨rfl, fun hr => ?_, id, id, rfl⟩ ⟨?_, hback⟩ hsafe
  · exact (h.fits n).own.setStatus hheld (by rw [hstatus]; exact hfollows)
  · exact absurd (hstatus.symm.trans hr) hv
  · rw [hnew, Node.stage, Node.setStatus, hlocked, hran]

/-- The holder of a task goes on without a change. -/
theorem walk (hn : q.node = some n) (hnode : p.node = some n) (hnext : p.next = q.next)
    (hclears : p.clears = q.clears) (hstage : p.stage = q.stage)
    (hback : p.back = none ∨ p.back = some (s.nodes n).backTask.isSome) (hsafe : p ≠ .failed)
    (hcleared : ∀ y : Node T, q.Cleared y → p.Cleared y) : Kept (s.goto t p) := by
  have hkept := h.work (x := s.nodes n) hq hn hnode hnext hclears hcleared (h.fits n).own rfl rfl
    ⟨rfl, id, id, id, rfl⟩ ⟨(h.unset hq hn).1.trans hstage.symm, hback⟩ hsafe
  rwa [State.set, Function.update_eq_self] at hkept

omit [DecidableEq T] in
theorem cleared_of (hn : q.clears = some n) : q.Cleared (s.nodes n) := by
  subst hq
  exact (h.fits n).cleared t hn

/-- The thread that destroys a task goes on without a change. -/
theorem glide (hn : q.clears = some n) (hclears : p.clears = some n) (hnode : p.node = q.node)
    (hnext : p.next = q.next) (hstage : p.stage = q.stage) (hback : p.back = q.back)
    (hcleared : p.Cleared (s.nodes n)) (hsafe : p ≠ .failed) : Kept (s.goto t p) := by
  have hkept := h.sweep (x := s.nodes n) hq hn hclears hnode hnext hstage hback (h.fits n).own rfl rfl rfl rfl
    hcleared hsafe
  rwa [State.set, Function.update_eq_self] at hkept

end Hold

/-- `run_task` leaves a task. -/
theorem past {next : Option ℕ} (h : Kept s) (hq : s.pc t = .unlock n (.next next))
    (hp : next = none ∧ p = .dequeue ∨ ∃ m, next = some m ∧ p = .taken m) :
    Kept ((s.set n {s.nodes n with locked := false, place := .past}).goto t p) := by
  have hheld := h.held_of hq rfl
  obtain ⟨hstage, hback⟩ := h.unset hq rfl
  have hstatus : (s.nodes n).status = .recoverable := congrArg Prod.fst hstage
  have hnode : p.node = next := by rcases hp with ⟨rfl, rfl⟩ | ⟨m, rfl, rfl⟩ <;> rfl
  have hnext : p.next = none := by rcases hp with ⟨-, rfl⟩ | ⟨m, -, rfl⟩ <;> rfl
  have hclears : p.clears = none := by rcases hp with ⟨-, rfl⟩ | ⟨m, -, rfl⟩ <;> rfl
  have htaken : ∀ m, p.node = some m → p.stage = (.initing, false, false) ∧ p.back = none := by
    rcases hp with ⟨-, rfl⟩ | ⟨m, -, rfl⟩ <;> exact fun _ _ => ⟨rfl, rfl⟩
  have hne : next ≠ some n := by
    rintro rfl
    have hinit := (h.fits n).next t (by rw [hq]; rfl)
    rw [hstage] at hinit
    cases hinit
  refine h.hand (fun m => ?_) (.inl (h.lt_made (by rw [hheld]; nofun))) (.inr nofun) (.inl ⟨rfl, rfl⟩)
    (by rcases hp with ⟨-, rfl⟩ | ⟨m, -, rfl⟩ <;> nofun)
  have hfits := h.fits m
  by_cases hm : m = n
  · subst hm
    rw [Function.update_self]
    have hown := hfits.own
    refine hfits.turn ⟨⟨rfl, .inr hstatus⟩, hown.plain, ?_, hown.shared, fun _ => .inr rfl, hown.deleted,
      fun _ => rfl, hown.follows.first, hown.follows.chain, hown.follows.last⟩ ?_ ?_ ?_ (fun _ _ => .rfl)
      (.inr ?_) (.inl ⟨rfl, id, fun _ => rfl, id, rfl⟩) ?_ ?_ ?_
    · exact .inr (hown.parent.resolve_left (by rw [hheld]; nofun))
    · simp only [Pc.Holds, hnode, hnext, hne, or_self, reduceCtorEq]
    · rw [hclears, ← hfits.kept t, hq]
      exact Iff.rfl
    · intro t' ht
      rw [hheld]
      exact ⟨nofun, fun he => absurd (Place.held.inj he).symm ht⟩
    · intro t' ht he
      rw [hheld] at he
      exact ht (Place.held.inj he).symm
    · rw [hnode]
      exact fun he => absurd he hne
    · rw [hnext]
      nofun
    · rw [hclears]
      nofun
  · rw [Function.update_of_ne hm]
    refine hfits.stay ?_ ?_ (fun hp => ?_) (by rw [hnext]; nofun) (by rw [hclears]; nofun)
    · have hold : (s.pc t).Holds m ↔ next = some m := by
        rw [hq]
        simp [Pc.Holds, Pc.node, Pc.next, After.task, Ne.symm hm]
      rw [hold]
      simp only [Pc.Holds, hnode, hnext, or_false, reduceCtorEq]
    · rw [hclears, hq]
      rfl
    · obtain ⟨hstage, hback⟩ := htaken m hp
      rw [hstage]
      rw [hnode] at hp
      exact ⟨hfits.next t (by rw [hq]; exact hp), .inl hback⟩

/-- A thread takes a task that is queued. -/
theorem take (h : Kept s) (hplace : (s.nodes n).place = .queued)
    (hfits : ∀ m, m ≠ n → Fits (Function.update s.pc t p) m (s.nodes m))
    (hold : (s.pc t).clears = none) (hclears : p.clears = none) (hp : p.Holds n)
    (hnode : p.node = some n → p.stage = (.initing, false, false) ∧ p.back = none) (hsafe : p ≠ .failed) :
    Kept ((s.set n {s.nodes n with place := .held t}).goto t p) := by
  refine h.hand (fun m => ?_) (.inl (h.lt_made (by rw [hplace]; simp))) (.inr (by simp)) (.inl ⟨rfl, rfl⟩) hsafe
  by_cases hm : m = n
  · subst hm
    rw [Function.update_self]
    have hfits := h.fits m
    have hown := hfits.own
    have hstage : (s.nodes m).stage = (.initing, false, false) := by
      have hrests := hown.rests
      rwa [Node.Rests, hplace] at hrests
    have hgone : (s.nodes m).keeper ≠ .gone := fun hg => by
      rw [hown.gone hg] at hplace
      cases hplace
    refine hfits.turn ⟨trivial, hown.plain, ?_, hown.shared, ?_, hown.deleted, fun hg => absurd hg hgone,
      hown.follows.first, hown.follows.chain, hown.follows.last⟩ ⟨fun _ => rfl, fun _ => hp⟩ ?_ ?_
      (fun _ _ => .rfl) (.inl ⟨rfl, rfl⟩) (.inl ⟨rfl, id, ?_, id, rfl⟩) ?_ (fun _ => hstage) ?_
    · exact .inr (hown.parent.resolve_left (by rw [hplace]; simp))
    · exact fun hd => .inl ((hown.destructed hd).resolve_right (by rw [hplace]; simp))
    · rw [hclears, ← hfits.kept t, hold]
    · intro t' ht
      rw [hplace]
      exact ⟨fun he => absurd (Place.held.inj he).symm ht, by simp⟩
    · rw [hplace]
      simp
    · intro hn
      obtain ⟨hstage', hback⟩ := hnode hn
      exact ⟨hstage.trans hstage'.symm, .inl hback⟩
    · rw [hclears]
      simp
  · rw [Function.update_of_ne hm]
    exact hfits m hm

theorem dequeue (h : Kept s) (hs : s.dequeue t n = some s') : Kept s' := by
  unfold State.dequeue at hs
  split at hs <;> cases hs
  next hif =>
  obtain ⟨hpc, hplace⟩ := hif
  refine h.take hplace (fun m hm => ?_) (by rw [hpc]; rfl) rfl (.inl rfl) (fun _ => ⟨rfl, rfl⟩) nofun
  refine (h.fits m).pass ?_ ?_ (by rw [hpc]; nofun) nofun
  · rw [hpc]
    simp [Pc.Holds, Pc.node, Pc.next]
  · simp [Pc.Holds, Pc.node, Pc.next, Ne.symm hm]

theorem finish {next : Option ℕ} (h : Kept s) (hs : s.finish t next = some s') : Kept s' := by
  unfold State.finish at hs
  split at hs
  · next n hpc =>
    have hheld := h.held_of hpc rfl
    have hback := (h.unset hpc rfl).2
    split at hs
    · next hparent =>
      exact absurd hparent ((h.fits n).own.parent.resolve_left (by rw [hheld]; nofun))
    · cases hs
      exact h.walk hpc rfl rfl rfl rfl rfl hback nofun fun _ _ => trivial
    · next g m hparent =>
      split at hs <;> cases hs
      next hplace =>
      have hne : n ≠ m := by
        rintro rfl
        rw [hheld] at hplace
        cases hplace
      refine h.take hplace (fun m' hm => ?_) (by rw [hpc]; rfl) rfl (.inr rfl)
        (fun hn => absurd (Option.some.inj hn) hne) nofun
      refine (h.fits m').stay ?_ (by rw [hpc]; rfl) (fun hn => ?_) (fun hn => ?_) nofun
      · rw [hpc]
        simp [Pc.Holds, Pc.node, Pc.next, Ne.symm hm]
      · cases hn
        have hsame := h.unset hpc rfl
        exact hsame
      · exact absurd (Option.some.inj hn).symm hm
  · cases hs

omit [DecidableEq T] in
theorem lt_made_of_keeper (h : Kept s) (hkeeper : (s.nodes n).keeper ≠ .raw) : n < s.made := by
  by_contra hn
  exact hkeeper (h.fresh n (not_lt.mp hn)).2

omit [DecidableEq T] in
/-- What is known of a thread that may call the library. -/
theorem caller_spec (h : Kept s) {k : Caller} (hk : s.caller t = some k) : k.Plain ∧ s.pc t = k.pc n ∧
    ∀ a, k = .run a → (s.nodes a).stage = (.running, false, false) ∧ (s.nodes a).backTask = none := by
  unfold State.caller at hk
  split at hk
  · next hpc =>
    cases hk
    exact ⟨trivial, hpc, nofun⟩
  · next a hpc =>
    split at hk <;> cases hk
    next hback =>
    refine ⟨trivial, hpc, ?_⟩
    rintro a' ⟨⟩
    exact ⟨(h.unset hpc rfl).1, hback⟩
  · cases hk

/-- A thread begins to destroy a task. -/
theorem claim (h : Kept s) {k : Caller} (hk : s.caller t = some k) (hkeeper : (s.nodes n).keeper = .shared)
    (hnode : p.node = k.task n) (hnext : p.next = k.next) (hclears : p.clears = some n)
    (hstage : p.stage = (.running, false, false)) (hback : p.back = some false)
    (hcleared : k.Plain → p.Cleared {s.nodes n with keeper := .thread t}) (hsafe : p ≠ .failed) :
    Kept ((s.set n {s.nodes n with keeper := .thread t}).goto t p) := by
  obtain ⟨hplain, hpc, hrun⟩ := h.caller_spec (n := n) hk
  have hnode' : (s.pc t).node = k.task n := by rw [hpc]; cases k <;> rfl
  have hnext' : (s.pc t).next = k.next := by rw [hpc]; cases k <;> rfl
  have hclears' : (s.pc t).clears = none := by rw [hpc]; cases k <;> rfl
  have hholds : ∀ m, p.Holds m ↔ (s.pc t).Holds m := fun m => by
    simp only [Pc.Holds, hnode, hnode', hnext, hnext']
  have hstage' : ∀ m, p.node = some m → (s.nodes m).stage = p.stage ∧ (s.nodes m).backTask = none := by
    intro m hm
    rw [hstage]
    refine hrun m ?_
    rw [hnode] at hm
    cases k with
    | outside => cases hm
    | run a => cases hm; rfl
    | runTask next => exact hplain.elim
  refine h.hand (fun m => ?_) (.inl (h.lt_made_of_keeper (by rw [hkeeper]; nofun))) (.inl rfl)
    (.inr (by rw [hkeeper]; nofun)) hsafe
  have hfits := h.fits m
  by_cases hm : m = n
  · subst hm
    rw [Function.update_self]
    have hown := hfits.own
    refine hfits.turn (hown.keep (by rw [hkeeper]; nofun) nofun nofun) ((hholds m).trans (hfits.held t))
      ⟨fun _ => rfl, fun _ => hclears⟩ (fun _ _ => .rfl) ?_ (.inl ⟨rfl, rfl⟩) (.inr ?_) ?_ ?_
      (fun _ => hcleared hplain)
    · intro t' ht
      rw [hkeeper]
      exact ⟨fun he => absurd (Keeper.thread.inj he).symm ht, nofun⟩
    · rw [hkeeper]
      exact fun _ _ => nofun
    · intro hn
      obtain ⟨hst, hnone⟩ := hstage' m hn
      exact ⟨hst, .inr (by rw [hback]; exact congrArg some (by rw [hnone]; rfl))⟩
    · intro hn
      refine hfits.next t ?_
      rw [hnext', ← hnext]
      exact hn
  · rw [Function.update_of_ne hm]
    refine hfits.stay (hholds m) ?_ (fun hn => ?_) (fun hn => ?_) (fun hc => ?_)
    · rw [hclears, hclears']
      exact ⟨fun he => absurd (Option.some.inj he).symm hm, nofun⟩
    · obtain ⟨hst, hnone⟩ := hstage' m hn
      exact ⟨hst, .inr (by rw [hback, hnone]; rfl)⟩
    · rw [hnext, ← hnext'] at hn
      exact hfits.next t hn
    · rw [hclears] at hc
      exact absurd (Option.some.inj hc).symm hm

/-- A thread ends the destruction of a task, or leaves it to others. -/
theorem settle {k : Caller} {q : Pc} (h : Kept s) (hq : s.pc t = q) (hclears : q.clears = some n)
    (hplain : k.Plain) (hnode : q.node = k.task n) (hnext : q.next = k.next)
    (hstage : q.stage = (.running, false, false)) (hown : x.Own) (hplace : x.place = (s.nodes n).place)
    (hback : x.backTask = (s.nodes n).backTask) (hthread : ∀ t', x.keeper ≠ .thread t')
    (hstage' : x.stage = (s.nodes n).stage ∨ (s.nodes n).place = .past) :
    Kept ((s.set n x).goto t (k.pc n)) := by
  have hnode' : (k.pc n).node = q.node := by rw [hnode]; cases k <;> rfl
  have hnext' : (k.pc n).next = q.next := by rw [hnext]; cases k <;> rfl
  have hclears' : (k.pc n).clears = none := by cases k <;> rfl
  have hstage'' : ∀ m, q.node = some m → (k.pc n).stage = q.stage ∧ (k.pc n).back = none := by
    intro m hm
    rw [hnode] at hm
    rw [hstage]
    cases k with
    | outside => cases hm
    | run a => exact ⟨rfl, rfl⟩
    | runTask next => exact hplain.elim
  subst hq
  have hholds : ∀ m, (k.pc n).Holds m ↔ (s.pc t).Holds m := fun m => by
    simp only [Pc.Holds, hnode', hnext']
  have hkeeper : (s.nodes n).keeper = .thread t := ((h.fits n).kept t).mp hclears
  refine h.hand (fun m => ?_) (.inl (h.lt_made_of_keeper (by rw [hkeeper]; nofun))) (.inl hplace)
    (.inr (by rw [hkeeper]; nofun)) (by cases k <;> nofun)
  have hfits := h.fits m
  by_cases hm : m = n
  · subst hm
    rw [Function.update_self]
    have hother : ∀ t', t' ≠ t → (s.nodes m).keeper ≠ .thread t' := fun t' ht he => by
      rw [hkeeper] at he
      exact ht (Keeper.thread.inj he).symm
    refine hfits.turn hown ?_ ?_ (fun t' _ => by rw [hplace]) (fun t' ht => ?_) ?_ (.inr hother)
      (fun hn => ?_) (fun hn => ?_) (by rw [hclears']; nofun)
    · rw [hplace]
      exact (hholds m).trans (hfits.held t)
    · rw [hclears']
      exact ⟨nofun, fun he => absurd he (hthread t)⟩
    · exact ⟨fun he => absurd he (hthread t'), fun he => absurd he (hother t' ht)⟩
    · refine hstage'.imp (fun he => ⟨he, hback⟩) fun he t' _ => ?_
      rw [he]
      nofun
    · rw [hnode'] at hn
      obtain ⟨hst, hnone⟩ := hstage'' m hn
      have hheld := (hfits.held t).mp (.inl hn)
      rw [hstage'.resolve_right (by rw [hheld]; nofun), hst]
      exact ⟨(hfits.node t hn).1, .inl hnone⟩
    · rw [hnext'] at hn
      have hheld := (hfits.held t).mp (.inr hn)
      rw [hstage'.resolve_right (by rw [hheld]; nofun)]
      exact hfits.next t hn
  · rw [Function.update_of_ne hm]
    refine hfits.stay (hholds m) ?_ (fun hn => ?_) (fun hn => ?_) (by rw [hclears']; nofun)
    · rw [hclears, hclears']
      exact ⟨nofun, fun he => absurd (Option.some.inj he).symm hm⟩
    · rw [hnode'] at hn
      obtain ⟨hst, hnone⟩ := hstage'' m hn
      rw [hst]
      exact ⟨(hfits.node t hn).1, .inl hnone⟩
    · rw [hnext'] at hn
      exact hfits.next t hn

/-- Two tasks change. -/
theorem both (h : Kept s) {a b : ℕ} {x y : Node T} (hab : a ≠ b) (ha : a < s.made) (hb : b < s.made)
    (hfa : Fits (Function.update s.pc t p) a x) (hfb : Fits (Function.update s.pc t p) b y)
    (hother : ∀ m, m ≠ a → m ≠ b → ¬ (s.pc t).Holds m ∧ ¬ p.Holds m ∧ (s.pc t).clears ≠ some m ∧
      p.clears ≠ some m)
    (hsaved : ∀ a' b', (Function.update (Function.update s.nodes b y) a x a').place = .saved b' →
      (Function.update (Function.update s.nodes b y) a x b').keeper = .saved ∧
      (Function.update (Function.update s.nodes b y) a x b').backTask = some a')
    (hsafe : p ≠ .failed) : Kept (((s.set b y).set a x).goto t p) := by
  refine ⟨fun m => ?_, fun m hm => ?_, hsaved, h.safe_goto hsafe⟩
  · show Fits _ m (Function.update (Function.update s.nodes b y) a x m)
    by_cases hma : m = a
    · subst hma
      rw [Function.update_self]
      exact hfa
    · rw [Function.update_of_ne hma]
      by_cases hmb : m = b
      · subst hmb
        rw [Function.update_self]
        exact hfb
      · rw [Function.update_of_ne hmb]
        obtain ⟨hold, hnew, hold', hnew'⟩ := hother m hma hmb
        exact (h.fits m).pass hold hnew hold' hnew'
  · have hm : s.made ≤ m := hm
    show (Function.update (Function.update s.nodes b y) a x m).place = _ ∧
      (Function.update (Function.update s.nodes b y) a x m).keeper = _
    rw [Function.update_of_ne (by omega), Function.update_of_ne (by omega)]
    exact h.fresh m hm

/-- `swap_new_context`: the thread leaves its task. -/
theorem suspend {a b : ℕ} (h : Kept s) (hq : s.pc t = .swap a b) :
    Kept (((s.set b {s.nodes b with keeper := .saved}).set a {s.nodes a with place := .saved b}).goto t
      .dequeue) := by
  have hheld := h.held_of hq rfl
  obtain ⟨hstage, hsuits⟩ := h.unset hq rfl
  have hback : (s.nodes a).backTask = none := by simpa [Pc.back] using hsuits
  have hkeeper : (s.nodes b).keeper = .thread t := ((h.fits b).kept t).mp (by rw [hq]; rfl)
  have htask : (s.nodes b).backTask = some a := h.cleared_of hq rfl
  have hab : a ≠ b := by
    rintro rfl
    rw [hback] at htask
    cases htask
  have hkeeper' : (s.nodes a).keeper ≠ .thread t := fun he => by
    have hclears := ((h.fits a).kept t).mpr he
    rw [hq] at hclears
    exact hab (Option.some.inj hclears).symm
  have hholds : ∀ m, (s.pc t).Holds m ↔ a = m := fun m => by rw [hq]; simp [Pc.Holds, Pc.node, Pc.next]
  refine h.both hab (h.lt_made (by rw [hheld]; nofun)) (h.lt_made_of_keeper (by rw [hkeeper]; nofun))
    ?_ ?_ (fun m hma hmb => ?_) (fun a' b' hsaved => ?_) nofun
  · have hown := (h.fits a).own
    have hgone : (s.nodes a).keeper ≠ .gone := fun hg => by
      rw [hown.gone hg] at hheld
      cases hheld
    refine (h.fits a).turn ⟨⟨hstage, hback⟩, hown.plain, ?_, hown.shared, ?_, hown.deleted,
      fun hg => absurd hg hgone, hown.follows.first, hown.follows.chain, hown.follows.last⟩
      ⟨fun hn => absurd hn (not_holds_dequeue a), nofun⟩ ⟨nofun, fun he => absurd he hkeeper'⟩
      (fun t' ht => ⟨nofun, fun he => ?_⟩) (fun _ _ => .rfl) (.inr fun t' ht he => ?_)
      (.inl ⟨rfl, id, fun he => ?_, id, rfl⟩) nofun nofun nofun
    · exact .inr (hown.parent.resolve_left (by rw [hheld]; nofun))
    · exact fun hd => .inl ((hown.destructed hd).resolve_right (by rw [hheld]; nofun))
    · rw [hheld] at he
      exact absurd (Place.held.inj he).symm ht
    · rw [hheld] at he
      exact ht (Place.held.inj he).symm
    · rw [hheld] at he
      cases he
  · have hother : ∀ t', t' ≠ t → (s.nodes b).keeper ≠ .thread t' := fun t' ht he => by
      rw [hkeeper] at he
      exact ht (Keeper.thread.inj he).symm
    refine (h.fits b).turn ((h.fits b).own.keep (by rw [hkeeper]; nofun) nofun nofun)
      ⟨fun hn => absurd hn (not_holds_dequeue b), fun hp => ?_⟩ ⟨nofun, nofun⟩ (fun _ _ => .rfl)
      (fun t' ht => ⟨nofun, fun he => absurd he (hother t' ht)⟩) (.inl ⟨rfl, rfl⟩) (.inr hother)
      nofun nofun nofun
    exact absurd ((hholds b).mp (((h.fits b).held t).mpr hp)) hab
  · rw [hholds, hq]
    exact ⟨Ne.symm hma, not_holds_dequeue m, fun he => hmb (Option.some.inj he).symm, nofun⟩
  · by_cases ha : a' = a
    · subst ha
      rw [Function.update_self] at hsaved
      cases hsaved
      rw [Function.update_of_ne hab.symm, Function.update_self]
      exact ⟨rfl, htask⟩
    · rw [Function.update_of_ne ha] at hsaved
      have hold : (s.nodes a').place = .saved b' := by
        by_cases hb : a' = b
        · subst hb
          rwa [Function.update_self] at hsaved
        · rwa [Function.update_of_ne hb] at hsaved
      obtain ⟨hk, ht⟩ := h.saved a' b' hold
      have hne : b' ≠ b := by
        rintro rfl
        rw [hkeeper] at hk
        cases hk
      by_cases hb : b' = a
      · subst hb
        rw [Function.update_self]
        exact ⟨hk, ht⟩
      · rw [Function.update_of_ne hb, Function.update_of_ne hne]
        exact ⟨hk, ht⟩

/-- `set_context`: the thread goes on with the task of the `BackNode`. -/
theorem revive {a b : ℕ} (h : Kept s) (hq : s.pc t = .spin b) (hback : (s.nodes b).backTask = some a)
    (hplace : (s.nodes a).place = .saved b) :
    Kept (((s.set b {s.nodes b with place := .past, keeper := .thread t}).set a
      {s.nodes a with place := .held t}).goto t (.resumed a b)) := by
  have hheld := h.held_of hq rfl
  obtain ⟨hstage, -⟩ := h.unset hq rfl
  have hkeeper := (h.saved a b hplace).1
  obtain ⟨hstage', hnone⟩ : (s.nodes a).stage = (.yield, false, false) ∧ (s.nodes a).backTask = none := by
    have hrests := (h.fits a).own.rests
    rwa [Node.Rests, hplace] at hrests
  have hab : a ≠ b := by
    rintro rfl
    rw [hnone] at hback
    cases hback
  have hholds : ∀ m, (s.pc t).Holds m ↔ b = m := fun m => by rw [hq]; simp [Pc.Holds, Pc.node, Pc.next]
  have hholds' : ∀ m, (Pc.resumed a b).Holds m ↔ a = m := fun m => by simp [Pc.Holds, Pc.node, Pc.next]
  refine h.both hab (h.lt_made (by rw [hplace]; simp)) (h.lt_made (by rw [hheld]; simp))
    ?_ ?_ (fun m hma hmb => ?_) (fun a' b' hsaved => ?_) (by simp)
  · have hown := (h.fits a).own
    have hgone : (s.nodes a).keeper ≠ .gone := fun hg => by
      rw [hown.gone hg] at hplace
      cases hplace
    refine (h.fits a).turn ⟨trivial, hown.plain, ?_, hown.shared, ?_, hown.deleted,
      fun hg => absurd hg hgone, hown.follows.first, hown.follows.chain, hown.follows.last⟩
      ⟨fun _ => rfl, fun _ => .inl rfl⟩ ?_ (fun t' ht => ⟨fun he => ?_, fun he => ?_⟩) (fun _ _ => .rfl)
      (.inl ⟨rfl, rfl⟩) (.inl ⟨rfl, id, fun he => ?_, id, rfl⟩) (fun _ => ⟨hstage', .inr ?_⟩) (by rintro ⟨⟩)
      (fun he => absurd (Option.some.inj he).symm hab)
    · exact .inr (hown.parent.resolve_left (by rw [hplace]; simp))
    · exact fun hd => .inl ((hown.destructed hd).resolve_right (by rw [hplace]; simp))
    · rw [← (h.fits a).kept t, hq]
      exact ⟨fun he => absurd (Option.some.inj he).symm hab, by rintro ⟨⟩⟩
    · exact absurd (Place.held.inj he).symm ht
    · rw [hplace] at he
      cases he
    · rw [hplace] at he
      cases he
    · rw [hnone]
      rfl
  · have hown := (h.fits b).own
    have hstatus : (s.nodes b).status = .recoverable := congrArg Prod.fst hstage
    have hlocked : (s.nodes b).locked = false := congrArg (fun x => x.2.1) hstage
    refine (h.fits b).turn ⟨⟨hlocked, .inr hstatus⟩, hown.plain, ?_, by simp, fun _ => .inr rfl, ?_, by simp,
      hown.follows.first, hown.follows.chain, hown.follows.last⟩ ⟨fun hn => ?_, by simp⟩
      ⟨fun _ => rfl, fun _ => rfl⟩ (fun t' ht => ⟨by simp, fun he => ?_⟩)
      (fun t' ht => ⟨fun he => absurd (Keeper.thread.inj he).symm ht, fun he => ?_⟩)
      (.inr fun t' ht he => ?_) (.inr fun t' ht he => ?_) (fun hn => ?_) (by rintro ⟨⟩) (fun _ => ⟨hback, rfl⟩)
    · exact .inr (hown.parent.resolve_left (by rw [hheld]; simp))
    · intro hd
      have hgone := hown.deleted hd
      rw [hkeeper] at hgone
      cases hgone
    · exact absurd ((hholds' b).mp hn) hab
    · rw [hheld] at he
      exact absurd (Place.held.inj he).symm ht
    · rw [hkeeper] at he
      cases he
    · rw [hheld] at he
      exact ht (Place.held.inj he).symm
    · rw [hkeeper] at he
      cases he
    · exact absurd (Option.some.inj hn) hab
  · rw [hholds, hholds', hq]
    exact ⟨Ne.symm hmb, Ne.symm hma, by rintro ⟨⟩, fun he => hmb (Option.some.inj he).symm⟩
  · have ha : a' ≠ a := by
      rintro rfl
      rw [Function.update_self] at hsaved
      cases hsaved
    rw [Function.update_of_ne ha] at hsaved
    have hb : a' ≠ b := by
      rintro rfl
      rw [Function.update_self] at hsaved
      cases hsaved
    rw [Function.update_of_ne hb] at hsaved
    obtain ⟨hk, ht⟩ := h.saved a' b' hsaved
    have hne : b' ≠ b := by
      rintro rfl
      rw [hback] at ht
      exact ha (Option.some.inj ht).symm
    by_cases hba : b' = a
    · subst hba
      rw [Function.update_self]
      exact ⟨hk, ht⟩
    · rw [Function.update_of_ne hba, Function.update_of_ne hne]
      exact ⟨hk, ht⟩

end Kept
end QuietFlow.RunTask
