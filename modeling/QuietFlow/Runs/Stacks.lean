import QuietFlow.Runs.System
import QuietFlow.Runs.Census

/-! Processes that run a program over shared state.

A process has a stack of frames, what it has still to do; executing the top frame
changes the shared state and leaves other frames in its place, and a process may
begin a call, which pushes frames. So a fact about a program is a fact about single
frames: `Program.invariant` lifts one that holds of every frame, and
`Program.balance` one that adds up shared state and the weights of all frames. -/
namespace QuietFlow.Runs

structure Program (σ F α : Type*) where
  start : σ
  /-- The frames of a call begun on top of a frame, or by an idle process. -/
  call : σ → Option F → α → Option (σ × List F)
  exec : σ → F → Option (σ × List F)

structure Config (σ F T : Type*) where
  shared : σ
  stack : T → List F

namespace Config
variable {σ F T : Type*}

def HasFrame (s : Config σ F T) (f : F) : Prop := ∃ t, f ∈ s.stack t

/-- No process has a frame of a kind. -/
def Without (s : Config σ F T) (p : F → Bool) : Prop := ∀ t, ∀ f ∈ s.stack t, p f = false

theorem Without.eq_false {s : Config σ F T} {p : F → Bool} (h : s.Without p) {f : F}
    (hf : s.HasFrame f) : p f = false := by
  obtain ⟨t, ht⟩ := hf
  exact h t f ht

instance [Fintype T] (s : Config σ F T) (p : F → Bool) : Decidable (s.Without p) :=
  inferInstanceAs (Decidable (∀ t, ∀ f ∈ s.stack t, p f = false))

end Config

namespace Program
variable {σ F α T β : Type*} (P : Program σ F α)

/-- One process begins the call of its label, or with no label executes its top frame. -/
inductive Moves (x : σ) : Option α → List F → σ → List F → Prop where
  | call {a top x' new} : P.call x top a = some (x', new) → Moves x (some a) [] x' new
  | exec {f x' new} : P.exec x f = some (x', new) → Moves x none [f] x' new

section Step
variable (T) [DecidableEq T]

def step (s : Config σ F T) : T × Option α → Option (Config σ F T)
  | (t, some a) => (P.call s.shared (s.stack t).head? a).map fun (x, new) =>
    ⟨x, Function.update s.stack t (new ++ s.stack t)⟩
  | (t, none) =>
    match s.stack t with
    | [] => none
    | f :: rest => (P.exec s.shared f).map fun (x, new) =>
      ⟨x, Function.update s.stack t (new ++ rest)⟩

def system : System (Config σ F T) (T × Option α) where
  start := ⟨P.start, fun _ => []⟩
  step := P.step T

variable {P T} {s s' : Config σ F T} {t : T} {a : Option α}

/-- What a step can do. -/
theorem step_cases (h : (P.system T).step s (t, a) = some s') :
    ∃ old new rest, s.stack t = old ++ rest ∧ P.Moves s.shared a old s'.shared new ∧
      s'.stack = Function.update s.stack t (new ++ rest) := by
  cases a with
  | some a =>
    simp only [system, step] at h
    obtain ⟨⟨x, new⟩, hcall, hs⟩ := Option.map_eq_some_iff.mp h
    cases hs
    exact ⟨[], new, s.stack t, rfl, .call hcall, rfl⟩
  | none =>
    simp only [system, step] at h
    split at h
    · cases h
    · next f rest hstack =>
      obtain ⟨⟨x, new⟩, hexec, hs⟩ := Option.map_eq_some_iff.mp h
      cases hs
      exact ⟨[f], new, rest, hstack, .exec hexec, rfl⟩

section Invariant
variable {ok : Config σ F T → T × Option α → Config σ F T → Prop}

variable (P ok) in
/-- A step of a run: process `t` replaces its top frames `old` by `new`. -/
structure Took (s : Config σ F T) (t : T) (a : Option α) (old : List F) (s' : Config σ F T)
    (new : List F) : Prop where
  reached : (P.system T).ReachedBy ok s
  steps : (P.system T).step s (t, a) = some s'
  ok : ok s (t, a) s'
  moves : P.Moves s.shared a old s'.shared new
  stack : ∃ rest, s.stack t = old ++ rest ∧ s'.stack = Function.update s.stack t (new ++ rest)

theorem induct {I : Config σ F T → Prop} (start : I (P.system T).start)
    (step : ∀ s t a old s' new, P.Took ok s t a old s' new → I s → I s')
    (h : (P.system T).ReachedBy ok s) : I s := by
  refine System.ReachedBy.induct h start fun s ⟨t, a⟩ s' hr ih hstep hok => ?_
  obtain ⟨old, new, rest, hold, hmove, hnew⟩ := step_cases hstep
  exact step s t a old s' new ⟨hr, hstep, hok, hmove, rest, hold, hnew⟩ ih

namespace Took
variable {old new : List F} {f : F}

theorem reached_next (h : P.Took ok s t a old s' new) : (P.system T).ReachedBy ok s' :=
  .step h.reached h.steps h.ok

theorem hasFrame (h : P.Took ok s t a old s' new) (hf : f ∈ old) : s.HasFrame f := by
  obtain ⟨rest, hrest, -⟩ := h.stack
  exact ⟨t, by rw [hrest]; exact List.mem_append_left _ hf⟩

theorem hasFrame_new (h : P.Took ok s t a old s' new) (hf : f ∈ new) : s'.HasFrame f := by
  obtain ⟨rest, -, hnew⟩ := h.stack
  exact ⟨t, by rw [hnew, Function.update_self]; exact List.mem_append_left _ hf⟩

/-- A frame that is not replaced stays. -/
theorem hasFrame_keep (h : P.Took ok s t a old s' new) (hf : s.HasFrame f) (hne : f ∉ old) :
    s'.HasFrame f := by
  obtain ⟨rest, hold, hnew⟩ := h.stack
  obtain ⟨t', ht'⟩ := hf
  by_cases he : t' = t
  · subst he
    rw [hold, List.mem_append, or_iff_right hne] at ht'
    exact ⟨t', by rw [hnew, Function.update_self]; exact List.mem_append_right _ ht'⟩
  · exact ⟨t', by rw [hnew, Function.update_of_ne he]; exact ht'⟩

/-- The frames after a step: the new ones, and old ones. -/
theorem hasFrame_cases (h : P.Took ok s t a old s' new) (hf : s'.HasFrame f) :
    f ∈ new ∨ s.HasFrame f := by
  obtain ⟨rest, hold, hnew⟩ := h.stack
  obtain ⟨t', ht'⟩ := hf
  rw [hnew] at ht'
  by_cases he : t' = t
  · subst he
    rw [Function.update_self, List.mem_append] at ht'
    exact ht'.imp_right fun hrest => ⟨t', by rw [hold]; exact List.mem_append_right _ hrest⟩
  · rw [Function.update_of_ne he] at ht'
    exact .inr ⟨t', ht'⟩

/-- A step that replaces a frame executes it. -/
theorem exec (h : P.Took ok s t a [f] s' new) : a = none ∧ (s.stack t).head? = some f := by
  obtain ⟨rest, hrest, -⟩ := h.stack
  refine ⟨?_, by rw [hrest]; rfl⟩
  generalize hold : [f] = old at h
  cases h.moves with
  | call _ => cases hold
  | exec _ => rfl

end Took

/-- A fact `I` about the shared state and a fact `J` about every frame hold along all
runs if a step establishes them for what it makes and keeps them for the frames that stay. -/
theorem invariant_stay {I : σ → Prop} {J : σ → F → Prop} (start : I P.start)
    (move : ∀ s t a old s' new, P.Took ok s t a old s' new → I s.shared →
      (∀ f, s.HasFrame f → J s.shared f) →
      I s'.shared ∧ (∀ f ∈ new, J s'.shared f) ∧
        ∀ f, s.HasFrame f → s'.HasFrame f → J s.shared f → J s'.shared f)
    (h : (P.system T).ReachedBy ok s) : I s.shared ∧ ∀ f, s.HasFrame f → J s.shared f := by
  refine induct (I := fun s => I s.shared ∧ ∀ f, s.HasFrame f → J s.shared f)
    ⟨start, fun f ⟨t, ht⟩ => by cases ht⟩ (fun s t a old s' new htook ih => ?_) h
  obtain ⟨hI, hJ, hkeep⟩ := move s t a old s' new htook ih.1 ih.2
  refine ⟨hI, fun f hf => ?_⟩
  rcases htook.hasFrame_cases hf with hnew | hold
  · exact hJ f hnew
  · exact hkeep f hold hf (ih.2 f hold)

/-- As `invariant_stay`, for facts that a step keeps for every frame. -/
theorem invariant {I : σ → Prop} {J : σ → F → Prop} (start : I P.start)
    (move : ∀ s t a old s' new, P.Took ok s t a old s' new → I s.shared →
      (∀ f, s.HasFrame f → J s.shared f) →
      I s'.shared ∧ (∀ f ∈ new, J s'.shared f) ∧
        ∀ f, s.HasFrame f → J s.shared f → J s'.shared f)
    (h : (P.system T).ReachedBy ok s) : I s.shared ∧ ∀ f, s.HasFrame f → J s.shared f :=
  invariant_stay start (fun s t a old s' new htook hI hJ => by
    obtain ⟨hI', hJ', hkeep⟩ := move s t a old s' new htook hI hJ
    exact ⟨hI', hJ', fun f hf _ => hkeep f hf⟩) h

/-- A fact about every stack holds along all runs if a step of its process keeps it. -/
theorem stack_invariant {K : T → List F → Prop} (start : ∀ t, K t [])
    (move : ∀ s t a s', (P.system T).ReachedBy ok s → (P.system T).step s (t, a) = some s' →
      ok s (t, a) s' → K t (s.stack t) → K t (s'.stack t))
    (h : (P.system T).ReachedBy ok s) (t : T) : K t (s.stack t) := by
  refine induct (I := fun s => ∀ t, K t (s.stack t)) start
    (fun s t a old s' new htook ih t' => ?_) h t
  obtain ⟨rest, hold, hnew⟩ := htook.stack
  by_cases he : t' = t
  · subst he
    exact move s t' a s' htook.reached htook.steps htook.ok (ih t')
  · rw [hnew, Function.update_of_ne he]
    exact ih t'

end Invariant
end Step

/-! ### Sums over all frames -/

def weight (w : F → ℤ) (frames : List F) : ℤ := (frames.map w).sum

section Weight
variable {w w' : F → ℤ}

@[simp] theorem weight_nil : weight w [] = 0 := rfl

@[simp] theorem weight_cons (f : F) (rest : List F) :
    weight w (f :: rest) = w f + weight w rest := rfl

@[simp] theorem weight_append (fs gs : List F) : weight w (fs ++ gs) = weight w fs + weight w gs := by
  rw [weight, List.map_append, List.sum_append]
  rfl

theorem weight_congr {fs : List F} (h : ∀ f ∈ fs, w f = w' f) : weight w fs = weight w' fs := by
  rw [weight, weight, List.map_congr_left h]

theorem weight_mono {fs : List F} (h : ∀ f ∈ fs, w f ≤ w' f) : weight w fs ≤ weight w' fs :=
  List.sum_le_sum h

theorem weight_nonneg (hw : ∀ f, 0 ≤ w f) (fs : List F) : 0 ≤ weight w fs :=
  List.sum_nonneg fun n hn => by
    obtain ⟨f, _, rfl⟩ := List.mem_map.mp hn
    exact hw f

theorem le_weight (hw : ∀ f, 0 ≤ w f) {fs : List F} {f : F} (hf : f ∈ fs) : w f ≤ weight w fs :=
  List.single_le_sum (fun n hn => by
    obtain ⟨f, _, rfl⟩ := List.mem_map.mp hn
    exact hw f) _ (List.mem_map_of_mem hf)

theorem weight_eq_zero {fs : List F} (h : ∀ f ∈ fs, w f = 0) : weight w fs = 0 := by
  rw [weight_congr h]
  induction fs with
  | nil => rfl
  | cons f rest ih => rw [weight_cons, zero_add, ih fun g hg => h g (List.mem_cons_of_mem f hg)]

theorem weight_sub (fs : List F) : weight (fun f => w f - w' f) fs = weight w fs - weight w' fs := by
  induction fs with
  | nil => rfl
  | cons f rest ih => rw [weight_cons, weight_cons, weight_cons, ih]; abel

theorem weight_add (fs : List F) : weight (fun f => w f + w' f) fs = weight w fs + weight w' fs := by
  induction fs with
  | nil => rfl
  | cons f rest ih => rw [weight_cons, weight_cons, weight_cons, ih]; abel

theorem weight_sum {ι : Type*} (I : Finset ι) (v : ι → F → ℤ) (fs : List F) :
    weight (fun f => ∑ i ∈ I, v i f) fs = ∑ i ∈ I, weight (v i) fs := by
  induction fs with
  | nil => simp
  | cons f rest ih => simp only [weight_cons, ih, Finset.sum_add_distrib]

/-- How often something is in what the frames list. -/
def tally [DecidableEq β] (X : F → List β) (b : β) (f : F) : ℤ := (X f).count b

theorem tally_nonneg [DecidableEq β] (X : F → List β) (b : β) (f : F) : 0 ≤ tally X b f :=
  Int.natCast_nonneg _

theorem weight_tally [DecidableEq β] (X : F → List β) (b : β) (fs : List F) :
    weight (tally X b) fs = (fs.flatMap X).count b := by
  induction fs with
  | nil => rfl
  | cons f rest ih => rw [weight_cons, ih, tally, List.flatMap_cons, List.count_append]; push_cast; rfl

end Weight

section Total
variable {P} [Fintype T]

/-- The weights of all frames of all processes. -/
def total (w : F → ℤ) (s : Config σ F T) : ℤ := census (weight w) s.stack

variable {w w' : F → ℤ} {s s' : Config σ F T}

theorem total_nonneg (hw : ∀ f, 0 ≤ w f) (s : Config σ F T) : 0 ≤ total w s :=
  census_nonneg (weight_nonneg hw) s.stack

theorem le_total (hw : ∀ f, 0 ≤ w f) {f : F} (hf : s.HasFrame f) : w f ≤ total w s := by
  obtain ⟨t, ht⟩ := hf
  exact (le_weight hw ht).trans (le_census (weight_nonneg hw) s.stack t)

theorem total_mono (h : ∀ f, s.HasFrame f → w f ≤ w' f) : total w s ≤ total w' s :=
  Finset.sum_le_sum fun t _ => weight_mono fun f hf => h f ⟨t, hf⟩

theorem total_congr (h : ∀ f, s.HasFrame f → w f = w' f) : total w s = total w' s :=
  Finset.sum_congr rfl fun t _ => weight_congr fun f hf => h f ⟨t, hf⟩

theorem total_eq_zero (h : ∀ f, s.HasFrame f → w f = 0) : total w s = 0 :=
  census_eq_zero fun t => weight_eq_zero fun f hf => h f ⟨t, hf⟩

theorem total_sum {ι : Type*} (I : Finset ι) (v : ι → F → ℤ) (s : Config σ F T) :
    total (fun f => ∑ i ∈ I, v i f) s = ∑ i ∈ I, total (v i) s := by
  simp only [total, census, weight_sum]
  exact Finset.sum_comm

theorem one_le_total [DecidableEq β] {X : F → List β} {f : F} (hf : s.HasFrame f) {b : β}
    (hb : b ∈ X f) : 1 ≤ total (tally X b) s := by
  have hpos : (1 : ℤ) ≤ tally X b f := by
    have := List.count_pos_iff.mpr hb
    simp only [tally]
    omega
  exact hpos.trans (le_total (tally_nonneg X b) hf)

theorem total_add (w w' : F → ℤ) (s : Config σ F T) :
    total (fun f => w f + w' f) s = total w s + total w' s := by
  simp only [total, census, weight_add, Finset.sum_add_distrib]

/-- Something that is in what the frames list at most once is listed by one frame. -/
theorem frame_unique [DecidableEq β] {X : F → List β} {b : β} (hle : total (tally X b) s ≤ 1)
    {f f' : F} (hf : s.HasFrame f) (hf' : s.HasFrame f') (hb : b ∈ X f) (hb' : b ∈ X f') : f = f' := by
  classical
  by_contra hne
  have hone : ∀ {g}, s.HasFrame g → 1 ≤ total (fun h => if h = g then 1 else 0) s := fun {g} hg => by
    have hge := le_total (w := fun h => if h = g then 1 else 0)
      (fun h => by split <;> omega) hg
    simpa using hge
  have hsum : total (fun g => (if g = f then 1 else 0) + (if g = f' then 1 else 0)) s ≤
      total (tally X b) s := by
    refine total_mono fun g _ => ?_
    have hnonneg := tally_nonneg X b g
    by_cases hgf : g = f
    · subst hgf
      have := List.count_pos_iff.mpr hb
      simp only [if_true, if_neg hne, tally]
      omega
    · by_cases hgf' : g = f'
      · subst hgf'
        have := List.count_pos_iff.mpr hb'
        simp only [if_true, if_neg hgf, tally]
        omega
      · simp only [if_neg hgf, if_neg hgf']
        omega
  rw [total_add] at hsum
  have h1 := hone hf
  have h2 := hone hf'
  omega

theorem total_step [DecidableEq T] {ok : Config σ F T → T × Option α → Config σ F T → Prop} {t : T}
    {a : Option α} {old new : List F} (h : P.Took ok s t a old s' new) (w : F → ℤ) :
    total w s' = total w s + (weight w new - weight w old) := by
  obtain ⟨rest, hold, hnew⟩ := h.stack
  rw [total, total, hnew, census_update, hold, weight_append, weight_append]
  abel

/-- A quantity of the shared state and the weights of all frames balance along all runs
if they do in every step, and a step leaves the weights of the frames that are there alone. -/
theorem balance [DecidableEq T] {ok : Config σ F T → T × Option α → Config σ F T → Prop}
    (Φ : σ → ℤ) (w : σ → F → ℤ)
    (move : ∀ s t a old s' new, P.Took ok s t a old s' new →
      Φ s'.shared + weight (w s'.shared) new = Φ s.shared + weight (w s.shared) old ∧
        ∀ f, s.HasFrame f → w s'.shared f = w s.shared f)
    (h : (P.system T).ReachedBy ok s) : Φ s.shared + total (w s.shared) s = Φ P.start := by
  refine induct (I := fun s => Φ s.shared + total (w s.shared) s = Φ P.start) ?_
    (fun s t a old s' new htook ih => ?_) h
  · have hzero : total (w P.start) ((P.system T).start) = 0 :=
      total_eq_zero fun f ⟨t, ht⟩ => by cases ht
    show Φ P.start + total (w P.start) ((P.system T).start) = Φ P.start
    rw [hzero, add_zero]
  · obtain ⟨hbalance, hkeep⟩ := move s t a old s' new htook
    have hold : weight (w s'.shared) old = weight (w s.shared) old :=
      weight_congr fun f hf => hkeep f (htook.hasFrame hf)
    have htotal : total (w s'.shared) s = total (w s.shared) s := total_congr hkeep
    have hstep := total_step htook (w s'.shared)
    omega

end Total
end Program
end QuietFlow.Runs
