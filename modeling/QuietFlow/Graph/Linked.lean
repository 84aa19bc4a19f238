import QuietFlow.Graph.Whole

/-! Where the threads are in the self queues.

A thread is inside the ring of the graph that its top frame says, and no frame below is inside one
(`Linked`). This holds along the runs in which the calls of every self queue keep apart (`Steady`):
there no ring refuses a node, so no call is left but by its return. -/
namespace QuietFlow.Engine
open Runs Program
open SelfQueue (Contended.Act Contended.selfQueue Contended.Calm Contended.Matched)

variable {N G T : Type}

namespace Layout
variable {L : Layout N G} {s s' : Whole N G T} {t : T} {g : G} {l : Limit}
  {f : Frame N G} {frames rest new : List (Frame N G)} {x x' : Shared N G}
  {q : SelfQueue.Contended.State T N} {after before : G → SelfQueue.Contended.State T N}

/-! ### Frames inside rings -/

theorem returned_not_inRing (x : N) : ∀ f' ∈ returned x f, f'.inRing = false := by
  cases f with
  | work u w =>
    cases w with
    | pop temp => cases temp <;> simp [returned, Frame.inRing]
    | _ => simp [returned]
  | _ => simp [returned]

theorem returned_ofLimited (x : N) : ∀ f' ∈ returned x f, L.OfLimited f' := by
  cases f with
  | work u w =>
    cases w with
    | pop temp => cases temp <;> simp [returned, OfLimited]
    | _ => simp [returned]
  | _ => simp [returned]

theorem limited_of_access {a : Contended.Act T N} (hlim : L.OfLimited f)
    (h : L.access t f = some (g, a)) : L.limited g = true := by
  cases f with
  | build d b => cases h
  | ready c n =>
    simp only [access] at h
    split at h
    · next hready =>
      cases h
      exact hready
    · cases h
  | enqueue n =>
    cases h
    exact hlim
  | dispatch n => cases h
  | work u w =>
    cases w with
    | tryEnqueue n | tryDequeue temp | pop temp =>
      cases h
      exact hlim
    | _ => cases h

section Inside
variable [DecidableEq G]

/-- The operation that a top frame has begun on the ring of a graph. -/
def inside (L : Layout N G) (g : G) : Option (Frame N G) → Option (FreeLock.Op N)
  | some (.enqueue n) => if L.graphOf n = g then some (.enqueue n) else none
  | some (.work u (.pop _)) => if L.graphOf u = g then some .dequeue else none
  | _ => none

/-- A thread is in the self queues where its top frame says. -/
structure Linked (L : Layout N G) (q : G → SelfQueue.Contended.State T N) (t : T)
    (frames : List (Frame N G)) : Prop where
  place : ∀ g, ((q g).place t).op = L.inside g frames.head?
  below : ∀ f ∈ frames.tail, f.inRing = false
  limited : ∀ f ∈ frames, L.OfLimited f

theorem inside_eq_none (h : f.inRing = false) : L.inside g (some f) = none := by
  cases f with
  | enqueue n => cases h
  | work u w =>
    cases w with
    | pop temp => cases h
    | _ => rfl
  | _ => rfl

theorem inside_head? (h : ∀ f ∈ frames, f.inRing = false) : L.inside g frames.head? = none := by
  cases frames with
  | nil => rfl
  | cons f rest => exact inside_eq_none (h f List.mem_cons_self)

theorem inside_of_access (hf : f.inRing = true) (hg : L.access t f = some (g, .step t)) :
    L.inside g (some f) ≠ none := by
  cases f with
  | enqueue n =>
    cases hg
    simp [inside]
  | work u w =>
    cases w with
    | pop temp =>
      cases hg
      simp [inside]
    | _ => cases hf
  | _ => cases hf

theorem inside_of_ne {g' : G} (hf : f.inRing = true) (hg : L.access t f = some (g, .step t))
    (hne : g' ≠ g) : L.inside g' (some f) = none := by
  cases f with
  | enqueue n =>
    cases hg
    exact if_neg hne.symm
  | work u w =>
    cases w with
    | pop temp =>
      cases hg
      exact if_neg hne.symm
    | _ => cases hf
  | _ => cases hf

theorem update_congr {β : Type} (F : SelfQueue.Contended.State T N → β)
    (hF : F q = F (s.selfQueue g)) (g' : G) :
    F (Function.update s.selfQueue g q g') = F (s.selfQueue g') := by
  by_cases hg : g' = g
  · subst hg
    rw [Function.update_self, hF]
  · rw [Function.update_of_ne hg]

theorem op_eq_none {α : Type} {p : SelfQueue.Contended.Place α} (h : p.op = none) : p = .idle := by
  cases p with
  | idle => rfl
  | enqueue oldCount node => cases h
  | dequeue => cases h

namespace Linked

/-- Outside the rings a thread is in no call of one. -/
theorem idle (h : L.Linked before t frames) (hout : ∀ f ∈ frames.head?, f.inRing = false) (g : G) :
    (before g).place t = .idle := by
  refine op_eq_none ?_
  rw [h.place]
  cases hhead : frames.head? with
  | none => rfl
  | some f => exact inside_eq_none (hout f (by rw [hhead]; rfl))

/-- Inside a ring a thread is in a call of it. -/
theorem busy (h : L.Linked before t (f :: rest)) (hf : f.inRing = true)
    (hg : L.access t f = some (g, .step t)) : (before g).place t ≠ .idle := fun hidle => by
  have hplace := h.place g
  rw [hidle] at hplace
  exact inside_of_access hf hg hplace.symm

theorem congr (h : L.Linked before t frames) (hplace : ∀ g, (after g).place t = (before g).place t) :
    L.Linked after t frames :=
  ⟨fun g => by rw [hplace, h.place], h.below, h.limited⟩

end Linked
end Inside

variable [DecidableEq N] [DecidableEq G] [DecidableEq T]

/-! ### One self queue -/

/-- A run of the whole is one of each self queue. -/
theorem selfQueue_reached (ok' : SelfQueue.Contended.State T N → Contended.Act T N →
      SelfQueue.Contended.State T N → Prop)
    (h : (L.whole T).ReachedBy ok s) (g : G)
    (hok : ∀ s a s', ok s a s' → ∀ b, ok' (s.selfQueue g) b (s'.selfQueue g)) :
    (L.selfQueue T g).ReachedBy ok' (s.selfQueue g) := by
  refine h.simulate (f := fun s => s.selfQueue g) rfl fun s a s' _ _ hs hsteady => ?_
  rcases selfQueue_of_step hs g with hstay | ⟨b, hb⟩
  · exact .inl hstay
  · exact .inr ⟨b, hb, hok s a s' hsteady b⟩

theorem matched (h : (L.whole T).ReachedBy ok s) (g : G) : Contended.Matched (s.selfQueue g) :=
  SelfQueue.Contended.matched (selfQueue_reached (fun _ _ _ => True) h g fun _ _ _ _ _ => trivial)

/-- The calls of every self queue keep apart and its count stays in its range; and no self queue
overflows: none refuses a node that is one too many by the count. -/
def Steady (L : Layout N G) (s s' : Whole N G T) : Prop := ∀ g, ∀ l ∈ L.limit g,
  Contended.Calm (alignSize l.queueSize) (s.selfQueue g) (s'.selfQueue g) ∧
    -2 ^ 31 < (s.selfQueue g).mCount ∧ ∀ n ∈ (s'.selfQueue g).refusals, n < alignSize l.queueSize

instance [Fintype G] [Fintype T] (s s' : Whole N G T) : Decidable (L.Steady s s') :=
  inferInstanceAs (Decidable (∀ g, ∀ l ∈ L.limit g, _ ∧ _ ∧ _))

/-- What is known of a self queue in such a run. -/
structure Fair (l : Limit) (q : SelfQueue.Contended.State T N) : Prop where
  lined : FreeLock.Lined (alignSize l.queueSize) q.limitQueue
  refusals : q.refusals = []

theorem fair [Fintype T] (h : (L.whole T).ReachedBy (fun s _ s' => L.Steady s s') s)
    (hl : L.limit g = some l) (hsize : 2 ≤ l.queueSize) : Fair l (s.selfQueue g) := by
  obtain ⟨k, hk, hk', hpow⟩ := FreeLock.alignSize_pow hsize l.queueSize_lt
  have hreach : (Contended.selfQueue l.parallel l.queueSize T N).ReachedBy
      (fun s _ s' => Contended.Calm (alignSize l.queueSize) s s') (s.selfQueue g) := by
    have hreach := selfQueue_reached (fun s _ s' => Contended.Calm (alignSize l.queueSize) s s') h g
      fun s a s' hok _ => (hok g l hl).1
    rw [selfQueue, sizes, hl] at hreach
    exact hreach
  obtain ⟨hkept, hring⟩ := SelfQueue.Contended.kept_of_calm l.parallel hsize l.queueSize_lt hreach
  -- a refusal would be one of a call with room, and of one without
  have hover : ∀ n ∈ (s.selfQueue g).refusals, n < (alignSize l.queueSize : ℤ) := by
    cases h with
    | start => simp [whole, selfQueue, Contended.selfQueue]
    | step _ _ hok => exact (hok g l hl).2.2
  refine ⟨?_, List.eq_nil_iff_forall_not_mem.mpr fun n hn => ?_⟩
  · rw [hpow]
    rw [FreeLock.limitQueue, hpow] at hring
    exact .of_bounded hk (by omega) hring
  · have hle := hkept.refusals n hn
    have hlt := hover n hn
    omega

/-! ### Steps of a thread -/

theorem not_inRing_of_call {top : Option (Frame N G)} {a : Act N G}
    (h : L.call x top a = some (x', new)) : (∀ f ∈ top, f.inRing = false) ∧
      (∀ f ∈ new, f.inRing = false) ∧ x'.mCount = x.mCount ∧ x'.limitQueue = x.limitQueue := by
  cases a with
  | create d c =>
    simp only [call] at h
    split at h
    · next hmay =>
      cases h
      refine ⟨fun f hf => ?_, by simp [Frame.inRing], rfl, rfl⟩
      rw [Option.mem_def.mp hf] at hmay
      cases f with
      | work u w =>
        cases w with
        | pop temp => cases hmay.1
        | _ => rfl
      | enqueue n => cases hmay.1
      | _ => rfl
    · cases h
  | take u =>
    simp only [call] at h
    split at h
    · next hmay =>
      cases h
      refine ⟨fun f hf => ?_, by simp [Frame.inRing], rfl, rfl⟩
      rw [hmay.1] at hf
      cases hf
    · cases h

/-- What a frame does that is executed outside the rings: it leaves the self queues alone, or
changes the count of one and may then be inside its ring. -/
inductive Enters (L : Layout N G) (s : Whole N G T) (t : T) (x : Shared N G) (new : List (Frame N G)) :
    (G → SelfQueue.Contended.State T N) → Prop where
  | stay : x.mCount = s.shared.mCount → (∀ f ∈ new, f.inRing = false) → Enters L s t x new s.selfQueue
  | count {g : G} {q : SelfQueue.Contended.State T N} (top : Option (Frame N G))
      (rest : List (Frame N G)) (p : SelfQueue.Contended.Place N) :
    L.limited g = true → new = top.toList ++ rest → (∀ f ∈ rest, f.inRing = false) →
    q.place = Function.update (s.selfQueue g).place t p → p.op = L.inside g top →
    (∀ g', g' ≠ g → L.inside g' top = none) → q.limitQueue = (s.selfQueue g).limitQueue →
    (-2 ^ 31 < (s.selfQueue g).mCount → (s.selfQueue g).mCount < 2 ^ 31 - 1 →
      x.mCount = Function.update s.shared.mCount g q.mCount) →
    Enters L s t x new (Function.update s.selfQueue g q)

theorem enters (hf : f.inRing = false) (hlim : L.OfLimited f)
    (henter : L.enter s t f = some after) (hexec : L.exec s.shared f = some (x, new)) :
    L.Enters s t x new after := by
  have heffect : L.Effect s.shared [f] x new := effect_of_moves (.exec hexec)
  cases counts_of_effect (t := t) heffect rfl hf with
  | none haccess hcount hnew =>
    rcases enter_cases henter with ⟨-, rfl⟩ | ⟨g, a, q, hsome, -, -⟩
    · exact .stay hcount hnew
    · rw [haccess] at hsome
      cases hsome
  | tryEnqueue n rest haccess hcount hnew hrest =>
    have hlimited := limited_of_access hlim haccess
    rcases enter_cases henter with ⟨hnone, -⟩ | ⟨g, a, q, hsome, hq, rfl⟩
    · rw [haccess] at hnone
      cases hnone
    · rw [haccess] at hsome
      cases hsome
      obtain ⟨-, hqueue, hcount', -, hplace⟩ := SelfQueue.Contended.place_of_tryEnqueue hq
      refine .count _ rest _ hlimited hnew hrest hplace ?_ (fun g' hg' => ?_) hqueue fun hlow hhigh => ?_
      · show SelfQueue.Contended.Place.op (if s.shared.mCount (L.graphOf n) ≥ 0 then _ else _) = _
        split
        · exact (if_pos rfl).symm
        · rfl
      · split
        · exact if_neg hg'.symm
        · rfl
      · rw [hcount, hcount', TaskQueue.int32_eq (by omega) (by omega)]
        rfl
  | tryDequeue u temp rest haccess hcount hnew hrest =>
    have hlimited := limited_of_access hlim haccess
    rcases enter_cases henter with ⟨hnone, -⟩ | ⟨g, a, q, hsome, hq, rfl⟩
    · rw [haccess] at hnone
      cases hnone
    · rw [haccess] at hsome
      cases hsome
      obtain ⟨-, hqueue, hcount', -, hplace⟩ := SelfQueue.Contended.place_of_tryDequeue hq
      refine .count _ rest _ hlimited hnew hrest hplace ?_ (fun g' hg' => ?_) hqueue fun hlow hhigh => ?_
      · show SelfQueue.Contended.Place.op (if s.shared.mCount (L.graphOf u) > 0 then _ else _) = _
        split
        · exact (if_pos rfl).symm
        · rfl
      · split
        · exact if_neg hg'.symm
        · rfl
      · rw [hcount, hcount', TaskQueue.int32_eq (by omega) (by omega)]
        rfl

namespace Linked

omit [DecidableEq T] in
/-- A thread outside the rings begins a call. -/
theorem call {a : Act N G} (h : L.Linked before t frames)
    (hcall : L.call x frames.head? a = some (x', new)) : L.Linked before t (new ++ frames) := by
  obtain ⟨htop, hnew, -, -⟩ := not_inRing_of_call hcall
  have hold : ∀ f ∈ frames, f.inRing = false := fun f hf => by
    cases frames with
    | nil => cases hf
    | cons f' rest =>
      rcases List.mem_cons.mp hf with rfl | hf
      · exact htop _ rfl
      · exact h.below f hf
  have hall : ∀ f ∈ new ++ frames, f.inRing = false := fun f hf =>
    (List.mem_append.mp hf).elim (hnew f) (hold f)
  refine ⟨fun g => ?_, fun f hf => hall f (List.mem_of_mem_tail hf), fun f hf => ?_⟩
  · rw [h.idle htop, inside_head? hall]
    rfl
  · rcases List.mem_append.mp hf with hf | hf
    · exact ofLimited_step (effect_of_moves (.call hcall)) (fun f hf => by cases hf) f hf
    · exact h.limited f hf

/-- A thread executes a frame outside the rings. -/
theorem exec (h : L.Linked s.selfQueue t (f :: rest)) (hf : f.inRing = false)
    (henter : L.enter s t f = some after) (hexec : L.exec s.shared f = some (x, new)) :
    L.Linked after t (new ++ rest) := by
  have hidle := h.idle fun f' hf' => by cases hf'; exact hf
  have hlim : ∀ f ∈ new ++ rest, L.OfLimited f := fun f' hf' => by
    rcases List.mem_append.mp hf' with hf' | hf'
    · refine ofLimited_step (effect_of_moves (.exec hexec)) (fun f'' hf'' => ?_) f' hf'
      rw [List.mem_singleton.mp hf'']
      exact h.limited f List.mem_cons_self
    · exact h.limited f' (List.mem_cons_of_mem f hf')
  cases enters hf (h.limited f List.mem_cons_self) henter hexec with
  | stay hcount hnew =>
    have hall : ∀ f ∈ new ++ rest, f.inRing = false := fun f hf =>
      (List.mem_append.mp hf).elim (hnew f) (h.below f)
    refine ⟨fun g => ?_, fun f hf => hall f (List.mem_of_mem_tail hf), hlim⟩
    rw [hidle, inside_head? hall]
    rfl
  | @count g q top rest' p _ hnew hrest' hplace hop hother hqueue hcount =>
    have hall : ∀ f ∈ rest' ++ rest, f.inRing = false := fun f hf =>
      (List.mem_append.mp hf).elim (hrest' f) (h.below f)
    have hhead : ∀ g, L.inside g (new ++ rest).head? = L.inside g top := fun g => by
      rw [hnew, List.append_assoc]
      cases top with
      | none => exact inside_head? hall
      | some f => rfl
    refine ⟨fun g' => ?_, fun f hf => ?_, hlim⟩
    · rw [hhead]
      by_cases hg : g' = g
      · subst hg
        rw [Function.update_self, hplace, Function.update_self, hop]
      · rw [Function.update_of_ne hg, hidle, hother g' hg]
        rfl
    · rw [hnew, List.append_assoc] at hf
      cases top with
      | none => exact hall f (List.mem_of_mem_tail hf)
      | some f' => exact hall f hf

/-- A thread takes a step inside a ring, that refuses nothing. -/
theorem ring (h : L.Linked s.selfQueue t (f :: rest)) (hf : f.inRing = true)
    (hg : L.access t f = some (g, .step t))
    (hserves : SelfQueue.Contended.Serves (s.selfQueue g) t q)
    (hrefusals : q.refusals = (s.selfQueue g).refusals)
    (hresume : L.resume s t (Function.update s.selfQueue g q) f rest = some (s.config.shared, frames)) :
    L.Linked (Function.update s.selfQueue g q) t frames := by
  have hstay : q.place = (s.selfQueue g).place →
      L.Linked (Function.update s.selfQueue g q) t frames := fun hplace => by
    rw [resume_stay hf hg (by rw [Function.update_self, hplace]; exact h.busy hf hg)] at hresume
    cases hresume
    exact h.congr (update_congr (fun q => q.place t) (by rw [hplace]))
  cases hserves with
  | stay hplace => exact hstay hplace
  | draw hplace => exact hstay hplace
  | @done side m x hplace hpc =>
    have hidle : q.place t = .idle := by rw [hplace, Function.update_self]
    rw [resume_back hf hg (by rw [Function.update_self, hidle]) hpc] at hresume
    cases hresume
    have hall : ∀ f' ∈ returned x f ++ rest, f'.inRing = false := fun f' hf' =>
      (List.mem_append.mp hf').elim (returned_not_inRing x f') (h.below f')
    refine ⟨fun g' => ?_, fun f' hf' => hall f' (List.mem_of_mem_tail hf'), fun f' hf' => ?_⟩
    · rw [inside_head? hall]
      by_cases hg' : g' = g
      · subst hg'
        rw [Function.update_self, hidle]
        rfl
      · rw [Function.update_of_ne hg', h.place g']
        exact inside_of_ne hf hg hg'
    · rcases List.mem_append.mp hf' with hf' | hf'
      · exact returned_ofLimited x f' hf'
      · exact h.limited f' (List.mem_cons_of_mem f hf')
  | refuse hplace hmore =>
    rw [hmore] at hrefusals
    simp at hrefusals

end Linked

omit [DecidableEq N] in
/-- One thread moves, and the others stay where they are. -/
theorem linked_update (h : ∀ t, L.Linked s.selfQueue t (s.config.stack t))
    (hmoved : L.Linked after t frames)
    (hplace : ∀ t', t' ≠ t → ∀ g, (after g).place t' = (s.selfQueue g).place t') (t' : T) :
    L.Linked after t' (Function.update s.config.stack t frames t') := by
  by_cases ht : t' = t
  · subst ht
    rw [Function.update_self]
    exact hmoved
  · rw [Function.update_of_ne ht]
    exact (h t').congr (hplace t' ht)

/-- Threads and self queues agree along runs. -/
theorem linked [Fintype T] (h : (L.whole T).ReachedBy (fun s _ s' => L.Steady s s') s)
    (hsizes : ∀ g, ∀ l ∈ L.limit g, 2 ≤ l.queueSize) (t : T) :
    L.Linked s.selfQueue t (s.config.stack t) := by
  refine h.induct (I := fun s => ∀ t, L.Linked s.selfQueue t (s.config.stack t)) (fun t => ?_)
    (fun s a s' hr ih hs hok => ?_) t
  · exact ⟨fun g => rfl, fun f hf => (by cases hf), fun f hf => (by cases hf)⟩
  · have hr' : (L.whole T).ReachedBy (fun s _ s' => L.Steady s s') s' := .step hr hs hok
    cases goes_of_step hs with
    | call hcall => exact linked_update ih ((ih a.1).call hcall) fun _ _ _ => rfl
    | @exec f rest after x new hstack hf henter hexec =>
      have hlinked := ih a.1
      rw [hstack] at hlinked
      refine linked_update ih (hlinked.exec hf henter hexec) fun t' ht g' => ?_
      cases enters hf (hlinked.limited f List.mem_cons_self) henter hexec with
      | stay => rfl
      | count top rest' p _ _ _ hplace =>
        exact update_congr (fun q => q.place t') (by simp only [hplace, Function.update_of_ne ht]) g'
    | @ring f rest g q frames hstack hf hg hq hresume =>
      have hlinked := ih a.1
      rw [hstack] at hlinked
      have hserves := SelfQueue.Contended.serves_of_step (matched hr g) hq
      obtain ⟨l, hl⟩ := Option.isSome_iff_exists.mp
        (limited_of_access (hlinked.limited f List.mem_cons_self) hg)
      have hrefusals : q.refusals = [] := by simpa using (fair hr' hl (hsizes g l hl)).refusals
      refine linked_update ih (hlinked.ring hf hg hserves ?_ hresume) fun t' ht g' => ?_
      · rw [hrefusals, (fair hr hl (hsizes g l hl)).refusals]
      · exact update_congr (fun q => q.place t') (SelfQueue.Contended.step_of_ne hq ht).1 g'

end Layout
end QuietFlow.Engine
