import QuietFlow.Graph.Calls
import QuietFlow.Graph.Progress

/-! Graphs with their self queues as they are.

`Engine` takes the `LimitQueue` of a limited graph for a FIFO and `m_count` for an integer. Here
they are those of `SelfQueue.Contended`: a thread in `try_enqueue` or `try_dequeue` makes the
`fetch_add` or `fetch_sub` of the `int32_t` and then every access of the ring one by one, among the
accesses of all others. A push that the ring refuses throws out of the `create_edges` that makes
it; a worker has no handler, so its thread has no next step. The frames are those of the engine,
and so is what they do to the other fields; the `mCount` and `limitQueue` that they read are those
of the self queues (`Whole.shared`). -/
namespace QuietFlow.Engine
open Runs
open SelfQueue (Contended.Act Contended.selfQueue)

structure Whole (N G T : Type) where
  config : Config (Shared N G) (Frame N G) T
  selfQueue : G → SelfQueue.Contended.State T N

variable {N G T : Type}

/-- Past the count of a self queue, in its ring. -/
def Frame.inRing : Frame N G → Bool
  | .enqueue _ | .work _ (.pop _) => true
  | _ => false

/-- The assertion of `try_enqueue` leaves `create_edges`. -/
def unwind : List (Frame N G) → Option (List (Frame N G))
  | .build _ _ :: rest => some rest
  | _ => none

namespace Whole
variable (s : Whole N G T)

/-- The nodes in the self queue of a graph. -/
def queued (g : G) : List N := (s.selfQueue g).limitQueue.queued

/-- What frames read: the fields of the engine, and the self queues for its own. -/
def shared : Shared N G :=
  {s.config.shared with mCount := fun g => (s.selfQueue g).mCount, limitQueue := s.queued}

end Whole

namespace Layout
variable [DecidableEq N] [DecidableEq G] [DecidableEq T] (L : Layout N G)

/-- `parallel` and `queue_size`; a graph without limits calls no self queue. -/
def sizes (g : G) : ℕ × ℕ :=
  match L.limit g with
  | some l => (l.parallel, l.queueSize)
  | none => (0, 0)

variable (T) in
def selfQueue (g : G) : System (SelfQueue.Contended.State T N) (Contended.Act T N) :=
  Contended.selfQueue (L.sizes g).1 (L.sizes g).2 T N

/-- The step of a self queue that a frame begins with. -/
def access (t : T) : Frame N G → Option (G × Contended.Act T N)
  | .ready _ n =>
    if L.limited (L.graphOf n) then some (L.graphOf n, .tryEnqueue t n) else none
  | .work _ (.tryEnqueue n) => some (L.graphOf n, .tryEnqueue t n)
  | .work u (.tryDequeue _) => some (L.graphOf u, .tryDequeue t)
  | .enqueue n => some (L.graphOf n, .step t)
  | .work u (.pop _) => some (L.graphOf u, .step t)
  | _ => none

/-- The self queues after it. -/
def enter (s : Whole N G T) (t : T) (f : Frame N G) : Option (G → SelfQueue.Contended.State T N) :=
  match L.access t f with
  | none => some s.selfQueue
  | some (g, a) =>
    ((L.selfQueue T g).step (s.selfQueue g) a).map fun q => Function.update s.selfQueue g q

/-- What is left to do when the self queues are `after` it: a frame inside a ring stays until its
call has returned. -/
def resume (s : Whole N G T) (t : T) (after : G → SelfQueue.Contended.State T N) :
    Frame N G → List (Frame N G) → Option (Shared N G × List (Frame N G))
  | .enqueue n, rest =>
    match (after (L.graphOf n)).place t, (s.selfQueue (L.graphOf n)).limitQueue.pc t with
    | .idle, .wake _ _ _ => some (s.config.shared, rest)
    -- the ring has refused the node
    | .idle, _ => (unwind rest).map fun rest => (s.config.shared, rest)
    | _, _ => some (s.config.shared, .enqueue n :: rest)
  | .work u (.pop temp), rest =>
    match (after (L.graphOf u)).place t, (s.selfQueue (L.graphOf u)).limitQueue.pc t with
    | .idle, .wake _ _ n => some (s.config.shared,
        temp.toList.map (.ready (.finish u)) ++ .work u (.leavePopped n) :: rest)
    | _, _ => some (s.config.shared, .work u (.pop temp) :: rest)
  | f, rest => (L.exec s.shared f).map fun (x, new) => (x, new ++ rest)

def execute (s : Whole N G T) : T × Option (Act N G) → Option (Whole N G T)
  | (t, some a) =>
    ((L.system T).step ⟨s.shared, s.config.stack⟩ (t, some a)).map fun c => {s with config := c}
  | (t, none) =>
    match s.config.stack t with
    | [] => none
    | f :: rest => (L.enter s t f).bind fun after =>
      (L.resume s t after f rest).map fun (x, frames) =>
        ⟨⟨x, Function.update s.config.stack t frames⟩, after⟩

variable (T) in
/-- Any number of threads create nodes and run them. -/
def whole : System (Whole N G T) (T × Option (Act N G)) where
  start := ⟨(L.system T).start, fun g => (L.selfQueue T g).start⟩
  step := L.execute

/-! ### What a thread does -/

section Steps
variable {L}

/-- What a frame does with the count and the queue of its graph before it is inside the ring. -/
inductive Counts (L : Layout N G) (t : T) (f : Frame N G) (x x' : Shared N G)
    (new : List (Frame N G)) : Prop where
  | none : L.access t f = none → x'.mCount = x.mCount → (∀ f' ∈ new, f'.inRing = false) →
    Counts L t f x x' new
  | tryEnqueue (n : N) (rest : List (Frame N G)) : L.access t f = some (L.graphOf n, .tryEnqueue t n) →
    x'.mCount = Function.update x.mCount (L.graphOf n) (x.mCount (L.graphOf n) + 1) →
    new = (if x.mCount (L.graphOf n) ≥ 0 then some (.enqueue n) else none).toList ++ rest →
    (∀ f' ∈ rest, f'.inRing = false) → Counts L t f x x' new
  | tryDequeue (u : N) (temp : Option N) (rest : List (Frame N G)) :
    L.access t f = some (L.graphOf u, .tryDequeue t) →
    x'.mCount = Function.update x.mCount (L.graphOf u) (x.mCount (L.graphOf u) - 1) →
    new = (if x.mCount (L.graphOf u) > 0 then some (.work u (.pop temp)) else none).toList ++ rest →
    (∀ f' ∈ rest, f'.inRing = false) → Counts L t f x x' new

variable {x x' : Shared N G} {old new : List (Frame N G)} {f : Frame N G} {t : T}

theorem limitQueue_of_effect (h : L.Effect x old x' new) (hold : ∀ f ∈ old, f.inRing = false) :
    x'.limitQueue = x.limitQueue := by
  cases h
  case enqueue n => simp [Frame.inRing] at hold
  case pop u temp n queue hqueue => simp [Frame.inRing] at hold
  all_goals rfl

omit [DecidableEq T] in
theorem counts_of_effect (h : L.Effect x old x' new) (hold : old = [f]) (hf : f.inRing = false) :
    L.Counts t f x x' new := by
  have hready : ∀ (c : Caller N) (ns : List N), ∀ f ∈ ns.map (Frame.ready (G := G) c), f.inRing = false :=
    fun c ns f hf => by
      obtain ⟨n, -, rfl⟩ := List.mem_map.mp hf
      rfl
  have hfinish : ∀ {u : N} {others : List N} {last : Work N}, L.Ends u last →
      ∀ f ∈ (readyAll u others ++ [.work u last] : List (Frame N G)), f.inRing = false := by
    intro u others last hends f hf
    rcases List.mem_append.mp hf with hf | hf
    · exact hready _ _ f hf
    · rw [List.mem_singleton.mp hf]
      cases hends <;> rfl
  cases h <;> cases hold
  case enqueue n => cases hf
  case pop u temp n queue _ => cases hf
  case ready c n hlim => exact .none (by simp [access, hlim]) rfl (by simp [Frame.inRing])
  case readyFull c n hlim hpos =>
    exact .tryEnqueue n [] (by simp [access, hlim]) rfl (by rw [if_pos hpos]; rfl) (by simp)
  case readySlot c n hlim hneg =>
    exact .tryEnqueue n [.dispatch n] (by simp [access, hlim]) rfl (by simp [hneg])
      (by simp [Frame.inRing])
  case tryEnqueueFull u n hpos =>
    exact .tryEnqueue n [.work u (.leave none)] rfl rfl (by simp [hpos])
      (by simp [Frame.inRing])
  case tryEnqueueSlot u n hneg =>
    exact .tryEnqueue n [.work u (.leave (some n))] rfl rfl (by simp [hneg])
      (by simp [Frame.inRing])
  case tryDequeue u temp hpos =>
    exact .tryDequeue u temp [] rfl rfl (by rw [if_pos hpos]; rfl) (by simp)
  case tryDequeueEmpty u temp hle =>
    exact .tryDequeue u temp [.work u (.left temp)] rfl rfl (by simp [hle])
      (by simp [Frame.inRing])
  case countDown u notified others last _ hleaves => exact .none rfl rfl (hfinish hleaves.ends)
  case graphNotifyDone u notified others last hleaves => exact .none rfl rfl (hfinish hleaves.ends)
  case left u next _ => exact .none rfl rfl (by cases next <;> simp [Frame.inRing])
  case sub d r rest => exact .none rfl rfl (by simp [or_imp, forall_and, Frame.inRing])
  case dup d u rest => exact .none rfl rfl (by simp [or_imp, forall_and, Frame.inRing])
  all_goals exact .none rfl rfl (by simp [Frame.inRing])

/-! ### The steps of a thread -/

/-- What a pop leaves to do, or a push. -/
def returned (popped : N) : Frame N G → List (Frame N G)
  | .work u (.pop temp) => temp.toList.map (.ready (.finish u)) ++ [.work u (.leavePopped popped)]
  | _ => []

inductive Goes (L : Layout N G) (s : Whole N G T) (t : T) : Whole N G T → Prop where
  | call {a x new} : L.call s.shared (s.config.stack t).head? a = some (x, new) →
    Goes L s t ⟨⟨x, Function.update s.config.stack t (new ++ s.config.stack t)⟩, s.selfQueue⟩
  | exec {f rest after x new} : s.config.stack t = f :: rest → f.inRing = false →
    L.enter s t f = some after → L.exec s.shared f = some (x, new) →
    Goes L s t ⟨⟨x, Function.update s.config.stack t (new ++ rest)⟩, after⟩
  | ring {f rest g q frames} : s.config.stack t = f :: rest → f.inRing = true →
    L.access t f = some (g, .step t) → (L.selfQueue T g).step (s.selfQueue g) (.step t) = some q →
    L.resume s t (Function.update s.selfQueue g q) f rest = some (s.config.shared, frames) →
    Goes L s t ⟨⟨s.config.shared, Function.update s.config.stack t frames⟩,
      Function.update s.selfQueue g q⟩

variable {s s' : Whole N G T} {l : T × Option (Act N G)} {rest frames : List (Frame N G)} {g : G}
  {after : G → SelfQueue.Contended.State T N}

omit [DecidableEq N] in
theorem enter_cases (h : L.enter s t f = some after) :
    L.access t f = none ∧ after = s.selfQueue ∨
      ∃ g a q, L.access t f = some (g, a) ∧ (L.selfQueue T g).step (s.selfQueue g) a = some q ∧
        after = Function.update s.selfQueue g q := by
  unfold enter at h
  split at h
  · next hnone => exact .inl ⟨hnone, (Option.some.inj h).symm⟩
  · next g a hsome =>
    obtain ⟨q, hq, rfl⟩ := Option.map_eq_some_iff.mp h
    exact .inr ⟨g, a, q, hsome, hq, rfl⟩

omit [DecidableEq T] in
theorem resume_of_not_inRing (hf : f.inRing = false) :
    L.resume s t after f rest = (L.exec s.shared f).map fun (x, new) => (x, new ++ rest) := by
  cases f with
  | enqueue n => cases hf
  | work u w =>
    cases w with
    | pop temp => cases hf
    | _ => rfl
  | _ => rfl

omit [DecidableEq N] [DecidableEq G] [DecidableEq T] in
theorem access_of_inRing (hf : f.inRing = true) : ∃ g, L.access t f = some (g, .step t) := by
  cases f with
  | enqueue n => exact ⟨_, rfl⟩
  | work u w =>
    cases w with
    | pop temp => exact ⟨_, rfl⟩
    | _ => cases hf
  | _ => cases hf

omit [DecidableEq T] in
/-- A call of a ring goes on. -/
theorem resume_stay (hf : f.inRing = true) (hg : L.access t f = some (g, .step t))
    (hplace : (after g).place t ≠ .idle) :
    L.resume s t after f rest = some (s.config.shared, f :: rest) := by
  cases f with
  | enqueue n =>
    cases hg
    simp only [resume]
    split
    · next hp _ => exact absurd hp hplace
    · next hp _ => exact absurd hp hplace
    · rfl
  | work u w =>
    cases w with
    | pop temp =>
      cases hg
      simp only [resume]
      split
      · next hp _ => exact absurd hp hplace
      · rfl
    | _ => cases hf
  | _ => cases hf

omit [DecidableEq T] in
/-- A call of a ring returns with a ticket. -/
theorem resume_back {side : FreeLock.Side} {n : ℕ} {x : N} (hf : f.inRing = true)
    (hg : L.access t f = some (g, .step t)) (hplace : (after g).place t = .idle)
    (hpc : (s.selfQueue g).limitQueue.pc t = .wake side n x) :
    L.resume s t after f rest = some (s.config.shared, returned x f ++ rest) := by
  cases f with
  | enqueue m =>
    cases hg
    simp only [resume, hplace, hpc]
    rfl
  | work u w =>
    cases w with
    | pop temp =>
      cases hg
      simp only [resume, hplace, hpc, returned, List.append_assoc, List.singleton_append]
    | _ => cases hf
  | _ => cases hf

omit [DecidableEq T] in
theorem resume_shared (hf : f.inRing = true) {x : Shared N G}
    (h : L.resume s t after f rest = some (x, frames)) : x = s.config.shared := by
  cases f with
  | enqueue n =>
    simp only [resume] at h
    split at h
    · cases h
      rfl
    · obtain ⟨above, -, heq⟩ := Option.map_eq_some_iff.mp h
      cases heq
      rfl
    · cases h
      rfl
  | work u w =>
    cases w with
    | pop temp =>
      simp only [resume] at h
      split at h <;> cases h <;> rfl
    | _ => cases hf
  | _ => cases hf

theorem goes_of_step (h : (L.whole T).step s l = some s') : L.Goes s l.1 s' := by
  obtain ⟨t, a⟩ := l
  cases a with
  | some a =>
    obtain ⟨c, hc, rfl⟩ := Option.map_eq_some_iff.mp h
    obtain ⟨⟨x, new⟩, hcall, rfl⟩ := Option.map_eq_some_iff.mp hc
    exact .call hcall
  | none =>
    simp only [whole, execute] at h
    split at h
    · cases h
    · next f rest hstack =>
      obtain ⟨after, hafter, h⟩ := Option.bind_eq_some_iff.mp h
      obtain ⟨⟨x, frames⟩, hresume, rfl⟩ := Option.map_eq_some_iff.mp h
      cases hf : f.inRing with
      | false =>
        rw [resume_of_not_inRing hf] at hresume
        obtain ⟨⟨x', new⟩, hexec, heq⟩ := Option.map_eq_some_iff.mp hresume
        cases heq
        exact .exec hstack hf hafter hexec
      | true =>
        obtain ⟨g, hg⟩ := access_of_inRing (L := L) (t := t) hf
        rcases enter_cases hafter with ⟨hnone, -⟩ | ⟨g', a, q, hsome, hq, rfl⟩
        · rw [hg] at hnone
          cases hnone
        · rw [hg] at hsome
          cases hsome
          cases resume_shared hf hresume
          exact .ring hstack hf hg hq hresume

/-- A step leaves a self queue alone or is a step of it. -/
theorem selfQueue_of_step (h : (L.whole T).step s l = some s') (g : G) :
    s'.selfQueue g = s.selfQueue g ∨
      ∃ a, (L.selfQueue T g).step (s.selfQueue g) a = some (s'.selfQueue g) := by
  have hupdate : ∀ g' a q, (L.selfQueue T g').step (s.selfQueue g') a = some q →
      Function.update s.selfQueue g' q g = s.selfQueue g ∨
        ∃ a, (L.selfQueue T g).step (s.selfQueue g) a = some (Function.update s.selfQueue g' q g) := by
    intro g' a q hq
    by_cases hg : g = g'
    · subst hg
      rw [Function.update_self]
      exact .inr ⟨a, hq⟩
    · exact .inl (Function.update_of_ne hg ..)
  cases goes_of_step h with
  | call hcall => exact .inl rfl
  | exec hstack hf henter hexec =>
    rcases enter_cases henter with ⟨-, rfl⟩ | ⟨g', a, q, -, hq, rfl⟩
    · exact .inl rfl
    · exact hupdate g' a q hq
  | ring hstack hf hg hq hresume => exact hupdate _ _ _ hq

end Steps
end Layout
end QuietFlow.Engine
