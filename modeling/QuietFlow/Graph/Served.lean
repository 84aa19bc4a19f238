import QuietFlow.Graph.Linked

/-! No queued node is stranded, with the self queues as they are.

As long as the calls of every self queue keep apart (`Steady`), the accesses of a call look to the
others as if all were made when the call draws its ticket: a push then appends its node and is
over, and a pop has taken its node. Seen so (`seen`) a run is one of the engine, and the threads that
are in no call of a self queue are where they are there. -/
namespace QuietFlow.Engine
open Runs Program
open SelfQueue (Contended.Matched Contended.selfQueue)

variable {N G T : Type}

namespace Layout
variable {L : Layout N G} {s s' : Whole N G T} {t : T} {g : G} {l : Limit}
  {f : Frame N G} {frames frames' rest new : List (Frame N G)} {x : Shared N G}
  {q : SelfQueue.Contended.State T N} {after before : G → SelfQueue.Contended.State T N}

/-! ### Runs of the engine -/

/-- The node of the ticket that the call of a frame has drawn. -/
def served (L : Layout N G) (q : G → SelfQueue.Contended.State T N) (t : T) : Frame N G → Option N
  | .enqueue n => ((q (L.graphOf n)).limitQueue.pc t).drawn.map fun _ => n
  | .work u (.pop _) => ((q (L.graphOf u)).limitQueue.pc t).drawn.bind fun ticket =>
    (q (L.graphOf u)).limitQueue.written[ticket.2]?
  | _ => none

/-- What a thread has to do, if its call is over with the ticket. -/
def foreseen (L : Layout N G) (q : G → SelfQueue.Contended.State T N) (t : T) :
    List (Frame N G) → List (Frame N G)
  | [] => []
  | f :: rest => match L.served q t f with
    | some x => returned x f ++ rest
    | none => f :: rest

/-- The state of the engine, in the eyes of the other threads. -/
def seen (L : Layout N G) (s : Whole N G T) : Config (Shared N G) (Frame N G) T :=
  ⟨s.shared, fun t => L.foreseen s.selfQueue t (s.config.stack t)⟩

theorem served_of_not_inRing (hf : f.inRing = false) : L.served before t f = none := by
  cases f with
  | enqueue n => cases hf
  | work u w =>
    cases w with
    | pop temp => cases hf
    | _ => rfl
  | _ => rfl

theorem served_of_undrawn (hf : f.inRing = true) (hg : L.access t f = some (g, .step t))
    (hnone : ((before g).limitQueue.pc t).drawn = none) : L.served before t f = none := by
  cases f with
  | enqueue n =>
    cases hg
    simp [served, hnone]
  | work u w =>
    cases w with
    | pop temp =>
      cases hg
      simp [served, hnone]
    | _ => cases hf
  | _ => cases hf

theorem foreseen_cons (h : L.served before t f = none) : L.foreseen before t (f :: rest) = f :: rest := by
  simp only [foreseen, h]

theorem foreseen_served {n : N} (h : L.served before t f = some n) :
    L.foreseen before t (f :: rest) = returned n f ++ rest := by
  simp only [foreseen, h]

theorem foreseen_of_head? (h : ∀ f ∈ frames.head?, f.inRing = false) :
    L.foreseen before t frames = frames := by
  cases frames with
  | nil => rfl
  | cons f rest => exact foreseen_cons (served_of_not_inRing (h f rfl))

theorem foreseen_of_idle (h : ∀ g, (before g).limitQueue.pc t = .idle) :
    L.foreseen before t frames = frames := by
  cases frames with
  | nil => rfl
  | cons f rest =>
    refine foreseen_cons ?_
    cases f with
    | enqueue n => simp [served, h, FreeLock.Pc.drawn]
    | work u w =>
      cases w with
      | pop temp => simp [served, h, FreeLock.Pc.drawn]
      | _ => rfl
    | _ => rfl

theorem foreseen_congr (h : ∀ f ∈ frames.head?, L.served after t f = L.served before t f) :
    L.foreseen after t frames = L.foreseen before t frames := by
  cases frames with
  | nil => rfl
  | cons f rest => simp only [foreseen, h f rfl]

theorem foreseen_queue (h : ∀ g, (after g).limitQueue = (before g).limitQueue) :
    L.foreseen after t frames = L.foreseen before t frames := by
  refine foreseen_congr fun f _ => ?_
  cases f with
  | enqueue n => simp only [served, h]
  | work u w =>
    cases w with
    | pop temp => simp only [served, h]
    | _ => rfl
  | _ => rfl

theorem seen_eq (hcount : x.mCount = fun g => (after g).mCount)
    (hqueue : x.limitQueue = fun g => (after g).limitQueue.queued) (stack : T → List (Frame N G)) :
    L.seen ⟨⟨x, stack⟩, after⟩ = ⟨x, fun t => L.foreseen after t (stack t)⟩ := by
  cases x
  simp only at hcount hqueue
  subst hcount hqueue
  rfl

section Rings
variable [DecidableEq G]

/-- The ticket of a pop is that of a node. -/
theorem served_of_pop {u : N} {temp : Option N} {ticket : FreeLock.Side × ℕ}
    (hm : Contended.Matched (s.selfQueue (L.graphOf u))) (hfair : Fair l (s.selfQueue (L.graphOf u)))
    (hlinked : L.Linked s.selfQueue t (.work u (.pop temp) :: rest))
    (hdrawn : ((s.selfQueue (L.graphOf u)).limitQueue.pc t).drawn = some ticket) :
    ∃ x, (s.selfQueue (L.graphOf u)).limitQueue.written[ticket.2]? = some x ∧
      L.served s.selfQueue t (.work u (.pop temp)) = some x ∧
      ∀ side n y, (s.selfQueue (L.graphOf u)).limitQueue.pc t = .wake side n y → y = x := by
  obtain ⟨side, n⟩ := ticket
  have hplace : ((s.selfQueue (L.graphOf u)).place t).op = some .dequeue :=
    (hlinked.place (L.graphOf u)).trans (if_pos rfl)
  have hside := (hm t).side side n hdrawn
  rw [hplace] at hside
  cases hside
  obtain ⟨x, hx, hwake⟩ := hfair.lined.item t n hdrawn
  refine ⟨x, hx, ?_, fun side' m y hy => ?_⟩
  · simp only [served, hdrawn, Option.bind_some]
    exact hx
  · rw [hy] at hdrawn
    cases hdrawn
    exact hwake y hy

/-- A call returns what its ticket stands for. -/
theorem served_of_wake {side : FreeLock.Side} {n : ℕ} {y : N}
    (hm : Contended.Matched (s.selfQueue g)) (hfair : Fair l (s.selfQueue g))
    (hlinked : L.Linked s.selfQueue t (f :: rest)) (hf : f.inRing = true)
    (hg : L.access t f = some (g, .step t)) (hpc : (s.selfQueue g).limitQueue.pc t = .wake side n y) :
    ∃ z, L.served s.selfQueue t f = some z ∧ returned z f = returned y f := by
  have hdrawn : ((s.selfQueue g).limitQueue.pc t).drawn = some (side, n) := by
    rw [hpc]
    rfl
  cases f with
  | enqueue m =>
    cases hg
    exact ⟨m, by simp [served, hdrawn], rfl⟩
  | work u w =>
    cases w with
    | pop temp =>
      cases hg
      obtain ⟨z, -, hz, hwake⟩ := served_of_pop hm hfair hlinked hdrawn
      exact ⟨z, hz, by rw [hwake side n y hpc]⟩
    | _ => cases hf
  | _ => cases hf

/-- A step inside a ring does not show on the other threads. -/
theorem foreseen_of_ne {t' : T} (hm : ∀ g, Contended.Matched (s.selfQueue g))
    (hlinked : ∀ t, L.Linked s.selfQueue t (s.config.stack t))
    (hfair : ∀ g l, L.limit g = some l → Fair l (s.selfQueue g))
    (hdrawn : (q.limitQueue.pc t').drawn = ((s.selfQueue g).limitQueue.pc t').drawn)
    (hwritten : ∀ (n : ℕ) (x : N), (s.selfQueue g).limitQueue.written[n]? = some x →
      q.limitQueue.written[n]? = some x) :
    L.foreseen (Function.update s.selfQueue g q) t' (s.config.stack t') =
      L.foreseen s.selfQueue t' (s.config.stack t') := by
  refine foreseen_congr fun f hf => ?_
  have hpc := update_congr (fun q => (q.limitQueue.pc t').drawn) hdrawn
  cases f with
  | enqueue n => simp only [served, hpc]
  | work u w =>
    cases w with
    | pop temp =>
      obtain ⟨rest, hstack⟩ := List.head?_eq_some_iff.mp hf
      have hlink := hlinked t'
      rw [hstack] at hlink
      obtain ⟨l, hl⟩ := Option.isSome_iff_exists.mp (hlink.limited _ List.mem_cons_self)
      simp only [served, hpc]
      cases hticket : ((s.selfQueue (L.graphOf u)).limitQueue.pc t').drawn with
      | none => rfl
      | some ticket =>
        obtain ⟨x, hx, -, -⟩ := served_of_pop (hm _) (hfair _ l hl) hlink hticket
        rw [Option.bind_some, Option.bind_some, hx]
        by_cases hg : L.graphOf u = g
        · subst hg
          rw [Function.update_self]
          exact hwritten _ x hx
        · rw [Function.update_of_ne hg]
          exact hx
    | _ => rfl
  | _ => rfl

/-- A step inside a ring changes the nodes in one self queue. -/
theorem shared_ring (hcount : q.mCount = (s.selfQueue g).mCount) (stack : T → List (Frame N G)) :
    (⟨⟨s.config.shared, stack⟩, Function.update s.selfQueue g q⟩ : Whole N G T).shared =
      {s.shared with limitQueue := Function.update s.queued g q.limitQueue.queued} := by
  have hqueue : (⟨⟨s.config.shared, stack⟩, Function.update s.selfQueue g q⟩ : Whole N G T).queued =
      Function.update s.queued g q.limitQueue.queued := by
    funext g'
    simp only [Whole.queued]
    by_cases hg : g' = g
    · subst hg
      rw [Function.update_self, Function.update_self]
    · rw [Function.update_of_ne hg, Function.update_of_ne hg]
      rfl
  rw [Whole.shared, hqueue]
  simp only [update_congr (fun q => q.mCount) hcount]
  rfl

theorem shared_ring_keep (hcount : q.mCount = (s.selfQueue g).mCount)
    (hwritten : q.limitQueue.written = (s.selfQueue g).limitQueue.written)
    (hclaimed : ∀ side, (q.limitQueue.cursor side).claimed =
      ((s.selfQueue g).limitQueue.cursor side).claimed) (stack : T → List (Frame N G)) :
    (⟨⟨s.config.shared, stack⟩, Function.update s.selfQueue g q⟩ : Whole N G T).shared = s.shared := by
  have hqueue : q.limitQueue.queued = s.queued g := by
    rw [FreeLock.State.queued, hwritten, hclaimed]
    rfl
  rw [shared_ring hcount, hqueue, Function.update_eq_self]
  rfl

theorem served_congr (hdrawn : (q.limitQueue.pc t).drawn = ((s.selfQueue g).limitQueue.pc t).drawn)
    (hwritten : q.limitQueue.written = (s.selfQueue g).limitQueue.written) :
    L.served (Function.update s.selfQueue g q) t f = L.served s.selfQueue t f := by
  have hpc := update_congr (fun q => (q.limitQueue.pc t).drawn) hdrawn
  have hnodes := update_congr (fun q => q.limitQueue.written) hwritten
  cases f with
  | enqueue n => simp only [served, hpc]
  | work u w =>
    cases w with
    | pop temp => simp only [served, hpc, hnodes]
    | _ => rfl
  | _ => rfl

end Rings

/-! ### Steps of the engine -/

variable [DecidableEq N] [DecidableEq G]

/-- A call that has drawn no ticket yet draws it: it is the push or the pop. -/
theorem exec_of_draw {op : FreeLock.Op N} (hlinked : L.Linked s.selfQueue t (f :: rest))
    (hfair : ∀ l, L.limit g = some l → Fair l (s.selfQueue g))
    (hfair' : ∀ l, L.limit g = some l → Fair l q)
    (hf : f.inRing = true) (hg : L.access t f = some (g, .step t))
    (hop : ((s.selfQueue g).place t).op = some op)
    (hdrawn : (q.limitQueue.pc t).drawn =
      some (op.side, ((s.selfQueue g).limitQueue.cursor op.side).claimed))
    (hwritten : q.limitQueue.written = (s.selfQueue g).limitQueue.written ++ op.items)
    (hclaimed : ∀ side, (q.limitQueue.cursor side).claimed =
      ((s.selfQueue g).limitQueue.cursor side).claimed + if side = op.side then 1 else 0) :
    ∃ x, L.served (Function.update s.selfQueue g q) t f = some x ∧
      L.exec s.shared f = some ({s.shared with
        limitQueue := Function.update s.queued g q.limitQueue.queued}, returned x f) := by
  obtain ⟨l, hl⟩ := Option.isSome_iff_exists.mp
    (limited_of_access (hlinked.limited f List.mem_cons_self) hg)
  have hlined := (hfair l hl).lined
  have hlined' := (hfair' l hl).lined
  have hplace : ((s.selfQueue g).place t).op = L.inside g (some f) := hlinked.place g
  cases f with
  | enqueue n =>
    cases hg
    rw [hop, inside, if_pos rfl] at hplace
    cases hplace
    have hread := hclaimed .read
    have hwrite := hclaimed .write
    have hlength := hlined.queued_length
    have hle := hlined'.write_le
    have hqueue : q.limitQueue.queued = (s.selfQueue (L.graphOf n)).limitQueue.queued ++ [n] :=
      FreeLock.queued_append (by rw [hlined.length]; exact hlined.read_le) hwritten hread
    refine ⟨n, by simp [served, hdrawn], ?_⟩
    have hroom : (s.shared.limitQueue (L.graphOf n)).length < alignSize l.queueSize := by
      simp [FreeLock.Op.side] at hread hwrite
      show (s.selfQueue (L.graphOf n)).limitQueue.queued.length < _
      omega
    simp only [exec, enqueue, hl, Option.bind_some, if_pos hroom, hqueue]
    rfl
  | work u w =>
    cases w with
    | pop temp =>
      cases hg
      rw [hop, inside, if_pos rfl] at hplace
      cases hplace
      rw [FreeLock.Op.items, List.append_nil] at hwritten
      obtain ⟨x, hx, -⟩ := hlined'.item t _ hdrawn
      refine ⟨x, ?_, ?_⟩
      · simp only [served, Function.update_self, hdrawn, Option.bind_some]
        exact hx
      · rw [hwritten] at hx
        have hqueue : (s.selfQueue (L.graphOf u)).limitQueue.queued = x :: q.limitQueue.queued :=
          FreeLock.queued_cons hx hwritten (hclaimed .read)
        have hshared : s.shared.limitQueue (L.graphOf u) = x :: q.limitQueue.queued := hqueue
        simp only [exec, runTask, hshared]
        rfl
    | _ => cases hf
  | _ => cases hf

variable [DecidableEq T]

omit [DecidableEq N] [DecidableEq G] in
theorem foreseen_update (hframes : L.foreseen after t frames = frames')
    (hother : ∀ t', t' ≠ t → L.foreseen after t' (s.config.stack t') =
      L.foreseen s.selfQueue t' (s.config.stack t')) :
    (fun t' => L.foreseen after t' (Function.update s.config.stack t frames t')) =
      Function.update (L.seen s).stack t frames' := by
  funext t'
  by_cases ht : t' = t
  · subst ht
    rw [Function.update_self, Function.update_self, hframes]
  · rw [Function.update_of_ne ht, Function.update_of_ne ht, hother t' ht]
    rfl

/-- A call is one of the engine. -/
theorem seen_call {a : Act N G} (hcall : L.call s.shared (s.config.stack t).head? a = some (x, new)) :
    (L.system T).step (L.seen s) (t, some a) = some (L.seen
      ⟨⟨x, Function.update s.config.stack t (new ++ s.config.stack t)⟩, s.selfQueue⟩) := by
  obtain ⟨htop, hnew, hcount, hqueue⟩ := not_inRing_of_call hcall
  have hstack : (L.seen s).stack t = s.config.stack t := foreseen_of_head? htop
  have hframes : L.foreseen s.selfQueue t (new ++ s.config.stack t) = new ++ s.config.stack t := by
    refine foreseen_of_head? fun f hf => ?_
    cases new with
    | nil => exact htop f hf
    | cons f' rest =>
      cases hf
      exact hnew f List.mem_cons_self
  rw [seen_eq hcount hqueue, foreseen_update hframes fun _ _ => rfl]
  show (L.call s.shared ((L.seen s).stack t).head? a).map _ = _
  rw [hstack, hcall]
  rfl

/-- A frame outside the rings is executed as in the engine. -/
theorem seen_exec (hm : ∀ g, Contended.Matched (s.selfQueue g))
    (hlinked : L.Linked s.selfQueue t (s.config.stack t)) (hstack : s.config.stack t = f :: rest)
    (hf : f.inRing = false)
    (hrange : ∀ g, L.limited g = true →
      -2 ^ 31 < (s.selfQueue g).mCount ∧ (s.selfQueue g).mCount < 2 ^ 31 - 1)
    (henter : L.enter s t f = some after) (hexec : L.exec s.shared f = some (x, new)) :
    (L.system T).step (L.seen s) (t, none) =
      some (L.seen ⟨⟨x, Function.update s.config.stack t (new ++ rest)⟩, after⟩) := by
  rw [hstack] at hlinked
  have hidle : ∀ g, (s.selfQueue g).limitQueue.pc t = .idle := fun g =>
    (hm g t).idle (hlinked.idle (fun f' hf' => by cases hf'; exact hf) g)
  have hseen : (L.seen s).stack t = f :: rest := by
    show L.foreseen s.selfQueue t (s.config.stack t) = _
    rw [hstack, foreseen_of_idle hidle]
  have hkeep : x.limitQueue = s.queued :=
    limitQueue_of_effect (effect_of_moves (.exec hexec)) fun f' hf' => by
      rw [List.mem_singleton.mp hf', hf]
  have hqueues : (∀ g, (after g).limitQueue = (s.selfQueue g).limitQueue) ∧
      x.mCount = fun g => (after g).mCount := by
    cases enters hf (hlinked.limited f List.mem_cons_self) henter hexec with
    | stay hcount => exact ⟨fun g => rfl, hcount⟩
    | @count g q top rest' p hlim _ _ _ _ _ hqueue hcount =>
      refine ⟨update_congr (fun q => q.limitQueue) hqueue, ?_⟩
      rw [hcount (hrange g hlim).1 (hrange g hlim).2]
      funext g'
      by_cases hg : g' = g
      · subst hg
        rw [Function.update_self, Function.update_self]
      · rw [Function.update_of_ne hg, Function.update_of_ne hg]
        rfl
  obtain ⟨hqueue, hcount⟩ := hqueues
  have hframes : L.foreseen after t (new ++ rest) = new ++ rest :=
    foreseen_of_idle fun g => by rw [hqueue, hidle]
  rw [seen_eq hcount (by rw [hkeep]; funext g; rw [hqueue]; rfl),
    foreseen_update hframes fun t' _ => foreseen_queue hqueue]
  show L.program.step T (L.seen s) (t, none) = _
  simp only [Program.step, hseen]
  show (L.exec s.shared f).map _ = _
  rw [hexec]
  rfl

/-- A step inside a ring is one of the engine if it draws a ticket, and none otherwise. -/
theorem seen_ring (hm : ∀ g, Contended.Matched (s.selfQueue g))
    (hlinked : ∀ t, L.Linked s.selfQueue t (s.config.stack t))
    (hfair : ∀ g l, L.limit g = some l → Fair l (s.selfQueue g))
    (hfair' : ∀ l, L.limit g = some l → Fair l q)
    (hstack : s.config.stack t = f :: rest) (hf : f.inRing = true)
    (hg : L.access t f = some (g, .step t))
    (hq : (L.selfQueue T g).step (s.selfQueue g) (.step t) = some q)
    (hresume : L.resume s t (Function.update s.selfQueue g q) f rest = some (s.config.shared, frames)) :
    L.seen ⟨⟨s.config.shared, Function.update s.config.stack t frames⟩,
        Function.update s.selfQueue g q⟩ = L.seen s ∨
      (L.system T).step (L.seen s) (t, none) = some (L.seen
        ⟨⟨s.config.shared, Function.update s.config.stack t frames⟩, Function.update s.selfQueue g q⟩) := by
  have hlink := hlinked t
  rw [hstack] at hlink
  obtain ⟨l, hl⟩ := Option.isSome_iff_exists.mp
    (limited_of_access (hlink.limited f List.mem_cons_self) hg)
  obtain ⟨-, -, -, -, -, hcount⟩ := SelfQueue.Contended.effect_of_step hq (hm g t).idle
  have hstay : q.place = (s.selfQueue g).place → frames = f :: rest := fun hplace => by
    rw [resume_stay hf hg (by rw [Function.update_self, hplace]; exact hlink.busy hf hg)] at hresume
    cases hresume
    rfl
  -- nodes are only appended, so the tickets of the others keep theirs
  have hother : (∀ (n : ℕ) (x : N), (s.selfQueue g).limitQueue.written[n]? = some x →
      q.limitQueue.written[n]? = some x) → ∀ t', t' ≠ t →
      L.foreseen (Function.update s.selfQueue g q) t' (s.config.stack t') =
        L.foreseen s.selfQueue t' (s.config.stack t') := fun hwritten t' ht =>
    foreseen_of_ne hm hlinked hfair (SelfQueue.Contended.drawn_step_of_ne hq ht) hwritten
  cases SelfQueue.Contended.serves_of_step (hm g) hq with
  | stay hplace hwritten hclaimed hdrawn hrefusals =>
    left
    rw [hstay hplace, ← hstack, Function.update_eq_self]
    have hstacks : (fun t' => L.foreseen (Function.update s.selfQueue g q) t' (s.config.stack t')) =
        (L.seen s).stack := by
      funext t'
      by_cases ht : t' = t
      · subst ht
        exact foreseen_congr fun f _ => served_congr hdrawn hwritten
      · exact hother (fun n x hx => by rw [hwritten]; exact hx) t' ht
    rw [seen, shared_ring_keep hcount hwritten hclaimed, hstacks]
    rfl
  | @draw op hplace hop hnone hdrawn hwritten hclaimed hrefusals =>
    right
    obtain ⟨x, hx, hexec⟩ := exec_of_draw hlink (hfair g) hfair' hf hg hop hdrawn hwritten hclaimed
    have hseen : (L.seen s).stack t = f :: rest := by
      show L.foreseen s.selfQueue t (s.config.stack t) = _
      rw [hstack, foreseen_cons (served_of_undrawn hf hg hnone)]
    have hkeep : ∀ (n : ℕ) (y : N), (s.selfQueue g).limitQueue.written[n]? = some y →
        q.limitQueue.written[n]? = some y := fun n y hy => by
      rw [hwritten, List.getElem?_append_left (List.getElem?_eq_some_iff.mp hy).1]
      exact hy
    rw [hstay hplace]
    show L.program.step T (L.seen s) (t, none) = some ⟨_, _⟩
    rw [shared_ring hcount, foreseen_update (foreseen_served hx) (hother hkeep)]
    simp only [Program.step, hseen]
    show (L.exec s.shared f).map _ = _
    rw [hexec]
    rfl
  | @done side n x hplace hpc hdone hwritten hclaimed hrefusals =>
    left
    -- the frames that the return leaves were seen since the ticket was drawn
    rw [resume_back hf hg (by rw [Function.update_self, hplace, Function.update_self]) hpc] at hresume
    cases hresume
    obtain ⟨y, hy, hreturned⟩ := served_of_wake (hm g) (hfair g l hl) hlink hf hg hpc
    have hframes : L.foreseen (Function.update s.selfQueue g q) t (returned x f ++ rest) =
        (L.seen s).stack t := by
      show _ = L.foreseen s.selfQueue t (s.config.stack t)
      rw [hstack, foreseen_served hy, hreturned]
      refine foreseen_of_head? fun f' hf' => ?_
      have hmem := List.mem_of_mem_head? hf'
      exact (List.mem_append.mp hmem).elim (returned_not_inRing x f') (hlink.below f')
    rw [seen, shared_ring_keep hcount hwritten hclaimed, foreseen_update hframes (hother fun n y hy => by
      rw [hwritten]; exact hy), Function.update_eq_self]
    rfl
  | refuse hplace hmore =>
    have hrefusals := (hfair' l hl).refusals
    rw [hmore] at hrefusals
    simp at hrefusals

theorem seen_start : L.seen (L.whole T).start = (L.system T).start := by
  have hcount : (L.start : Shared N G).mCount = fun g => ((L.selfQueue T g).start).mCount := by
    funext g
    simp only [start, selfQueue, sizes, Contended.selfQueue]
    cases L.limit g <;> rfl
  show L.seen ⟨⟨L.start, fun _ => []⟩, fun g => (L.selfQueue T g).start⟩ = _
  rw [seen_eq hcount rfl]
  rfl

/-- **A run whose self queues are steady is one of the engine.** -/
theorem seen_reached [Fintype T] (h : (L.whole T).ReachedBy (fun s _ s' => L.Steady s s') s)
    (hsizes : ∀ g, ∀ l ∈ L.limit g, 2 ≤ l.queueSize) : (L.system T).Reached (L.seen s) := by
  refine h.simulate (f := L.seen) seen_start fun s a s' hr _ hs hok => ?_
  have hr' : (L.whole T).ReachedBy (fun s _ s' => L.Steady s s') s' := .step hr hs hok
  cases goes_of_step hs with
  | call hcall => exact .inr ⟨_, seen_call hcall, trivial⟩
  | exec hstack hf henter hexec =>
    refine .inr ⟨_, seen_exec (matched hr) (linked hr hsizes a.1) hstack hf (fun g hg => ?_) henter hexec,
      trivial⟩
    obtain ⟨l, hl⟩ := Option.isSome_iff_exists.mp hg
    obtain ⟨⟨-, hhigh, -⟩, hlow, -⟩ := hok g l hl
    exact ⟨hlow, hhigh⟩
  | @ring f rest g q frames hstack hf hg hq hresume =>
    have hfair : ∀ l, L.limit g = some l → Fair l q := fun l hl => by
      simpa using fair hr' hl (hsizes g l hl)
    rcases seen_ring (matched hr) (linked hr hsizes) (fun g l hl => fair hr hl (hsizes g l hl)) hfair
      hstack hf hg hq hresume with hstay | hstep
    · exact .inl hstay
    · exact .inr ⟨_, hstep, trivial⟩

/-- **Away from `ready` and `finish`, the self queue of a limited graph holds what `m_count`
counts, and if it is not empty at least `parallel` nodes of the graph are unfinished**, in a run whose
self queues are steady. -/
theorem queue_served [Fintype T] (h : (L.whole T).ReachedBy (fun s _ s' => L.Steady s s') s)
    (hsizes : ∀ g, ∀ l ∈ L.limit g, 2 ≤ l.queueSize) (hready : s.config.Without Frame.inReady)
    (hfinish : s.config.Without Frame.inFinish) (hl : L.limit g = some l) :
    ((s.queued g).length : ℤ) = max 0 (s.selfQueue g).mCount ∧
      (s.queued g ≠ [] → l.parallel ≤ (L.unfinished s.config.shared g).card) := by
  have hout : ∀ t, L.foreseen s.selfQueue t (s.config.stack t) = s.config.stack t := fun t => by
    refine foreseen_of_head? fun f hf => ?_
    have hmem := List.mem_of_mem_head? hf
    have h1 := hready t f hmem
    have h2 := hfinish t f hmem
    cases f with
    | enqueue n => cases h1
    | work u w =>
      cases w with
      | pop temp => cases h2
      | _ => rfl
    | _ => rfl
  have hseen : L.seen s = ⟨s.shared, s.config.stack⟩ := by
    rw [seen]
    exact congrArg _ (funext hout)
  have hreach := seen_reached h hsizes
  rw [hseen] at hreach
  exact served_fifo hreach hready hfinish hl

end Layout

/-! ### One limited graph -/

/-- Four nodes of a graph that is limited as those of `twoLimits`: to one node at a time, and two in
its queue. -/
def oneLimit : Layout (Fin 4) Unit where
  graphOf _ := ()
  limit _ := twoLimits.limit true

/-- A thread creates a node that requires nothing and takes so many steps. -/
def createBy (t : Fin 2) (d : Fin 4) (steps : ℕ) : List (Fin 2 × Option (Act (Fin 4) Unit)) :=
  (t, some (.create d (.edges []))) :: List.replicate steps (t, none)

theorem queue_served_second : ∃ s, (oneLimit.whole (Fin 2)).Reached s ∧ s.queued () = [1] ∧
    1 ≤ (oneLimit.unfinished s.config.shared ()).card := by
  obtain ⟨s, hs, hqueue, hready, hfinish⟩ := System.exists_reachedBy (oneLimit.whole (Fin 2))
    (fun s _ s' => oneLimit.Steady s s') (createBy 0 0 6 ++ createBy 1 1 16)
    (fun s => s.queued () = [1] ∧ s.config.Without Frame.inReady ∧ s.config.Without Frame.inFinish)
    (by decide)
  have hserved := Layout.queue_served hs (by decide) hready hfinish (g := ()) rfl
  exact ⟨s, hs.reached, hqueue, hserved.2 (by rw [hqueue]; exact List.cons_ne_nil 1 [])⟩

/-- A push loads the read counter before the only queued node is popped and the write counter after
another was pushed: it is refused by a ring with a free slot, and `m_count` stays above the queue. -/
theorem refused_with_room : ¬ ∀ s, (oneLimit.whole (Fin 2)).ReachedBy
    (fun _ _ s' => (s'.selfQueue ()).mCount ≤ alignSize 2 ∧ (s'.queued ()).length < alignSize 2) s →
    s.config.Without Frame.inReady → s.config.Without Frame.inFinish →
    ((s.queued ()).length : ℤ) = max 0 (s.selfQueue ()).mCount := by
  intro h
  obtain ⟨s, hs, hlength, hcount, hready, hfinish⟩ := System.exists_reachedBy (oneLimit.whole (Fin 2))
    (fun _ _ s' => (s'.selfQueue ()).mCount ≤ alignSize 2 ∧ (s'.queued ()).length < alignSize 2)
    (createBy 0 0 6 ++ createBy 0 1 16 ++ createBy 1 2 6 ++
      ((0, some (.take 0)) :: List.replicate 25 (0, none)) ++ createBy 0 3 16 ++ List.replicate 2 (1, none))
    (fun s => (s.queued ()).length = 1 ∧ (s.selfQueue ()).mCount = 2 ∧
      s.config.Without Frame.inReady ∧ s.config.Without Frame.inFinish) (by decide)
  have heq := h s hs hready hfinish
  rw [hlength, hcount] at heq
  exact absurd heq (by decide)

end QuietFlow.Engine
