import QuietFlow.Graph.Released

/-! Edges: on whose behalf a node's `wait_count` is decremented.

Each entry of the required nodes is settled once: by the builder, by a bit of the upstream's
bitmap or by an entry of its `down_streams`. `paid_add` is the account of one upstream
and one node. It rests on the bitmap: an `add_downstream` loads and stores the word
without a lock, so it holds in the runs whose stores drop no bit (`lossless`). -/
namespace QuietFlow.Engine
open Runs Program

variable {N G : Type} [DecidableEq N]

/-! ### Statuses and bitmaps of finished nodes -/

/-- What the status and the saved bitmap of a node say about its worker. -/
structure Finished (x : Shared N G) : Prop where
  status : ∀ u, (x.status u).ended = true ↔ u ∈ x.passed .finish
  bak : ∀ u, x.fastDownStramsBak u ≠ bakInit ↔ u ∈ x.passed .snapshot

namespace Layout
variable {L : Layout N G} {x x' : Shared N G} {old new : List (Frame N G)}

omit [DecidableEq N] in
/-- A bitmap of downstream nodes is not the initial value of the saved one. -/
theorem Kept.ne_bakInit (hk : L.Kept x) {u : N} {word : BitVec 64} (hw : x.Marks u word) :
    word ≠ bakInit := by
  intro he
  have hbit : word.getLsbD 63 = true := by rw [he]; decide
  obtain ⟨d, hd, hid⟩ := hw 63 hbit
  have hlt := (hk.marked u d hd).2.2.2
  omega

variable [DecidableEq G]

theorem finished_step (h : L.Effect x old x' new) (hk : L.Kept x)
    (hf : Finished x) : Finished x' := by
  have hstatus : ∀ u st, (st : RunningStatus).ended = (x.status u).ended →
      ∀ v, ((Function.update x.status u st) v).ended = true ↔ v ∈ x.passed .finish := by
    intro u st hst v
    by_cases hv : v = u
    · subst hv
      rw [Function.update_self, hst]
      exact hf.status v
    · rw [Function.update_of_ne hv]
      exact hf.status v
  cases h
  case taken u hst => exact ⟨hstatus u _ (by rw [hst]; rfl), hf.bak⟩
  case resume u hst => exact ⟨hstatus u _ (by rw [hst]; rfl), hf.bak⟩
  case left u next hst => exact ⟨hstatus u _ (by rw [hst]; rfl), hf.bak⟩
  case running u hst =>
    refine ⟨fun v => ?_, hf.bak⟩
    by_cases hv : v = u
    · subst hv
      simp [RunningStatus.ended]
    · simpa [Function.update_of_ne hv, hv] using hf.status v
  case snapshot u =>
    refine ⟨hf.status, fun v => ?_⟩
    by_cases hv : v = u
    · subst hv
      simpa using hk.ne_bakInit (hk.fast v)
    · simpa [Function.update_of_ne hv, hv] using hf.bak v
  all_goals exact ⟨hf.status, hf.bak⟩

section Reached
variable {T : Type} [DecidableEq T] [Fintype T] {s s' : Config (Shared N G) (Frame N G) T}
  {ok : Config (Shared N G) (Frame N G) T → T × Option (Act N G) → Config (Shared N G) (Frame N G) T → Prop}
  {t : T} {a : Option (Act N G)}

theorem finished (h : (L.system T).ReachedBy ok s) : Finished s.shared := by
  refine (invariant (J := fun _ _ => True) ?_ (fun s t a old s' new htook hf _ => ?_) h).1
  · exact ⟨fun u => by simp [program, start, RunningStatus.ended, RunningStatus.value],
      fun u => by simp [program, start]⟩
  · exact ⟨finished_step (effect_of_moves htook.moves) (kept htook.reached).1 hf, fun _ _ => trivial,
      fun _ _ _ => trivial⟩

theorem over_of_passed (h : (L.system T).ReachedBy ok s) {m : Stage} (hm : Stage.finish.upTo m = true)
    {u : N} (hu : u ∈ s.shared.passed m) : (s.shared.status u).ended = true :=
  ((finished h).status u).mpr (passed_mono h hm hu)

theorem bak_of_not_over (h : (L.system T).ReachedBy ok s) {u : N}
    (hu : (s.shared.status u).ended = false) : s.shared.fastDownStramsBak u = bakInit := by
  by_contra hne
  have hover := over_of_passed h rfl (((finished h).bak u).mp hne)
  rw [hu] at hover
  cases hover

/-- One frame builds a node. -/
theorem builder_unique (h : (L.system T).ReachedBy ok s) {d : N} {b b' : Build N G}
    (hb : s.HasFrame (.build d b)) (hb' : s.HasFrame (.build d b')) : b = b' := by
  have hadd := passed_add h .built d
  have hone : s.shared.entered .built d ≤ 1 := by
    have hcreates : Stage.built.creates = true := rfl
    rw [Shared.entered, hcreates, cond_true]
    cases (s.shared.calls d).isSome <;> simp
  have hmem : ∀ b : Build N G, d ∈ Frame.awaits .built (.build d b) := by
    intro b
    cases b <;> simp [Frame.awaits, Build.next, Stage.upTo, Stage.creates, Stage.rank]
  have hsame := frame_unique (by omega) hb hb' (hmem b) (hmem b')
  cases hsame
  rfl

end Reached

end Layout

/-! ### Bits that are kept -/

/-- The step stores no bitmap that drops a bit of the word in memory or, once `finish` has saved
the bitmap, of the saved word. -/
def lossless {T : Type} (s : Config (Shared N G) (Frame N G) T) (l : T × Option (Act N G)) : Prop :=
  match l.2, (s.stack l.1).head? with
  | none, some (.build d (.edge u (.storeBits word) _)) =>
    let word' := bitMapSet word (s.shared.nodeId d) fastNodeMaxNum
    let kept := if s.shared.fastDownStramsBak u = bakInit then s.shared.fastDownStrams u
      else s.shared.fastDownStramsBak u
    kept &&& word' = kept
  | _, _ => True

instance {T : Type} (s : Config (Shared N G) (Frame N G) T) : ∀ l, Decidable (lossless s l)
  | (t, call) => by
    unfold lossless
    dsimp only
    split <;> infer_instance

/-- A stored bit is not lost before it is saved, and no saved bit is. -/
structure Held (x : Shared N G) : Prop where
  fast : ∀ u, ∀ d ∈ x.marked u, x.fastDownStramsBak u = bakInit →
    (x.fastDownStrams u).getLsbD (x.nodeId d) = true
  bak : ∀ u, x.fastDownStramsBak u ≠ bakInit → ∀ i, (x.fastDownStramsBak u).getLsbD i = true →
    (x.fastDownStrams u).getLsbD i = true

/-- The bit of `d` is not saved yet, or it is among those that are. -/
def Shared.InTime (x : Shared N G) (u d : N) : Prop :=
  x.fastDownStramsBak u = bakInit ∨ (x.fastDownStramsBak u).getLsbD (x.nodeId d) = true

/-- What an `add_downstream` knows about an earlier one for the same nodes. -/
def Settles (x : Shared N G) : Frame N G → Prop
  | .build d (.edge u .sameGraph _) | .build d (.edge u .testBit _) =>
    d ∈ x.marked u → x.InTime u d
  | .build d (.edge u .dup _) => x.InTime u d
  | .build d (.edge u .loadBits _) | .build d (.edge u (.storeBits _) _) => d ∉ x.marked u
  | _ => True

namespace Layout
variable {L : Layout N G} {x x' : Shared N G} {old new : List (Frame N G)}

omit [DecidableEq N] in
theorem held_grows (hh : Held x) (hk : L.Kept x) (hg : Grows x x')
    (hfast : x'.fastDownStrams = x.fastDownStrams) (hbak : x'.fastDownStramsBak = x.fastDownStramsBak)
    (hmarked : x'.marked = x.marked) : Held x' := by
  refine ⟨fun u d hd hinit => ?_, fun u hne i hi => ?_⟩
  · rw [hmarked] at hd
    rw [hbak] at hinit
    rw [hfast, hg.nodeId d (hk.marked u d hd).1.1]
    exact hh.fast u d hd hinit
  · rw [hbak] at hne hi
    rw [hfast]
    exact hh.bak u hne i hi

variable [DecidableEq G]

theorem held_step (h : L.Effect x old x' new) (hk : L.Kept x) (hold : ∀ f ∈ old, L.Known x f)
    (hg : Grows x x')
    (hkeep : ∀ d u word rest, old = [.build d (.edge u (.storeBits word) rest)] →
      ∀ i, ((if x.fastDownStramsBak u = bakInit then x.fastDownStrams u
        else x.fastDownStramsBak u).getLsbD i = true) →
        (bitMapSet word (x.nodeId d) fastNodeMaxNum).getLsbD i = true)
    (hh : Held x) : Held x' := by
  cases h
  case storeBits d u word rest =>
    have hkept := hkeep d u word rest rfl
    have hnear : x.nodeId d < 63 := (hold _ List.mem_cons_self).2.2.1.2
    refine ⟨fun v n hn hinit => ?_, fun v hne i hi => ?_⟩
    · rcases mem_push_cases hn with hmem | ⟨rfl, rfl⟩
      · by_cases hv : v = u
        · subst hv
          rw [if_pos hinit] at hkept
          simpa using hkept _ (hh.fast v n hmem hinit)
        · simpa [Function.update_of_ne hv] using hh.fast v n hmem hinit
      · have hlt : x.nodeId n < fastNodeMaxNum := hnear
        simp [getLsbD_bitMapSet, hlt]
    · by_cases hv : v = u
      · subst hv
        rw [if_neg hne] at hkept
        simpa using hkept i hi
      · simpa [Function.update_of_ne hv] using hh.bak v hne i hi
  case snapshot u =>
    refine ⟨fun v n hn hinit => ?_, fun v hne i hi => ?_⟩
    · by_cases hv : v = u
      · subst hv
        simp only [Shared.pass, Function.update_self] at hinit
        exact absurd hinit (hk.ne_bakInit (hk.fast v))
      · simp only [Shared.pass, Function.update_of_ne hv] at hinit
        exact hh.fast v n hn hinit
    · by_cases hv : v = u
      · subst hv
        simpa using hi
      · simp only [Shared.pass, Function.update_of_ne hv] at hne hi
        exact hh.bak v hne i hi
  all_goals exact held_grows hh hk hg rfl rfl rfl

theorem settles_new (h : L.Effect x old x' new) (hold : ∀ f ∈ old, L.Known x f)
    (hnew : ∀ f ∈ new, L.Known x' f)
    (hstatus : ∀ u, (x.status u).ended = false → x.fastDownStramsBak u = bakInit)
    (hh : Held x) (hset : ∀ f ∈ old, Settles x f) : ∀ f ∈ new, Settles x' f := by
  cases h
  case status d u rest hst =>
    exact List.forall_mem_singleton.mpr fun _ => .inl (hstatus u hst)
  case fast d u rest hparent hgraph hid =>
    have hold' := hset _ List.mem_cons_self
    exact List.forall_mem_singleton.mpr hold'
  case testSet d u rest hbit =>
    have hmem : d ∈ x.marked u := (hnew _ List.mem_cons_self).2.2
    exact List.forall_mem_singleton.mpr (hset _ List.mem_cons_self hmem)
  case testClear d u rest hbit =>
    refine List.forall_mem_singleton.mpr fun hmem => ?_
    have hlt : x.nodeId d < fastNodeMaxNum := (hold _ List.mem_cons_self).2.2.2
    rw [bitMapGet_eq, decide_eq_true hlt, Bool.true_and] at hbit
    have hfast : (x.fastDownStrams u).getLsbD (x.nodeId d) = true := by
      by_cases hinit : x.fastDownStramsBak u = bakInit
      · exact hh.fast u d hmem hinit
      · have htime : x.InTime u d := hset _ List.mem_cons_self hmem
        exact hh.bak u hinit _ (htime.resolve_left hinit)
    rw [hbit] at hfast
    cases hfast
  case loadBits d u rest =>
    have hnot := hset _ List.mem_cons_self
    exact List.forall_mem_singleton.mpr hnot
  case sub d r rest | dup d u rest | pop =>
    simp only [List.forall_mem_append, List.forall_mem_map, List.forall_mem_singleton]
    exact ⟨fun _ _ => trivial, trivial⟩
  case countDown u notified others last hone hleaves =>
    simp only [readyAll, List.forall_mem_append, List.forall_mem_map, List.forall_mem_singleton]
    exact ⟨fun _ _ => trivial, trivial⟩
  case graphNotifyDone u notified others last hleaves =>
    simp only [readyAll, List.forall_mem_append, List.forall_mem_map, List.forall_mem_singleton]
    exact ⟨fun _ _ => trivial, trivial⟩
  case store d c => cases c <;> simp [Call.first, Settles]
  all_goals simp [Settles]

theorem marked_step (h : L.Effect x old x' new) {u d : N} (hd : d ∈ x'.marked u) :
    d ∈ x.marked u ∨ ∃ rest, .build d (.edge u .readBak rest) ∈ new := by
  cases h
  case storeBits d' u' word rest =>
    rcases mem_push_cases hd with hd | ⟨rfl, rfl⟩
    · exact .inl hd
    · exact .inr ⟨rest, List.mem_cons_self⟩
  all_goals exact .inl hd

theorem bak_step (h : L.Effect x old x' new) (u : N) :
    x'.fastDownStramsBak u = x.fastDownStramsBak u ∨
      old = [.work u .snapshot] ∧ x'.fastDownStramsBak u = x.fastDownStrams u := by
  cases h
  case snapshot v =>
    by_cases hv : u = v
    · subst hv
      exact .inr ⟨rfl, by simp⟩
    · exact .inl (by simp [Function.update_of_ne hv])
  all_goals exact .inl rfl

theorem inTime_keep (h : L.Effect x old x' new) (hk : L.Kept x) (hg : Grows x x') (hh : Held x)
    (hbak : ∀ u, old = [.work u .snapshot] → x.fastDownStramsBak u = bakInit) {u d : N}
    (hd : d ∈ x.marked u) (htime : x.InTime u d) : x'.InTime u d := by
  have hid := hg.nodeId d (hk.marked u d hd).1.1
  rcases bak_step h u with hsame | ⟨hold, hsaved⟩
  · rw [Shared.InTime, hsame, hid]
    exact htime
  · refine .inr ?_
    rw [hsaved, hid]
    exact hh.fast u d hd (hbak u hold)

/-- What an `add_downstream` knows stays true, as no other frame builds its node. -/
theorem settles_keep (h : L.Effect x old x' new) (hk : L.Kept x) (hg : Grows x x') (hh : Held x)
    (hbak : ∀ u, old = [.work u .snapshot] → x.fastDownStramsBak u = bakInit) {f : Frame N G}
    (hf : L.Known x f) (hone : ∀ d b b', .build d b ∈ new → f = .build d b' → b' = b)
    (hset : Settles x f) : Settles x' f := by
  have hmarked : ∀ d u e rest, f = .build d (.edge u e rest) → e ≠ .readBak → d ∈ x'.marked u →
      d ∈ x.marked u := by
    intro d u e rest hfe he hmem
    rcases marked_step h hmem with hmem | ⟨rest', hnew⟩
    · exact hmem
    · cases hone d _ _ hnew hfe
      exact absurd rfl he
  match f, hset with
  | .build d (.edge u .sameGraph rest), hset | .build d (.edge u .testBit rest), hset =>
    intro hmem
    have hd := hmarked d u _ rest rfl (by simp) hmem
    exact inTime_keep h hk hg hh hbak hd (hset hd)
  | .build d (.edge u .dup rest), hset => exact inTime_keep h hk hg hh hbak hf.2.2 hset
  | .build d (.edge u .loadBits rest), hset | .build d (.edge u (.storeBits word) rest), hset =>
    exact fun hmem => hset (hmarked d u _ rest rfl (by simp) hmem)
  | .build _ (.edge _ .status _), _ | .build _ (.edge _ .readBak _), _ | .build _ (.edge _ .lock _), _
  | .build _ (.count _), _ | .build _ (.store _), _ | .build _ (.arm _), _ | .build _ (.edges _), _
  | .build _ (.sub _ _), _ | .build _ (.check _), _ | .build _ (.recheck _), _ | .ready _ _, _
  | .enqueue _, _ | .dispatch _, _ | .work _ _, _ => trivial

section Reached
variable {T : Type} [DecidableEq T] [Fintype T] {s s' : Config (Shared N G) (Frame N G) T}
  {t : T} {a : Option (Act N G)}

omit [Fintype T] in
theorem kept_bits {ok : Config (Shared N G) (Frame N G) T → T × Option (Act N G) →
    Config (Shared N G) (Frame N G) T → Prop} (h : L.program.Took ok s t a old s' new)
    (hok : lossless s (t, a)) (d u : N) (word : BitVec 64) (rest : List (Option N))
    (hold : old = [.build d (.edge u (.storeBits word) rest)]) (i : ℕ)
    (hi : (if s.shared.fastDownStramsBak u = bakInit then s.shared.fastDownStrams u
      else s.shared.fastDownStramsBak u).getLsbD i = true) :
    (bitMapSet word (s.shared.nodeId d) fastNodeMaxNum).getLsbD i = true := by
  subst hold
  obtain ⟨rfl, htop⟩ := h.exec
  simp only [lossless, htop] at hok
  rw [← hok, BitVec.getLsbD_and, Bool.and_eq_true] at hi
  exact hi.2

/-- In a run without lost bits every frame knows what became of its node's bits. -/
theorem held (h : (L.system T).ReachedBy (fun s l _ => lossless s l) s) :
    Held s.shared ∧ ∀ f, s.HasFrame f → Settles s.shared f := by
  refine invariant_stay ?_ (fun s t a old s' new htook hh hset => ?_) h
  · exact ⟨fun u d hd => by simp [program, start] at hd, fun u hne => absurd rfl hne⟩
  · obtain ⟨hk, hknown⟩ := kept htook.reached
    obtain ⟨-, hknown'⟩ := kept htook.reached_next
    have heff := effect_of_moves htook.moves
    have hg := grows htook
    have hold : ∀ f ∈ old, L.Known s.shared f := fun f hf => hknown f (htook.hasFrame hf)
    refine ⟨held_step heff hk hold hg (kept_bits htook htook.ok) hh,
      settles_new heff hold (fun f hf => hknown' f (htook.hasFrame_new hf))
        (fun u => bak_of_not_over htook.reached) hh fun f hf => hset f (htook.hasFrame hf), ?_⟩
    intro f hf hf' hsettles
    refine settles_keep heff hk hg hh (fun u he => ?_) (hknown f hf) (fun d b b' hb he => ?_) hsettles
    · by_contra hne
      exact not_passed_worker htook.reached (m := .snapshot) rfl
        (htook.hasFrame (he ▸ List.mem_cons_self)) (by simp [Frame.awaits, Work.next, Stage.upTo])
        (((finished htook.reached).bak u).mp hne)
    · exact builder_unique htook.reached_next (he ▸ hf') (htook.hasFrame_new hb)

end Reached
end Layout

/-! ### The account of an edge -/

instance (x : Shared N G) (u d : N) : Decidable (x.InTime u d) :=
  inferInstanceAs (Decidable (_ ∨ _))

/-- The nodes a call requires. -/
def Call.required : Call N G → List (Option N)
  | .edges required => required
  | .graph _ => []

/-- The nodes a node was created to require. -/
def Shared.required (x : Shared N G) (d : N) : List (Option N) := (x.calls d).elim [] Call.required

/-- Entries for `d` in the bitmap and in the `down_streams` that `finish` has yet to take. -/
def Shared.holds (x : Shared N G) (d : N) : Option N → ℤ
  | none => 0
  | some u => (if d ∈ x.marked u ∧ x.fastDownStramsBak u = bakInit then 1 else 0) +
    if u ∈ x.passed .drain then 0 else (x.downStreams u).count d

/-- Whether an `add_downstream` has yet to settle its entry. -/
def Edge.owes (x : Shared N G) (u d : N) : Edge → ℤ
  | .readBak => if x.InTime u d then 0 else 1
  | _ => 1

/-- How many entries for an upstream the builder of `d` has yet to settle. -/
def Build.owes (x : Shared N G) (d : N) (o : Option N) : Build N G → ℤ
  | .count c | .store c => c.required.count o
  | .arm rest | .edges rest => rest.count o
  | .sub r rest => (r :: rest).count o
  | .edge u e rest => (if some u = o then e.owes x u d else 0) + rest.count o
  | .check _ | .recheck _ => 0

/-- How often the worker of `u` has yet to decrement `d`. -/
def Work.owes (fastNodes : ℕ → Option N) (d : N) : Work N → ℤ
  | .bits idxs _ => (idxs.filterMap fastNodes).count d
  | .notifyBit e idxs _ => (e :: idxs.filterMap fastNodes).count d
  | .notify list _ => list.count d
  | _ => 0

def Frame.owes (L : Layout N G) (x : Shared N G) (d : N) (o : Option N) : Frame N G → ℤ
  | .build n b => if n = d then b.owes x d o else 0
  | .work u w => if some u = o then w.owes (x.fastNodes (L.graphOf u)) d else 0
  | _ => 0

namespace Layout
variable {L : Layout N G} {x x' : Shared N G} {old new : List (Frame N G)} {d u : N} {o : Option N}

omit [DecidableEq N] in
/-- What a partial function finds in a list, where a key leads back. -/
theorem filterMap_sublist {f : ℕ → Option N} {key : N → ℕ} (l : List ℕ)
    (h : ∀ i ∈ l, ∀ n, f i = some n → key n = i) : ((l.filterMap f).map key).Sublist l := by
  induction l with
  | nil => exact .slnil
  | cons i rest ih =>
    have hrest := ih fun j hj => h j (List.mem_cons_of_mem i hj)
    cases hf : f i with
    | none => simpa [List.filterMap_cons, hf] using hrest.cons i
    | some n => simpa [List.filterMap_cons, hf, h i List.mem_cons_self n hf] using hrest.cons_cons i

/-- `get_node` finds the nodes whose bits are set, each of them once. -/
theorem count_found {word : BitVec 64} {f : ℕ → Option N} {key : N → ℕ} {ns : List N}
    (hset : ∀ i, word.getLsbD i = true → ∃ n ∈ ns, key n = i)
    (hfound : ∀ n ∈ ns, key n < 63 ∧ word.getLsbD (key n) = true ∧ f (key n) = some n) (d : N) :
    ((bitMapIdx word fastNodeMaxNum).filterMap f).count d = if d ∈ ns then 1 else 0 := by
  have hnode : ∀ i ∈ bitMapIdx word fastNodeMaxNum, ∀ n, f i = some n → n ∈ ns ∧ key n = i := by
    intro i hi n hn
    obtain ⟨n', hn', rfl⟩ := hset i (mem_bitMapIdx.mp hi).2
    cases (hfound n' hn').2.2.symm.trans hn
    exact ⟨hn', rfl⟩
  have hnodup : ((bitMapIdx word fastNodeMaxNum).filterMap f).Nodup :=
    List.Nodup.of_map key ((nodup_bitMapIdx _ _).sublist
      (filterMap_sublist _ fun i hi n hn => (hnode i hi n hn).2))
  split
  · next hd =>
    obtain ⟨hlt, hbit, hfast⟩ := hfound d hd
    exact List.count_eq_one_of_mem hnodup
      (List.mem_filterMap.mpr ⟨key d, mem_bitMapIdx.mpr ⟨hlt, hbit⟩, hfast⟩)
  · next hd =>
    refine List.count_eq_zero.mpr fun hmem => hd ?_
    obtain ⟨i, hi, hid⟩ := List.mem_filterMap.mp hmem
    exact (hnode i hi d hid).1

/-- The bits that `finish` takes are those of the nodes that are marked. -/
theorem filterMap_bits (hk : L.Kept x) (hh : Held x)
    (hinit : x.fastDownStramsBak u = bakInit) :
    ((bitMapIdx (x.fastDownStrams u) fastNodeMaxNum).filterMap (x.fastNodes (L.graphOf u))).count d =
      if d ∈ x.marked u then 1 else 0 := by
  refine count_found (hk.fast u) (fun n hn => ?_) d
  obtain ⟨hreq, -, hgraph, hlt⟩ := hk.marked u n hn
  exact ⟨hlt, hh.fast u n hn hinit, hgraph ▸ (hk.stored n hreq.1).2 hlt⟩

variable [DecidableEq G]

/-- The frames that stay owe what they owed. -/
theorem owes_keep (h : L.Effect x old x' new) (hk : L.Kept x) (hk' : L.Kept x') (hg : Grows x x')
    (hh : Held x) (hbak : ∀ u, old = [.work u .snapshot] → x.fastDownStramsBak u = bakInit)
    {f : Frame N G} (hf : L.Known x f) : f.owes L x' d o = f.owes L x d o := by
  have htime : ∀ u n, n ∈ x.marked u → (x'.InTime u n ↔ x.InTime u n) := fun u n hn => by
    refine ⟨fun htime => ?_, inTime_keep h hk hg hh hbak hn⟩
    rcases bak_step h u with hsame | ⟨hold, -⟩
    · rw [Shared.InTime, hsame, hg.nodeId n (hk.marked u n hn).1.1] at htime
      exact htime
    · exact .inl (hbak u hold)
  have hnodes : ∀ u (idxs : List ℕ), (∀ i ∈ idxs, ∃ n ∈ x.marked u, x.nodeId n = i) →
      idxs.filterMap (x'.fastNodes (L.graphOf u)) = idxs.filterMap (x.fastNodes (L.graphOf u)) := by
    intro u idxs hidxs
    refine List.filterMap_congr fun i hi => ?_
    obtain ⟨n, hn, rfl⟩ := hidxs i hi
    obtain ⟨hreq, -, hgraph, hlt⟩ := hk.marked u n hn
    have hid := hg.nodeId n hreq.1
    have hbefore := (hk.stored n hreq.1).2 hlt
    have hafter := (hk'.stored n (hg.passed _ n hreq.1)).2 (hid ▸ hlt)
    rw [hid] at hafter
    rw [← hgraph, hbefore, hafter]
  match f, hf with
  | .build n (.edge u .readBak rest), hf =>
    have hiff := htime u n hf.2.2
    simp only [Frame.owes, Build.owes, Edge.owes]
    by_cases hn : n = d
    · subst hn
      simp only [hiff]
    · simp only [if_neg hn]
  | .work u (.bits idxs notified), hf =>
    simp only [Frame.owes, Work.owes, hnodes u idxs hf]
  | .work u (.notifyBit e idxs notified), hf =>
    simp only [Frame.owes, Work.owes, hnodes u idxs hf.2]
  | .build n (.edge u .status rest), _ | .build n (.edge u .sameGraph rest), _
  | .build n (.edge u .testBit rest), _ | .build n (.edge u .dup rest), _
  | .build n (.edge u .loadBits rest), _ | .build n (.edge u (.storeBits _) rest), _
  | .build n (.edge u .lock rest), _ | .build n (.count c), _ | .build n (.store c), _
  | .build n (.arm _), _ | .build n (.edges _), _ | .build n (.sub _ _), _ | .build n (.check _), _
  | .build n (.recheck _), _ | .ready _ _, _ | .enqueue _, _ | .dispatch _, _ | .work u .taken, _
  | .work u .resume, _ | .work u .running, _ | .work u .snapshot, _ | .work u (.drain _), _
  | .work u (.notify _ _), _ | .work u (.graphCount _), _ | .work u (.graphDrain _), _
  | .work u (.graphNotify _ _), _ | .work u (.tryEnqueue _), _ | .work u (.tryDequeue _), _
  | .work u (.pop _), _ | .work u (.leave _), _ | .work u (.leavePopped _), _
  | .work u (.left _), _ => rfl

theorem owes_step (h : L.Effect x old x' new) (hk : L.Kept x) (hold : ∀ f ∈ old, L.Known x f)
    (hnew : ∀ f ∈ new, L.Known x' f) (hh : Held x) (hset : ∀ f ∈ old, Settles x f)
    (hbak : ∀ u, old = [.work u .snapshot] → x.fastDownStramsBak u = bakInit)
    (hdrain : ∀ u notified, old = [.work u (.drain notified)] → u ∉ x.passed .drain)
    (hstatus : ∀ u, (x.status u).ended = false → u ∉ x.passed .drain) :
    ((x'.paid d).count o : ℤ) + x'.holds d o - (x'.required d).count o +
        weight (Frame.owes L x' d o) new =
      (x.paid d).count o + x.holds d o - (x.required d).count o +
        weight (Frame.owes L x d o) old := by
  have hwoken : ∀ y n, weight (Frame.owes L y d o) ((x.woken n).map (.ready (.create n))) = 0 :=
    fun y n => weight_eq_zero fun f hf => by
      obtain ⟨k, -, rfl⟩ := List.mem_map.mp hf
      rfl
  have hready : ∀ y u ns, weight (Frame.owes L y d o) (readyAll u ns) = 0 := fun y u ns =>
    weight_eq_zero fun f hf => by
      obtain ⟨k, -, rfl⟩ := List.mem_map.mp hf
      rfl
  have hkeep : x'.paid d = x.paid d → x'.holds d o = x.holds d o → x'.required d = x.required d →
      weight (Frame.owes L x' d o) new = weight (Frame.owes L x d o) old →
      ((x'.paid d).count o : ℤ) + x'.holds d o - (x'.required d).count o +
        weight (Frame.owes L x' d o) new =
      (x.paid d).count o + x.holds d o - (x.required d).count o +
        weight (Frame.owes L x d o) old := fun hpaid hholds hrequired hweight => by
    rw [hpaid, hholds, hrequired, hweight]
  have hpay : ∀ r n, x'.paid = Function.update x.paid n (x.paid n ++ [r]) →
      x'.holds d o = x.holds d o → x'.required d = x.required d →
      weight (Frame.owes L x' d o) new + (if n = d then (([r].count o : ℕ) : ℤ) else 0) =
        weight (Frame.owes L x d o) old →
      ((x'.paid d).count o : ℤ) + x'.holds d o - (x'.required d).count o +
        weight (Frame.owes L x' d o) new =
      (x.paid d).count o + x.holds d o - (x.required d).count o +
        weight (Frame.owes L x d o) old := fun r n hpaid hholds hrequired hweight => by
    rw [hpaid, hholds, hrequired, ← hweight]
    by_cases hn : n = d
    · subst hn
      rw [Function.update_self, List.count_append, if_pos rfl]
      push_cast
      omega
    · rw [Function.update_of_ne (Ne.symm hn), if_neg hn, add_zero]
  cases h
  case create n c hfree =>
    by_cases hn : n = d
    · subst hn
      simp [Shared.holds, Shared.required, Frame.owes, Build.owes, hfree]
    · refine hkeep rfl rfl ?_ (by simp [Frame.owes, hn])
      simp [Shared.required, Function.update_of_ne (Ne.symm hn)]
  case store n c =>
    refine hkeep rfl rfl rfl ?_
    cases c <;> simp [Frame.owes, Build.owes, Call.first, Call.required]
  case edgeNull n rest | edgeSelf n rest => exact hkeep rfl rfl rfl (by simp [Frame.owes, Build.owes])
  case edge n r rest hne =>
    refine hkeep rfl rfl rfl ?_
    simp [Frame.owes, Build.owes, Edge.owes, List.count_cons, add_comm]
  case sub n r rest =>
    refine hpay r n rfl rfl rfl ?_
    rw [weight_append, hwoken]
    by_cases hn : n = d
    · simp [Frame.owes, Build.owes, hn, List.count_cons]
    · simp [Frame.owes, hn]
  case statusOver n u rest hst | lockOver n u rest hst =>
    refine hkeep rfl rfl rfl ?_
    simp [Frame.owes, Build.owes, Edge.owes, List.count_cons, add_comm]
  case dup n u rest =>
    have htime : x.InTime u n := hset _ List.mem_cons_self
    have htime' : (x.pay (some u) n).InTime u n := htime
    refine hpay (some u) n rfl rfl rfl ?_
    rw [weight_append, hwoken]
    by_cases hn : n = d
    · subst hn
      simp only [weight_cons, weight_nil, Frame.owes, Build.owes, Edge.owes, if_true, if_pos htime']
      simp [List.count_cons]
      omega
    · simp [Frame.owes, hn]
  case storeBits n u word rest =>
    have hnot : n ∉ x.marked u := hset _ List.mem_cons_self
    obtain ⟨hreq, -, hnear, -⟩ := hold _ List.mem_cons_self
    have htime : x.InTime u n ↔ x.fastDownStramsBak u = bakInit := by
      refine ⟨fun htime => htime.elim id fun hbit => ?_, .inl⟩
      refine (hk.bak u).elim id fun hmarks => ?_
      obtain ⟨m, hm, hid⟩ := hmarks _ hbit
      obtain ⟨hmreq, -, hmgraph, hmlt⟩ := hk.marked u m hm
      exact absurd (hk.fast_unique hmreq.1 hreq.1 (hmgraph.trans hnear.1.symm) hid hmlt ▸ hm) hnot
    by_cases hn : n = d
    · subst hn
      by_cases ho : some u = o
      · subst ho
        have hiff : Shared.InTime {x with
            fastDownStrams :=
              Function.update x.fastDownStrams u (bitMapSet word (x.nodeId n) fastNodeMaxNum)
            marked := Function.update x.marked u (x.marked u ++ [n])} u n ↔
            x.fastDownStramsBak u = bakInit := htime
        by_cases hinit : x.fastDownStramsBak u = bakInit
        · simp [Shared.holds, Shared.required, Frame.owes, Build.owes, Edge.owes, hiff, hinit, hnot]
          omega
        · simp [Shared.holds, Shared.required, Frame.owes, Build.owes, Edge.owes, hiff, hinit]
      · have hholds : ∀ v, some v = o → v ≠ u := fun v hv he => ho (he ▸ hv)
        refine hkeep rfl ?_ rfl (by simp [Frame.owes, Build.owes, ho])
        cases o with
        | none => rfl
        | some v => simp [Shared.holds, Function.update_of_ne (hholds v rfl)]
    · refine hkeep rfl ?_ rfl (by simp [Frame.owes, hn])
      cases o with
      | none => rfl
      | some v =>
        by_cases hv : v = u
        · subst hv
          simp [Shared.holds, Ne.symm hn]
        · simp [Shared.holds, Function.update_of_ne hv]
  case bakKept n u rest hkeeps =>
    refine hkeep rfl rfl rfl ?_
    have htime : x.InTime u n := hkeeps.imp_right fun hbit => by
      rw [bitMapGet_eq, Bool.and_eq_true] at hbit
      exact hbit.2
    by_cases hn : n = d
    · subst hn
      simp [Frame.owes, Build.owes, Edge.owes, htime]
    · simp [Frame.owes, hn]
  case bakMissed n u rest hne hbit =>
    refine hkeep rfl rfl rfl ?_
    have hmem : n ∈ x.marked u := (hold _ List.mem_cons_self).2.2
    have hlt : x.nodeId n < fastNodeMaxNum := (hk.marked u n hmem).2.2.2
    rw [bitMapGet_eq, decide_eq_true hlt, Bool.true_and] at hbit
    have htime : ¬x.InTime u n := not_or.mpr ⟨hne, by rw [hbit]; exact Bool.false_ne_true⟩
    by_cases hn : n = d
    · subst hn
      simp [Frame.owes, Build.owes, Edge.owes, htime, List.count_cons, add_comm]
    · simp [Frame.owes, hn]
  case lock n u rest hst =>
    have hnot := hstatus u hst
    by_cases ho : some u = o
    · subst ho
      by_cases hn : n = d
      · subst hn
        simp [Shared.holds, Shared.required, Frame.owes, Build.owes, Edge.owes, hnot]
        omega
      · simp [Shared.holds, Shared.required, Frame.owes, hn]
    · refine hkeep rfl ?_ rfl (by simp [Frame.owes, Build.owes, ho])
      cases o with
      | none => rfl
      | some v =>
        have hv : v ≠ u := fun he => ho (by rw [he])
        simp [Shared.holds, Function.update_of_ne hv]
  case snapshot u =>
    have hinit := hbak u rfl
    have hbits := filterMap_bits (d := d) hk hh hinit
    by_cases ho : some u = o
    · subst ho
      have hne := hk.ne_bakInit (hk.fast u)
      by_cases hd : d ∈ x.marked u
      · simp [Shared.holds, Shared.required, Frame.owes, Work.owes, hinit, hbits, hne, hd]
        omega
      · simp [Shared.holds, Shared.required, Frame.owes, Work.owes, hbits, hd]
    · refine hkeep rfl ?_ rfl (by simp [Frame.owes, ho])
      cases o with
      | none => rfl
      | some v =>
        have hv : v ≠ u := fun he => ho (by rw [he])
        simp [Shared.holds, Function.update_of_ne hv]
  case bits u idx idxs notified n hn =>
    refine hkeep rfl rfl rfl ?_
    simp [Frame.owes, Work.owes, hn]
  case notifyBit u n idxs notified =>
    refine hpay (some u) n rfl rfl rfl ?_
    by_cases ho : some u = o
    · simp [Frame.owes, Work.owes, ho, List.count_cons]
    · simp [Frame.owes, ho]
  case drain u notified =>
    have hnot := hdrain u notified rfl
    by_cases ho : some u = o
    · subst ho
      have hholds : (x.pass .drain u).holds d (some u) =
          x.holds d (some u) - (x.downStreams u).count d := by
        have hmem : u ∈ (x.pass .drain u).passed .drain := by simp
        rw [Shared.holds, Shared.holds, if_neg hnot, if_pos hmem, add_sub_cancel_right, Nat.cast_zero,
          add_zero]
        rfl
      rw [hholds]
      simp [Shared.required, Frame.owes, Work.owes]
      omega
    · refine hkeep rfl ?_ rfl (by simp [Frame.owes, ho])
      cases o with
      | none => rfl
      | some v =>
        have hv : v ≠ u := fun he => ho (by rw [he])
        have hiff : v ∈ (x.pass .drain u).passed .drain ↔ v ∈ x.passed .drain := by simp [hv]
        rw [Shared.holds, Shared.holds, if_congr hiff rfl rfl]
        rfl
  case notify u n list notified =>
    refine hpay (some u) n rfl rfl rfl ?_
    by_cases ho : some u = o
    · simp [Frame.owes, Work.owes, ho, List.count_cons]
    · simp [Frame.owes, ho]
  case countDown u notified others last hone hleaves =>
    refine hkeep rfl rfl rfl ?_
    rw [weight_append, hready]
    cases hleaves.ends <;> simp [Frame.owes, Work.owes]
  case graphNotifyDone u notified others last hleaves =>
    refine hkeep rfl rfl rfl ?_
    rw [weight_append, hready]
    cases hleaves.ends <;> simp [Frame.owes, Work.owes]
  case left u next hst =>
    refine hkeep rfl rfl rfl ?_
    cases next <;> simp [Frame.owes, Work.owes]
  case pop u temp n queue hqueue =>
    refine hkeep rfl rfl rfl ?_
    cases temp <;> simp [Frame.owes, Work.owes]
  all_goals refine hkeep rfl rfl rfl ?_
  all_goals simp [Frame.owes, Build.owes, Edge.owes, Work.owes, Call.required]

section Reached
variable {T : Type} [DecidableEq T] [Fintype T] {s s' : Config (Shared N G) (Frame N G) T}
  {t : T} {a : Option (Act N G)}

/-- **In a run without lost bits each entry of a node's required nodes has been paid, is held by
the upstream, or is still owed by the builder or by the upstream's worker.** -/
theorem paid_add (h : (L.system T).ReachedBy (fun s l _ => lossless s l) s) (d : N) (o : Option N) :
    ((s.shared.paid d).count o : ℤ) + s.shared.holds d o + total (Frame.owes L s.shared d o) s =
      (s.shared.required d).count o := by
  have hbal := balance
    (fun x => ((x.paid d).count o : ℤ) + x.holds d o - (x.required d).count o)
    (fun x => Frame.owes L x d o) (fun s t a old s' new htook => ?_) h
  · have hstart : (((L.program.start.paid d).count o : ℕ) : ℤ) + L.program.start.holds d o -
        (L.program.start.required d).count o = 0 := by
      cases o <;> simp [program, start, Shared.holds, Shared.required]
    omega
  · obtain ⟨hk, hknown⟩ := kept htook.reached
    obtain ⟨hk', hknown'⟩ := kept htook.reached_next
    obtain ⟨hh, hset⟩ := held htook.reached
    have heff := effect_of_moves htook.moves
    have hfin := finished htook.reached
    have hbak : ∀ u, old = [.work u .snapshot] → s.shared.fastDownStramsBak u = bakInit := by
      intro u he
      by_contra hne
      exact not_passed_worker htook.reached (m := .snapshot) rfl
        (htook.hasFrame (he ▸ List.mem_cons_self)) (by simp [Frame.awaits, Work.next, Stage.upTo])
        ((hfin.bak u).mp hne)
    refine ⟨owes_step heff hk (fun f hf => hknown f (htook.hasFrame hf))
      (fun f hf => hknown' f (htook.hasFrame_new hf)) hh (fun f hf => hset f (htook.hasFrame hf)) hbak
      (fun u notified he => ?_) (fun u hu hmem => ?_), fun f hf =>
        owes_keep heff hk hk' (grows htook) hh hbak (hknown f hf)⟩
    · exact not_passed_worker htook.reached (m := .drain) rfl
        (htook.hasFrame (he ▸ List.mem_cons_self)) (by simp [Frame.awaits, Work.next, Stage.upTo])
    · rw [over_of_passed htook.reached rfl hmem] at hu
      cases hu

end Reached
end Layout
end QuietFlow.Engine
