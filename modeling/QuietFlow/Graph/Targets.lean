import QuietFlow.Graph.Places

/-! Whose counts are decremented.

`Kept` says what the shared lists and bitmaps hold, and `Known` what a frame knows about
the nodes it works on: whoever waits in a `down_streams` or has a bit set is stored and
its `wait_count` is set up, and it was created to wait there. -/
namespace QuietFlow.Engine
open Runs Program

variable {N G : Type}

namespace Shared
variable (x : Shared N G)

/-- The node was created with a list of required nodes, and waits for them. -/
def Requires (d : N) : Prop :=
  d ∈ x.passed .store ∧ d ∈ x.passed .arm ∧ ∃ required, x.calls d = some (.edges required)

/-- The node was created to wait for a graph. -/
def WaitsFor (w : N) (g : G) : Prop :=
  w ∈ x.passed .store ∧ w ∈ x.passed .arm ∧ x.calls w = some (.graph g)

/-- The bits of a word belong to nodes whose bits were stored for `u`. -/
def Marks (u : N) (word : BitVec 64) : Prop :=
  ∀ i, word.getLsbD i = true → ∃ d ∈ x.marked u, x.nodeId d = i

variable {x}

/-- What waits for a graph has no required nodes. -/
theorem ne_of_calls {w d : N} {g : G} {required : List (Option N)} (hw : x.calls w = some (.graph g))
    (hd : x.calls d = some (.edges required)) : w ≠ d := by
  rintro rfl
  cases hw.symm.trans hd

theorem Requires.ne {w d : N} {g : G} (hd : x.Requires d) (hw : x.calls w = some (.graph g)) : w ≠ d := by
  obtain ⟨-, -, required, hcall⟩ := hd
  exact ne_of_calls hw hcall

/-- No edge is paid for a waiter. -/
theorem waitCount_pay [DecidableEq N] {w d : N} {g : G} (hd : x.Requires d)
    (hw : x.calls w = some (.graph g)) (r : Option N) : (x.pay r d).waitCount w = x.waitCount w :=
  Function.update_of_ne (hd.ne hw) _ _

end Shared

/-- What no step takes back. -/
structure Grows (x x' : Shared N G) : Prop where
  passed : ∀ m n, n ∈ x.passed m → n ∈ x'.passed m
  calls : ∀ n c, x.calls n = some c → x'.calls n = some c
  down : ∀ u d, d ∈ x.downStreams u → d ∈ x'.downStreams u
  marked : ∀ u d, d ∈ x.marked u → d ∈ x'.marked u
  waiter : ∀ g w, w ∈ x.graphDownStreams g → w ∈ x'.graphDownStreams g
  nodeId : ∀ n, n ∈ x.passed .store → x'.nodeId n = x.nodeId n

namespace Grows
variable {x x' : Shared N G}

theorem requires (h : Grows x x') {d : N} (hd : x.Requires d) : x'.Requires d := by
  obtain ⟨hstore, harm, required, hcall⟩ := hd
  exact ⟨h.passed _ _ hstore, h.passed _ _ harm, required, h.calls _ _ hcall⟩

theorem waitsFor (h : Grows x x') {w : N} {g : G} (hw : x.WaitsFor w g) : x'.WaitsFor w g :=
  ⟨h.passed _ _ hw.1, h.passed _ _ hw.2.1, h.calls _ _ hw.2.2⟩

theorem ids (h : Grows x x') (hmark : ∀ u, ∀ d ∈ x.marked u, x.Requires d) {u : N} {i : ℕ}
    (hi : ∃ d ∈ x.marked u, x.nodeId d = i) : ∃ d ∈ x'.marked u, x'.nodeId d = i := by
  obtain ⟨d, hd, rfl⟩ := hi
  exact ⟨d, h.marked u d hd, h.nodeId d (hmark u d hd).1⟩

theorem marks (h : Grows x x') (hmark : ∀ u, ∀ d ∈ x.marked u, x.Requires d) {u : N}
    {word : BitVec 64} (hw : x.Marks u word) : x'.Marks u word :=
  fun i hi => h.ids hmark (hw i hi)

end Grows

namespace Layout
variable {L : Layout N G} {x x' : Shared N G} {old new : List (Frame N G)}

theorem mem_push {α β : Type} [DecidableEq α] {p : α → List β} {a a' : α} {b b' : β}
    (h : b ∈ p a) : b ∈ Function.update p a' (p a' ++ [b']) a := by
  by_cases he : a = a'
  · subst he
    rw [Function.update_self]
    exact List.mem_append_left _ h
  · rw [Function.update_of_ne he]
    exact h

/-- What is in a list after a push: what was there before, or the new entry. -/
theorem mem_push_cases {α β : Type} [DecidableEq α] {p : α → List β} {a a' : α} {b b' : β}
    (h : b ∈ Function.update p a' (p a' ++ [b']) a) : b ∈ p a ∨ a = a' ∧ b = b' := by
  by_cases he : a = a'
  · subst he
    rw [Function.update_self, List.mem_append, List.mem_singleton] at h
    exact h.imp_right fun hb => ⟨rfl, hb⟩
  · rw [Function.update_of_ne he] at h
    exact .inl h

variable [DecidableEq N] [DecidableEq G]

theorem grows_step (h : L.Effect x old x' new)
    (hstore : ∀ d c, old = [.build d (.store c)] → d ∉ x.passed .store) : Grows x x' := by
  cases h
  case create d c hfree =>
    refine ⟨fun _ _ h => h, fun n c' hn => ?_, fun _ _ h => h, fun _ _ h => h, fun _ _ h => h,
      fun _ _ => rfl⟩
    have hne : n ≠ d := fun he => by rw [he, hfree] at hn; cases hn
    simpa [Function.update_of_ne hne] using hn
  case store d c =>
    refine ⟨fun _ _ h => mem_push h, fun _ _ h => h, fun _ _ h => h, fun _ _ h => h, fun _ _ h => h,
      fun n hn => ?_⟩
    have hne : n ≠ d := fun he => hstore d c rfl (he ▸ hn)
    simp [Function.update_of_ne hne]
  all_goals constructor
  all_goals first
    | exact fun _ _ h => h
    | exact fun _ _ h => mem_push h
    | exact fun _ _ => rfl

/-! ### What the lists hold -/

structure Kept (L : Layout N G) (x : Shared N G) : Prop where
  down : ∀ u, ∀ d ∈ x.downStreams u, x.Requires d ∧ d ≠ u
  marked : ∀ u, ∀ d ∈ x.marked u, x.Requires d ∧ d ≠ u ∧ L.graphOf d = L.graphOf u ∧ x.nodeId d < 63
  waiter : ∀ g, ∀ w ∈ x.graphDownStreams g, x.WaitsFor w g
  fast : ∀ u, x.Marks u (x.fastDownStrams u)
  bak : ∀ u, x.fastDownStramsBak u = bakInit ∨ x.Marks u (x.fastDownStramsBak u)
  stored : ∀ d ∈ x.passed .store, x.nodeId d < x.nodeNum (L.graphOf d) ∧
    (x.nodeId d < 63 → x.fastNodes (L.graphOf d) (x.nodeId d) = some d)

/-- Past the test whether two nodes are of one graph. -/
def Near (L : Layout N G) (x : Shared N G) (u d : N) : Prop :=
  L.graphOf d = L.graphOf u ∧ x.nodeId d < 63

def KnownEdge (L : Layout N G) (x : Shared N G) (u d : N) : Edge → Prop
  | .status | .sameGraph | .lock => True
  | .testBit | .loadBits => L.Near x u d
  | .storeBits word => L.Near x u d ∧ x.Marks u word
  | .dup | .readBak => d ∈ x.marked u

def Known (L : Layout N G) (x : Shared N G) : Frame N G → Prop
  | .build d (.count c) | .build d (.store c) => x.calls d = some c
  | .build d (.arm required) => d ∈ x.passed .store ∧ x.calls d = some (.edges required)
  | .build d (.check g) | .build d (.recheck g) => d ∈ x.passed .store ∧ x.calls d = some (.graph g)
  | .build d (.edges rest) => rest = [] ∨ x.Requires d
  | .build d (.sub _ _) => x.Requires d
  | .build d (.edge u e _) => x.Requires d ∧ d ≠ u ∧ L.KnownEdge x u d e
  | .work u (.bits idxs _) => ∀ i ∈ idxs, ∃ d ∈ x.marked u, x.nodeId d = i
  | .work u (.notifyBit d idxs _) =>
    d ∈ x.marked u ∧ ∀ i ∈ idxs, ∃ d ∈ x.marked u, x.nodeId d = i
  | .work u (.notify list _) => ∀ d ∈ list, d ∈ x.downStreams u
  | .work u (.graphNotify list _) => ∀ w ∈ list, w ∈ x.graphDownStreams (L.graphOf u)
  | _ => True

omit [DecidableEq N] [DecidableEq G] in
/-- Nodes of one graph with ids in the fast range differ in their ids. -/
theorem Kept.fast_unique (hk : L.Kept x) {d d' : N} (hd : d ∈ x.passed .store)
    (hd' : d' ∈ x.passed .store) (hg : L.graphOf d = L.graphOf d') (hid : x.nodeId d = x.nodeId d')
    (hlt : x.nodeId d < 63) : d = d' := by
  have h := (hk.stored d hd).2 hlt
  have h' := (hk.stored d' hd').2 (hid ▸ hlt)
  rw [← hg, ← hid, h] at h'
  exact Option.some.inj h'

omit [DecidableEq N] [DecidableEq G] in
theorem known_grows (hk : L.Kept x) (hg : Grows x x') {f : Frame N G} (h : L.Known x f) :
    L.Known x' f := by
  have hmark : ∀ u, ∀ d ∈ x.marked u, x.Requires d := fun u d hd => (hk.marked u d hd).1
  have hnear : ∀ {u d}, x.Requires d → L.Near x u d → L.Near x' u d := fun hd hn =>
    ⟨hn.1, by rw [hg.nodeId _ hd.1]; exact hn.2⟩
  match f, h with
  | .build d (.count c), h | .build d (.store c), h => exact hg.calls d c h
  | .build d (.arm required), h => exact ⟨hg.passed _ _ h.1, hg.calls _ _ h.2⟩
  | .build d (.check g), h | .build d (.recheck g), h => exact ⟨hg.passed _ _ h.1, hg.calls _ _ h.2⟩
  | .build d (.edges rest), h => exact h.imp_right hg.requires
  | .build d (.sub r rest), h => exact hg.requires h
  | .build d (.edge u e rest), h =>
    refine ⟨hg.requires h.1, h.2.1, ?_⟩
    have he := h.2.2
    cases e with
    | status | sameGraph | lock => trivial
    | testBit | loadBits => exact hnear h.1 he
    | storeBits word => exact ⟨hnear h.1 he.1, hg.marks hmark he.2⟩
    | dup | readBak => exact hg.marked u d he
  | .work u (.bits idxs notified), h => exact fun i hi => hg.ids hmark (h i hi)
  | .work u (.notifyBit d idxs notified), h =>
    exact ⟨hg.marked u d h.1, fun i hi => hg.ids hmark (h.2 i hi)⟩
  | .work u (.notify list notified), h => exact fun d hd => hg.down u d (h d hd)
  | .work u (.graphNotify list notified), h => exact fun w hw => hg.waiter _ w (h w hw)
  | .ready _ _, _ | .enqueue _, _ | .dispatch _, _ | .work _ .taken, _ | .work _ .resume, _
  | .work _ .running, _ | .work _ .snapshot, _ | .work _ (.drain _), _ | .work _ (.graphCount _), _
  | .work _ (.graphDrain _), _ | .work _ (.tryEnqueue _), _ | .work _ (.tryDequeue _), _
  | .work _ (.pop _), _ | .work _ (.leave _), _ | .work _ (.leavePopped _), _
  | .work _ (.left _), _ => trivial

theorem kept_step (h : L.Effect x old x' new) (hg : Grows x x') (hk : L.Kept x)
    (hold : ∀ f ∈ old, L.Known x f)
    (hstore : ∀ d c, old = [.build d (.store c)] → d ∉ x.passed .store) : L.Kept x' := by
  have hmark : ∀ u, ∀ d ∈ x.marked u, x.Requires d := fun u d hd => (hk.marked u d hd).1
  have down : ∀ u, ∀ d ∈ x.downStreams u, x'.Requires d ∧ d ≠ u := fun u d hd =>
    ⟨hg.requires (hk.down u d hd).1, (hk.down u d hd).2⟩
  have marked : ∀ u, ∀ d ∈ x.marked u,
      x'.Requires d ∧ d ≠ u ∧ L.graphOf d = L.graphOf u ∧ x'.nodeId d < 63 := fun u d hd => by
    obtain ⟨hreq, hne, hgraph, hlt⟩ := hk.marked u d hd
    exact ⟨hg.requires hreq, hne, hgraph, by rw [hg.nodeId d hreq.1]; exact hlt⟩
  have waiter : ∀ g, ∀ w ∈ x.graphDownStreams g, x'.WaitsFor w g := fun g w hw =>
    hg.waitsFor (hk.waiter g w hw)
  have fast : ∀ u, x'.Marks u (x.fastDownStrams u) := fun u => hg.marks hmark (hk.fast u)
  have bak : ∀ u, x.fastDownStramsBak u = bakInit ∨ x'.Marks u (x.fastDownStramsBak u) := fun u =>
    (hk.bak u).imp_right (hg.marks hmark)
  cases h
  case store d c =>
    refine ⟨down, marked, waiter, fast, bak, fun n hn => ?_⟩
    have hn : n ∈ Function.update x.passed .store (x.passed .store ++ [d]) .store := hn
    rcases mem_push_cases hn with hn | ⟨-, rfl⟩
    · obtain ⟨hlt, hfast⟩ := hk.stored n hn
      have hne : n ≠ d := fun he => hstore d c rfl (he ▸ hn)
      by_cases hgraph : L.graphOf n = L.graphOf d
      · have hid : x.nodeId n ≠ x.nodeNum (L.graphOf d) := by
          rw [← hgraph]
          omega
        simp only [Shared.pass, storeNode, Function.update_of_ne hne, hgraph, Function.update_self]
        rw [hgraph] at hlt hfast
        refine ⟨by omega, fun h63 => ?_⟩
        split
        · rw [Function.update_self, Function.update_of_ne hid]
          exact hfast h63
        · exact hfast h63
      · simp only [Shared.pass, storeNode, Function.update_of_ne hne, Function.update_of_ne hgraph]
        refine ⟨hlt, fun h63 => ?_⟩
        split
        · rw [Function.update_of_ne hgraph]
          exact hfast h63
        · exact hfast h63
    · simp only [Shared.pass, storeNode, Function.update_self]
      refine ⟨by omega, fun h63 => ?_⟩
      have hfast : x.nodeNum (L.graphOf n) < fastNodeMaxNum := h63
      rw [if_pos hfast, Function.update_self, Function.update_self]
  case storeBits d u word rest =>
    obtain ⟨hreq, hne, hnear, hword⟩ := hold _ List.mem_cons_self
    refine ⟨down, fun v n hn => ?_, waiter, fun v => ?_, bak, hk.stored⟩
    · rcases mem_push_cases hn with hn | ⟨rfl, rfl⟩
      · exact marked v n hn
      · exact ⟨hreq, hne, hnear⟩
    · by_cases hv : v = u
      · subst hv
        intro i hi
        simp only [Function.update_self, getLsbD_bitMapSet, Bool.or_eq_true, decide_eq_true_eq] at hi ⊢
        rcases hi with hi | ⟨hi, -⟩
        · obtain ⟨n, hn, hid⟩ := hword i hi
          exact ⟨n, List.mem_append_left _ hn, hid⟩
        · exact ⟨d, List.mem_append_right _ List.mem_cons_self, hi⟩
      · simp only [Function.update_of_ne hv]
        exact fast v
  case lock d u rest hst =>
    obtain ⟨hreq, hne, -⟩ := hold _ List.mem_cons_self
    refine ⟨fun v n hn => ?_, marked, waiter, fast, bak, hk.stored⟩
    rcases mem_push_cases hn with hn | ⟨rfl, rfl⟩
    · exact down v n hn
    · exact ⟨hreq, hne⟩
  case recheck d g hne =>
    obtain ⟨hstored, hcall⟩ := hold _ List.mem_cons_self
    refine ⟨down, marked, fun g' w hw => ?_, fast, bak, hk.stored⟩
    rcases mem_push_cases hw with hw | ⟨rfl, rfl⟩
    · exact waiter g' w hw
    · exact ⟨hg.passed _ _ hstored, by simp, hcall⟩
  case snapshot u =>
    refine ⟨down, marked, waiter, fast, fun v => ?_, hk.stored⟩
    by_cases hv : v = u
    · subst hv
      simp only [Shared.pass, Function.update_self]
      exact .inr (fast v)
    · simp only [Shared.pass, Function.update_of_ne hv]
      exact bak v
  all_goals exact ⟨down, marked, waiter, fast, bak, hk.stored⟩

theorem known_new (h : L.Effect x old x' new) (hg : Grows x x') (hk : L.Kept x)
    (hold : ∀ f ∈ old, L.Known x f) : ∀ f ∈ new, L.Known x' f := by
  have htop : ∀ {f}, old = [f] → L.Known x' f := fun he =>
    known_grows hk hg (hold _ (he ▸ List.mem_cons_self))
  cases h
  case create d c hfree => simp [Known]
  case count d c => simpa [Known] using htop rfl
  case store d c =>
    have hcall : x.calls d = some c := hold _ List.mem_cons_self
    cases c <;> simp [Call.first, Known, hcall]
  case arm d required hne =>
    obtain ⟨hstored, hcall⟩ := hold _ List.mem_cons_self
    refine List.forall_mem_singleton.mpr (.inr ⟨hg.passed _ _ hstored, by simp, required, hcall⟩)
  case edgeNull d rest | edgeSelf d rest =>
    have hreq := (htop rfl).resolve_left (List.cons_ne_nil _ _)
    exact List.forall_mem_singleton.mpr hreq
  case edge d r rest hne =>
    have hreq := (htop rfl).resolve_left (List.cons_ne_nil _ _)
    exact List.forall_mem_singleton.mpr ⟨hreq, hne.symm, trivial⟩
  case sub d r rest =>
    simp only [List.forall_mem_append, List.forall_mem_map, List.forall_mem_singleton]
    exact ⟨fun _ _ => trivial, .inr (htop rfl)⟩
  case statusOver d u rest hst | bakMissed d u rest hbak hbit | lockOver d u rest hst =>
    exact List.forall_mem_singleton.mpr (htop rfl).1
  case status d u rest hst | slow d u rest =>
    exact List.forall_mem_singleton.mpr ⟨(htop rfl).1, (htop rfl).2.1, trivial⟩
  case fast d u rest hset hgraph hid =>
    exact List.forall_mem_singleton.mpr ⟨(htop rfl).1, (htop rfl).2.1, hgraph.symm, hid⟩
  case testSet d u rest hbit =>
    obtain ⟨hreq, hne, hnear⟩ := hold _ List.mem_cons_self
    rw [bitMapGet_eq, Bool.and_eq_true] at hbit
    obtain ⟨n, hn, hid⟩ := hk.fast u _ hbit.2
    obtain ⟨hnreq, -, hngraph, hnlt⟩ := hk.marked u n hn
    have hsame : n = d := hk.fast_unique hnreq.1 hreq.1 (hngraph.trans hnear.1.symm) hid hnlt
    exact List.forall_mem_singleton.mpr ⟨hreq, hne, hsame ▸ hn⟩
  case testClear d u rest hbit =>
    have hknown := htop rfl
    exact List.forall_mem_singleton.mpr hknown
  case dup d u rest =>
    simp only [List.forall_mem_append, List.forall_mem_map, List.forall_mem_singleton]
    have hknown := htop rfl
    exact ⟨fun _ _ => trivial, hknown⟩
  case loadBits d u rest =>
    obtain ⟨hreq, hne, hnear⟩ := hold _ List.mem_cons_self
    exact List.forall_mem_singleton.mpr ⟨hreq, hne, hnear, hk.fast u⟩
  case storeBits d u word rest =>
    obtain ⟨hreq, hne, -⟩ := htop rfl
    exact List.forall_mem_singleton.mpr ⟨hreq, hne, by simp [KnownEdge]⟩
  case bakKept d u rest hbak => exact List.forall_mem_singleton.mpr (.inr (htop rfl).1)
  case lock d u rest hst => exact List.forall_mem_singleton.mpr (.inr (htop rfl).1)
  case check d g hne =>
    have hknown := htop rfl
    exact List.forall_mem_singleton.mpr hknown
  case armNone | checkZero | recheckZero => simp [Known]
  case recheck => simp [Known]
  case snapshot u =>
    refine List.forall_mem_singleton.mpr fun i hi => ?_
    exact hk.fast u i (mem_bitMapIdx.mp hi).2
  case bits u i idxs notified n hn =>
    obtain ⟨hi, hidxs⟩ := List.forall_mem_cons.mp (hold _ List.mem_cons_self)
    obtain ⟨d, hd, rfl⟩ := hi
    obtain ⟨hreq, -, hgraph, hlt⟩ := hk.marked u d hd
    have hsame : d = n := by
      rw [← hgraph, (hk.stored d hreq.1).2 hlt] at hn
      exact Option.some.inj hn
    exact List.forall_mem_singleton.mpr ⟨hsame ▸ hd, hidxs⟩
  case notifyBit u d idxs notified => exact List.forall_mem_singleton.mpr (htop rfl).2
  case drain u notified => exact List.forall_mem_singleton.mpr fun d hd => hd
  case notify u d list notified =>
    exact List.forall_mem_singleton.mpr (List.forall_mem_cons.mp (htop rfl)).2
  case graphDrain u notified => exact List.forall_mem_singleton.mpr fun d hd => hd
  case graphNotify u w list notified =>
    exact List.forall_mem_singleton.mpr (List.forall_mem_cons.mp (htop rfl)).2
  case countDown u notified others last hone hleaves =>
    simp only [readyAll, List.forall_mem_append, List.forall_mem_map, List.forall_mem_singleton]
    exact ⟨fun _ _ => trivial, by cases hleaves.ends <;> trivial⟩
  case graphNotifyDone u notified others last hleaves =>
    simp only [readyAll, List.forall_mem_append, List.forall_mem_map, List.forall_mem_singleton]
    exact ⟨fun _ _ => trivial, by cases hleaves.ends <;> trivial⟩
  case pop =>
    simp only [List.forall_mem_append, List.forall_mem_map, List.forall_mem_singleton]
    exact ⟨fun _ _ => trivial, trivial⟩
  all_goals simp [Known]

section Reached
variable {T : Type} [DecidableEq T] [Fintype T] {s : Config (Shared N G) (Frame N G) T}
  {ok : Config (Shared N G) (Frame N G) T → T × Option (Act N G) → Config (Shared N G) (Frame N G) T → Prop}
  {t : T} {a : Option (Act N G)} {s' : Config (Shared N G) (Frame N G) T}

theorem not_stored (h : L.program.Took ok s t a old s' new) :
    ∀ d c, old = [.build d (.store c)] → d ∉ s.shared.passed .store := fun d c he =>
  (not_passed h.reached rfl (h.hasFrame (he ▸ List.mem_cons_self)) (by simp [Frame.awaits, Build.next, Stage.upTo])).1

theorem grows (h : L.program.Took ok s t a old s' new) : Grows s.shared s'.shared :=
  grows_step (effect_of_moves h.moves) (not_stored h)

theorem kept (h : (L.system T).ReachedBy ok s) :
    L.Kept s.shared ∧ ∀ f, s.HasFrame f → L.Known s.shared f := by
  refine invariant ?_ (fun s t a old s' new htook hk hj => ?_) h
  · constructor
    case stored => rintro d ⟨⟩
    case bak => exact fun u => .inl rfl
    case fast => exact fun u i hi => by simp [program, start] at hi
    all_goals rintro u d ⟨⟩
  · have hg := grows htook
    have heff := effect_of_moves htook.moves
    have hold : ∀ f ∈ old, L.Known s.shared f := fun f hf => hj f (htook.hasFrame hf)
    exact ⟨kept_step heff hg hk hold (not_stored htook), known_new heff hg hk hold,
      fun f _ hf => known_grows hk hg hf⟩

end Reached
end Layout
end QuietFlow.Engine
