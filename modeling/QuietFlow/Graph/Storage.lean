import QuietFlow.Graph.Engine

/-! Where a graph keeps its nodes, across `Graph::clear_graph`.

`fast_nodes` is a vector of 63 pointers once the first node is stored, and `nodes` holds
the rest; a write past the end of a vector stops the run. Calls are taken one at a time,
`clear_graph` when all nodes are `Recoverable`, so that it waits for nothing. -/
namespace QuietFlow.Storage
open Engine

/-- The fields of a `Graph` that its nodes are stored in, and the ids of the nodes. -/
structure Graph (N : Type) where
  status : RunningStatus
  nodeNum : ℕ
  fastNodes : List (Option N)
  nodes : List N
  nodeId : N → ℕ

inductive Op (N : Type) where
  | create (n : N)
  | clear

variable {N : Type}

namespace Graph

def start : Graph N where
  status := .initing
  nodeNum := 0
  fastNodes := []
  nodes := []
  nodeId _ := 0

def getNodes (g : Graph N) : List N := g.fastNodes.filterMap id ++ g.nodes

/-- `get_node`, with no value for a null pointer and past the end of a vector. -/
def getNode (g : Graph N) (idx : ℕ) : Option N :=
  if idx < fastNodeMaxNum then g.fastNodes[idx]?.join else g.nodes[idx - fastNodeMaxNum]?

/-- `fast_nodes.resize(fast_node_max_num)`. -/
def resize (fastNodes : List (Option N)) : List (Option N) :=
  fastNodes.take fastNodeMaxNum ++ List.replicate (fastNodeMaxNum - fastNodes.length) none

/-- The section of `create_edges` under the graph's mutex. -/
def createEdges [DecidableEq N] (g : Graph N) (n : N) : Option (Graph N) :=
  let id := g.nodeNum
  let fastNodes := if id = 0 then resize g.fastNodes else g.fastNodes
  let g := {g with status := .running, nodeId := Function.update g.nodeId n id, nodeNum := id + 1}
  if id < fastNodeMaxNum then
    if id < fastNodes.length then some {g with fastNodes := fastNodes.set id (some n)} else none
  else some {g with fastNodes := fastNodes, nodes := g.nodes ++ [n]}

def clearGraph (g : Graph N) : Graph N :=
  if g.status = .initing then g
  else if g.status = .finish then {g with nodes := [], fastNodes := []}
  else {g with status := .finish, nodes := [], fastNodes := []}

def exec [DecidableEq N] (g : Graph N) : Op N → Option (Graph N)
  | .create n => g.createEdges n
  | .clear => some g.clearGraph

end Graph

/-- The graph after some calls. -/
def run [DecidableEq N] (ops : List (Op N)) : Option (Graph N) := ops.foldlM Graph.exec .start

/-! ### What the calls should have stored -/

/-- The nodes created since the last `clear_graph`, and how many were created before it. -/
structure Log (N : Type) where
  since : List N
  cleared : ℕ

def Log.add (log : Log N) : Op N → Log N
  | .create n => ⟨log.since ++ [n], log.cleared⟩
  | .clear => ⟨[], log.cleared + log.since.length⟩

def log (ops : List (Op N)) : Log N := ops.foldl Log.add ⟨[], 0⟩

/-- `get_node` finds every node that should be stored under its id, no two of them have
one id, and `get_nodes` lists them as they were created. -/
structure Holds (g : Graph N) (since : List N) : Prop where
  found : ∀ n ∈ since, g.getNode (g.nodeId n) = some n
  ids : ∀ n ∈ since, ∀ m ∈ since, g.nodeId n = g.nodeId m → n = m
  listed : g.getNodes = since

/-- All calls so far stored their nodes. -/
def Consistent [DecidableEq N] (ops : List (Op N)) : Prop :=
  ∀ before, before <+: ops → ∃ g, run before = some g ∧ Holds g (log before).since

/-- A node is created only if none or 63 nodes were created before the last `clear_graph`. -/
def Usable (ops : List (Op N)) : Prop :=
  ∀ before n, before ++ [.create n] <+: ops → (log before).cleared = 0 ∨ (log before).cleared = 63

/-- `fast_nodes` after some nodes were created. -/
def fastOf (since : List N) : List (Option N) :=
  (since.take 63).map some ++ List.replicate (63 - since.length) none

structure Keeps (g : Graph N) (log : Log N) : Prop where
  num : g.nodeNum = log.cleared + log.since.length
  status : g.status = .initing ↔ g.nodeNum = 0
  ids : ∀ n ∈ log.since, ∃ i, log.since[i]? = some n ∧ g.nodeId n = log.cleared + i
  fast : g.fastNodes = if log.cleared = 0 ∧ log.since ≠ [] then fastOf log.since else []
  rest : g.nodes = if log.cleared = 0 then log.since.drop 63 else log.since

variable {g : Graph N} {l : Log N} {n : N} {since : List N} {ops : List (Op N)} {op : Op N}

theorem log_append : log (ops ++ [op]) = (log ops).add op := List.foldl_concat _ _ _ _

theorem fastOf_set (h : since.length < 63) :
    (fastOf since).set since.length (some n) = fastOf (since ++ [n]) := by
  have hpad : 63 - since.length = (63 - (since ++ [n]).length) + 1 := by
    rw [List.length_append, List.length_singleton]
    omega
  rw [fastOf, fastOf, List.take_of_length_le (by omega), List.take_of_length_le (by simp; omega),
    List.set_append_right _ _ (by simp), List.length_map, Nat.sub_self, hpad, List.replicate_succ,
    List.set_cons_zero, List.map_append, List.append_assoc]
  rfl

theorem fastOf_append (h : 63 ≤ since.length) : fastOf (since ++ [n]) = fastOf since := by
  rw [fastOf, fastOf, List.take_append_of_le_length h, List.length_append,
    Nat.sub_eq_zero_of_le (by omega), Nat.sub_eq_zero_of_le h]

theorem fastOf_get (i : ℕ) (h : i < 63) : (fastOf since)[i]?.join = since[i]? := by
  by_cases hi : i < since.length
  · rw [fastOf, List.getElem?_append_left (by simp; omega), List.getElem?_map,
      List.getElem?_take_of_lt h, List.getElem?_eq_getElem hi]
    rfl
  · rw [fastOf, List.getElem?_append_right (by simp; omega), List.getElem?_eq_none (l := since) (by omega),
      List.getElem?_replicate]
    split <;> rfl

namespace Keeps

theorem holds (h : Keeps g l) (hl : l.since = [] ∨ l.cleared = 0 ∨ l.cleared = 63) :
    Holds g l.since := by
  have hfound : ∀ n ∈ l.since, g.getNode (g.nodeId n) = some n := by
    intro n hn
    obtain ⟨i, hi, hid⟩ := h.ids n hn
    have hne : l.since ≠ [] := List.ne_nil_of_mem hn
    rw [Graph.getNode, hid]
    rcases hl with hnil | hzero | hfull
    · exact absurd hnil hne
    · rw [h.fast, h.rest, if_pos (⟨hzero, hne⟩ : l.cleared = 0 ∧ l.since ≠ []),
        if_pos (c := l.cleared = 0) hzero, hzero, Nat.zero_add]
      split
      · next hlt => rw [fastOf_get i hlt, hi]
      · next hge =>
        have hge : 63 ≤ i := Nat.le_of_not_lt hge
        rw [List.getElem?_drop, show 63 + (i - fastNodeMaxNum) = i from Nat.add_sub_of_le hge, hi]
    · have hge : ¬ 63 + i < fastNodeMaxNum := Nat.not_lt.mpr (Nat.le_add_right 63 i)
      rw [h.rest, hfull, if_neg hge, if_neg (by decide), show 63 + i - fastNodeMaxNum = i from
        Nat.add_sub_cancel_left 63 i, hi]
  refine ⟨hfound, fun n hn m hm hid => ?_, ?_⟩
  · have hsame := hfound n hn
    rw [hid, hfound m hm] at hsame
    exact (Option.some.inj hsame).symm
  · rw [Graph.getNodes, h.fast, h.rest]
    by_cases hzero : l.cleared = 0
    · by_cases hne : l.since = []
      · simp [hne]
      · rw [if_pos ⟨hzero, hne⟩, if_pos hzero, fastOf, List.filterMap_append]
        simp
    · simp [hzero]

theorem clear (h : Keeps g l) : Keeps g.clearGraph (l.add .clear) := by
  have hcleared : ∀ st, st ≠ .initing → g.nodeNum ≠ 0 →
      Keeps {g with status := st, nodes := [], fastNodes := []} (l.add .clear) := fun st hst hnum => by
    refine ⟨by simpa [Log.add] using h.num, ?_, by simp [Log.add], by simp [Log.add], by simp [Log.add]⟩
    exact ⟨fun he => absurd he hst, fun he => absurd he hnum⟩
  unfold Graph.clearGraph
  split
  · next hst =>
    -- nothing is created in the graph yet
    have hnum := h.num
    rw [h.status.mp hst] at hnum
    have hzero : l.cleared = 0 := by omega
    have hnil : l.since = [] := List.eq_nil_of_length_eq_zero (by omega)
    have hsame : l.add .clear = l := by
      obtain ⟨since, cleared⟩ := l
      cases hnil
      rfl
    rw [hsame]
    exact h
  · next hst =>
    have hnum : g.nodeNum ≠ 0 := fun hzero => hst (h.status.mpr hzero)
    split
    · exact hcleared g.status hst hnum
    · exact hcleared .finish (by decide) hnum

theorem create [DecidableEq N] (h : Keeps g l) (hl : l.cleared = 0 ∨ l.cleared = 63) :
    ∃ g', g.createEdges n = some g' ∧ Keeps g' (l.add (.create n)) := by
  have hids : ∀ m ∈ l.since ++ [n], ∃ i, (l.since ++ [n])[i]? = some m ∧
      Function.update g.nodeId n g.nodeNum m = l.cleared + i := by
    intro m hm
    by_cases hmn : m = n
    · subst hmn
      exact ⟨l.since.length, by simp, by rw [Function.update_self, h.num]⟩
    · have hm : m ∈ l.since := (List.mem_append.mp hm).elim id fun he => by simp [hmn] at he
      obtain ⟨i, hi, hid⟩ := h.ids m hm
      have hlt := (List.getElem?_eq_some_iff.mp hi).1
      exact ⟨i, by rw [List.getElem?_append_left hlt, hi], by rw [Function.update_of_ne hmn, hid]⟩
  have hnum : g.nodeNum + 1 = l.cleared + (l.since ++ [n]).length := by
    rw [h.num, List.length_append, List.length_singleton, Nat.add_assoc]
  have hstatus : RunningStatus.running = .initing ↔ g.nodeNum + 1 = 0 := by simp
  have hne : l.since ++ [n] ≠ [] := by simp
  unfold Graph.createEdges
  rcases hl with hzero | hfull
  · have hfast : (if g.nodeNum = 0 then Graph.resize g.fastNodes else g.fastNodes) = fastOf l.since := by
      rw [h.fast]
      by_cases hnil : l.since = []
      · simp [h.num, hzero, hnil, Graph.resize, fastOf, fastNodeMaxNum]
      · have hpos : 0 < l.since.length := List.length_pos_iff.mpr hnil
        rw [if_neg (by rw [h.num]; omega), if_pos ⟨hzero, hnil⟩]
    have hid : g.nodeNum = l.since.length := by rw [h.num, hzero, Nat.zero_add]
    simp only [hfast]
    split
    · next hlt =>
      have hlt : l.since.length < 63 := hid ▸ hlt
      have hbound : g.nodeNum < (fastOf l.since).length := by simp [fastOf, hid]; omega
      rw [if_pos hbound]
      refine ⟨_, rfl, hnum, hstatus, hids, ?_, ?_⟩
      · rw [if_pos ⟨hzero, hne⟩]
        show (fastOf l.since).set g.nodeNum (some n) = fastOf (l.since ++ [n])
        rw [hid, fastOf_set hlt]
      · show g.nodes = if l.cleared = 0 then (l.since ++ [n]).drop 63 else _
        rw [h.rest, if_pos hzero, if_pos hzero, List.drop_eq_nil_of_le (by omega),
          List.drop_eq_nil_of_le (by simp; omega)]
    · next hge =>
      have hge : 63 ≤ l.since.length := hid ▸ Nat.le_of_not_lt hge
      refine ⟨_, rfl, hnum, hstatus, hids, ?_, ?_⟩
      · rw [if_pos ⟨hzero, hne⟩]
        exact (fastOf_append hge).symm
      · show g.nodes ++ [n] = if l.cleared = 0 then (l.since ++ [n]).drop 63 else _
        rw [h.rest, if_pos hzero, if_pos hzero, List.drop_append_of_le_length hge]
  · have hge : ¬ g.nodeNum < fastNodeMaxNum :=
      Nat.not_lt.mpr (show 63 ≤ g.nodeNum by rw [h.num]; omega)
    rw [if_neg hge]
    have hfast : g.fastNodes = [] := by rw [h.fast, hfull, if_neg (by omega)]
    have hrest : g.nodes = l.since := by rw [h.rest, hfull, if_neg (by omega)]
    refine ⟨_, rfl, hnum, hstatus, hids, ?_, ?_⟩
    · show (if g.nodeNum = 0 then Graph.resize g.fastNodes else g.fastNodes) = _
      rw [if_neg (by rw [h.num]; omega), hfast, if_neg (by simp [Log.add, hfull])]
    · show g.nodes ++ [n] = _
      rw [hrest, if_neg (by simp [Log.add, hfull])]
      rfl

/-- Past other counts the next node is lost: it is written past the end of `fast_nodes`, or
`get_node` looks for it past the end of `nodes`. -/
theorem lost [DecidableEq N] (h : Keeps g l) (hnil : l.since = []) (hzero : l.cleared ≠ 0)
    (hfull : l.cleared ≠ 63) {g' : Graph N} (hcreate : g.createEdges n = some g') :
    ¬ Holds g' (l.since ++ [n]) := by
  have hnum : g.nodeNum = l.cleared := by rw [h.num, hnil, List.length_nil, Nat.add_zero]
  have hfast : g.fastNodes = [] := by rw [h.fast, if_neg fun hboth => hzero hboth.1]
  have hrest : g.nodes = [] := by rw [h.rest, if_neg hzero, hnil]
  intro hholds
  have hfound := hholds.found n (List.mem_append_right _ List.mem_cons_self)
  unfold Graph.createEdges at hcreate
  dsimp only at hcreate
  rw [hnum, hfast, hrest, if_neg hzero] at hcreate
  split at hcreate
  · next hlt => cases hcreate
  · next hge =>
    have hge : 63 ≤ l.cleared := Nat.le_of_not_lt hge
    cases hcreate
    rw [Graph.getNode] at hfound
    have hslow : ¬ l.cleared < fastNodeMaxNum := Nat.not_lt.mpr hge
    simp only [Function.update_self, if_neg hslow] at hfound
    rw [show ([] ++ [n])[l.cleared - fastNodeMaxNum]? = none from
        List.getElem?_eq_none (Nat.le_sub_of_add_le (by simp [fastNodeMaxNum]; omega))] at hfound
    cases hfound

end Keeps

theorem run_append [DecidableEq N] : run (ops ++ [op]) = (run ops).bind (·.exec op) := by
  rw [run, List.foldlM_append]
  simp [run]

/-- The nodes created after a `clear_graph` are created when 0 or 63 are counted. -/
theorem Usable.cleared (h : Usable ops) :
    (log ops).since = [] ∨ (log ops).cleared = 0 ∨ (log ops).cleared = 63 := by
  induction ops using List.reverseRecOn with
  | nil => exact .inl rfl
  | append_singleton ops op ih =>
    rw [log_append]
    cases op with
    | clear => exact .inl rfl
    | create n => exact .inr (h ops n List.prefix_rfl)

theorem Usable.of_append (h : Usable (ops ++ [op])) : Usable ops := fun before n hb =>
  h before n (hb.trans (List.prefix_append _ _))

/-- A graph whose calls meet the condition keeps what it should. -/
theorem Usable.keeps [DecidableEq N] (h : Usable ops) : ∃ g, run ops = some g ∧ Keeps g (log ops) := by
  induction ops using List.reverseRecOn with
  | nil => exact ⟨.start, rfl, rfl, by simp [Graph.start], by simp [log], rfl, rfl⟩
  | append_singleton ops op ih =>
    obtain ⟨g, hrun, hkeeps⟩ := ih h.of_append
    rw [run_append, hrun, log_append, Option.bind_some]
    cases op with
    | clear => exact ⟨_, rfl, hkeeps.clear⟩
    | create n => exact hkeeps.create (h ops n List.prefix_rfl)

/-- **A graph keeps its nodes across `clear_graph` exactly when 0 or 63 were created before
it**, or none are created after it: `clear_graph` does not reset `node_num`. -/
theorem consistent_iff [DecidableEq N] : Consistent ops ↔ Usable ops := by
  constructor
  · intro h
    induction ops using List.reverseRecOn with
    | nil =>
      intro before n hb
      cases before <;> cases List.prefix_nil.mp hb
    | append_singleton ops op ih =>
      have husable := ih fun before hb => h before (hb.trans (List.prefix_append _ _))
      intro before n hb
      rcases List.prefix_concat_iff.mp hb with hlast | hb
      · obtain ⟨rfl, hop⟩ := List.append_inj' hlast rfl
        cases hop
        obtain ⟨g, hrun, hkeeps⟩ := husable.keeps
        obtain ⟨g', hrun', hholds⟩ := h _ List.prefix_rfl
        rw [run_append, hrun, Option.bind_some] at hrun'
        rw [log_append] at hholds
        rcases husable.cleared with hnil | hcleared
        · by_contra hne
          exact hkeeps.lost hnil (fun hzero => hne (.inl hzero)) (fun hfull => hne (.inr hfull)) hrun' hholds
        · exact hcleared
      · exact husable before n hb
  · intro h before hb
    have husable : Usable before := fun b n hbn => h b n (hbn.trans hb)
    obtain ⟨g, hrun, hkeeps⟩ := husable.keeps
    exact ⟨g, hrun, hkeeps.holds husable.cleared⟩

/-- The second node is written past the end of the emptied `fast_nodes`. -/
theorem second_lost : run [.create 1, .clear, .create (2 : Fin 3)] = none ∧
    ¬ Consistent [.create 1, .clear, .create (2 : Fin 3)] := by
  refine ⟨rfl, fun h => ?_⟩
  obtain ⟨g, hrun, -⟩ := h _ List.prefix_rfl
  cases hrun

/-! ### The store of the engine -/

/-- The engine's store of a graph is one that was never cleared. -/
structure Stores {G : Type} (x : Shared N G) (g : G) (c : Graph N) : Prop where
  num : x.nodeNum g = c.nodeNum
  fast : ∀ i < 63, x.fastNodes g i = c.fastNodes[i]?.join
  rest : x.nodes g = c.nodes
  size : c.fastNodes.length = if c.nodeNum = 0 then 0 else 63

/-- `createEdges` is the engine's step that stores a node. -/
theorem stores_create {G : Type} [DecidableEq N] [DecidableEq G] {L : Layout N G} {x : Shared N G}
    {c : Graph N} (h : Stores x (L.graphOf n) c) :
    ∃ c', c.createEdges n = some c' ∧ Stores (L.storeNode x n) (L.graphOf n) c' := by
  have hsize : (if c.nodeNum = 0 then Graph.resize c.fastNodes else c.fastNodes).length = 63 := by
    split
    · next hzero =>
      have hlen := h.size
      rw [if_pos hzero] at hlen
      simp [Graph.resize, hlen, fastNodeMaxNum]
    · next hne => rw [h.size, if_neg hne]
  have hsame : ∀ i : ℕ, (if c.nodeNum = 0 then Graph.resize c.fastNodes else c.fastNodes)[i]?.join =
      c.fastNodes[i]?.join := fun i => by
    split
    · next hzero =>
      have hnil : c.fastNodes = [] := List.eq_nil_of_length_eq_zero (by rw [h.size, if_pos hzero])
      rw [hnil, Graph.resize, List.take_nil, List.nil_append, List.getElem?_replicate]
      split <;> rfl
    · rfl
  unfold Graph.createEdges
  dsimp only
  generalize (if c.nodeNum = 0 then Graph.resize c.fastNodes else c.fastNodes) = fast at hsize hsame ⊢
  split
  · next hlt =>
    have hlt' : x.nodeNum (L.graphOf n) < fastNodeMaxNum := h.num ▸ hlt
    rw [if_pos (hsize ▸ hlt)]
    refine ⟨_, rfl, by simp [h.num], fun i hi => ?_, by simp [hlt', h.rest], by simp [hsize]⟩
    simp only [Layout.storeNode, if_pos hlt', Function.update_self]
    by_cases hid : i = c.nodeNum
    · subst hid
      rw [h.num, Function.update_self, List.getElem?_set_self (by omega)]
      rfl
    · rw [h.num, Function.update_of_ne hid, List.getElem?_set_ne (Ne.symm hid), h.fast i hi, hsame]
  · next hge =>
    have hge' : ¬ x.nodeNum (L.graphOf n) < fastNodeMaxNum := h.num ▸ hge
    refine ⟨_, rfl, by simp [h.num], fun i hi => ?_, by simp [hge', h.rest], by simp [hsize]⟩
    simp only [Layout.storeNode, if_neg hge']
    rw [h.fast i hi, hsame]

end QuietFlow.Storage
