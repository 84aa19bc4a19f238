import QuietFlow.Graph.Util
import Mathlib.Logic.Relation

/-! `check_circle` and `do_check_circle`: the search for a circle in `up_streams`.

A pointer to a node is its number, and `none` is the null pointer. The frontier sets are lists
without duplicates. The `while` loop gets fuel; `Ends` says that some fuel is enough. -/
namespace QuietFlow.Aspect
open Relation

/-- `Node::flag_node`. -/
def flagNode : ℕ := 0

/-- What leaves a search without an answer. -/
inductive Stop where
  /-- A null pointer was followed. -/
  | nullRead
  /-- The loop is still running. -/
  | running
  deriving DecidableEq

section Search
variable (status : ℕ → RunningStatus) (upStreams : ℕ → List (Option ℕ)) (currentTask : ℕ)

/-- `if (n->loose_get_status() < RunningStatus::Finish) a_ptr->emplace(n);` -/
def emplace (level : List ℕ) : Option ℕ → Except Stop (List ℕ)
  | none => .error .nullRead
  | some n => .ok (if (status n).ended then level else level.insert n)

/-- The upstreams of one node, without `flag_node`. -/
def follow (level : List ℕ) (n : Option ℕ) : Except Stop (List ℕ) :=
  if n = some flagNode then .ok level else emplace status level n

def nextLevel (level : List ℕ) : Except Stop (List ℕ) :=
  level.foldlM (fun next n => (upStreams n).foldlM (follow status) next) []

/-- The `while` loop. -/
def checkLoop : ℕ → List ℕ → Except Stop Bool
  | 0, _ => .error .running
  | fuel + 1, level =>
    if level = [] then .ok false
    else if currentTask ∈ level then .ok true
    else (nextLevel status upStreams level).bind (checkLoop fuel)

def doCheckCircle (fuel : ℕ) (checkNodes : List (Option ℕ)) : Except Stop Bool :=
  (checkNodes.foldlM (emplace status) []).bind (checkLoop status upStreams currentTask fuel)

/-- Pointers are compared by the nodes they point to. -/
instance decidableMemNodes (n : Option ℕ) (nodes : List (Option ℕ)) : Decidable (n ∈ nodes) :=
  inferInstance

/-- With `enable_qf_check_circle`. -/
def checkCircle (fuel : ℕ) (checkNodes : List (Option ℕ)) : Except Stop Bool :=
  if some currentTask ∈ checkNodes then .ok true
  else doCheckCircle status upStreams currentTask fuel checkNodes

/-! ### Chains -/

/-- An entry of `up_streams` that the search follows. -/
def Follows (n m : ℕ) : Prop := some m ∈ upStreams n ∧ m ≠ flagNode ∧ (status m).ended = false

/-- A chain of unfinished nodes leads from the checked nodes to `m`. -/
def Chain (checkNodes : List (Option ℕ)) (m : ℕ) : Prop :=
  ∃ n, some n ∈ checkNodes ∧ (status n).ended = false ∧ ReflTransGen (Follows status upStreams) n m

/-- The loop ends: with an answer, or at a null pointer. -/
def Ends (checkNodes : List (Option ℕ)) : Prop :=
  ∃ fuel, doCheckCircle status upStreams currentTask fuel checkNodes ≠ .error .running

end Search

/-! ### One level -/

section Level
variable {α : Type*} {status : ℕ → RunningStatus} {upStreams : ℕ → List (Option ℕ)}

/-- What a step of a level does: it follows a null pointer, or adds some nodes to the set. -/
def Adds (f : List ℕ → α → Except Stop (List ℕ)) (null : α → Prop) (adds : α → ℕ → Prop) : Prop :=
  ∀ level a, null a ∧ f level a = .error .nullRead ∨
    ¬ null a ∧ ∃ next, f level a = .ok next ∧ ∀ m, m ∈ next ↔ m ∈ level ∨ adds a m

theorem Adds.foldlM {f : List ℕ → α → Except Stop (List ℕ)} {null : α → Prop} {adds : α → ℕ → Prop}
    (h : Adds f null adds) (level : List ℕ) (l : List α) :
    (∃ a ∈ l, null a) ∧ l.foldlM f level = .error .nullRead ∨
      (¬ ∃ a ∈ l, null a) ∧ ∃ next, l.foldlM f level = .ok next ∧
        ∀ m, m ∈ next ↔ m ∈ level ∨ ∃ a ∈ l, adds a m := by
  induction l generalizing level with
  | nil => exact .inr ⟨by simp, level, rfl, by simp⟩
  | cons a rest ih =>
    simp only [List.mem_cons, exists_eq_or_imp, List.foldlM_cons]
    rcases h level a with ⟨hnull, hstep⟩ | ⟨hnull, next, hstep, hmem⟩
    · exact .inl ⟨.inl hnull, by rw [hstep]; rfl⟩
    · rw [hstep]
      rcases ih next with ⟨hnull', hrest⟩ | ⟨hnull', next', hrest, hmem'⟩
      · exact .inl ⟨.inr hnull', hrest⟩
      · refine .inr ⟨not_or.mpr ⟨hnull, hnull'⟩, next', hrest, fun m => ?_⟩
        rw [hmem', hmem, or_assoc]

theorem emplace_adds (status : ℕ → RunningStatus) : Adds (emplace status) (fun n => n = none)
    (fun n m => n = some m ∧ (status m).ended = false) := by
  rintro level (_ | n)
  · exact .inl ⟨rfl, rfl⟩
  · refine .inr ⟨by simp, _, rfl, fun m => ?_⟩
    by_cases hn : (status n).ended
    · rw [if_pos hn]
      grind
    · rw [if_neg hn, List.mem_insert_iff]
      grind

theorem follow_adds : Adds (follow status) (fun n => n = none)
    (fun n m => n = some m ∧ m ≠ flagNode ∧ (status m).ended = false) := by
  rintro level n
  rw [follow]
  split
  · next hflag => exact .inr ⟨by simp [hflag], level, rfl, by grind⟩
  · next hflag =>
    rcases emplace_adds status level n with h | ⟨hnull, next, hstep, hmem⟩
    · exact .inl h
    · exact .inr ⟨hnull, next, hstep, fun m => by rw [hmem]; grind⟩

/-- The next level, unless a null pointer is followed. -/
theorem nextLevel_spec (status : ℕ → RunningStatus) (upStreams : ℕ → List (Option ℕ)) (level : List ℕ) :
    (∃ n ∈ level, none ∈ upStreams n) ∧ nextLevel status upStreams level = .error .nullRead ∨
      (¬ ∃ n ∈ level, none ∈ upStreams n) ∧ ∃ next, nextLevel status upStreams level = .ok next ∧
        ∀ m, m ∈ next ↔ ∃ n ∈ level, Follows status upStreams n m := by
  have hnode : Adds (fun next n => (upStreams n).foldlM (follow status) next)
      (fun n => none ∈ upStreams n) (Follows status upStreams) := by
    intro next n
    simpa [Follows] using follow_adds.foldlM next (upStreams n)
  simpa [nextLevel] using hnode.foldlM [] level

/-- The first level. -/
theorem checkNodes_spec (status : ℕ → RunningStatus) (checkNodes : List (Option ℕ)) :
    none ∈ checkNodes ∧ checkNodes.foldlM (emplace status) [] = .error .nullRead ∨
      none ∉ checkNodes ∧ ∃ level, checkNodes.foldlM (emplace status) [] = .ok level ∧
        ∀ m, m ∈ level ↔ some m ∈ checkNodes ∧ (status m).ended = false := by
  simpa using (emplace_adds status).foldlM [] checkNodes

end Level

/-! ### The answer -/

section Answer
variable {status : ℕ → RunningStatus} {upStreams : ℕ → List (Option ℕ)} {currentTask : ℕ}
  {checkNodes : List (Option ℕ)}

theorem checkLoop_iff {fuel : ℕ} {level : List ℕ} {b : Bool}
    (h : checkLoop status upStreams currentTask fuel level = .ok b) :
    b = true ↔ ∃ n ∈ level, ReflTransGen (Follows status upStreams) n currentTask := by
  induction fuel generalizing level with
  | zero => cases h
  | succ fuel ih =>
    rw [checkLoop] at h
    split at h
    · next hempty =>
      cases h
      simp [hempty]
    · split at h
      · next hmem =>
        cases h
        exact iff_of_true rfl ⟨currentTask, hmem, .refl⟩
      · next hmem =>
        rcases nextLevel_spec status upStreams level with
          ⟨-, hnext⟩ | ⟨-, next, hnext, hmem'⟩
        · rw [hnext] at h
          cases h
        · rw [hnext] at h
          rw [ih h]
          constructor
          · rintro ⟨m, hm, hpath⟩
            obtain ⟨n, hn, hnm⟩ := (hmem' m).mp hm
            exact ⟨n, hn, .head hnm hpath⟩
          · rintro ⟨n, hn, hpath⟩
            rcases ReflTransGen.cases_head hpath with rfl | ⟨m, hnm, hpath⟩
            · exact absurd hn hmem
            · exact ⟨m, (hmem' m).mpr ⟨n, hn, hnm⟩, hpath⟩

/-- **The search decides reachability** whenever it returns. -/
theorem doCheckCircle_iff {fuel : ℕ} {b : Bool}
    (h : doCheckCircle status upStreams currentTask fuel checkNodes = .ok b) :
    b = true ↔ Chain status upStreams checkNodes currentTask := by
  rcases checkNodes_spec status checkNodes with ⟨-, hfold⟩ | ⟨-, level, hfold, hmem⟩
  · rw [doCheckCircle, hfold] at h
    cases h
  · rw [doCheckCircle, hfold] at h
    rw [checkLoop_iff h]
    constructor
    · rintro ⟨n, hn, hpath⟩
      obtain ⟨hlist, hun⟩ := (hmem n).mp hn
      exact ⟨n, hlist, hun, hpath⟩
    · rintro ⟨n, hlist, hun, hpath⟩
      exact ⟨n, (hmem n).mpr ⟨hlist, hun⟩, hpath⟩

/-- Node 3 has node 2 upstream, and that node 1; `flag_node` is skipped. -/
theorem chain_of_search : Chain (fun _ => .initing)
    (fun n => if n = 3 then [some 2, some flagNode] else if n = 2 then [some 1] else []) [some 3] 1 := by
  have h : doCheckCircle (fun _ => .initing)
      (fun n => if n = 3 then [some 2, some flagNode] else if n = 2 then [some 1] else []) 1 3 [some 3] =
        .ok true := by decide
  exact (doCheckCircle_iff h).mp rfl

end Answer

/-! ### Null pointers -/

section Null
variable {status : ℕ → RunningStatus} {upStreams : ℕ → List (Option ℕ)} {currentTask : ℕ}
  {checkNodes : List (Option ℕ)}

theorem checkLoop_ne_null (hnull : ∀ n, none ∉ upStreams n) (fuel : ℕ) (level : List ℕ) :
    checkLoop status upStreams currentTask fuel level ≠ .error .nullRead := by
  induction fuel generalizing level with
  | zero => simp [checkLoop]
  | succ fuel ih =>
    rw [checkLoop]
    split
    · simp
    · split
      · simp
      · rcases nextLevel_spec status upStreams level with
          ⟨⟨n, -, hn⟩, -⟩ | ⟨-, next, hnext, -⟩
        · exact absurd hn (hnull n)
        · rw [hnext]
          exact ih next

/-- Without null pointers in the lists, none is followed. -/
theorem checkCircle_ne_null (hnull : ∀ n, none ∉ upStreams n)
    (hnodes : none ∈ checkNodes → some currentTask ∈ checkNodes) (fuel : ℕ) :
    checkCircle status upStreams currentTask fuel checkNodes ≠ .error .nullRead := by
  rw [checkCircle]
  split
  · simp
  · next hself =>
    rcases checkNodes_spec status checkNodes with ⟨hnone, -⟩ | ⟨-, level, hfold, -⟩
    · exact absurd (hnodes hnone) hself
    · rw [doCheckCircle, hfold]
      exact checkLoop_ne_null hnull fuel level

end Null

end QuietFlow.Aspect
