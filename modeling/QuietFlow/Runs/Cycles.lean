import Mathlib.Data.Finset.Card
import Mathlib.Logic.Relation

/-! Relations without cycles.

A step that gives one element new edges closes a cycle exactly when one of them leads back.
In a finite set the descendants of an element become fewer along each edge, so a search that
follows the edges level by level comes to an end. -/
namespace QuietFlow.Runs
open Relation

def Acyclic {α : Type*} (r : α → α → Prop) : Prop := ∀ a, ¬ TransGen r a a

namespace Acyclic
variable {α : Type*} {r r' : α → α → Prop}

theorem mono (h : Acyclic r) (hle : ∀ a b, r' a b → r a b) : Acyclic r' :=
  fun a ha => h a (TransGen.mono hle a a ha)

/-- A path to `t` may stop there, before it takes an edge out of `t`. -/
theorem path_to {t : α} (hsub : ∀ a b, r' a b → a ≠ t → r a b) {b : α} (h : ReflTransGen r' b t) :
    ReflTransGen r b t := by
  induction h using ReflTransGen.head_induction_on with
  | refl => exact .refl
  | @head a c hab _ ih =>
    by_cases hat : a = t
    · subst hat
      exact .refl
    · exact .head (hsub a c hab hat) ih

theorem through {t : α} (hsub : ∀ a b, r' a b → a ≠ t → r a b) {a b : α} (h : TransGen r' a b) :
    TransGen r a b ∨ ReflTransGen r' a t ∧ ReflTransGen r' t b := by
  induction h with
  | single hab =>
    by_cases hat : a = t
    · subst hat
      exact .inr ⟨.refl, .single hab⟩
    · exact .inl (.single (hsub _ _ hab hat))
  | @tail b c hab hbc ih =>
    by_cases hbt : b = t
    · subst hbt
      exact .inr ⟨hab.to_reflTransGen, .single hbc⟩
    · rcases ih with hpath | ⟨hto, hfrom⟩
      · exact .inl (.tail hpath (hsub _ _ hbc hbt))
      · exact .inr ⟨hto, hfrom.tail hbc⟩

/-- New edges out of `t` close no cycle if none of them leads back to `t`. -/
theorem add_out (h : Acyclic r) {t : α} (hsub : ∀ a b, r' a b → a ≠ t → r a b)
    (hback : ∀ b, r' t b → ¬ ReflTransGen r b t) : Acyclic r' := by
  intro a ha
  rcases through hsub ha with hcycle | ⟨hto, hfrom⟩
  · exact h a hcycle
  · have hcycle : TransGen r' t t := (TransGen.trans_right hfrom ha).trans_left hto
    obtain ⟨b, hb, hpath⟩ := TransGen.head'_iff.mp hcycle
    exact hback b hb (path_to hsub hpath)

end Acyclic

/-! ### Descendants in a finite set -/

section Descendants
variable {α : Type*} {r : α → α → Prop} {s : Finset α} {a b : α}

open Classical in
/-- The elements of `s` that `a` leads to. -/
noncomputable def descendants (r : α → α → Prop) (s : Finset α) (a : α) : Finset α :=
  s.filter fun b => TransGen r a b

theorem mem_descendants : b ∈ descendants r s a ↔ b ∈ s ∧ TransGen r a b := by
  classical
  simp [descendants]

theorem descendants_card_le : (descendants r s a).card ≤ s.card :=
  Finset.card_le_card fun _ hb => (mem_descendants.mp hb).1

theorem descendants_card_lt_of_rel (h : Acyclic r) (hab : r a b) (hb : b ∈ s) :
    (descendants r s b).card < (descendants r s a).card := by
  refine Finset.card_lt_card ⟨fun c hc => ?_, fun hsub => ?_⟩
  · obtain ⟨hcs, hbc⟩ := mem_descendants.mp hc
    exact mem_descendants.mpr ⟨hcs, .head hab hbc⟩
  · have hmem := hsub (mem_descendants.mpr ⟨hb, .single hab⟩)
    exact h b (mem_descendants.mp hmem).2

theorem descendants_card_lt (h : Acyclic r) (ha : a ∈ s) : (descendants r s a).card < s.card :=
  Finset.card_lt_card ⟨fun _ hc => (mem_descendants.mp hc).1,
    fun hsub => h a (mem_descendants.mp (hsub ha)).2⟩

end Descendants
end QuietFlow.Runs
