import Mathlib.Logic.Relation

/-!
# Rooted trees as relations

A relation in which the root has no parent and every node reachable from the
root has at most one reachable parent has no cycle there. A node that is not
below a removed node stays reachable.
-/

set_option autoImplicit false

namespace Vlsmc.RootedTree
open Relation

variable {α : Type*} {R S : α → α → Prop} {r : α}

structure Rooted (R : α → α → Prop) (r : α) : Prop where
  top : ∀ a, ¬ R a r
  parent : ∀ a b x, ReflTransGen R r a → ReflTransGen R r b → R a x → R b x → a = b

theorem rooted_acyclic (h : Rooted R r) {x : α} (hx : ReflTransGen R r x) : ¬ TransGen R x x := by
  induction hx with
  | refl =>
    intro hc
    obtain ⟨b, -, hb⟩ := TransGen.tail'_iff.mp hc
    exact h.top b hb
  | @tail a x ha hax ih =>
    intro hc
    -- the cycle enters the node through its only parent
    obtain ⟨b, hxb, hbx⟩ := TransGen.tail'_iff.mp hc
    obtain rfl := h.parent a b x ha ((ha.tail hax).trans hxb) hax hbx
    exact ih (TransGen.head' hax hxb)

/-- A node that is not below `c` is reached without passing `c`. -/
theorem reach_avoiding {c x : α} (hx : ReflTransGen R r x) (hc : ¬ ReflTransGen R c x)
    (hRS : ∀ a b, ReflTransGen R r a → ¬ ReflTransGen R c a → ReflTransGen S r a → R a b →
      b ≠ c → S a b) : ReflTransGen S r x := by
  induction hx with
  | refl => exact ReflTransGen.refl
  | @tail a b ha hab ih =>
    have hca : ¬ ReflTransGen R c a := fun h => hc (h.tail hab)
    have hbc : b ≠ c := by
      rintro rfl
      exact hc ReflTransGen.refl
    exact (ih hca).tail (hRS a b ha hca (ih hca) hab hbc)

/-- What is reached by steps that never enter `c` does not lie below it. -/
theorem reached_outside (h : Rooted R r) {c x : α} (hc : ReflTransGen R r c) (hcr : c ≠ r)
    (hx : ReflTransGen S r x) (hSR : ∀ a b, ReflTransGen S r a → ReflTransGen R r a →
      ¬ ReflTransGen R c a → S a b → R a b ∧ b ≠ c) :
    ReflTransGen R r x ∧ ¬ ReflTransGen R c x := by
  induction hx with
  | refl =>
    refine ⟨ReflTransGen.refl, fun hcx => ?_⟩
    rcases ReflTransGen.cases_tail hcx with he | ⟨b, -, hb⟩
    · exact hcr he.symm
    · exact h.top b hb
  | @tail a b ha hab ih =>
    obtain ⟨har, hac⟩ := ih
    obtain ⟨hR, hbc⟩ := hSR a b ha har hac hab
    refine ⟨har.tail hR, fun hcb => ?_⟩
    rcases ReflTransGen.cases_tail hcb with he | ⟨y, hcy, hyb⟩
    · exact hbc he
    · exact hac (h.parent y a b (hc.trans hcy) har hyb hR ▸ hcy)

end Vlsmc.RootedTree
