import Mathlib.Logic.Function.Basic
import Vlsmc.StepConditions

/-!
# Updates by key

A system whose steps each change what is seen under one key is a finite map: after a run, under a
key stands the value of the last step for it, or what stood there at first.
-/

set_option autoImplicit false

namespace Vlsmc.KeyedUpdates
open Vlsmc.StepConditions

variable {σ α κ β : Type*} [DecidableEq κ]
variable {key : α → κ} {value : α → β} {k : κ} {a : α} {as : List α}

/-- The last step for a key. -/
def lastFor (key : α → κ) (k : κ) : List α → Option α
  | [] => none
  | a::as => (lastFor key k as).or (if key a = k then some a else none)

/-- The map after the steps. -/
def updates (key : α → κ) (value : α → β) (M : κ → β) (as : List α) : κ → β :=
  as.foldl (fun M a => Function.update M (key a) (value a)) M

theorem updates_apply (M : κ → β) (as : List α) (k : κ) :
    updates key value M as k = ((lastFor key k as).map value).getD (M k) := by
  induction as generalizing M with
  | nil => rfl
  | cons a as ih =>
    have hrest : updates key value M (a::as) k =
        updates key value (Function.update M (key a) (value a)) as k := rfl
    rw [hrest, ih, lastFor]
    cases lastFor key k as with
    | some b => rfl
    | none =>
      by_cases hk : key a = k
      · rw [if_pos hk, ← hk, Function.update_self]
        rfl
      · rw [if_neg hk, Function.update_of_ne (Ne.symm hk)]
        rfl

/-- The steps keep `P`, and each updates what is seen under its key. -/
structure Updating (step : σ → α → σ) (P : σ → Prop) (K : σ → α → Prop) (view : σ → κ → β)
    (key : α → κ) (value : α → β) : Prop where
  keeps : ∀ s a, P s → K s a → P (step s a)
  acts : ∀ s a, P s → K s a → view (step s a) = Function.update (view s) (key a) (value a)

variable {step : σ → α → σ} {P : σ → Prop} {K : σ → α → Prop} {view : σ → κ → β} {s : σ}

theorem run_keeps (h : Updating step P K view key value) (hs : P s) (hm : Meets step K s as) :
    P (as.foldl step s) := by
  induction as generalizing s with
  | nil => exact hs
  | cons a as ih =>
    obtain ⟨ha, hrest⟩ := meets_cons.mp hm
    exact ih (h.keeps s a hs ha) hrest

theorem run_updates (h : Updating step P K view key value) (hs : P s) (hm : Meets step K s as) :
    view (as.foldl step s) = updates key value (view s) as := by
  induction as generalizing s with
  | nil => rfl
  | cons a as ih =>
    obtain ⟨ha, hrest⟩ := meets_cons.mp hm
    rw [List.foldl_cons, ih (h.keeps s a hs ha) hrest, h.acts s a hs ha]
    rfl

/-- What is seen after a run. -/
theorem run_last (h : Updating step P K view key value) (hs : P s) (hm : Meets step K s as)
    (k : κ) : view (as.foldl step s) k = ((lastFor key k as).map value).getD (view s k) := by
  rw [run_updates h hs hm, updates_apply]

/-- The step after a part of a run. -/
theorem run_step {before : List α} (h : Updating step P K view key value) (hs : P s)
    (hm : Meets step K s as) (hb : before++[a] <+: as) :
    view ((before++[a]).foldl step s) =
      Function.update (view (before.foldl step s)) (key a) (value a) := by
  have hpart : Meets step K s before := fun pre b hpre =>
    hm pre b (hpre.trans ((List.prefix_append before [a]).trans hb))
  rw [List.foldl_append]
  exact h.acts _ _ (run_keeps h hs hpart) (hm before a hb)

end Vlsmc.KeyedUpdates
