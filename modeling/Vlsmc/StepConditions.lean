import Mathlib.Data.List.Infix

/-!
# Conditions on steps

When a step keeps a property exactly if it meets a condition, the property holds in all
states of a run exactly if every step of the run meets the condition.
-/

set_option autoImplicit false

namespace Vlsmc.StepConditions

variable {σ α : Type*} {step : σ → α → σ} {P : σ → Prop} {K : σ → α → Prop}

/-- The property holds before the run and after each of its steps. -/
def Always (step : σ → α → σ) (P : σ → Prop) (s : σ) (as : List α) : Prop :=
  ∀ before, before <+: as → P (before.foldl step s)

/-- Every step meets the condition in the state it is taken in. -/
def Meets (step : σ → α → σ) (K : σ → α → Prop) (s : σ) (as : List α) : Prop :=
  ∀ before a, before++[a] <+: as → K (before.foldl step s) a

theorem always_nil {s : σ} : Always step P s [] ↔ P s := by
  constructor
  · exact fun h => h [] List.prefix_rfl
  · intro h before hb
    rw [List.prefix_nil.mp hb]
    exact h

theorem always_cons {s : σ} {a : α} {as : List α} :
    Always step P s (a::as) ↔ P s ∧ Always step P (step s a) as := by
  constructor
  · intro h
    constructor
    · exact h [] List.nil_prefix
    · exact fun before hb => h (a::before) ((List.prefix_cons_inj a).mpr hb)
  · rintro ⟨hs, h⟩ before hb
    cases before with
    | nil => exact hs
    | cons b before =>
      obtain ⟨rfl, hrest⟩ := List.cons_prefix_cons.mp hb
      exact h before hrest

theorem meets_nil {s : σ} : Meets step K s [] := by
  intro before a hb
  exact absurd (List.prefix_nil.mp hb) (by simp)

theorem meets_cons {s : σ} {a : α} {as : List α} :
    Meets step K s (a::as) ↔ K s a ∧ Meets step K (step s a) as := by
  constructor
  · intro h
    constructor
    · exact h [] a (List.cons_prefix_cons.mpr ⟨rfl, List.nil_prefix⟩)
    · exact fun before b hb => h (a::before) b ((List.prefix_cons_inj a).mpr hb)
  · rintro ⟨hs, h⟩ before b hb
    cases before with
    | nil =>
      obtain ⟨rfl, -⟩ := List.cons_prefix_cons.mp hb
      exact hs
    | cons c before =>
      obtain ⟨rfl, hrest⟩ := List.cons_prefix_cons.mp hb
      exact h before b hrest

theorem Always.start {s : σ} {as : List α} (h : Always step P s as) : P s :=
  h [] List.nil_prefix

/-- Steps that keep the property exactly under the condition. -/
theorem always_iff_meets (hstep : ∀ s a, P s → (P (step s a) ↔ K s a)) {s : σ} (hs : P s)
    (as : List α) : Always step P s as ↔ Meets step K s as := by
  induction as generalizing s with
  | nil => exact ⟨fun _ => meets_nil, fun _ => always_nil.mpr hs⟩
  | cons a as ih =>
    rw [always_cons, meets_cons]
    constructor
    · rintro ⟨-, h⟩
      have ha := h.start
      exact ⟨(hstep s a hs).mp ha, (ih ha).mp h⟩
    · rintro ⟨hk, h⟩
      have ha := (hstep s a hs).mpr hk
      exact ⟨hs, (ih ha).mpr h⟩

/-- Two properties that agree while an invariant holds, which the first of them preserves. -/
theorem always_congr {Q I : σ → Prop} (hI : ∀ s a, I s → P s → I (step s a))
    (hPQ : ∀ s, I s → (P s ↔ Q s)) {s : σ} (hs : I s) (as : List α) :
    Always step P s as ↔ Always step Q s as := by
  induction as generalizing s with
  | nil => rw [always_nil, always_nil, hPQ s hs]
  | cons a as ih =>
    rw [always_cons, always_cons, hPQ s hs]
    constructor
    · rintro ⟨hq, h⟩
      exact ⟨hq, (ih (hI s a hs ((hPQ s hs).mpr hq))).mp h⟩
    · rintro ⟨hq, h⟩
      exact ⟨hq, (ih (hI s a hs ((hPQ s hs).mpr hq))).mpr h⟩

end Vlsmc.StepConditions
