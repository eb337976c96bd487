import Mathlib.Data.Nat.Init
import Mathlib.Data.List.Basic

/-!
# Snapshots by reading twice

Registers change while a reader goes over them, so one pass may show values that never stood
together. Two passes that read the same show what stood between them, as long as no register
comes back to a value within the time they take.
-/

set_option autoImplicit false

namespace Vlsmc.SnapshotReads

variable {ι V : Type*} {value : ℕ → ι → V} {rs : List ι} {vs ws : List V} {a b c d m : ℕ}

/-- A pass over registers: each is read at some time, in order, from `a` to `b`. -/
inductive Pass (value : ℕ → ι → V) : ℕ → List ι → List V → ℕ → Prop
  | done (t : ℕ) : Pass value t [] [] t
  | read {t t' t'' : ℕ} {r : ι} {rs : List ι} {vs : List V} (later : t ≤ t')
      (rest : Pass value t' rs vs t'') : Pass value t (r::rs) (value t' r::vs) t''

/-- No register leaves a value and is back at it from `a` to `b`. -/
def Steady (value : ℕ → ι → V) (a b : ℕ) : Prop :=
  ∀ r t u s, a ≤ t → t ≤ u → u ≤ s → s ≤ b → value t r = value s r → value u r = value t r

theorem Pass.le (h : Pass value a rs vs b) : a ≤ b := by
  induction h with
  | done t => exact Nat.le_refl t
  | read later _ ih => exact Nat.le_trans later ih

/-- Two passes that read the same read what the registers were between them. -/
theorem Pass.snapshot (h : Pass value a rs vs b) (h' : Pass value c rs vs d) (hb : b ≤ m) (hc : m ≤ c)
    (hs : Steady value a d) : vs = rs.map (value m) := by
  induction h generalizing c with
  | done t => rfl
  | @read t t' t'' r rs vs later rest ih =>
    generalize hws : value t' r::vs = ws at h'
    cases h' with
    | @read _ s _ _ _ ws later' rest' =>
      obtain ⟨hvalue, rfl⟩ := List.cons.inj hws
      have hle := rest.le
      have hle' := rest'.le
      have hhead := hs r t' m s later (by omega) (by omega) hle' hvalue
      have hsteady : Steady value t' d :=
        fun r t u s h₁ h₂ h₃ h₄ => hs r t u s (Nat.le_trans later h₁) h₂ h₃ h₄
      have htail := ih rest' hb (by omega) hsteady
      rw [List.map_cons, hhead, htail, hvalue]

/-- While nothing changes a pass reads what there is. -/
theorem Pass.quiet (h : Pass value a rs vs b) (hq : ∀ t, a ≤ t → t ≤ b → value t = value a) :
    vs = rs.map (value a) := by
  induction h with
  | done t => rfl
  | @read t t' t'' r rs vs later rest ih =>
    have hthen := hq t' later rest.le
    have htail := ih fun u hu hu' => (hq u (Nat.le_trans later hu) hu').trans hthen.symm
    rw [List.map_cons, hthen, htail, hthen]

end Vlsmc.SnapshotReads
