import Mathlib.Data.Set.Card

/-!
# Counting the holders of shared objects

A table `M` maps slots to the objects they hold. The number of holders of an
object changes by one when a slot takes or drops it, and the counts of other
objects do not change.
-/

set_option autoImplicit false

namespace Vlsmc.SharedFrames

variable {κ φ : Type*} [DecidableEq κ]

/-- The slots that hold `f`. -/
def holders (M : κ → Option φ) (f : φ) : Set κ := {x | M x = some f}

def setSlot (M : κ → Option φ) (x : κ) (o : Option φ) : κ → Option φ :=
  fun y => if y = x then o else M y

theorem setSlot_same (M : κ → Option φ) (x : κ) (o : Option φ) : setSlot M x o x = o := if_pos rfl

theorem setSlot_ne (M : κ → Option φ) {x y : κ} (o : Option φ) (h : y ≠ x) :
    setSlot M x o y = M y := if_neg h

variable {M : κ → Option φ} {x : κ} {f : φ}

theorem setSlot_self {o : Option φ} (h : M x = o) : setSlot M x o = M := by
  funext y
  by_cases hy : y = x
  · rw [hy, setSlot_same, h]
  · rw [setSlot_ne _ _ hy]

theorem setSlot_setSlot (M : κ → Option φ) (x : κ) (o o' : Option φ) :
    setSlot (setSlot M x o) x o' = setSlot M x o' := by
  funext y
  by_cases hy : y = x
  · rw [hy, setSlot_same, setSlot_same]
  · rw [setSlot_ne _ _ hy, setSlot_ne _ _ hy, setSlot_ne _ _ hy]

theorem holders_take : holders (setSlot M x (some f)) f = insert x (holders M f) := by
  ext y
  by_cases hy : y = x
  · simp [holders, setSlot, hy]
  · simp [holders, setSlot, hy]

theorem holders_take_other {g : φ} (h : M x = none) (hg : g ≠ f) :
    holders (setSlot M x (some f)) g = holders M g := by
  ext y
  by_cases hy : y = x
  · simp [holders, setSlot, hy, h, Ne.symm hg]
  · simp [holders, setSlot, hy]

theorem holders_drop : holders (setSlot M x none) f = holders M f \ {x} := by
  ext y
  by_cases hy : y = x
  · simp [holders, setSlot, hy]
  · simp [holders, setSlot, hy]

theorem holders_drop_other {g : φ} (h : M x = some f) (hg : g ≠ f) :
    holders (setSlot M x none) g = holders M g := by
  ext y
  by_cases hy : y = x
  · simp [holders, setSlot, hy, h, Ne.symm hg]
  · simp [holders, setSlot, hy]

/-- A slot that takes an object adds one holder. -/
theorem ncard_take (h : M x = none) (hfin : (holders M f).Finite) :
    (holders (setSlot M x (some f)) f).ncard = (holders M f).ncard+1 := by
  rw [holders_take]
  apply Set.ncard_insert_of_notMem _ hfin
  simp [holders, h]

/-- A slot that drops its object removes one holder. -/
theorem ncard_drop (h : M x = some f) (hfin : (holders M f).Finite) :
    (holders (setSlot M x none) f).ncard+1 = (holders M f).ncard := by
  rw [holders_drop]
  exact Set.ncard_sdiff_singleton_add_one h hfin

omit [DecidableEq κ] in
/-- One holder left means that every holder is the same slot. -/
theorem sole_holder (h : (holders M f).ncard = 1)
    (hx : M x = some f) {y : κ} (hy : M y = some f) : y = x := by
  obtain ⟨a, ha⟩ := Set.ncard_eq_one.mp h
  have h1 : x ∈ holders M f := hx
  have h2 : y ∈ holders M f := hy
  rw [ha, Set.mem_singleton_iff] at h1 h2
  rw [h1, h2]

omit [DecidableEq κ] in
theorem ncard_of_sole (hx : M x = some f) (h : ∀ y, M y = some f → y = x) :
    (holders M f).ncard = 1 := by
  have : holders M f = {x} := by
    ext y
    exact ⟨fun hy => h y hy, fun hy => by rw [Set.mem_singleton_iff.mp hy]; exact hx⟩
  rw [this, Set.ncard_singleton]

omit [DecidableEq κ] in
/-- Holders that differ in a number below `n` are at most `n`. -/
theorem ncard_le_of_key (key : κ → ℕ) (n : ℕ) (hk : ∀ y ∈ holders M f, key y < n)
    (hinj : Set.InjOn key (holders M f)) : (holders M f).ncard ≤ n := by
  have h := Set.ncard_le_ncard_of_injOn key (t := (Finset.range n : Set ℕ))
    (fun y hy => by simpa using hk y hy) hinj (Finset.finite_toSet _)
  rwa [Set.ncard_coe_finset, Finset.card_range] at h

end Vlsmc.SharedFrames
