import Mathlib.Data.Finset.Card
import Mathlib.Data.Finset.Prod
import Mathlib.Data.Finset.Range
import Mathlib.Tactic.Ring

/-!
# Counting holders

Places that hold an object each, or none. An object's reference count is exact when it is
the number of places that hold the object.
-/

set_option autoImplicit false

namespace Vlsmc.HolderCounts

variable {ι α : Type*}

section Places

variable [DecidableEq ι] (h : ι → Option α) (i : ι) (x : Option α)

def put : ι → Option α := fun j => if j = i then x else h j

@[simp] theorem put_self : put h i x i = x := if_pos rfl

theorem put_other {j : ι} (hj : j ≠ i) : put h i x j = h j := if_neg hj

end Places

variable [DecidableEq α]

def held (places : Finset ι) (h : ι → Option α) (a : α) : ℕ :=
  (places.filter fun i => h i = some a).card

variable {places : Finset ι} {h : ι → Option α} {a : α}

theorem held_congr {h' : ι → Option α} (he : ∀ i ∈ places, h' i = h i) :
    held places h' a = held places h a := by
  unfold held
  congr 1
  apply Finset.filter_congr
  intro i hi
  rw [he i hi]

theorem held_pos : 0 < held places h a ↔ ∃ i ∈ places, h i = some a := by
  rw [held, Finset.card_pos]
  constructor
  · rintro ⟨i, hi⟩
    exact ⟨i, Finset.mem_filter.mp hi⟩
  · rintro ⟨i, hi⟩
    exact ⟨i, Finset.mem_filter.mpr hi⟩

theorem held_le : held places h a ≤ places.card := Finset.card_filter_le _ _

theorem held_range_succ {h : ℕ → Option α} (n : ℕ) : held (Finset.range (n+1)) h a =
    held (Finset.range n) h a+if h n = some a then 1 else 0 := by
  unfold held
  rw [Finset.range_add_one, Finset.filter_insert]
  split_ifs
  · rw [Finset.card_insert_of_notMem (by simp)]
  · rfl

variable [DecidableEq ι] {i : ι} {x : Option α}

/-- One place more. -/
theorem held_insert (hi : i ∉ places) : held (insert i places) h a =
    held places h a+if h i = some a then 1 else 0 := by
  unfold held
  rw [Finset.filter_insert]
  split_ifs
  · rw [Finset.card_insert_of_notMem fun hm => hi (Finset.mem_filter.mp hm).1]
  · rfl

/-- The object put in is held once more, the one it replaces once less. -/
theorem held_put (hi : i ∈ places) :
    held places (put h i x) a+(if h i = some a then 1 else 0) =
      held places h a+if x = some a then 1 else 0 := by
  have hrest : held (places.erase i) (put h i x) a = held (places.erase i) h a := by
    apply held_congr
    intro j hj
    exact put_other h i x (Finset.ne_of_mem_erase hj)
  have hnot := Finset.notMem_erase i places
  have hnew := held_insert (h := put h i x) (a := a) hnot
  have hold := held_insert (h := h) (a := a) hnot
  rw [Finset.insert_erase hi] at hnew hold
  rw [hnew, hold, hrest, put_self]
  ring

end Vlsmc.HolderCounts
