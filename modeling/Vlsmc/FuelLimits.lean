import Mathlib.Order.Basic

/-!
# Computations with fuel

A computation that may run out of fuel ends with a result if every amount of fuel from
some amount on gives it.
-/

set_option autoImplicit false

namespace Vlsmc.FuelLimits

variable {α β : Type*} {f : ℕ → Option α} {g : ℕ → α → Option β} {a b' : α} {b : β}

def Ends (f : ℕ → Option α) (a : α) : Prop := ∃ n, ∀ m, n ≤ m → f m = some a

theorem ends_of_eq (h : ∀ m, f m = some a) : Ends f a := ⟨0, fun m _ => h m⟩

theorem Ends.bind (hf : Ends f a) (hg : Ends (fun m => g m a) b) :
    Ends (fun m => (f m).bind (g m)) b := by
  obtain ⟨n, hn⟩ := hf
  obtain ⟨k, hk⟩ := hg
  refine ⟨max n k, ?_⟩
  intro m hm
  change (f m).bind (g m) = some b
  rw [hn m (Nat.le_trans (Nat.le_max_left n k) hm), Option.bind_some]
  exact hk m (Nat.le_trans (Nat.le_max_right n k) hm)

theorem Ends.map (hf : Ends f a) (h : α → β) : Ends (fun m => (f m).map h) (h a) := by
  obtain ⟨n, hn⟩ := hf
  refine ⟨n, ?_⟩
  intro m hm
  change (f m).map h = some (h a)
  rw [hn m hm, Option.map_some]

/-- With results that more fuel keeps, the end is the only result. -/
theorem Ends.result {n : ℕ} (hf : Ends f a) (hmore : ∀ m b, f m = some b → f (m+1) = some b)
    (hn : f n = some b') : b' = a := by
  obtain ⟨k, hk⟩ := hf
  have hall : ∀ i, f (n+i) = some b' := by
    intro i
    induction i with
    | zero => exact hn
    | succ i ih => exact hmore (n+i) b' ih
  have hend := hk (n+k) (Nat.le_add_left k n)
  rw [hall k] at hend
  exact Option.some.inj hend

theorem Ends.congr {h : ℕ → Option α} (hf : Ends f a) (he : ∀ m, h m = f m) : Ends h a := by
  obtain ⟨n, hn⟩ := hf
  exact ⟨n, fun m hm => (he m).trans (hn m hm)⟩

end Vlsmc.FuelLimits
