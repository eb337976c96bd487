import Mathlib.Data.List.Range

/-!
# Counted loops

What round `k` of a loop over the numbers below `n` carries from `k` to `k+1` has come to `n` when
the loop ends.
-/

set_option autoImplicit false

namespace Vlsmc.CountedLoops

variable {σ : Type*} {f : σ → ℕ → σ} {P : ℕ → σ → Prop} {s : σ}

theorem foldl_range (h : P 0 s) (n : ℕ) (hround : ∀ k < n, ∀ r, P k r → P (k+1) (f r k)) :
    P n ((List.range n).foldl f s) := by
  induction n with
  | zero => exact h
  | succ n ih =>
    rw [List.range_succ, List.foldl_append, List.foldl_cons, List.foldl_nil]
    exact hround n (Nat.lt_succ_self n) _ (ih fun k hk => hround k (Nat.lt_succ_of_lt hk))

end Vlsmc.CountedLoops
