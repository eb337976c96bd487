import Vlsmc.FullPeriods

/-!
# Random numbers

`rand` and `srand` of the user library; `next_rand` is a 32-bit number.
-/

set_option autoImplicit false

namespace Vlsmc.RandomNumbers
open Vlsmc.FullPeriods

def rand (nextRand : ℕ) : ℕ×ℕ :=
  let nextRand := (nextRand*1103515245+12345)%4294967296
  (nextRand/65536%32768, nextRand)

/-- The state after some calls. -/
def after (nextRand : ℕ) : ℕ → ℕ
  | 0 => nextRand
  | n+1 => (rand (after nextRand n)).2

/-- The result of the call after `n` others. -/
def call (nextRand n : ℕ) : ℕ := (rand (after nextRand n)).1

variable {seed : ℕ}

theorem after_eq (seed n : ℕ) : after seed n = (next 1103515245 12345 (2^32))^[n] seed := by
  induction n with
  | zero => rfl
  | succ n ih =>
    rw [Function.iterate_succ_apply', ← ih, after, next, Nat.mul_comm]
    rfl

/-- Any seed goes through all states, and each value of `rand` comes equally often. -/
theorem rand_full_period (hseed : seed < 2^32) :
    (∀ n, after seed n = seed ↔ 2^32 ∣ n) ∧
      ∀ v < 32768, ((Finset.range (2^32)).filter fun n => call seed n = v).card = 2^17 := by
  constructor
  · intro n
    rw [after_eq]
    exact returns_iff (by decide) (by decide) hseed
  · intro v hv
    obtain ⟨hinj, himage⟩ := visits (a := 1103515245) (c := 12345) (k := 32) (by decide) (by decide)
      (next_lt 1103515245 12345 32 seed)
    have hcall : ∀ n, call seed n = (next 1103515245 12345 (2^32))^[n]
        (next 1103515245 12345 (2^32) seed)/65536%32768 := by
      intro n
      rw [← Function.iterate_succ_apply, ← after_eq]
      rfl
    have hdigit : ((Finset.range (65536*32768*2)).filter fun y => y/65536%32768 = v).card = 65536*2 :=
      card_digit hv (by decide)
    have hsame : ((Finset.range (2^32)).filter fun n => (next 1103515245 12345 (2^32))^[n]
        (next 1103515245 12345 (2^32) seed)/65536%32768 = v) =
          (Finset.range (2^32)).filter fun n => call seed n = v := by
      apply Finset.filter_congr
      intro n _
      rw [hcall]
    have hstates : (Finset.range (2^32)).filter (fun y => y/65536%32768 = v) =
        ((Finset.range (2^32)).filter fun n => call seed n = v).image fun n =>
          (next 1103515245 12345 (2^32))^[n] (next 1103515245 12345 (2^32) seed) := by
      rw [← hsame]
      conv_lhs => rw [← himage]
      exact Finset.filter_image
    have hcard := Finset.card_image_of_injOn
      (hinj.mono (Finset.coe_subset.mpr (Finset.filter_subset (fun n => call seed n = v) _)))
    rw [← hcard, ← hstates]
    exact hdigit

theorem rand_full_period_one : after 1 (2^32) = 1 ∧
    ((Finset.range (2^32)).filter fun n => call 1 n = 7).card = 2^17 := by
  obtain ⟨hperiod, hoften⟩ := @rand_full_period 1 (by decide)
  exact ⟨(hperiod (2^32)).mpr (dvd_refl _), hoften 7 (by decide)⟩

end Vlsmc.RandomNumbers
