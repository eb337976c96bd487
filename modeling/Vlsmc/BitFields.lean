import Mathlib.Data.Nat.Bitwise
import Mathlib.Tactic.Ring

/-!
# Numbers in bit fields

Numbers shifted apart and joined bit by bit are digits of one number, so each is found again by
shifting back and masking.
-/

set_option autoImplicit false

namespace Vlsmc.BitFields

variable {a b c i j k n : ℕ}

theorem shiftLeft_or (hb : b < 2^k) : a <<< k ||| b = a*2^k+b := by
  rw [← Nat.shiftLeft_add_eq_or_of_lt hb, Nat.shiftLeft_eq]

/-- Three numbers packed into one and taken out again. -/
theorem fields (hk : k = a <<< (i+j) ||| b <<< j ||| c) (hb : b < 2^i) (hc : c < 2^j) :
    k >>> (i+j) = a ∧ k >>> j &&& (2^i-1) = b ∧ k &&& (2^j-1) = c ∧ k < (a+1)*2^(i+j) := by
  have hfits : b*2^j+c < 2^(i+j) := by
    have hstep : (b+1)*2^j ≤ 2^i*2^j := Nat.mul_le_mul_right _ hb
    rw [Nat.pow_add]
    rw [Nat.add_mul, Nat.one_mul] at hstep
    omega
  have hall : k = a*2^(i+j)+(b*2^j+c) := by
    rw [hk, Nat.or_assoc, shiftLeft_or hc, shiftLeft_or hfits]
  have hhigh : a*2^(i+j)+(b*2^j+c) = (a*2^i+b)*2^j+c := by
    rw [Nat.pow_add]
    ring
  have hpow : 0 < 2^j := Nat.two_pow_pos j
  rw [hall, Nat.and_two_pow_sub_one_eq_mod, Nat.and_two_pow_sub_one_eq_mod, Nat.shiftRight_eq_div_pow,
    Nat.shiftRight_eq_div_pow]
  refine ⟨?_, ?_, ?_, ?_⟩
  · rw [Nat.mul_comm, Nat.mul_add_div (Nat.two_pow_pos _), Nat.div_eq_of_lt hfits, Nat.add_zero]
  · rw [hhigh, Nat.mul_comm _ (2^j), Nat.mul_add_div hpow, Nat.div_eq_of_lt hc, Nat.add_zero,
      Nat.mul_comm, Nat.mul_add_mod, Nat.mod_eq_of_lt hb]
  · rw [hhigh, Nat.mul_comm _ (2^j), Nat.mul_add_mod, Nat.mod_eq_of_lt hc]
  · rw [Nat.add_mul, Nat.one_mul]
    omega

end Vlsmc.BitFields
