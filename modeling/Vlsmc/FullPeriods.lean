import Mathlib.Algebra.Order.BigOperators.Group.Finset
import Mathlib.Data.Finset.Prod
import Mathlib.Data.Nat.GCD.Basic
import Mathlib.Data.Nat.ModEq
import Mathlib.Data.Nat.Prime.Basic
import Mathlib.Logic.Function.Iterate
import Mathlib.Tactic.Ring

/-!
# Full periods

The map `x ↦ a*x+c` modulo a power of two goes through all numbers below it before it comes back,
if `a` is one more than a multiple of four and `c` is odd.
-/

set_option autoImplicit false

namespace Vlsmc.FullPeriods

/-- The sum of the first `n` powers of `a`. -/
def powers (a : ℕ) : ℕ → ℕ
  | 0 => 0
  | n+1 => a*powers a n+1

def next (a c m x : ℕ) : ℕ := (a*x+c)%m

variable {a c m x n k : ℕ}

theorem powers_zero (a : ℕ) : powers a 0 = 0 := rfl

theorem powers_succ (a n : ℕ) : powers a (n+1) = a*powers a n+1 := rfl

theorem iterate_next (hx : x < m) (n : ℕ) : (next a c m)^[n] x = (a^n*x+c*powers a n)%m := by
  induction n with
  | zero => simp [powers_zero, Nat.mod_eq_of_lt hx]
  | succ n ih =>
    rw [Function.iterate_succ_apply', ih, next, Nat.add_mod, Nat.mul_mod, Nat.mod_mod,
      ← Nat.mul_mod, ← Nat.add_mod, powers_succ]
    congr 1
    ring

theorem pow_eq (b n : ℕ) : (b+1)^n = b*powers (b+1) n+1 := by
  induction n with
  | zero => simp [powers_zero]
  | succ n ih =>
    rw [pow_succ, ih, powers_succ]
    ring

theorem powers_add (a n k : ℕ) : powers a (n+k) = powers a k+a^k*powers a n := by
  induction k with
  | zero => simp [powers_zero]
  | succ k ih =>
    rw [← Nat.add_assoc, powers_succ, ih, powers_succ]
    ring

theorem powers_double (a n : ℕ) : powers a (2*n) = powers a n*(a^n+1) := by
  rw [Nat.two_mul, powers_add]
  ring

theorem powers_parity (ha : a%4 = 1) (n : ℕ) : powers a n%2 = n%2 := by
  induction n with
  | zero => rfl
  | succ n ih =>
    have hodd : a%2 = 1 := by omega
    rw [powers_succ, Nat.add_mod, Nat.mul_mod, hodd, ih]
    omega

theorem pow_mod_four (ha : a%4 = 1) (n : ℕ) : a^n%4 = 1 := by
  rw [Nat.pow_mod, ha, Nat.one_pow]

/-- The sum of the powers has as many factors two as their number. -/
theorem dvd_powers_iff (ha : a%4 = 1) (k n : ℕ) : 2^k ∣ powers a n ↔ 2^k ∣ n := by
  induction k generalizing n with
  | zero => simp
  | succ k ih =>
    by_cases hn : n%2 = 0
    · obtain ⟨q, hq⟩ : ∃ q, a^(n/2)+1 = 2*(2*q+1) := ⟨a^(n/2)/4, by
        have hfour := pow_mod_four ha (n/2)
        omega⟩
      have hcoprime : Nat.Coprime (2^k) (2*q+1) := Nat.Coprime.pow_left k (by
        rw [Nat.coprime_two_left]
        exact ⟨q, rfl⟩)
      have hhalf : n = 2*(n/2) := by omega
      have hsum : powers a n = 2*(powers a (n/2)*(2*q+1)) := by
        rw [hhalf, powers_double, ← hhalf, hq]
        ring
      calc
        2^(k+1) ∣ powers a n ↔ 2^k ∣ powers a (n/2)*(2*q+1) := by
          rw [hsum, Nat.pow_succ', Nat.mul_dvd_mul_iff_left Nat.two_pos]
        _ ↔ 2^k ∣ powers a (n/2) := hcoprime.dvd_mul_right
        _ ↔ 2^k ∣ n/2 := ih (n/2)
        _ ↔ 2^(k+1) ∣ n := by
          conv_rhs => rw [hhalf, Nat.pow_succ', Nat.mul_dvd_mul_iff_left Nat.two_pos]
    · have htwo : 2 ∣ 2^(k+1) := Dvd.intro_left (2^k) (Nat.pow_succ 2 k).symm
      have hparity := powers_parity ha n
      constructor
      · intro h
        have := Nat.mod_eq_zero_of_dvd (htwo.trans h)
        omega
      · intro h
        have := Nat.mod_eq_zero_of_dvd (htwo.trans h)
        omega

/-- The map comes back after a multiple of its modulus, and only then. -/
theorem returns_iff (ha : a%4 = 1) (hc : c%2 = 1) (hx : x < 2^k) :
    (next a c (2^k))^[n] x = x ↔ 2^k ∣ n := by
  obtain ⟨b, rfl⟩ : ∃ b, a = b+1 := ⟨a-1, by omega⟩
  have hcoprime : Nat.Coprime (2^k) (b*x+c) := Nat.Coprime.pow_left k (by
    rw [Nat.coprime_two_left, Nat.odd_iff, Nat.add_mod, Nat.mul_mod]
    have hb : b%2 = 0 := by omega
    rw [hb, hc, Nat.zero_mul])
  have hsum : (b+1)^n*x+c*powers (b+1) n = x+powers (b+1) n*(b*x+c) := by
    rw [pow_eq]
    ring
  have hback : (x+powers (b+1) n*(b*x+c))%2^k = x ↔ 2^k ∣ powers (b+1) n*(b*x+c) := by
    constructor
    · intro h
      have hsame : x+powers (b+1) n*(b*x+c) ≡ x+0 [MOD 2^k] := by
        change _%_ = (x+0)%_
        rw [h, Nat.add_zero, Nat.mod_eq_of_lt hx]
      exact Nat.modEq_zero_iff_dvd.mp (Nat.ModEq.add_left_cancel' x hsame)
    · rintro ⟨q, hq⟩
      rw [hq, Nat.add_mul_mod_self_left, Nat.mod_eq_of_lt hx]
  rw [iterate_next hx, hsum, hback, hcoprime.dvd_mul_right, dvd_powers_iff ha]

theorem next_lt (a c k x : ℕ) : next a c (2^k) x < 2^k := Nat.mod_lt _ (Nat.two_pow_pos k)

theorem iterate_lt (hx : x < 2^k) (n : ℕ) : (next a c (2^k))^[n] x < 2^k := by
  rw [iterate_next hx]
  exact Nat.mod_lt _ (Nat.two_pow_pos k)

/-- As many steps as there are numbers go through all of them. -/
theorem visits (ha : a%4 = 1) (hc : c%2 = 1) (hx : x < 2^k) :
    Set.InjOn (fun n => (next a c (2^k))^[n] x) (Finset.range (2^k)) ∧
      (Finset.range (2^k)).image (fun n => (next a c (2^k))^[n] x) = Finset.range (2^k) := by
  have hapart : ∀ n k', n < k' → k' < 2^k → (next a c (2^k))^[n] x ≠ (next a c (2^k))^[k'] x := by
    intro n k' hlt hk' heq
    have hsum : k' = (k'-n)+n := by omega
    rw [hsum, Function.iterate_add_apply] at heq
    have hdvd := (returns_iff ha hc (iterate_lt hx n)).mp heq.symm
    have hle := Nat.le_of_dvd (by omega) hdvd
    omega
  have hinj : Set.InjOn (fun n => (next a c (2^k))^[n] x) (Finset.range (2^k)) := by
    intro n hn k' hk' heq
    have hn := Finset.mem_range.mp hn
    have hk' := Finset.mem_range.mp hk'
    rcases Nat.lt_trichotomy n k' with hlt | rfl | hlt
    · exact absurd heq (hapart n k' hlt hk')
    · rfl
    · exact absurd heq.symm (hapart k' n hlt hn)
  refine ⟨hinj, ?_⟩
  apply Finset.eq_of_subset_of_card_le
  · intro y hy
    obtain ⟨n, -, rfl⟩ := Finset.mem_image.mp hy
    exact Finset.mem_range.mpr (iterate_lt hx n)
  · rw [Finset.card_image_of_injOn hinj]

/-- Each digit occurs equally often at a place of the numbers below `p*q*r`. -/
theorem card_digit {p q r v : ℕ} (hv : v < q) (hp : 0 < p) :
    ((Finset.range (p*q*r)).filter fun y => y/p%q = v).card = p*r := by
  have hcard : p*r = (Finset.range p ×ˢ Finset.range r).card := by
    rw [Finset.card_product, Finset.card_range, Finset.card_range]
  rw [hcard]
  symm
  apply Finset.card_nbij' (fun s => p*(q*s.2+v)+s.1) (fun y => (y%p, y/p/q))
  · rintro ⟨s, t⟩ hs
    obtain ⟨hs, ht⟩ := Finset.mem_product.mp hs
    have hs := Finset.mem_range.mp hs
    have ht := Finset.mem_range.mp ht
    apply Finset.mem_coe.mpr
    apply Finset.mem_filter.mpr
    constructor
    · apply Finset.mem_range.mpr
      calc
        p*(q*t+v)+s < p*(q*t+v)+p := Nat.add_lt_add_left hs _
        _ = p*(q*t+v+1) := (Nat.mul_succ p _).symm
        _ ≤ p*(q*t+q) := Nat.mul_le_mul_left p (Nat.add_lt_add_left hv _)
        _ = p*(q*(t+1)) := by rw [Nat.mul_succ]
        _ ≤ p*(q*r) := Nat.mul_le_mul_left p (Nat.mul_le_mul_left q ht)
        _ = p*q*r := (Nat.mul_assoc p q r).symm
    · rw [Nat.mul_add_div hp, Nat.div_eq_of_lt hs, Nat.add_zero, Nat.mul_add_mod,
        Nat.mod_eq_of_lt hv]
  · intro y hy
    obtain ⟨hy, -⟩ := Finset.mem_filter.mp hy
    have hy := Finset.mem_range.mp hy
    apply Finset.mem_coe.mpr
    apply Finset.mem_product.mpr
    constructor
    · exact Finset.mem_range.mpr (Nat.mod_lt y hp)
    · apply Finset.mem_range.mpr
      change y/p/q < r
      rw [Nat.div_div_eq_div_mul]
      apply Nat.div_lt_of_lt_mul
      exact hy
  · rintro ⟨s, t⟩ hs
    obtain ⟨hs, ht⟩ := Finset.mem_product.mp hs
    have hs := Finset.mem_range.mp hs
    have hq : 0 < q := Nat.zero_lt_of_lt hv
    apply Prod.ext
    · change (p*(q*t+v)+s)%p = s
      rw [Nat.mul_add_mod, Nat.mod_eq_of_lt hs]
    · change (p*(q*t+v)+s)/p/q = t
      rw [Nat.mul_add_div hp, Nat.div_eq_of_lt hs, Nat.add_zero, Nat.mul_add_div hq,
        Nat.div_eq_of_lt hv, Nat.add_zero]
  · intro y hy
    obtain ⟨-, hdigit⟩ := Finset.mem_filter.mp hy
    change p*(q*(y/p/q)+v)+y%p = y
    rw [← hdigit, Nat.div_add_mod, Nat.div_add_mod]

end Vlsmc.FullPeriods
