import Mathlib.Data.Nat.Digits.Defs
import Mathlib.Data.Nat.Digits.Lemmas

/-!
# Numerals

Texts of digits in a base up to 36, most significant digit first: how a number is written, and
how it is read back.
-/

set_option autoImplicit false

namespace Vlsmc.Numerals

/-- The character of a digit; from ten on it is a letter, and the first of them is given. -/
def digitChar (letter : UInt8) (d : ℕ) : UInt8 :=
  if d < 10 then UInt8.ofNat (48+d) else UInt8.ofNat (letter.toNat+(d-10))

def digitValue (c : UInt8) : Option ℕ :=
  if 48 ≤ c.toNat ∧ c.toNat ≤ 57 then some (c.toNat-48)
  else if 97 ≤ c.toNat ∧ c.toNat ≤ 122 then some (c.toNat-87)
  else if 65 ≤ c.toNat ∧ c.toNat ≤ 90 then some (c.toNat-55)
  else none

/-- The number that is read, behind digits that were worth `v`. -/
def readDigits (base : ℕ) : ℕ → List UInt8 → Option ℕ
  | v, [] => some v
  | v, c::cs =>
    match digitValue c with
    | some d => if d < base then readDigits base (v*base+d) cs else none
    | none => none

/-- The text denotes the number, and begins with a zero only if that is all of it. -/
structure Numeral (base n : ℕ) (ds : List UInt8) : Prop where
  value : readDigits base 0 ds = some n
  nonempty : ds ≠ []
  leading : ds.head? = some 48 → ds = [48]

/-- The numeral of a number. -/
def numeral (letter : UInt8) (base n : ℕ) : List UInt8 :=
  if n = 0 then [48] else ((Nat.digits base n).map (digitChar letter)).reverse

/-- A letter in lower case. -/
def lower (c : UInt8) : UInt8 := if 65 ≤ c.toNat ∧ c.toNat ≤ 90 then UInt8.ofNat (c.toNat+32) else c

variable {letter : UInt8} {base n d v : ℕ}

section Characters

theorem lower_letter : (97 : UInt8) = 65 ∨ (97 : UInt8) = 97 := Or.inr rfl

theorem upper_letter : (65 : UInt8) = 65 ∨ (65 : UInt8) = 97 := Or.inl rfl

theorem digitValue_digitChar (hl : letter = 65 ∨ letter = 97) (hd : d < 36) :
    digitValue (digitChar letter d) = some d := by
  rcases hl with rfl | rfl
  all_goals
    revert d
    decide

theorem digitChar_zero (hl : letter = 65 ∨ letter = 97) (hd : d < 36)
    (h : digitChar letter d = 48) : d = 0 := by
  have hvalue := digitValue_digitChar hl hd
  rw [h] at hvalue
  exact (Option.some.inj hvalue).symm

theorem lower_digitChar (hd : d < 36) : lower (digitChar 65 d) = lower (digitChar 97 d) := by
  revert d
  decide

end Characters

section Reading

theorem readDigits_cons {c : UInt8} (v : ℕ) (cs : List UInt8) (hc : digitValue c = some d)
    (hd : d < base) : readDigits base v (c::cs) = readDigits base (v*base+d) cs := by
  change (match digitValue c with
    | some d => if d < base then readDigits base (v*base+d) cs else none
    | none => none) = _
  rw [hc]
  exact if_pos hd

theorem readDigits_append (base v : ℕ) (cs ds : List UInt8) :
    readDigits base v (cs++ds) = (readDigits base v cs).bind fun w => readDigits base w ds := by
  induction cs generalizing v with
  | nil => rfl
  | cons c cs ih =>
    rw [List.cons_append, readDigits, readDigits]
    cases digitValue c with
    | none => rfl
    | some d =>
      dsimp only
      split_ifs
      · exact ih _
      · rfl

theorem readDigits_map (hl : letter = 65 ∨ letter = 97) (hbase : base ≤ 36) (v : ℕ) (l : List ℕ)
    (h : ∀ d ∈ l, d < base) : readDigits base v (l.map (digitChar letter)).reverse =
      some (v*base^l.length+Nat.ofDigits base l) := by
  induction l with
  | nil =>
    change some v = some (v*1+0)
    rw [Nat.mul_one, Nat.add_zero]
  | cons d l ih =>
    have hd := h d List.mem_cons_self
    rw [List.map_cons, List.reverse_cons, readDigits_append,
      ih fun d hd => h d (List.mem_cons_of_mem _ hd), Option.bind_some,
      readDigits_cons _ [] (digitValue_digitChar hl (by omega)) hd]
    change some _ = some _
    rw [Nat.ofDigits_cons, List.length_cons, Nat.pow_succ]
    congr 1
    ring

/-- Zeros in front do not change what is read. -/
theorem readDigits_zeros (hbase : 2 ≤ base) (k : ℕ) (ds : List UInt8) :
    readDigits base 0 (List.replicate k 48++ds) = readDigits base 0 ds := by
  induction k with
  | zero => rfl
  | succ k ih =>
    rw [List.replicate_succ, List.cons_append,
      readDigits_cons 0 _ (show digitValue 48 = some 0 by decide) (by omega), Nat.zero_mul]
    exact ih

end Reading

section Writing

theorem numeral_pos (letter : UInt8) (hn : n ≠ 0) :
    numeral letter base n = ((Nat.digits base n).map (digitChar letter)).reverse := if_neg hn

/-- What is written is read back. -/
theorem numeral_spec (hl : letter = 65 ∨ letter = 97) (h2 : 2 ≤ base) (hbase : base ≤ 36) (n : ℕ) :
    Numeral base n (numeral letter base n) := by
  by_cases hn : n = 0
  · subst hn
    refine ⟨?_, List.cons_ne_nil _ _, fun _ => rfl⟩
    exact (readDigits_zeros h2 1 []).trans rfl
  rw [numeral_pos letter hn]
  have hlt : ∀ d ∈ Nat.digits base n, d < base := fun d hd => Nat.digits_lt_base h2 hd
  have hne : Nat.digits base n ≠ [] := Nat.digits_ne_nil_iff_ne_zero.mpr hn
  refine ⟨?_, by simpa using hne, fun hhead => ?_⟩
  · rw [readDigits_map hl hbase 0 _ hlt, Nat.ofDigits_digits, Nat.zero_mul, Nat.zero_add]
  · rw [List.head?_reverse, List.getLast?_map, List.getLast?_eq_some_getLast hne, Option.map_some] at hhead
    have hlast := Nat.getLast_digit_ne_zero base hn
    exact absurd (digitChar_zero hl (by have := hlt _ (List.getLast_mem hne); omega)
      (Option.some.inj hhead)) hlast

theorem numeral_length (letter : UInt8) (h2 : 2 ≤ base) {k : ℕ} (hk : 0 < k) (h : n < base^k) :
    (numeral letter base n).length ≤ k := by
  by_cases hn : n = 0
  · rw [hn]
    exact hk
  · rw [numeral_pos letter hn, List.length_reverse, List.length_map]
    exact (Nat.digits_length_le_iff h2 n).mpr h

theorem numeral_lower (hbase : base ≤ 36) (h2 : 2 ≤ base) (n : ℕ) :
    (numeral 65 base n).map lower = (numeral 97 base n).map lower := by
  by_cases hn : n = 0
  · rw [hn]
    rfl
  · rw [numeral_pos 65 hn, numeral_pos 97 hn, List.map_reverse, List.map_reverse, List.map_map,
      List.map_map]
    congr 1
    apply List.map_congr_left
    intro d hd
    exact lower_digitChar (Nat.lt_of_lt_of_le (Nat.digits_lt_base h2 hd) hbase)

/-- The numeral has no sign and no blank in it. -/
theorem numeral_digit (h2 : 2 ≤ base) {c : UInt8} (hc : c ∈ numeral letter base n) :
    ∃ d < base, c = digitChar letter d := by
  by_cases hn : n = 0
  · subst hn
    exact ⟨0, by omega, List.mem_singleton.mp hc⟩
  · rw [numeral_pos letter hn, List.mem_reverse] at hc
    obtain ⟨d, hd, rfl⟩ := List.mem_map.mp hc
    exact ⟨d, Nat.digits_lt_base h2 hd, rfl⟩

end Writing

end Vlsmc.Numerals
