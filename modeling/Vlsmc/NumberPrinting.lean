import Vlsmc.Numerals
import Vlsmc.Words

/-!
# How the two `printf` write numbers

The C library and the kernel have each their own copy. A number is its sign, its digits and its
padding, and it can be read back from the characters.
-/

set_option autoImplicit false

namespace Vlsmc.NumberPrinting
open Vlsmc.Numerals Vlsmc.Words

/-- The digits in the order in which they are found; `none` when the buffer has no room. -/
def digitLoop (letter : UInt8) (base : ℕ) : ℕ → ℕ → Option (List UInt8)
  | 0, val => if 0 < val then none else some []
  | room+1, val =>
    if 0 < val then (digitLoop letter base room (val/base)).map (digitChar letter (val%base)::·)
    else some []

/-- `print_uint_core` with the first of its letters. -/
def uintCore (letter : UInt8) (val base : ℕ) (isSigned isNegative : Bool) (width : ℤ)
    (padChar : UInt8) (leftJustify : Bool) : Option (List UInt8) :=
  (if val = 0 then some [48] else digitLoop letter base 32 val).map fun buf =>
    let prefixLen : ℤ := if isSigned && isNegative then 1 else 0
    let padLen := i32 (width-buf.length-prefixLen)
    let padLen := (if padLen < 0 then 0 else padLen).toNat
    (if !leftJustify && padChar = 32 then List.replicate padLen 32 else [])++
      (if isSigned && isNegative then [45] else [])++
      (if !leftJustify && padChar = 48 then List.replicate padLen 48 else [])++
      buf.reverse++
      (if leftJustify then List.replicate padLen 32 else [])

namespace Libc

def printUintCore (val base : ℕ) (uppercase isSigned isNegative : Bool) (width : ℤ)
    (padChar : UInt8) (leftJustify : Bool) : Option (List UInt8) :=
  uintCore (if uppercase then 65 else 97) val base isSigned isNegative width padChar leftJustify

def printInt (val width : ℤ) (padChar : UInt8) (leftJustify : Bool) : Option (List UInt8) :=
  let isNeg : Bool := val < 0
  let uval := if isNeg then toUInt32 (i32 (-val)) else toUInt32 val
  printUintCore uval 10 false true isNeg width padChar leftJustify

def printHex (val : ℕ) (uppercase : Bool) (width : ℤ) (padChar : UInt8) (leftJustify : Bool) :
    Option (List UInt8) :=
  printUintCore val 16 uppercase false false width padChar leftJustify

end Libc

namespace Kernel

def printUintCore (val base : ℕ) (isSigned isNegative : Bool) (width : ℤ) (padChar : UInt8)
    (leftJustify : Bool) : Option (List UInt8) :=
  uintCore 65 val base isSigned isNegative width padChar leftJustify

def printUint (val base : ℕ) (width : ℤ) (padChar : UInt8) (leftJustify : Bool) :
    Option (List UInt8) :=
  printUintCore val base false false width padChar leftJustify

def printInt (val width : ℤ) (padChar : UInt8) (leftJustify : Bool) : Option (List UInt8) :=
  let isNeg : Bool := val < 0
  let uval := if isNeg then toUInt32 (i32 (-val)) else toUInt32 val
  printUintCore uval 10 true isNeg width padChar leftJustify

end Kernel

/-- The sign of a number that is written. -/
def signOf (negative : Bool) : List UInt8 := if negative then [45] else []

/-- What is read back: the blanks are left out, and there may be a sign. -/
def readBack (base : ℕ) (out : List UInt8) : Option ℤ :=
  let cs := out.filter (· ≠ 32)
  if cs.head? = some 45 then (readDigits base 0 cs.tail).map fun n : ℕ => -(n:ℤ)
  else (readDigits base 0 cs).map fun n : ℕ => (n:ℤ)

/-- The characters are a sign, a numeral and the padding that the width leaves: blanks behind the
number when it is justified to the left, and else zeros between sign and digits or blanks in
front. -/
def Formatted (base : ℕ) (negative : Bool) (n : ℕ) (width : ℤ) (padChar : UInt8)
    (leftJustify : Bool) (out : List UInt8) : Prop :=
  ∃ ds, Numeral base n ds ∧
    let sign := signOf negative
    let pad := width.toNat-(sign.length+ds.length)
    out.length = max width.toNat (sign.length+ds.length) ∧
      out = (if leftJustify then sign++ds++List.replicate pad 32
        else if padChar = 48 then sign++List.replicate pad 48++ds
        else List.replicate pad 32++sign++ds) ∧
      readBack base out = some (if negative then -(n:ℤ) else n)

variable {letter padChar : UInt8} {base n : ℕ} {width : ℤ}

section Digits

theorem digitLoop_spec (letter : UInt8) (h2 : 2 ≤ base) (room val : ℕ) (h : val < base^room) :
    digitLoop letter base room val = some ((Nat.digits base val).map (digitChar letter)) := by
  induction room generalizing val with
  | zero =>
    have h0 : val = 0 := by simpa using h
    rw [h0, Nat.digits_zero]
    rfl
  | succ room ih =>
    rw [digitLoop]
    by_cases h0 : val = 0
    · rw [h0, Nat.digits_zero]
      rfl
    · have hdiv : val/base < base^room := by
        apply Nat.div_lt_of_lt_mul
        rwa [Nat.mul_comm, ← Nat.pow_succ]
      rw [if_pos (Nat.pos_of_ne_zero h0), ih _ hdiv, Nat.digits_def' h2 (Nat.pos_of_ne_zero h0)]
      rfl

/-- The buffer holds the numeral from its end to its beginning. -/
theorem buffer_spec (letter : UInt8) (h2 : 2 ≤ base) (hn : n < 4294967296) :
    (if n = 0 then some [48] else digitLoop letter base 32 n) =
      some (numeral letter base n).reverse := by
  by_cases h0 : n = 0
  · rw [if_pos h0, h0]
    rfl
  · have hroom : n < base^32 := by
      calc n < 2^32 := hn
        _ ≤ base^32 := Nat.pow_le_pow_left h2 32
    rw [if_neg h0, digitLoop_spec letter h2 32 n hroom, numeral_pos letter h0, List.reverse_reverse]

end Digits

section Padding

theorem filter_numeral (hl : letter = 65 ∨ letter = 97) (h2 : 2 ≤ base) (hbase : base ≤ 36)
    (n : ℕ) : (numeral letter base n).filter (· ≠ 32) = numeral letter base n := by
  rw [List.filter_eq_self]
  intro c hc
  obtain ⟨d, hd, rfl⟩ := numeral_digit h2 hc
  have hvalue := digitValue_digitChar hl (show d < 36 by omega)
  rw [decide_eq_true_eq]
  intro h32
  rw [h32] at hvalue
  cases hvalue

theorem filter_blanks (k : ℕ) : (List.replicate k (32 : UInt8)).filter (· ≠ 32) = [] := by
  rw [List.filter_eq_nil_iff]
  intro c hc
  simp [(List.mem_replicate.mp hc).2]

theorem filter_zeros (k : ℕ) :
    (List.replicate k (48 : UInt8)).filter (· ≠ 32) = List.replicate k 48 := by
  rw [List.filter_eq_self]
  intro c hc
  rw [(List.mem_replicate.mp hc).2]
  rfl

/-- A numeral with a sign and zeros in front is read back. -/
theorem read_signed (hl : letter = 65 ∨ letter = 97) (h2 : 2 ≤ base) (hbase : base ≤ 36)
    (negative : Bool) (k n : ℕ) (out : List UInt8)
    (h : out.filter (· ≠ 32) = signOf negative++(List.replicate k 48++numeral letter base n)) :
    readBack base out = some (if negative then -(n:ℤ) else n) := by
  have hread : readDigits base 0 (List.replicate k 48++numeral letter base n) = some n := by
    rw [readDigits_zeros h2]
    exact (numeral_spec hl h2 hbase n).value
  unfold readBack
  dsimp only
  rw [h]
  cases negative with
  | true =>
    refine (if_pos rfl).trans ?_
    change (readDigits base 0 (List.replicate k 48++numeral letter base n)).map _ = _
    rw [hread]
    rfl
  | false =>
    rw [if_neg, show signOf false = [] from rfl, List.nil_append, hread]
    · rfl
    · -- no digit is the character of the sign
      intro hhead
      obtain ⟨cs, hcs⟩ := List.head?_eq_some_iff.mp hhead
      rw [show signOf false = [] from rfl, List.nil_append] at hcs
      rw [hcs] at hread
      cases hread

/-- What the core emits, with the padding that the width leaves. -/
theorem uintCore_spec (letter : UInt8) (h2 : 2 ≤ base) (hn : n < 4294967296)
    (isSigned isNegative leftJustify : Bool) (hw : 0 ≤ width) (hw' : width < 2147483648)
    (padChar : UInt8) {pad : ℕ} (hpad : pad = width.toNat-
      ((signOf (isSigned && isNegative)).length+(numeral letter base n).length)) :
    uintCore letter n base isSigned isNegative width padChar leftJustify =
      some ((if !leftJustify && padChar = 32 then List.replicate pad 32 else [])++
        signOf (isSigned && isNegative)++
        (if !leftJustify && padChar = 48 then List.replicate pad 48 else [])++
        numeral letter base n++
        (if leftJustify then List.replicate pad 32 else [])) := by
  have hlen : (numeral letter base n).length ≤ 32 :=
    numeral_length letter h2 (by decide) (Nat.lt_of_lt_of_le hn (Nat.pow_le_pow_left h2 32))
  have hsign : (signOf (isSigned && isNegative)).length ≤ 1 := by
    cases isSigned && isNegative <;> decide
  have hprefix : (if isSigned && isNegative then (1:ℤ) else 0) =
      (signOf (isSigned && isNegative)).length := by
    cases isSigned && isNegative <;> rfl
  unfold uintCore
  rw [buffer_spec letter h2 hn, Option.map_some]
  dsimp only
  rw [List.length_reverse, hprefix, List.reverse_reverse, i32_of_range (by omega) (by omega)]
  have hpadLen : (if width-(numeral letter base n).length-(signOf (isSigned && isNegative)).length
      < 0 then 0 else width-(numeral letter base n).length-
        (signOf (isSigned && isNegative)).length).toNat = pad := by
    rw [hpad]
    split_ifs <;> omega
  rw [hpadLen]
  rfl

theorem uintCore_formatted (hl : letter = 65 ∨ letter = 97) (h2 : 2 ≤ base) (hbase : base ≤ 36)
    (hn : n < 4294967296) (isSigned isNegative leftJustify : Bool) (hw : 0 ≤ width)
    (hw' : width < 2147483648) (hpad : padChar = 32 ∨ padChar = 48) :
    ∃ out, uintCore letter n base isSigned isNegative width padChar leftJustify = some out ∧
      Formatted base (isSigned && isNegative) n width padChar leftJustify out := by
  refine ⟨_, uintCore_spec letter h2 hn isSigned isNegative leftJustify hw hw' padChar rfl,
    numeral letter base n, numeral_spec hl h2 hbase n, ?_⟩
  have hfilter := filter_numeral hl h2 hbase n
  generalize (isSigned && isNegative) = negative
  have hsign : (signOf negative).filter (· ≠ 32) = signOf negative := by
    cases negative <;> rfl
  have hread := fun k out => read_signed hl h2 hbase negative k n out
  dsimp only
  generalize hp : width.toNat-((signOf negative).length+(numeral letter base n).length) = pad
  have hmax : (signOf negative).length+(numeral letter base n).length+pad =
      max width.toNat ((signOf negative).length+(numeral letter base n).length) := by omega
  cases leftJustify with
  | true =>
    refine ⟨?_, by simp, hread 0 _ ?_⟩
    · rw [← hmax]
      simp [Nat.add_assoc]
    · simp only [Bool.not_true, Bool.false_and, Bool.false_eq_true, if_false, if_true,
        List.nil_append, List.append_nil, List.filter_append, hsign, hfilter, filter_blanks]
      rfl
  | false =>
    rcases hpad with rfl | rfl
    · refine ⟨?_, by simp, hread 0 _ ?_⟩
      · rw [← hmax]
        simp
        omega
      · simp only [Bool.not_false, Bool.true_and, decide_true, Bool.false_eq_true, if_true,
          if_false, List.append_nil, List.filter_append, hsign, hfilter, filter_blanks]
        simp
    · refine ⟨?_, by simp, hread pad _ ?_⟩
      · rw [← hmax]
        simp
        omega
      · simp only [Bool.not_false, Bool.true_and, decide_true, Bool.false_eq_true, if_true,
          if_false, List.append_nil, List.filter_append, hsign, hfilter, filter_zeros]
        simp

end Padding

section Printing

/-- The magnitude of an `int`, also of the one that its negation does not change. -/
theorem magnitude_spec {v : ℤ} (h : -2147483648 ≤ v) (h' : v < 2147483648) :
    (if decide (v < 0) then toUInt32 (i32 (-v)) else toUInt32 v) = v.natAbs ∧
      v.natAbs < 4294967296 ∧ (if decide (v < 0) then -(v.natAbs:ℤ) else v.natAbs) = v := by
  simp only [decide_eq_true_eq]
  unfold toUInt32 i32
  refine ⟨?_, by omega, ?_⟩
  · split_ifs <;> omega
  · split_ifs <;> omega

/-- Up to the case of letters the copies emit the same. -/
theorem uintCore_lower (h2 : 2 ≤ base) (hbase : base ≤ 36) (hn : n < 4294967296)
    (isSigned isNegative leftJustify : Bool) (hw : 0 ≤ width) (hw' : width < 2147483648)
    (padChar : UInt8) :
    (uintCore 65 n base isSigned isNegative width padChar leftJustify).map (List.map lower) =
      (uintCore 97 n base isSigned isNegative width padChar leftJustify).map (List.map lower) := by
  have hlower := numeral_lower hbase h2 n
  have hlen : (numeral 97 base n).length = (numeral 65 base n).length := by
    rw [← List.length_map (f := lower), ← hlower, List.length_map]
  rw [uintCore_spec 65 h2 hn isSigned isNegative leftJustify hw hw' padChar rfl,
    uintCore_spec 97 h2 hn isSigned isNegative leftJustify hw hw' padChar rfl, hlen]
  simp only [Option.map_some, List.map_append, hlower]

/-- In base ten there are no letters. -/
theorem numeral_ten (n : ℕ) : numeral 65 10 n = numeral 97 10 n := by
  by_cases hn : n = 0
  · rw [hn]
    rfl
  · rw [numeral_pos 65 hn, numeral_pos 97 hn]
    congr 1
    apply List.map_congr_left
    intro d hd
    have hlt := Nat.digits_lt_base (by decide) hd
    unfold digitChar
    rw [if_pos hlt, if_pos hlt]

theorem uintCore_ten (hn : n < 4294967296) (isSigned isNegative leftJustify : Bool)
    (hw : 0 ≤ width) (hw' : width < 2147483648) (padChar : UInt8) :
    uintCore 65 n 10 isSigned isNegative width padChar leftJustify =
      uintCore 97 n 10 isSigned isNegative width padChar leftJustify := by
  rw [uintCore_spec 65 (by decide) hn isSigned isNegative leftJustify hw hw' padChar rfl,
    uintCore_spec 97 (by decide) hn isSigned isNegative leftJustify hw hw' padChar rfl, numeral_ten]

end Printing

/-- What both copies emit for signed and unsigned numbers. -/
theorem numbers_formatted (width : ℤ) (hw : 0 ≤ width) (hw' : width < 2147483648) (padChar : UInt8)
    (hpad : padChar = 32 ∨ padChar = 48) (leftJustify : Bool) :
    (∀ v : ℤ, -2147483648 ≤ v → v < 2147483648 →
      ∃ out, Libc.printInt v width padChar leftJustify = some out ∧
        Kernel.printInt v width padChar leftJustify = some out ∧
        Formatted 10 (v < 0) v.natAbs width padChar leftJustify out ∧
        readBack 10 out = some v) ∧
    (∀ n base : ℕ, n < 4294967296 → base = 10 ∨ base = 16 →
      ∀ uppercase isSigned isNegative : Bool, ∃ out out',
        Libc.printUintCore n base uppercase isSigned isNegative width padChar leftJustify = some out ∧
        Kernel.printUintCore n base isSigned isNegative width padChar leftJustify = some out' ∧
        Formatted base (isSigned && isNegative) n width padChar leftJustify out ∧
        Formatted base (isSigned && isNegative) n width padChar leftJustify out' ∧
        out.map lower = out'.map lower ∧ (base = 10 → out = out')) := by
  constructor
  · intro v hv hv'
    obtain ⟨huval, hlt, hvalue⟩ := magnitude_spec hv hv'
    obtain ⟨out, heq, hf⟩ := uintCore_formatted lower_letter (show 2 ≤ 10 by decide) (by decide)
      hlt true (decide (v < 0)) leftJustify hw hw' hpad
    refine ⟨out, ?_, ?_, hf, ?_⟩
    · unfold Libc.printInt Libc.printUintCore
      dsimp only
      rw [huval]
      exact heq
    · unfold Kernel.printInt Kernel.printUintCore
      dsimp only
      rw [huval, uintCore_ten hlt true _ leftJustify hw hw' padChar]
      exact heq
    · obtain ⟨ds, -, -, -, hread⟩ := hf
      exact hread.trans (congrArg some hvalue)
  · intro n base hn hbase uppercase isSigned isNegative
    have h2 : 2 ≤ base := by omega
    have h36 : base ≤ 36 := by omega
    obtain ⟨out', heq', hf'⟩ := uintCore_formatted upper_letter h2 h36 hn isSigned
      isNegative leftJustify hw hw' hpad
    cases uppercase with
    | true => exact ⟨out', out', heq', heq', hf', hf', rfl, fun _ => rfl⟩
    | false =>
      obtain ⟨out, heq, hf⟩ := uintCore_formatted lower_letter h2 h36 hn isSigned
        isNegative leftJustify hw hw' hpad
      refine ⟨out, out', heq, heq', hf, hf', ?_, fun hten => ?_⟩
      · have hlower := uintCore_lower h2 h36 hn isSigned isNegative leftJustify hw hw' padChar
        rw [heq, heq'] at hlower
        exact (Option.some.inj hlower).symm
      · subst hten
        have hsame := uintCore_ten hn isSigned isNegative leftJustify hw hw' padChar
        rw [heq, heq'] at hsame
        exact (Option.some.inj hsame).symm

/-- The least `int` in fourteen characters with zeros, and a number in base sixteen on the left of
six. -/
theorem numbers_formatted_extremes :
    (∃ out, Libc.printInt (-2147483648) 14 48 false = some out ∧
      Kernel.printInt (-2147483648) 14 48 false = some out ∧
      readBack 10 out = some (-2147483648)) ∧
    ∃ out out', Libc.printUintCore 48879 16 false false false 6 32 true = some out ∧
      Kernel.printUintCore 48879 16 false false 6 32 true = some out' ∧
      out.map lower = out'.map lower := by
  obtain ⟨hint, -⟩ := numbers_formatted 14 (by decide) (by decide) 48 (Or.inr rfl) false
  obtain ⟨-, hcore⟩ := numbers_formatted 6 (by decide) (by decide) 32 (Or.inl rfl) true
  obtain ⟨out, h1, h2, -, h3⟩ := hint (-2147483648) (by decide) (by decide)
  obtain ⟨out1, out2, h4, h5, -, -, h6, -⟩ := hcore 48879 16 (by decide) (Or.inr rfl) false false
    false
  exact ⟨⟨out, h1, h2, h3⟩, out1, out2, h4, h5, h6⟩

end Vlsmc.NumberPrinting
