import Vlsmc.CStrings
import Vlsmc.NumberPrinting

/-!
# `itoa` and `atoi`

The digits of a number are stored from the last to the first and then turned around in place.
Reading them accumulates the number again, modulo the size of an `int`.
-/

set_option autoImplicit false

namespace Vlsmc.IntegerTexts
open Vlsmc.ByteMemory Vlsmc.CStrings Vlsmc.Numerals Vlsmc.NumberPrinting Vlsmc.Words

/-- A character that `atoi` skips. -/
def IsBlank (c : UInt8) : Prop := c = 32 ∨ c = 9 ∨ c = 10

instance (c : UInt8) : Decidable (IsBlank c) := inferInstanceAs (Decidable (c = 32 ∨ c = 9 ∨ c = 10))

/-- The characters are counted from the pointer on; `none` while `fuel` rounds do not end. -/
def skipBlanks (m : Memory) : ℕ → ℕ → Option ℕ
  | 0, _ => none
  | fuel+1, i => if IsBlank (m i) then skipBlanks m fuel (i+1) else some i

def accumulate (m : Memory) : ℕ → ℕ → ℤ → Option ℤ
  | 0, _, _ => none
  | fuel+1, i, res =>
    if 48 ≤ (m i).toNat ∧ (m i).toNat ≤ 57 then
      accumulate m fuel (i+1) (i32 (i32 (res*10)+((m i).toNat-48)))
    else some res

def atoi (fuel : ℕ) (m : Memory) : Option ℤ := do
  let i ← skipBlanks m fuel 0
  let (sign, i) : ℤ × ℕ := if m i = 45 then (-1, i+1) else if m i = 43 then (1, i+1) else (1, i)
  let res ← accumulate m fuel i 0
  some (i32 (res*sign))

def reverseLoop : ℕ → ℕ → ℕ → Memory → Option Memory
  | 0, _, _, _ => none
  | fuel+1, start, stop, m =>
    if start < stop then
      reverseLoop fuel (start+1) (stop-1) (write8 (write8 m start (m stop)) stop (m start))
    else some m

/-- For a length of zero nothing is turned around, whether the last index is 0 or -1. -/
def reverseString (fuel length : ℕ) (m : Memory) : Option Memory :=
  reverseLoop fuel 0 (length-1) m

def writeDigits (base : ℕ) : ℕ → ℕ → ℕ → Memory → Option (ℕ × Memory)
  | 0, _, _, _ => none
  | fuel+1, uvalue, i, m =>
    if uvalue ≠ 0 then
      writeDigits base fuel (uvalue/base) (i+1) (write8 m i (digitChar 97 (uvalue%base)))
    else some (i, m)

/-- `itoa` on the characters from `str` on, which it also returns. -/
def itoa (fuel : ℕ) (value : ℤ) (m : Memory) (base : ℤ) : Option Memory :=
  if base < 2 ∨ 36 < base then some (write8 m 0 0)
  else if value = 0 then some (write8 (write8 m 0 48) 1 0)
  else do
    let isNegative : Bool := value < 0 && base = 10
    let uvalue := toUInt32 (if isNegative then i32 (-value) else value)
    let (i, m) ← writeDigits base.toNat fuel uvalue 0 m
    let (i, m) := if isNegative then (i+1, write8 m i 45) else (i, m)
    reverseString fuel i (write8 m i 0)

variable {m : Memory} {fuel i n : ℕ} {s ds : List UInt8}

section Parsing

variable (fuel) in
theorem skipBlanks_spec {blanks rest : List UInt8} (h : Holds m i (blanks++rest))
    (hb : ∀ c ∈ blanks, IsBlank c) (hr : ∀ c ∈ rest.head?, ¬ IsBlank c) (hne : rest ≠ [])
    (hfuel : blanks.length < fuel) : skipBlanks m fuel i = some (i+blanks.length) := by
  induction fuel generalizing i blanks with
  | zero => omega
  | succ fuel ih =>
    rw [skipBlanks]
    cases blanks with
    | nil =>
      obtain ⟨c, rest, rfl⟩ := List.exists_cons_of_ne_nil hne
      rw [(holds_cons.mp h).1, if_neg (hr c rfl)]
      rfl
    | cons b blanks =>
      obtain ⟨hc, hrest⟩ := holds_cons.mp h
      rw [hc, if_pos (hb b List.mem_cons_self), ih hrest
        (fun c hc => hb c (List.mem_cons_of_mem _ hc)) (by simpa using hfuel), List.length_cons]
      congr 1
      omega

/-- A digit below ten is the character of one. -/
theorem digitValue_ten {c : UInt8} {d : ℕ} (h : digitValue c = some d) (hd : d < 10) :
    48 ≤ c.toNat ∧ c.toNat ≤ 57 ∧ d = c.toNat-48 := by
  unfold digitValue at h
  split_ifs at h with h1 h2 h3
  · exact ⟨h1.1, h1.2, (Option.some.inj h).symm⟩
  · have := Option.some.inj h
    omega
  · have := Option.some.inj h
    omega

theorem accumulate_spec (h : Holds m i (ds++[0])) {v : ℕ} (hread : readDigits 10 v ds = some n)
    (hfuel : ds.length < fuel) : accumulate m fuel i (i32 v) = some (i32 n) := by
  induction fuel generalizing i ds v with
  | zero => omega
  | succ fuel ih =>
    rw [accumulate]
    cases ds with
    | nil =>
      rw [holds_single.mp h, if_neg (by decide)]
      rw [readDigits] at hread
      rw [Option.some.inj hread]
    | cons c ds =>
      obtain ⟨hc, hrest⟩ := holds_cons.mp h
      rw [readDigits] at hread
      cases hd : digitValue c with
      | none => simp [hd] at hread
      | some d =>
        rw [hd] at hread
        dsimp only at hread
        split_ifs at hread with hlt
        obtain ⟨h1, h2, rfl⟩ := digitValue_ten hd hlt
        have hres : i32 (i32 (i32 v*10)+(c.toNat-48)) = i32 ((v*10+(c.toNat-48) : ℕ):ℤ) := by
          unfold i32
          omega
        rw [hc, if_pos ⟨h1, h2⟩, hres]
        exact ih hrest hread (by simpa using hfuel)

/-- What stands where digits begin is a digit or the end of the string. -/
theorem digits_head {v : ℕ} (hread : readDigits 10 v ds = some n) :
    ∃ c rest, ds++[0] = c::rest ∧ (c = 0 ∨ 48 ≤ c.toNat ∧ c.toNat ≤ 57) := by
  cases ds with
  | nil => exact ⟨0, [], rfl, Or.inl rfl⟩
  | cons c ds =>
    refine ⟨c, ds++[0], rfl, Or.inr ?_⟩
    rw [readDigits] at hread
    cases hd : digitValue c with
    | none => simp [hd] at hread
    | some d =>
      rw [hd] at hread
      dsimp only at hread
      split_ifs at hread with hlt
      obtain ⟨h1, h2, -⟩ := digitValue_ten hd hlt
      exact ⟨h1, h2⟩

/-- Blanks, a sign and digits, up to the end of the string. -/
theorem atoi_spec {blanks sign : List UInt8} (h : CString m 0 (blanks++(sign++ds)))
    (hb : ∀ c ∈ blanks, IsBlank c) (hs : sign = [] ∨ sign = [43] ∨ sign = [45])
    (hread : readDigits 10 0 ds = some n) (hfuel : blanks.length+ds.length < fuel) :
    atoi fuel m = some (i32 (if sign = [45] then -(n:ℤ) else n)) := by
  obtain ⟨c, rest, hc, hdigit⟩ := digits_head hread
  have hplain : c ≠ 45 ∧ c ≠ 43 ∧ ¬ IsBlank c := by
    refine ⟨?_, ?_, ?_⟩
    · rintro rfl
      revert hdigit
      decide
    · rintro rfl
      revert hdigit
      decide
    · rintro (rfl | rfl | rfl)
      all_goals
        revert hdigit
        decide
  have hholds := h.holds
  rw [List.append_assoc, List.append_assoc] at hholds
  have hskip := skipBlanks_spec fuel hholds hb (by
    rintro b hb
    rcases hs with rfl | rfl | rfl
    · rw [List.nil_append, hc] at hb
      obtain rfl := Option.some.inj hb
      exact hplain.2.2
    · obtain rfl := Option.some.inj hb
      decide
    · obtain rfl := Option.some.inj hb
      decide) (by simp) (by omega)
  have hbehind := (holds_append.mp hholds).2
  have hzero : i32 ((0 : ℕ):ℤ) = 0 := rfl
  unfold atoi
  rw [hskip]
  dsimp only [Option.bind_eq_bind, Option.bind_some]
  rcases hs with rfl | rfl | rfl
  · have hfirst : m (0+blanks.length) = c := by
      rw [List.nil_append, hc] at hbehind
      exact (holds_cons.mp hbehind).1
    rw [hfirst, if_neg hplain.1, if_neg hplain.2.1]
    dsimp only
    rw [← hzero, accumulate_spec hbehind hread (by omega)]
    simp [i32]
  · obtain ⟨hplus, hrest⟩ := holds_cons.mp hbehind
    rw [hplus, if_neg (by decide), if_pos rfl]
    dsimp only
    rw [← hzero, accumulate_spec hrest hread (by omega)]
    simp [i32]
  · obtain ⟨hminus, hrest⟩ := holds_cons.mp hbehind
    rw [hminus, if_pos rfl]
    dsimp only
    have hneg : i32 (i32 (n:ℤ)*(-1)) = i32 (-(n:ℤ)) := by
      unfold i32
      omega
    rw [← hzero, accumulate_spec hrest hread (by omega), if_pos rfl, Option.bind_some, hneg]

end Parsing

section Writing

theorem writeDigits_spec {base : ℕ} (h2 : 2 ≤ base) (fuel u i : ℕ) (m : Memory)
    (hfuel : (Nat.digits base u).length < fuel) :
    ∃ m', writeDigits base fuel u i m = some (i+(Nat.digits base u).length, m') ∧
      Holds m' i ((Nat.digits base u).map (digitChar 97)) ∧
      ∀ j, j < i ∨ i+(Nat.digits base u).length ≤ j → m' j = m j := by
  induction fuel generalizing u i m with
  | zero => omega
  | succ fuel ih =>
    rw [writeDigits]
    by_cases hu : u = 0
    · rw [if_neg (not_not.mpr hu), hu, Nat.digits_zero]
      exact ⟨m, rfl, holds_nil m i, fun _ _ => rfl⟩
    · rw [if_pos hu]
      rw [Nat.digits_def' h2 (Nat.pos_of_ne_zero hu), List.length_cons] at hfuel ⊢
      obtain ⟨m', heq, hholds, hrest⟩ := ih (u/base) (i+1)
        (write8 m i (digitChar 97 (u%base))) (by omega)
      refine ⟨m', ?_, holds_cons.mpr ⟨?_, hholds⟩, fun j hj => ?_⟩
      · rw [heq, Nat.add_assoc, Nat.add_comm 1]
      · rw [hrest i (Or.inl (Nat.lt_succ_self i)), write8_same]
      · rw [hrest j (by omega), write8_ne m _ (by omega)]

/-- Between the two indices the characters are turned around. -/
theorem reverseLoop_spec (fuel start stop : ℕ) (m : Memory) (hle : start ≤ stop+1)
    (hfuel : stop+1 < start+2*fuel) : ∃ m', reverseLoop fuel start stop m = some m' ∧
      ∀ j, m' j = if start ≤ j ∧ j ≤ stop then m (start+stop-j) else m j := by
  induction fuel generalizing start stop m with
  | zero => omega
  | succ fuel ih =>
    rw [reverseLoop]
    by_cases hlt : start < stop
    · rw [if_pos hlt]
      obtain ⟨m', heq, hm⟩ := ih (start+1) (stop-1)
        (write8 (write8 m start (m stop)) stop (m start)) (by omega) (by omega)
      refine ⟨m', heq, fun j => ?_⟩
      rw [hm]
      by_cases hin : start+1 ≤ j ∧ j ≤ stop-1
      · rw [if_pos hin, if_pos (by omega), write8_ne _ _ (by omega), write8_ne _ _ (by omega)]
        exact congrArg m (by omega)
      rw [if_neg hin]
      by_cases hstop : j = stop
      · rw [hstop, write8_same, if_pos (by omega), Nat.add_sub_cancel]
      rw [write8_ne _ _ hstop]
      by_cases hstart : j = start
      · rw [hstart, write8_same, if_pos (by omega), Nat.add_sub_cancel_left]
      · rw [write8_ne _ _ hstart, if_neg (by omega)]
    · rw [if_neg hlt]
      refine ⟨m, rfl, fun j => ?_⟩
      split_ifs with hj
      · exact congrArg m (by omega)
      · rfl

/-- The characters before the zero are turned around, and the others stay. -/
theorem reverseString_spec {l : List UInt8} (h : Holds m 0 (l++[0])) (hl : l ≠ [])
    (hfuel : l.length < 2*fuel) : ∃ m', reverseString fuel l.length m = some m' ∧
      Holds m' 0 (l.reverse++[0]) ∧ ∀ j, l.length < j → m' j = m j := by
  have hpos := List.length_pos_iff.mpr hl
  obtain ⟨m', heq, hm⟩ := reverseLoop_spec fuel 0 (l.length-1) m (by omega) (by omega)
  refine ⟨m', heq, ?_, fun j hj => by rw [hm, if_neg (by omega)]⟩
  apply holds_append.mpr
  obtain ⟨hchars, hend⟩ := holds_append.mp h
  constructor
  · unfold Holds
    apply List.ext_getElem (by simp [bytes])
    intro k hk hk'
    rw [List.length_reverse] at hk'
    have hget := holds_get hchars (i := l.length-1-k) (by omega)
    simp only [bytes, List.getElem_map, List.getElem_range, Nat.zero_add, List.getElem_reverse,
      ← hget]
    rw [hm, if_pos (by omega), Nat.zero_add]
  · rw [List.length_reverse]
    rw [holds_single] at hend ⊢
    rw [hm, if_neg (by omega), hend]

/-- What `itoa` writes: the sign, if the base is ten, the digits and a zero. -/
theorem itoa_spec {v : ℤ} (hv : -2147483648 ≤ v) (hv' : v < 2147483648) {base : ℕ} (h2 : 2 ≤ base)
    (hbase : base ≤ 36) (hfuel : 33 ≤ fuel) (m : Memory) :
    ∃ m', itoa fuel v m base = some m' ∧
      Holds m' 0 (signOf (v < 0 && base = 10)++
        numeral 97 base (toUInt32 (if v < 0 && base = 10 then i32 (-v) else v))++[0]) := by
  have hten : decide ((base:ℤ) = 10) = decide (base = 10) := by
    rw [decide_eq_decide]
    omega
  unfold itoa
  rw [if_neg (by omega)]
  by_cases h0 : v = 0
  · rw [if_pos h0, h0]
    refine ⟨_, rfl, ?_⟩
    change Holds _ 0 [48, 0]
    exact holds_cons.mpr ⟨rfl, holds_single.mpr rfl⟩
  rw [if_neg h0, hten]
  generalize hneg : (decide (v < 0) && decide (base = 10)) = negative
  generalize hu : toUInt32 (if negative then i32 (-v) else v) = u
  have hpos : u ≠ 0 ∧ u < 4294967296 := by
    rw [← hu]
    unfold toUInt32 i32
    split_ifs <;> omega
  have hlen : (Nat.digits base u).length < fuel := by
    have hle := (Nat.digits_length_le_iff h2 u).mpr
      (Nat.lt_of_lt_of_le hpos.2 (Nat.pow_le_pow_left h2 32))
    omega
  obtain ⟨m1, heq, hdigits, -⟩ := writeDigits_spec h2 fuel u 0 m hlen
  rw [Nat.zero_add] at heq
  dsimp only [Option.bind_eq_bind]
  rw [Int.toNat_natCast, hu, heq, Option.bind_some]
  dsimp only
  have hstored : ∃ m2, (if negative then ((Nat.digits base u).length+1,
        write8 m1 (Nat.digits base u).length 45) else ((Nat.digits base u).length, m1)) =
      (((Nat.digits base u).map (digitChar 97)++signOf negative).length, m2) ∧
      Holds m2 0 ((Nat.digits base u).map (digitChar 97)++signOf negative) := by
    cases negative with
    | true =>
      refine ⟨write8 m1 (Nat.digits base u).length 45, by simp [signOf], ?_⟩
      refine holds_append.mpr ⟨holds_congr (fun j _ hj => write8_ne m1 _ ?_) hdigits,
        holds_single.mpr ?_⟩
      · rw [List.length_map] at hj
        omega
      · rw [List.length_map, Nat.zero_add, write8_same]
    | false =>
      refine ⟨m1, by simp [signOf], ?_⟩
      rwa [show signOf false = [] from rfl, List.append_nil]
  obtain ⟨m2, hpair, htext⟩ := hstored
  rw [hpair]
  dsimp only
  have hne : (Nat.digits base u).map (digitChar 97)++signOf negative ≠ [] := by
    simpa using fun h => absurd h (Nat.digits_ne_nil_iff_ne_zero.mpr hpos.1)
  have hfit : ((Nat.digits base u).map (digitChar 97)++signOf negative).length < 2*fuel := by
    have hsign : (signOf negative).length ≤ 1 := by cases negative <;> decide
    rw [List.length_append, List.length_map]
    omega
  have hend : Holds (write8 m2 ((Nat.digits base u).map (digitChar 97)++signOf negative).length 0) 0
      ((Nat.digits base u).map (digitChar 97)++signOf negative++[0]) := by
    refine holds_append.mpr ⟨holds_congr (fun j _ hj => write8_ne m2 _ (by omega)) htext,
      holds_single.mpr ?_⟩
    rw [Nat.zero_add, write8_same]
  obtain ⟨m', hrev, hholds, -⟩ := reverseString_spec hend hne hfit
  refine ⟨m', hrev, ?_⟩
  have hsign : (signOf negative).reverse = signOf negative := by cases negative <;> rfl
  rwa [List.reverse_append, hsign, ← numeral_pos 97 hpos.1] at hholds

/-- A numeral of a word has at most thirty-two digits. -/
theorem numeral_word {base : ℕ} (h2 : 2 ≤ base) (u : ℕ) (hu : u < 4294967296) :
    (numeral 97 base u).length ≤ 32 :=
  numeral_length 97 h2 (by decide) (Nat.lt_of_lt_of_le hu (Nat.pow_le_pow_left h2 32))

theorem itoa_string {v : ℤ} (hv : -2147483648 ≤ v) (hv' : v < 2147483648) {base : ℕ} (h2 : 2 ≤ base)
    (hbase : base ≤ 36) (hfuel : 33 ≤ fuel) (m : Memory) :
    ∃ m', itoa fuel v m base = some m' ∧
      CString m' 0 (signOf (v < 0 && base = 10)++
        numeral 97 base (toUInt32 (if v < 0 && base = 10 then i32 (-v) else v))) := by
  obtain ⟨m', heq, hholds⟩ := itoa_spec hv hv' h2 hbase hfuel m
  generalize (decide (v < 0) && decide (base = 10)) = negative at hholds ⊢
  have hlen := numeral_word h2 (toUInt32 (if negative then i32 (-v) else v)) (by
    unfold toUInt32
    split_ifs <;> omega)
  refine ⟨m', heq, hholds, fun hin => ?_, ?_⟩
  · rcases List.mem_append.mp hin with hin | hin
    · cases negative with
      | true => exact absurd (List.mem_singleton.mp hin) (by decide)
      | false => exact List.not_mem_nil hin
    · obtain ⟨d, hd, hzero⟩ := numeral_digit h2 hin
      have hvalue := digitValue_digitChar lower_letter (show d < 36 by omega)
      rw [← hzero] at hvalue
      cases hvalue
  · have hsign : (signOf negative).length ≤ 1 := by cases negative <;> decide
    rw [List.length_append]
    omega

end Writing

/-- Behind blanks, and a plus sign if there is no minus sign, the text of a number is read as the
number. -/
theorem atoi_text {v : ℤ} (hv : -2147483648 ≤ v) (hv' : v < 2147483648) {blanks sign : List UInt8}
    (hb : ∀ c ∈ blanks, IsBlank c) (hs : sign = [] ∨ sign = [43] ∧ 0 ≤ v)
    (h : CString m 0 (blanks++(sign++(signOf (v < 0)++numeral 97 10 v.natAbs))))
    (hfuel : blanks.length+(signOf (v < 0)++numeral 97 10 v.natAbs).length < fuel) :
    atoi fuel m = some v := by
  have hread := (numeral_spec lower_letter (show 2 ≤ 10 by decide) (by decide) v.natAbs).value
  rw [List.length_append] at hfuel
  by_cases hneg : v < 0
  · obtain rfl := hs.resolve_right fun h => absurd h.2 (by omega)
    rw [decide_eq_true hneg, List.nil_append, show signOf true = [45] from rfl] at h
    rw [atoi_spec h hb (Or.inr (Or.inr rfl)) hread (by omega), if_pos rfl,
      i32_of_range (by omega) (by omega)]
    congr 1
    omega
  · rw [decide_eq_false hneg, show signOf false = [] from rfl, List.nil_append] at h
    rw [atoi_spec h hb (hs.imp_right fun h => Or.inl h.1) hread (by omega), if_neg,
      i32_of_range (by omega) (by omega)]
    · congr 1
      omega
    · rcases hs with rfl | ⟨rfl, -⟩ <;> decide

/-- Reading what was written gives the number back, also behind blanks and a plus sign, and in
another base the digits denote it as an unsigned number. -/
theorem itoa_inverse (v : ℤ) (hv : -2147483648 ≤ v) (hv' : v < 2147483648) (m : Memory) (fuel : ℕ)
    (hfuel : 33 ≤ fuel) :
    (∃ m' text, itoa fuel v m 10 = some m' ∧ CString m' 0 text ∧ atoi fuel m' = some v ∧
      ∀ m'' blanks sign fuel', (∀ c ∈ blanks, IsBlank c) → sign = [] ∨ sign = [43] ∧ 0 ≤ v →
        CString m'' 0 (blanks++(sign++text)) → blanks.length+text.length < fuel' →
        atoi fuel' m'' = some v) ∧
    (∀ base : ℕ, 2 ≤ base → base ≤ 36 → base ≠ 10 →
      ∃ m' ds, itoa fuel v m base = some m' ∧ CString m' 0 ds ∧ ds.length ≤ 32 ∧
        Numeral base (toUInt32 v) ds) := by
  constructor
  · obtain ⟨m', heq, htext⟩ := itoa_string hv hv' (show 2 ≤ 10 by decide) (by decide) hfuel m
    obtain ⟨huval, hlt, -⟩ := magnitude_spec hv hv'
    simp only [decide_true, Bool.and_true] at htext
    rw [apply_ite toUInt32, huval] at htext
    have hlen := numeral_length 97 (show 2 ≤ 10 by decide) (show 0 < 10 by decide)
      (show v.natAbs < 10^10 by omega)
    have hsign : (signOf (decide (v < 0))).length ≤ 1 := by cases decide (v < 0) <;> decide
    refine ⟨m', _, heq, htext, ?_, fun m'' blanks sign fuel' hb hs h hf =>
      atoi_text hv hv' hb hs h hf⟩
    have hblank : ∀ c ∈ [], IsBlank c := fun c hc => by cases hc
    refine atoi_text hv hv' hblank (Or.inl rfl) htext ?_
    · rw [List.length_nil, List.length_append]
      omega
  · intro base h2 hbase hten
    obtain ⟨m', heq, htext⟩ := itoa_string hv hv' h2 hbase hfuel m
    rw [decide_eq_false hten, Bool.and_false] at htext
    exact ⟨m', _, heq, htext, numeral_word h2 (toUInt32 v) (by unfold toUInt32; omega),
      numeral_spec lower_letter h2 hbase (toUInt32 v)⟩

/-- The least `int` in base ten, and a negative number in base two. -/
theorem itoa_inverse_extremes :
    (∃ m' text, itoa 33 (-2147483648) (fun _ => 1) 10 = some m' ∧ CString m' 0 text ∧
      atoi 33 m' = some (-2147483648)) ∧
    ∃ m' ds, itoa 33 (-5) (fun _ => 1) 2 = some m' ∧ CString m' 0 ds ∧
      Numeral 2 4294967291 ds := by
  obtain ⟨⟨m', text, h1, h2, h3, -⟩, -⟩ := itoa_inverse (-2147483648) (by decide) (by decide)
    (fun _ => 1) 33 (by decide)
  obtain ⟨-, hbase⟩ := itoa_inverse (-5) (by decide) (by decide) (fun _ => 1) 33 (by decide)
  obtain ⟨m'', ds, h4, h5, -, h6⟩ := hbase 2 (by decide) (by decide) (by decide)
  exact ⟨⟨m', text, h1, h2, h3⟩, m'', ds, h4, h5, h6⟩

end Vlsmc.IntegerTexts
