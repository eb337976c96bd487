import Vlsmc.CStrings
import Vlsmc.MemoryBlocks

/-!
# Strings are read in whole words

The test for a zero byte is exact, so that a word without one lies inside of the string and the
word with the first one holds its end. A word that is read holds a byte of the string.
-/

set_option autoImplicit false

namespace Vlsmc.WordStrings
open Vlsmc.ByteMemory Vlsmc.CStrings Vlsmc.Words Vlsmc.TracedMemory Vlsmc.StringFunctions
open Vlsmc.MemoryBlocks

/-- The addresses of the words that hold the `n` bytes from `a` on. -/
def words (a n : ℕ) : Set ℕ := fun k => ∃ i < n, k/4 = (a+i)/4

/-- Nothing is written, and what is read is in `R`. -/
structure Reads (R : Set ℕ) (t t' : Traced) : Prop where
  mem : t'.mem = t.mem
  within : Within R ∅ t t'

/-- The difference of the first bytes that differ. -/
def difference : List UInt8 → List UInt8 → ℤ
  | a::as, b::bs => if a = b then difference as bs else (a.toNat:ℤ)-b.toNat
  | _, _ => 0

variable {R R' : Set ℕ} {t t' t'' : Traced} {a n k p p1 p2 : ℕ} {s s1 s2 : List UInt8}

section ZeroBytes

/-- The bits at which the test looks: the borrow of a byte that is zero reaches its upper bit. -/
theorem hasZeroByte_bits {v : ℕ} (hv : v < 4294967296) :
    hasZeroByte v = true ↔ ∃ i, (i = 7 ∨ i = 15 ∨ i = 23 ∨ i = 31) ∧
      ((v+4278124287)%4294967296).testBit i = true ∧ v.testBit i = false := by
  have hbit : ∀ i, (BitVec.ofNat 32 v-0x01010101#32 &&& ~~~BitVec.ofNat 32 v &&&
      0x80808080#32).getLsbD i = (((v+4278124287)%4294967296).testBit i &&
        (decide (i < 32) && !v.testBit i) && (0x80808080#32).getLsbD i) := by
    intro i
    have hsub : (BitVec.ofNat 32 v-0x01010101#32).toNat = (v+4278124287)%4294967296 := by
      rw [BitVec.toNat_sub, BitVec.toNat_ofNat, BitVec.toNat_ofNat]
      omega
    have hof : (BitVec.ofNat 32 v).toNat = v := by
      rw [BitVec.toNat_ofNat]
      omega
    simp only [BitVec.getLsbD_and, BitVec.getLsbD_not]
    rw [← BitVec.testBit_toNat, ← BitVec.testBit_toNat (x := BitVec.ofNat 32 v), hsub, hof]
  have hmask : ∀ i, (0x80808080#32).getLsbD i = true ↔ i = 7 ∨ i = 15 ∨ i = 23 ∨ i = 31 := by
    intro i
    by_cases hi : i < 32
    · revert i
      decide
    · rw [BitVec.getLsbD_of_ge _ _ (by omega)]
      constructor
      · intro h
        cases h
      · omega
  unfold hasZeroByte
  rw [decide_eq_true_eq]
  constructor
  · intro hne
    by_contra hno
    apply hne
    apply BitVec.eq_of_getLsbD_eq
    intro i hi
    rw [hbit, BitVec.getLsbD_zero]
    by_contra htrue
    simp only [Bool.not_eq_false, Bool.and_eq_true, decide_eq_true_eq, Bool.not_eq_true'] at htrue
    exact hno ⟨i, (hmask i).mp htrue.2, htrue.1.1, htrue.1.2.2⟩
  · rintro ⟨i, hi, hd, hv0⟩ hzero
    have hb := hbit i
    rw [hzero, BitVec.getLsbD_zero, hd, hv0, (hmask i).mpr hi] at hb
    simp at hb
    omega

theorem hasZeroByte_iff {b0 b1 b2 b3 : ℕ} (h0 : b0 < 256) (h1 : b1 < 256) (h2 : b2 < 256)
    (h3 : b3 < 256) : hasZeroByte (b0+256*b1+65536*b2+16777216*b3) = true ↔
      b0 = 0 ∨ b1 = 0 ∨ b2 = 0 ∨ b3 = 0 := by
  rw [hasZeroByte_bits (by omega)]
  simp only [Nat.testBit_eq_decide_div_mod_eq, decide_eq_true_eq, decide_eq_false_iff_not]
  constructor
  · rintro ⟨i, rfl | rfl | rfl | rfl, hd, hv⟩
    all_goals
      by_contra hne
      push Not at hne
      norm_num at hd hv
      omega
  · -- below the first byte that is zero nothing is borrowed
    intro hz
    by_cases hz0 : b0 = 0
    · exact ⟨7, by simp, by norm_num; omega, by norm_num; omega⟩
    by_cases hz1 : b1 = 0
    · exact ⟨15, by simp, by norm_num; omega, by norm_num; omega⟩
    by_cases hz2 : b2 = 0
    · exact ⟨23, by simp, by norm_num; omega, by norm_num; omega⟩
    · exact ⟨31, by simp, by norm_num; omega, by norm_num; omega⟩

theorem hasZeroByte_read32 (m : Memory) (a : ℕ) :
    hasZeroByte (read32 m a) = true ↔ ∃ i < 4, m (a+i) = 0 := by
  have hzero : ∀ b : UInt8, b.toNat = 0 ↔ b = 0 := fun b => UInt8.toNat_inj (b := 0)
  unfold read32
  rw [hasZeroByte_iff (UInt8.toNat_lt _) (UInt8.toNat_lt _) (UInt8.toNat_lt _) (UInt8.toNat_lt _),
    hzero, hzero, hzero, hzero]
  constructor
  · rintro (h | h | h | h)
    · exact ⟨0, by decide, h⟩
    · exact ⟨1, by decide, h⟩
    · exact ⟨2, by decide, h⟩
    · exact ⟨3, by decide, h⟩
  · rintro ⟨i, hi, h⟩
    rcases show i = 0 ∨ i = 1 ∨ i = 2 ∨ i = 3 by omega with rfl | rfl | rfl | rfl
    · exact Or.inl h
    · exact Or.inr (Or.inl h)
    · exact Or.inr (Or.inr (Or.inl h))
    · exact Or.inr (Or.inr (Or.inr h))

end ZeroBytes

section Reading

theorem Reads.refl (R : Set ℕ) (t : Traced) : Reads R t t := ⟨rfl, Within.refl _ _ t⟩

theorem Reads.trans (h : Reads R t t') (h' : Reads R t' t'') : Reads R t t'' :=
  ⟨h'.mem.trans h.mem, h.within.trans h'.within⟩

theorem Reads.mono (h : Reads R t t') (hR : ∀ k ∈ R, k ∈ R') : Reads R' t t' :=
  ⟨h.mem, h.within.mono hR fun _ => id⟩

theorem reads_load8 (t : Traced) (ha : a ∈ R) : Reads R t (t.load8 a).2 :=
  ⟨rfl, within_load8 t _ ha⟩

theorem reads_load32 (t : Traced) (ha : ∀ k ∈ range a 4, k ∈ R) : Reads R t (t.load32 a).2 :=
  ⟨rfl, within_load32 t _ ha⟩

theorem word_words (ha : a%4 = 0) (hn : 0 < n) : ∀ k ∈ range a 4, k ∈ words a n := by
  intro k hk
  rw [mem_range] at hk
  exact ⟨0, hn, by omega⟩

theorem words_mono {b m : ℕ} (hab : a ≤ b) (hle : b+m ≤ a+n) : ∀ k ∈ words b m, k ∈ words a n := by
  rintro k ⟨i, hi, hk⟩
  exact ⟨b-a+i, by omega, by rw [hk, show a+(b-a+i) = b+i by omega]⟩

theorem byte_words : ∀ k ∈ range a n, k ∈ words a n := by
  intro k hk
  rw [mem_range] at hk
  exact ⟨k-a, by omega, by rw [show a+(k-a) = k by omega]⟩

end Reading

section Suffixes

/-- What is behind the first `k` bytes of a string is a string. -/
theorem cstring_drop {m : Memory} (h : CString m p s) (hk : k ≤ s.length) :
    CString m (p+k) (s.drop k) ∧ bytes m p k = s.take k := by
  induction k generalizing p s with
  | zero => exact ⟨h, rfl⟩
  | succ k ih =>
    cases s with
    | nil => exact absurd hk (by simp)
    | cons c s =>
      obtain ⟨hc, -, hs⟩ := cstring_cons h
      obtain ⟨hrest, hbytes⟩ := ih hs (by simpa using hk)
      rw [Nat.add_comm k 1, ← Nat.add_assoc]
      refine ⟨by rwa [Nat.add_comm 1 k, List.drop_succ_cons], ?_⟩
      rw [bytes_add, hbytes, Nat.add_comm 1 k, List.take_succ_cons, ← hc]
      rfl

/-- The word at an address has a zero byte when the string ends in it. -/
theorem cstring_word {m : Memory} (h : CString m p s) :
    hasZeroByte (read32 m p) = true ↔ s.length < 4 := by
  rw [hasZeroByte_read32]
  constructor
  · rintro ⟨i, hi, h0⟩
    by_contra hle
    obtain ⟨hget, hne⟩ := cstring_char h (show i < s.length by omega)
    exact hne (hget.symm.trans h0)
  · exact fun hlt => ⟨s.length, hlt, cstring_end h⟩

end Suffixes

section Lengths

theorem lengthHead_spec (s0 fuel : ℕ) (h : CString t.mem p s) (hfuel : s.length < fuel) :
    ∃ r t', lengthHead s0 fuel p t = some (r, t') ∧ Reads (words p (s.length+1)) t t' ∧
      (r = .inl (sub32 (p+s.length) s0) ∨ ∃ j ≤ s.length, (p+j)%4 = 0 ∧ r = .inr (p+j)) := by
  induction fuel generalizing p s t with
  | zero => omega
  | succ fuel ih =>
    rw [lengthHead]
    by_cases ha : aligned4 p = true
    · refine ⟨.inr p, t, if_pos ha, Reads.refl _ t, Or.inr ⟨0, Nat.zero_le _, ?_, rfl⟩⟩
      simpa [aligned4] using ha
    rw [if_neg ha]
    have hread : Reads (words p (s.length+1)) t (t.load8 p).2 :=
      reads_load8 t ⟨0, by omega, rfl⟩
    cases s with
    | nil =>
      refine ⟨.inl (sub32 (p+0) s0), (t.load8 p).2, ?_, hread, Or.inl rfl⟩
      exact if_pos (cstring_nil h)
    | cons c s =>
      obtain ⟨hc, hne, hs⟩ := cstring_cons h
      have hbelow := hs.below
      obtain ⟨r, t', heq, hreads, hr⟩ := ih (t := (t.load8 p).2) hs (by simpa using hfuel)
      refine ⟨r, t', ?_, hread.trans (hreads.mono (words_mono (by omega) ?_)), ?_⟩
      · rw [← heq, u32_of_lt (show p+1 < _ by omega)]
        exact if_neg fun h0 => hne (hc.symm.trans h0)
      · rw [List.length_cons]
        omega
      · rw [List.length_cons, show p+(s.length+1) = p+1+s.length by omega]
        rcases hr with hr | ⟨j, hj, hmod, hr⟩
        · exact Or.inl hr
        · refine Or.inr ⟨1+j, by omega, ?_, ?_⟩
          · rwa [← Nat.add_assoc]
          · rwa [← Nat.add_assoc]

/-- The first zero byte of the word in which the string ends. -/
theorem zeroIn_spec (h : CString t.mem p s) (hlt : s.length < 4) (hp : p+3 < 4294967296) :
    ∃ t', zeroIn p t = (some (p+s.length), t') ∧ Reads (range p 4) t t' := by
  have hread : ∀ {j : ℕ} (u : Traced), j < 4 → Reads (range p 4) u (u.load8 (p+j)).2 :=
    fun u hj => reads_load8 u ⟨by omega, by omega⟩
  have h0 := hread t (show 0 < 4 by decide)
  have h1 := h0.trans (hread _ (show 1 < 4 by decide))
  have h2 := h1.trans (hread _ (show 2 < 4 by decide))
  have h3 := h2.trans (hread _ (show 3 < 4 by decide))
  have hend := cstring_end h
  have hchar : ∀ i < s.length, t.mem (p+i) ≠ 0 := fun i hi h0 =>
    (cstring_char h hi).2 ((cstring_char h hi).1.symm.trans h0)
  unfold zeroIn
  rw [u32_of_lt (show p+1 < _ by omega), u32_of_lt (show p+2 < _ by omega), u32_of_lt hp]
  rcases show s.length = 0 ∨ s.length = 1 ∨ s.length = 2 ∨ s.length = 3 by omega with
    hlen | hlen | hlen | hlen
  all_goals rw [hlen] at hend hchar ⊢
  · exact ⟨_, if_pos hend, h0⟩
  · refine ⟨_, (if_neg (hchar 0 (by decide))).trans (if_pos hend), h1⟩
  · refine ⟨_, (if_neg (hchar 0 (by decide))).trans ((if_neg (hchar 1 (by decide))).trans
      (if_pos hend)), h2⟩
  · refine ⟨_, (if_neg (hchar 0 (by decide))).trans ((if_neg (hchar 1 (by decide))).trans
      ((if_neg (hchar 2 (by decide))).trans (if_pos hend))), h3⟩

theorem lengthWords_spec (s0 fuel : ℕ) (h : CString t.mem p s) (hp : p%4 = 0)
    (hfuel : s.length < fuel) : ∃ t', lengthWords s0 fuel p t = some (sub32 (p+s.length) s0, t') ∧
      Reads (words p (s.length+1)) t t' := by
  induction fuel generalizing p s t with
  | zero => omega
  | succ fuel ih =>
    have hbelow := h.below
    have hin : ∀ k ∈ range p 4, k ∈ words p (s.length+1) := word_words hp (by omega)
    have hread : Reads (words p (s.length+1)) t (t.load32 p).2 := reads_load32 t hin
    rw [lengthWords]
    by_cases hlt : s.length < 4
    · obtain ⟨t', heq, hreads⟩ := zeroIn_spec (t := (t.load32 p).2) h hlt (by omega)
      refine ⟨t', ?_, hread.trans (hreads.mono hin)⟩
      refine (if_pos ((cstring_word h).mpr hlt)).trans ?_
      rw [Traced.load32] at heq
      rw [heq]
    · obtain ⟨hs, -⟩ := cstring_drop h (Nat.not_lt.mp hlt)
      obtain ⟨t', heq, hreads⟩ := ih (t := (t.load32 p).2) hs (by omega)
        (by rw [List.length_drop]; omega)
      rw [List.length_drop] at heq hreads
      rw [show p+4+(s.length-4) = p+s.length by omega] at heq
      refine ⟨t', ?_, hread.trans (hreads.mono (words_mono (by omega) (by omega)))⟩
      rw [← heq, u32_of_lt (show p+4 < _ by omega)]
      exact if_neg fun hz => hlt ((cstring_word h).mp hz)

theorem strlen_spec (fuel : ℕ) (h : CString t.mem p s) (hp : p ≠ 0) (hfuel : s.length < fuel) :
    ∃ t', strlen fuel p t = some (s.length, t') ∧ Reads (words p (s.length+1)) t t' := by
  have hbelow := h.below
  have hlen : sub32 (p+s.length) p = s.length := by
    rw [sub32_of_le (by omega) hbelow, Nat.add_sub_cancel_left]
  unfold strlen
  rw [if_neg hp]
  obtain ⟨r, t', heq, hreads, hr⟩ := lengthHead_spec p fuel h hfuel
  rw [heq]
  rcases hr with rfl | ⟨j, hj, hmod, rfl⟩
  · exact ⟨t', by rw [hlen], hreads⟩
  · obtain ⟨hs, -⟩ := cstring_drop h hj
    rw [← hreads.mem] at hs
    obtain ⟨t'', heq', hreads'⟩ := lengthWords_spec p fuel hs hmod
      (by rw [List.length_drop]; omega)
    rw [List.length_drop] at heq' hreads'
    refine ⟨t'', ?_, hreads.trans (hreads'.mono (words_mono (by omega) (by omega)))⟩
    dsimp only
    rw [heq', show p+j+(s.length-j) = p+s.length by omega, hlen]

end Lengths

section Copying

variable {d : ℕ}

/-- A copy behind or before a string leaves it as it is. -/
theorem cstring_copied (hc : Copied R t t' d a n) (h : CString t.mem p s)
    (hap : d+n ≤ p ∨ p+s.length < d) : CString t'.mem p s := by
  apply cstring_congr h
  intro j hj hj'
  rw [hc.mem]
  exact place_ne _ _ (by omega)

theorem stringWords_copied (fuel : ℕ) (h : CString t.mem p s) (hd : d%4 = 0) (hp : p%4 = 0)
    (hend : d+s.length < 4294967296) (hap : d+s.length < p ∨ p+s.length < d)
    (hfuel : s.length < fuel) : ∃ j t', j ≤ s.length ∧
      stringWords fuel d p t = some (d+j, p+j, t') ∧
      Copied (words p (s.length+1)) t t' d p j := by
  induction fuel generalizing d p s t with
  | zero => omega
  | succ fuel ih =>
    have hbelow := h.below
    have hin : ∀ k ∈ range p 4, k ∈ words p (s.length+1) := word_words hp (by omega)
    rw [stringWords]
    by_cases hlt : s.length < 4
    · refine ⟨0, (t.load32 p).2, Nat.zero_le _, if_pos ((cstring_word h).mpr hlt), ?_⟩
      exact ⟨(place_zero _ _ _).symm, within_load32 t _ hin⟩
    · obtain ⟨hs, -⟩ := cstring_drop h (Nat.not_lt.mp hlt)
      have hword := copied_word t d hin
      have hs' := cstring_copied hword hs (by rw [List.length_drop]; omega)
      obtain ⟨j, t', hj, heq, hrest⟩ := ih (d := d+4) hs' (by omega) (by omega)
        (by rw [List.length_drop]; omega) (by rw [List.length_drop]; omega)
        (by rw [List.length_drop]; omega)
      rw [List.length_drop] at hj hrest
      refine ⟨4+j, t', by omega, ?_, ?_⟩
      · rw [← Nat.add_assoc, ← Nat.add_assoc, ← heq, u32_of_lt (show d+4 < _ by omega),
          u32_of_lt (show p+4 < _ by omega)]
        exact if_neg fun hz => hlt ((cstring_word h).mp hz)
      · exact copied_trans hword (hrest.mono (words_mono (by omega) (by omega))) (by omega)

theorem stringBytes_copied (fuel : ℕ) (h : CString t.mem p s) (hend : d+s.length < 4294967296)
    (hap : d+s.length < p ∨ p+s.length < d) (hfuel : s.length < fuel) :
    ∃ t', stringBytes fuel d p t = some t' ∧
      Copied (words p (s.length+1)) t t' d p (s.length+1) := by
  induction fuel generalizing d p s t with
  | zero => omega
  | succ fuel ih =>
    have hbyte := copied_byte (R := words p (s.length+1)) t d ⟨0, Nat.succ_pos _, rfl⟩
    rw [stringBytes]
    cases s with
    | nil => exact ⟨_, if_pos (cstring_nil h), hbyte⟩
    | cons c s =>
      obtain ⟨hc, hne, hs⟩ := cstring_cons h
      have hbelow := hs.below
      rw [List.length_cons] at hend hap hfuel
      have hs' := cstring_copied hbyte hs (by omega)
      obtain ⟨t', heq, hrest⟩ := ih (d := d+1) hs' (by omega) (by omega) (by omega)
      refine ⟨t', ?_, ?_⟩
      · rw [← heq, u32_of_lt (show d+1 < _ by omega), u32_of_lt (show p+1 < _ by omega)]
        exact if_neg fun h0 => hne (hc.symm.trans h0)
      · rw [List.length_cons, show s.length+1+1 = 1+(s.length+1) by omega]
        rw [List.length_cons, show s.length+1+1 = 1+(s.length+1) by omega] at hbyte
        exact copied_trans hbyte (hrest.mono (words_mono (by omega) (by omega))) (by omega)

theorem strcpy_copied (fuel : ℕ) (h : CString t.mem p s) (hd : d ≠ 0) (hp : p ≠ 0)
    (hend : d+s.length < 4294967296) (hap : d+s.length < p ∨ p+s.length < d)
    (hfuel : s.length < fuel) : ∃ t', strcpy fuel d p t = some (d, t') ∧
      Copied (words p (s.length+1)) t t' d p (s.length+1) := by
  unfold strcpy
  rw [if_neg (by omega)]
  split_ifs with ha
  · simp only [aligned4, Bool.and_eq_true, decide_eq_true_eq] at ha
    obtain ⟨j, t1, hj, heq, hwords⟩ := stringWords_copied fuel h ha.1 ha.2 hend hap hfuel
    obtain ⟨hs, -⟩ := cstring_drop h hj
    have hs' := cstring_copied hwords hs (by rw [List.length_drop]; omega)
    obtain ⟨t2, heq', hbytes⟩ := stringBytes_copied fuel (d := d+j) hs'
      (by rw [List.length_drop]; omega) (by rw [List.length_drop]; omega)
      (by rw [List.length_drop]; omega)
    rw [List.length_drop] at hbytes
    have hall := copied_trans hwords (hbytes.mono (words_mono (by omega) (by omega))) (by omega)
    rw [show j+(s.length-j+1) = s.length+1 by omega] at hall
    refine ⟨t2, ?_, hall⟩
    rw [heq]
    dsimp only [Option.bind_eq_bind, Option.bind_some]
    rw [heq']
    rfl
  · obtain ⟨t1, heq, hbytes⟩ := stringBytes_copied fuel h hend hap hfuel
    refine ⟨t1, ?_, hbytes⟩
    rw [heq]
    rfl

end Copying

section Comparing

theorem difference_append (l s1 s2 : List UInt8) :
    difference (l++s1) (l++s2) = difference s1 s2 := by
  induction l with
  | nil => rfl
  | cons a l ih => exact (if_pos rfl).trans ih

theorem bytes_succ (m : Memory) (a n : ℕ) : bytes m a (n+1) = m a::bytes m (a+1) n := by
  rw [Nat.add_comm n 1, bytes_add]
  rfl

theorem compareBytes_spec (n p1 p2 : ℕ) (t : Traced) (h1 : p1+n ≤ 4294967296)
    (h2 : p2+n ≤ 4294967296) (hR1 : ∀ k ∈ range p1 n, k ∈ R) (hR2 : ∀ k ∈ range p2 n, k ∈ R) :
    ∃ t', compareBytes n (u32 p1) (u32 p2) t =
      (difference (bytes t.mem p1 n) (bytes t.mem p2 n), t') ∧ Reads R t t' := by
  induction n generalizing p1 p2 t with
  | zero => exact ⟨t, rfl, Reads.refl R t⟩
  | succ n ih =>
    have hread : Reads R t ((t.load8 p1).2.load8 p2).2 :=
      (reads_load8 t (hR1 p1 ⟨le_rfl, by omega⟩)).trans
        (reads_load8 _ (hR2 p2 ⟨le_rfl, by omega⟩))
    obtain ⟨t', heq, hreads⟩ := ih (p1+1) (p2+1) ((t.load8 p1).2.load8 p2).2 (by omega) (by omega)
      (fun k hk => hR1 k (by rw [mem_range] at hk ⊢; omega))
      (fun k hk => hR2 k (by rw [mem_range] at hk ⊢; omega))
    rw [compareBytes, bytes_succ, bytes_succ, difference, u32_succ, u32_succ,
      u32_of_lt (show p1 < _ by omega), u32_of_lt (show p2 < _ by omega)]
    by_cases hc : t.mem p1 = t.mem p2
    · refine ⟨t', ?_, hread.trans hreads⟩
      rw [if_pos hc]
      exact (if_neg (not_not.mpr hc)).trans heq
    · refine ⟨_, ?_, hread⟩
      rw [if_neg hc]
      exact if_pos hc

theorem equalWords_spec (n p1 p2 : ℕ) (t : Traced) (h1 : p1+4*n ≤ 4294967296)
    (h2 : p2+4*n ≤ 4294967296) (hR1 : ∀ k ∈ range p1 (4*n), k ∈ R)
    (hR2 : ∀ k ∈ range p2 (4*n), k ∈ R) :
    ∃ j t', j ≤ n ∧ equalWords n (u32 p1) (u32 p2) t = (u32 (p1+4*j), u32 (p2+4*j), t') ∧
      bytes t.mem p1 (4*j) = bytes t.mem p2 (4*j) ∧ Reads R t t' := by
  induction n generalizing p1 p2 t with
  | zero => exact ⟨0, t, le_rfl, rfl, rfl, Reads.refl R t⟩
  | succ n ih =>
    have hread : Reads R t ((t.load32 p1).2.load32 p2).2 :=
      (reads_load32 t fun k hk => hR1 k (by rw [mem_range] at hk ⊢; omega)).trans
        (reads_load32 _ fun k hk => hR2 k (by rw [mem_range] at hk ⊢; omega))
    rw [equalWords, u32_of_lt (show p1 < _ by omega), u32_of_lt (show p2 < _ by omega)]
    by_cases hv : read32 t.mem p1 = read32 t.mem p2
    · obtain ⟨j, t', hj, heq, hbytes, hreads⟩ := ih (p1+4) (p2+4)
        ((t.load32 p1).2.load32 p2).2 (by omega) (by omega)
        (fun k hk => hR1 k (by rw [mem_range] at hk ⊢; omega))
        (fun k hk => hR2 k (by rw [mem_range] at hk ⊢; omega))
      refine ⟨j+1, t', by omega, ?_, ?_, hread.trans hreads⟩
      · rw [show p1+4*(j+1) = p1+4+4*j by omega, show p2+4*(j+1) = p2+4+4*j by omega]
        exact (if_neg (not_not.mpr hv)).trans heq
      · have hword : bytes t.mem p1 4 = bytes t.mem p2 4 := bytes_congr fun i hi => by
          rw [← byte_read32 t.mem p1 hi, ← byte_read32 t.mem p2 hi, hv]
        rw [show 4*(j+1) = 4+4*j by omega, bytes_add, bytes_add, hword]
        exact congrArg _ hbytes
    · refine ⟨0, _, Nat.zero_le _, ?_, rfl, hread⟩
      simp only [Nat.mul_zero, Nat.add_zero]
      rw [u32_of_lt (show p1 < _ by omega), u32_of_lt (show p2 < _ by omega)]
      exact if_pos hv

theorem memcmp_spec (p1 p2 n : ℕ) (t : Traced) (hp : p1 ≠ 0) (h1 : p1+n ≤ 4294967296)
    (h2 : p2+n ≤ 4294967296) :
    ∃ t', memcmp p1 p2 n t = (difference (bytes t.mem p1 n) (bytes t.mem p2 n), t') ∧
      Reads (range p1 n ∪ range p2 n) t t' := by
  unfold memcmp
  by_cases h0 : n = 0
  · rw [if_pos h0, h0]
    exact ⟨t, rfl, Reads.refl _ t⟩
  rw [if_neg h0]
  have hu1 : u32 p1 = p1 := u32_of_lt (by omega)
  have hu2 : u32 p2 = p2 := u32_of_lt (by omega)
  split_ifs with ha
  · obtain ⟨j, t1, hj, heq, hbytes, hreads⟩ := equalWords_spec (R := range p1 n ∪ range p2 n)
      (n/4) p1 p2 t (by omega) (by omega) (fun k hk => Or.inl (by rw [mem_range] at hk ⊢; omega))
      (fun k hk => Or.inr (by rw [mem_range] at hk ⊢; omega))
    rw [hu1, hu2] at heq
    have hleft : sub32 n (sub32 (u32 (p1+4*j)) p1) = n-4*j := by
      have hback : sub32 (u32 (p1+4*j)) p1 = 4*j := by
        unfold sub32 u32
        omega
      rw [hback, sub32_of_le (by omega) (by omega)]
    obtain ⟨t2, heq', hreads'⟩ := compareBytes_spec (R := range p1 n ∪ range p2 n) (n-4*j)
      (p1+4*j) (p2+4*j) t1 (by omega) (by omega)
      (fun k hk => Or.inl (by rw [mem_range] at hk ⊢; omega))
      (fun k hk => Or.inr (by rw [mem_range] at hk ⊢; omega))
    refine ⟨t2, ?_, hreads.trans hreads'⟩
    rw [heq]
    dsimp only
    rw [hleft, heq', hreads.mem, ← difference_append (bytes t.mem p1 (4*j)), ← bytes_add, hbytes,
      ← bytes_add, show 4*j+(n-4*j) = n by omega]
  · obtain ⟨t1, heq, hreads⟩ := compareBytes_spec (R := range p1 n ∪ range p2 n) n p1 p2 t h1 h2
      (fun k hk => Or.inl hk) (fun k hk => Or.inr hk)
    rw [hu1, hu2] at heq
    exact ⟨t1, heq, hreads⟩

theorem sameBytes_spec (fuel : ℕ) (h1 : CString t.mem p1 s1) (h2 : CString t.mem p2 s2)
    (hR1 : ∀ k ∈ range p1 (s1.length+1), k ∈ R) (hR2 : ∀ k ∈ range p2 (s2.length+1), k ∈ R)
    (hfuel : s1.length < fuel) :
    ∃ t', sameBytes fuel p1 p2 t = some (difference (s1++[0]) (s2++[0]), t') ∧ Reads R t t' := by
  induction fuel generalizing p1 p2 s1 s2 t with
  | zero => omega
  | succ fuel ih =>
    have hread : Reads R t ((t.load8 p1).2.load8 p2).2 :=
      (reads_load8 t (hR1 p1 ⟨le_rfl, by omega⟩)).trans
        (reads_load8 _ (hR2 p2 ⟨le_rfl, by omega⟩))
    rw [sameBytes]
    cases s1 with
    | nil =>
      have hc1 := cstring_nil h1
      have hstop : ¬(t.mem p1 ≠ 0 ∧ t.mem p1 = t.mem p2) := fun h => h.1 hc1
      refine ⟨((t.load8 p1).2.load8 p2).2, (if_neg hstop).trans ?_, hread⟩
      change some (((t.mem p1).toNat:ℤ)-(t.mem p2).toNat, _) = _
      rw [hc1]
      cases s2 with
      | nil => rw [cstring_nil h2]; rfl
      | cons b s2 =>
        obtain ⟨hc2, hne, -⟩ := cstring_cons h2
        rw [hc2]
        exact congrArg (fun z => some (z, _)) (if_neg (Ne.symm hne)).symm
    | cons a s1 =>
      obtain ⟨hc1, hne1, hs1⟩ := cstring_cons h1
      by_cases hsame : t.mem p1 = t.mem p2
      · cases s2 with
        | nil =>
          rw [hc1, cstring_nil h2] at hsame
          exact absurd hsame hne1
        | cons b s2 =>
          obtain ⟨hc2, hne2, hs2⟩ := cstring_cons h2
          have hb1 := hs1.below
          have hb2 := hs2.below
          obtain ⟨t', heq, hreads⟩ := ih (t := ((t.load8 p1).2.load8 p2).2) hs1 hs2
            (fun k hk => hR1 k (by rw [mem_range] at hk ⊢; rw [List.length_cons]; omega))
            (fun k hk => hR2 k (by rw [mem_range] at hk ⊢; rw [List.length_cons]; omega))
            (by simpa using hfuel)
          refine ⟨t', ?_, hread.trans hreads⟩
          have hab : a = b := hc1.symm.trans (hsame.trans hc2)
          rw [List.cons_append, List.cons_append, difference, if_pos hab, ← heq,
            u32_of_lt (show p1+1 < _ by omega), u32_of_lt (show p2+1 < _ by omega)]
          exact if_pos ⟨fun h0 => hne1 (hc1.symm.trans h0), hsame⟩
      · have hstop : ¬(t.mem p1 ≠ 0 ∧ t.mem p1 = t.mem p2) := fun h => hsame h.2
        refine ⟨((t.load8 p1).2.load8 p2).2, (if_neg hstop).trans ?_, hread⟩
        change some (((t.mem p1).toNat:ℤ)-(t.mem p2).toNat, _) = _
        cases s2 with
        | nil =>
          rw [hc1, cstring_nil h2] at hsame ⊢
          exact congrArg (fun z => some (z, _)) (if_neg hsame).symm
        | cons b s2 =>
          rw [hc1, (cstring_cons h2).1] at hsame ⊢
          exact congrArg (fun z => some (z, _)) (if_neg hsame).symm

theorem sameWords_spec (fuel : ℕ) (h1 : CString t.mem p1 s1) (h2 : CString t.mem p2 s2)
    (hp1 : p1%4 = 0) (hp2 : p2%4 = 0) (hR1 : ∀ k ∈ words p1 (s1.length+1), k ∈ R)
    (hR2 : ∀ k ∈ words p2 (s2.length+1), k ∈ R) (hfuel : s1.length < fuel) :
    ∃ j t', j ≤ s1.length ∧ j ≤ s2.length ∧
      sameWords fuel p1 p2 t = some (p1+j, p2+j, t') ∧ s1.take j = s2.take j ∧ Reads R t t' := by
  induction fuel generalizing p1 p2 s1 s2 t with
  | zero => omega
  | succ fuel ih =>
    have hread : Reads R t ((t.load32 p1).2.load32 p2).2 :=
      (reads_load32 t fun k hk => hR1 k (word_words hp1 (by omega) k hk)).trans
        (reads_load32 _ fun k hk => hR2 k (word_words hp2 (by omega) k hk))
    rw [sameWords]
    by_cases hstop : read32 t.mem p1 ≠ read32 t.mem p2 ∨ hasZeroByte (read32 t.mem p1) = true
    · exact ⟨0, ((t.load32 p1).2.load32 p2).2, Nat.zero_le _, Nat.zero_le _, if_pos hstop, rfl,
        hread⟩
    · obtain ⟨hv, hz⟩ := not_or.mp hstop
      rw [not_not] at hv
      have hlt1 := mt (cstring_word h1).mpr hz
      have hlt2 := mt (cstring_word h2).mpr (hv ▸ hz)
      rw [Nat.not_lt] at hlt1 hlt2
      obtain ⟨hs1, hb1⟩ := cstring_drop h1 hlt1
      obtain ⟨hs2, hb2⟩ := cstring_drop h2 hlt2
      have hword : bytes t.mem p1 4 = bytes t.mem p2 4 := bytes_congr fun i hi => by
        rw [← byte_read32 t.mem p1 hi, ← byte_read32 t.mem p2 hi, hv]
      have hbelow1 := h1.below
      have hbelow2 := h2.below
      obtain ⟨j, t', hj1, hj2, heq, htake, hreads⟩ := ih (t := ((t.load32 p1).2.load32 p2).2)
        hs1 hs2 (by omega) (by omega)
        (fun k hk => hR1 k (words_mono (by omega) (by rw [List.length_drop]; omega) k hk))
        (fun k hk => hR2 k (words_mono (by omega) (by rw [List.length_drop]; omega) k hk))
        (by rw [List.length_drop]; omega)
      rw [List.length_drop] at hj1 hj2
      refine ⟨4+j, t', by omega, by omega, ?_, ?_, hread.trans hreads⟩
      · rw [← Nat.add_assoc, ← Nat.add_assoc, ← heq, u32_of_lt (show p1+4 < _ by omega),
          u32_of_lt (show p2+4 < _ by omega)]
        exact if_neg hstop
      · rw [List.take_add, List.take_add, ← hb1, ← hb2, hword, htake]

theorem strcmp_spec (fuel : ℕ) (h1 : CString t.mem p1 s1) (h2 : CString t.mem p2 s2)
    (hp1 : p1 ≠ 0) (hp2 : p2 ≠ 0) (hfuel : s1.length < fuel) :
    ∃ t', strcmp fuel p1 p2 t = some (difference (s1++[0]) (s2++[0]), t') ∧
      Reads (words p1 (s1.length+1) ∪ words p2 (s2.length+1)) t t' := by
  unfold strcmp
  rw [if_neg (by omega)]
  split_ifs with ha
  · simp only [aligned4, Bool.and_eq_true, decide_eq_true_eq] at ha
    obtain ⟨j, t1, hj1, hj2, heq, htake, hreads⟩ := sameWords_spec fuel h1 h2 ha.1 ha.2
      (fun k => Or.inl) (fun k => Or.inr) hfuel
    obtain ⟨hs1, -⟩ := cstring_drop h1 hj1
    obtain ⟨hs2, -⟩ := cstring_drop h2 hj2
    rw [← hreads.mem] at hs1 hs2
    obtain ⟨t2, heq', hreads'⟩ := sameBytes_spec fuel hs1 hs2
      (R := words p1 (s1.length+1) ∪ words p2 (s2.length+1))
      (fun k hk => Or.inl (byte_words k (by
        rw [mem_range, List.length_drop] at hk
        rw [mem_range]
        omega)))
      (fun k hk => Or.inr (byte_words k (by
        rw [mem_range, List.length_drop] at hk
        rw [mem_range]
        omega)))
      (by rw [List.length_drop]; omega)
    refine ⟨t2, ?_, hreads.trans hreads'⟩
    rw [heq]
    dsimp only [Option.bind_eq_bind, Option.bind_some]
    rw [heq', ← difference_append (s1.take j), ← List.append_assoc, List.take_append_drop, htake,
      ← List.append_assoc, List.take_append_drop]
  · exact sameBytes_spec fuel h1 h2 (fun k hk => Or.inl (byte_words k hk))
      (fun k hk => Or.inr (byte_words k hk)) hfuel

end Comparing

/-- The four functions do what their bytewise definitions do, and read only words that hold
bytes of their strings or blocks. -/
theorem strings_bytewise (t : Traced) :
    (∀ p s fuel, p ≠ 0 → CString t.mem p s → s.length < fuel →
      ∃ t', strlen fuel p t = some (s.length, t') ∧ Reads (words p (s.length+1)) t t') ∧
    (∀ d p s fuel, d ≠ 0 → p ≠ 0 → CString t.mem p s → d+s.length < 4294967296 →
      (d+s.length < p ∨ p+s.length < d) → s.length < fuel →
      ∃ t', strcpy fuel d p t = some (d, t') ∧
        (∀ i < s.length+1, t'.mem (d+i) = t.mem (p+i)) ∧ Leaves t t' d (s.length+1) ∧
        Within (words p (s.length+1)) (range d (s.length+1)) t t') ∧
    (∀ p1 p2 s1 s2 fuel, p1 ≠ 0 → p2 ≠ 0 → CString t.mem p1 s1 → CString t.mem p2 s2 →
      s1.length < fuel →
      ∃ t', strcmp fuel p1 p2 t = some (difference (s1++[0]) (s2++[0]), t') ∧
        Reads (words p1 (s1.length+1) ∪ words p2 (s2.length+1)) t t') ∧
    (∀ p1 p2 n, p1 ≠ 0 → p2 ≠ 0 → p1+n ≤ 4294967296 → p2+n ≤ 4294967296 →
      ∃ t', memcmp p1 p2 n t = (difference (bytes t.mem p1 n) (bytes t.mem p2 n), t') ∧
        Reads (words p1 n ∪ words p2 n) t t') := by
  refine ⟨fun p s fuel hp h hfuel => strlen_spec fuel h hp hfuel,
    fun d p s fuel hd hp h hend hap hfuel => ?_,
    fun p1 p2 s1 s2 fuel hp1 hp2 h1 h2 hfuel => strcmp_spec fuel h1 h2 hp1 hp2 hfuel,
    fun p1 p2 n hp1 hp2 h1 h2 => ?_⟩
  · obtain ⟨t', heq, hc⟩ := strcpy_copied fuel h hd hp hend hap hfuel
    refine ⟨t', heq, fun i hi => ?_, leaves_of hc.mem hc.within, hc.within⟩
    rw [hc.mem, place_get _ _ hi]
  · obtain ⟨t', heq, hreads⟩ := memcmp_spec p1 p2 n t hp1 h1 h2
    exact ⟨t', heq, hreads.mono fun k hk => hk.imp (byte_words k) (byte_words k)⟩

/-- A string of five characters at 20, two of them with the upper bit, and one at 33 that differs
from it in the fourth. -/
def twoTexts : Traced where
  mem k := if k = 20 ∨ k = 33 then 97 else if k = 21 ∨ k = 34 then 200 else
    if k = 22 ∨ k = 35 then 99 else if k = 23 then 233 else if k = 24 ∨ k = 36 ∨ k = 37 then 98 else 0
  reads := []
  writes := []

theorem twoTexts_strings : CString twoTexts.mem 20 [97, 200, 99, 233, 98] ∧
    CString twoTexts.mem 33 [97, 200, 99, 98, 98] := by
  refine ⟨⟨?_, by decide, by decide⟩, ⟨?_, by decide, by decide⟩⟩
  all_goals
    unfold Holds
    decide

/-- A length from an aligned and from another address, a copy, and two comparisons that end at a
byte above 127. -/
theorem strings_bytewise_texts :
    (∃ t', strlen 6 20 twoTexts = some (5, t') ∧ Reads (words 20 6) twoTexts t') ∧
    (∃ t', strlen 6 33 twoTexts = some (5, t') ∧ Reads (words 33 6) twoTexts t') ∧
    (∃ t', strcpy 6 52 20 twoTexts = some (52, t') ∧
      ∀ i < 6, t'.mem (52+i) = twoTexts.mem (20+i)) ∧
    (∃ t', strcmp 6 20 33 twoTexts = some (135, t') ∧
      Reads (words 20 6 ∪ words 33 6) twoTexts t') ∧
    (∃ t', memcmp 33 20 5 twoTexts = (-135, t') ∧
      Reads (words 33 5 ∪ words 20 5) twoTexts t') := by
  obtain ⟨h1, h2⟩ := twoTexts_strings
  obtain ⟨hlen, hcopy, hcmp, hmem⟩ := strings_bytewise twoTexts
  obtain ⟨t', heq, hbytes, -⟩ := hcopy 52 20 _ 6 (by decide) (by decide) h1 (by decide) (by decide)
    (by decide)
  exact ⟨hlen 20 _ 6 (by decide) h1 (by decide), hlen 33 _ 6 (by decide) h2 (by decide),
    ⟨t', heq, hbytes⟩, hcmp 20 33 _ _ 6 (by decide) (by decide) h1 h2 (by decide),
    hmem 33 20 5 (by decide) (by decide) (by decide) (by decide)⟩

end Vlsmc.WordStrings
