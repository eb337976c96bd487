import Vlsmc.StringFunctions

/-!
# Blocks of memory are copied and filled byte by byte

The loops over words and over bytes copy or fill one stretch after the other. A copy reads the
old bytes of its source as long as it does not write what it has not read yet: upwards when the
destination lies below the source, downwards when it lies above.
-/

set_option autoImplicit false

namespace Vlsmc.MemoryBlocks
open Vlsmc.ByteMemory Vlsmc.Words Vlsmc.TracedMemory Vlsmc.StringFunctions

/-- The `n` bytes from `d` on are the old ones from `s` on; no others are written, and none are
read outside of `R`. -/
structure Copied (R : Set ℕ) (t t' : Traced) (d s n : ℕ) : Prop where
  mem : t'.mem = place t.mem d n fun i => t.mem (s+i)
  within : Within R (range d n) t t'

/-- The `n` bytes from `p` on are `v`; no others are written, and none are read. -/
structure Filled (t t' : Traced) (p n : ℕ) (v : UInt8) : Prop where
  mem : t'.mem = place t.mem p n fun _ => v
  within : Within ∅ (range p n) t t'

/-- Outside of the `n` bytes from `a` on nothing changes, and nothing is written. -/
def Leaves (t t' : Traced) (a n : ℕ) : Prop :=
  ∀ k, ¬(a ≤ k ∧ k < a+n) → t'.mem k = t.mem k ∧ (k ∈ t'.writes → k ∈ t.writes)

variable {R : Set ℕ} {t t' t'' : Traced} {d s p n k : ℕ} {v : UInt8}

theorem u32_succ (d k : ℕ) : u32 (u32 d+k) = u32 (d+k) := Nat.mod_add_mod _ _ _

section Copying

theorem copied_zero (R : Set ℕ) (t : Traced) (d s : ℕ) : Copied R t t d s 0 :=
  ⟨(place_zero _ _ _).symm, Within.refl _ _ t⟩

theorem Copied.mono {R' : Set ℕ} (h : Copied R t t' d s n) (hR : ∀ k ∈ R, k ∈ R') :
    Copied R' t t' d s n := ⟨h.mem, h.within.mono hR fun _ => id⟩

/-- A stretch after another, when the source of the second is not yet overwritten. -/
theorem copied_trans (h : Copied R t t' d s n) (h' : Copied R t' t'' (d+n) (s+n) k)
    (ho : d ≤ s ∨ s+(n+k) ≤ d) : Copied R t t'' d s (n+k) := by
  constructor
  · have hold : ∀ i < k, t'.mem (s+n+i) = t.mem (s+(n+i)) := by
      intro i hi
      rw [h.mem, place_ne _ _ (by omega), Nat.add_assoc]
    rw [h'.mem, place_congr _ _ _ hold, h.mem]
    exact place_place t.mem d n k fun i => t.mem (s+i)
  · refine (h.within.mono (fun _ => id) ?_).trans (h'.within.mono (fun _ => id) ?_)
    all_goals
      intro j hj
      rw [mem_range] at hj ⊢
      omega

theorem copied_byte (t : Traced) (d : ℕ) (hs : s ∈ R) :
    Copied R t ((t.load8 s).2.store8 d (t.load8 s).1) d s 1 := by
  constructor
  · exact (place_one t.mem d fun i => t.mem (s+i)).symm
  · exact (within_load8 t _ hs).trans (within_store8 _ _ _ ⟨by omega, by omega⟩)

theorem copied_word (t : Traced) (d : ℕ) (hs : ∀ k ∈ range s 4, k ∈ R) :
    Copied R t ((t.load32 s).2.store32 d (t.load32 s).1) d s 4 := by
  constructor
  · exact write32_copied t.mem t.mem d s
  · exact (within_load32 t _ hs).trans (within_store32 _ _ _ fun _ hk => hk)

theorem copyBytes_copied (n d s : ℕ) (t : Traced) (hd : d+n ≤ 4294967296)
    (hs : s+n ≤ 4294967296) (ho : d ≤ s ∨ s+n ≤ d) (hR : ∀ k ∈ range s n, k ∈ R) :
    Copied R t (copyBytes n (u32 d) (u32 s) t) d s n := by
  induction n generalizing d s t with
  | zero => exact copied_zero R t d s
  | succ n ih =>
    rw [copyBytes, u32_succ, u32_succ, u32_of_lt (show d < _ by omega),
      u32_of_lt (show s < _ by omega)]
    have hrest := ih (d+1) (s+1) ((t.load8 s).2.store8 d (t.load8 s).1) (by omega) (by omega)
      (by omega) fun k hk => hR k (by rw [mem_range] at hk ⊢; omega)
    rw [Nat.add_comm n 1]
    exact copied_trans (copied_byte t d (hR s ⟨le_rfl, by omega⟩)) hrest (by omega)

theorem copyWords_copied (n d s : ℕ) (t : Traced) (hd : d+4*n ≤ 4294967296)
    (hs : s+4*n ≤ 4294967296) (hd4 : d%4 = 0) (hs4 : s%4 = 0) (ho : d ≤ s ∨ s+4*n ≤ d)
    (hR : ∀ k ∈ range s (4*n), k ∈ R) :
    ∃ t', copyWords n (u32 d) (u32 s) t = (u32 (d+4*n), u32 (s+4*n), t') ∧
      Copied R t t' d s (4*n) := by
  induction n generalizing d s t with
  | zero => exact ⟨t, rfl, copied_zero R t d s⟩
  | succ n ih =>
    obtain ⟨t', heq, hrest⟩ := ih (d+4) (s+4) ((t.load32 s).2.store32 d (t.load32 s).1)
      (by omega) (by omega) (by omega) (by omega) (by omega)
      fun k hk => hR k (by rw [mem_range] at hk ⊢; omega)
    refine ⟨t', ?_, ?_⟩
    · rw [copyWords, u32_succ, u32_succ, u32_of_lt (show d < _ by omega),
        u32_of_lt (show s < _ by omega), show d+4*(n+1) = d+4+4*n by omega,
        show s+4*(n+1) = s+4+4*n by omega]
      exact heq
    · have hword : Copied R t ((t.load32 s).2.store32 d (t.load32 s).1) d s 4 :=
        copied_word t d fun k hk => hR k (by rw [mem_range] at hk ⊢; omega)
      rw [show 4*(n+1) = 4+4*n by omega]
      exact copied_trans hword hrest (by omega)

/-- The last byte first, when the destination lies above the source. -/
theorem copied_back (h : Copied R ((t.load8 (s+n)).2.store8 (d+n) (t.load8 (s+n)).1) t' d s n)
    (ho : s ≤ d) (hs : s+n ∈ R) : Copied R t t' d s (n+1) := by
  constructor
  · have hold : ∀ i < n, ((t.load8 (s+n)).2.store8 (d+n) (t.load8 (s+n)).1).mem (s+i) =
        t.mem (s+i) := fun i hi => write8_ne t.mem _ (by omega)
    rw [h.mem, place_congr _ _ _ hold]
    funext j
    unfold place
    by_cases hj : d ≤ j ∧ j < d+n
    · rw [if_pos hj, if_pos (by omega)]
    · rw [if_neg hj]
      by_cases hlast : j = d+n
      · rw [if_pos (by omega), hlast, Nat.add_sub_cancel_left]
        exact write8_same t.mem (d+n) _
      · rw [if_neg (by omega)]
        exact write8_ne t.mem _ hlast
  · have hread : Within R (range d (n+1)) t (t.load8 (s+n)).2 := within_load8 t _ hs
    have hbyte := hread.trans (within_store8 (t.load8 (s+n)).2 _ (t.load8 (s+n)).1
      (a := d+n) ⟨by omega, by omega⟩)
    refine hbyte.trans (h.within.mono (fun _ => id) ?_)
    intro j hj
    rw [mem_range] at hj ⊢
    omega

theorem copyBack_copied (n d s : ℕ) (t : Traced) (hd : d+n ≤ 4294967296)
    (hs : s+n ≤ 4294967296) (ho : s ≤ d) (hR : ∀ k ∈ range s n, k ∈ R) :
    Copied R t (copyBack n (u32 (d+n)) (u32 (s+n)) t) d s n := by
  induction n generalizing t with
  | zero => exact copied_zero R t d s
  | succ n ih =>
    have hback : ∀ a, a+1 ≤ 4294967296 → sub32 (u32 (a+1)) 1 = a := by
      intro a ha
      unfold sub32 u32
      omega
    rw [copyBack, ← Nat.add_assoc, ← Nat.add_assoc, hback (d+n) hd, hback (s+n) hs]
    have hrest := ih ((t.load8 (s+n)).2.store8 (d+n) (t.load8 (s+n)).1) (by omega) (by omega)
      fun k hk => hR k (by rw [mem_range] at hk ⊢; omega)
    rw [u32_of_lt (show d+n < _ by omega), u32_of_lt (show s+n < _ by omega)] at hrest
    exact copied_back hrest ho (hR (s+n) ⟨by omega, by omega⟩)

theorem memcpy_copied (dest src n : ℕ) (t : Traced) (hdest : dest ≠ 0) (hsrc : src ≠ 0)
    (hd : dest+n ≤ 4294967296) (hs : src+n ≤ 4294967296) (ho : dest ≤ src ∨ src+n ≤ dest) :
    (memcpy dest src n t).1 = dest ∧ Copied (range src n) t (memcpy dest src n t).2 dest src n := by
  unfold memcpy
  by_cases h0 : n = 0
  · rw [if_pos (Or.inr (Or.inr h0)), h0]
    exact ⟨rfl, copied_zero _ t dest src⟩
  rw [if_neg (by omega)]
  have hud : u32 dest = dest := u32_of_lt (by omega)
  have hus : u32 src = src := u32_of_lt (by omega)
  split_ifs with ha
  · simp only [aligned4, Bool.and_eq_true, decide_eq_true_eq] at ha
    obtain ⟨t1, heq, hwords⟩ := copyWords_copied (R := range src n) (n/4) dest src t (by omega)
      (by omega) ha.1 ha.2 (by omega) fun k hk => by rw [mem_range] at hk ⊢; omega
    rw [hud, hus] at heq
    rw [heq]
    have hbytes := copyBytes_copied (R := range src n) (n%4) (dest+4*(n/4)) (src+4*(n/4)) t1
      (by omega) (by omega) (by omega) fun k hk => by rw [mem_range] at hk ⊢; omega
    have hall := copied_trans hwords hbytes (by omega)
    rw [Nat.div_add_mod] at hall
    exact ⟨rfl, hall⟩
  · have hbytes := copyBytes_copied n dest src t hd hs ho fun _ hk => hk
    rw [hud, hus] at hbytes
    exact ⟨rfl, hbytes⟩

theorem memmove_copied (dest src n : ℕ) (t : Traced) (hdest : dest ≠ 0) (hsrc : src ≠ 0)
    (hd : dest+n ≤ 4294967296) (hs : src+n ≤ 4294967296) :
    (memmove dest src n t).1 = dest ∧
      Copied (range src n) t (memmove dest src n t).2 dest src n := by
  unfold memmove
  by_cases h0 : n = 0
  · rw [if_pos (by omega), h0]
    exact ⟨rfl, copied_zero _ t dest src⟩
  by_cases heq : dest = src
  · rw [if_pos (by omega), heq]
    refine ⟨rfl, ?_, Within.refl _ _ t⟩
    funext j
    unfold place
    split_ifs
    · exact congrArg t.mem (by omega)
    · rfl
  rw [if_neg (by omega)]
  by_cases hlt : dest < src
  · rw [if_pos hlt]
    exact memcpy_copied dest src n t hdest hsrc hd hs (by omega)
  · rw [if_neg hlt]
    have hc := copyBack_copied n dest src t hd hs (by omega) fun _ hk => hk
    exact ⟨rfl, hc⟩

end Copying

section Filling

theorem filled_zero (t : Traced) (p : ℕ) (v : UInt8) : Filled t t p 0 v :=
  ⟨(place_zero _ _ _).symm, Within.refl _ _ t⟩

theorem filled_trans (h : Filled t t' p n v) (h' : Filled t' t'' (p+n) k v) :
    Filled t t'' p (n+k) v := by
  constructor
  · rw [h'.mem, h.mem]
    exact place_place t.mem p n k fun _ => v
  · refine (h.within.mono (fun _ => id) ?_).trans (h'.within.mono (fun _ => id) ?_)
    all_goals
      intro j hj
      rw [mem_range] at hj ⊢
      omega

theorem filled_byte (t : Traced) (p : ℕ) (v : UInt8) : Filled t (t.store8 p v) p 1 v :=
  ⟨(place_one t.mem p fun _ => v).symm, within_store8 t _ v ⟨by omega, by omega⟩⟩

theorem byte_fourTimes (v : UInt8) {i : ℕ} (hi : i < 4) :
    UInt8.ofNat (fourTimes v/256^i) = v := by
  have hall : ∀ b < 256, ∀ i < 4,
      (b ||| b <<< 8 ||| b <<< 16 ||| b <<< 24)/256^i%256 = b := by decide +kernel
  apply UInt8.toNat_inj.mp
  rw [UInt8.toNat_ofNat']
  exact hall v.toNat v.toNat_lt i hi

theorem filled_word (t : Traced) (p : ℕ) (v : UInt8) :
    Filled t (t.store32 p (fourTimes v)) p 4 v := by
  constructor
  · exact (write32_eq t.mem p _).trans (place_congr t.mem p 4 fun i hi => byte_fourTimes v hi)
  · exact within_store32 t _ _ fun _ hk => hk

theorem setBytes_filled (v : UInt8) (n p : ℕ) (t : Traced) (hp : p+n ≤ 4294967296) :
    Filled t (setBytes v n (u32 p) t) p n v := by
  induction n generalizing p t with
  | zero => exact filled_zero t p v
  | succ n ih =>
    rw [setBytes, u32_succ, u32_of_lt (show p < _ by omega), Nat.add_comm n 1]
    exact filled_trans (filled_byte t p v) (ih (p+1) (t.store8 p v) (by omega))

theorem setWords_filled (v : UInt8) (n p : ℕ) (t : Traced) (hp : p+4*n ≤ 4294967296) :
    ∃ t', setWords (fourTimes v) n (u32 p) t = (u32 (p+4*n), t') ∧ Filled t t' p (4*n) v := by
  induction n generalizing p t with
  | zero => exact ⟨t, rfl, filled_zero t p v⟩
  | succ n ih =>
    by_cases hlt : p < 4294967296
    · obtain ⟨t', heq, hrest⟩ := ih (p+4) (t.store32 p (fourTimes v)) (by omega)
      refine ⟨t', ?_, ?_⟩
      · rw [setWords, u32_succ, u32_of_lt hlt, show p+4*(n+1) = p+4+4*n by omega]
        exact heq
      · rw [show 4*(n+1) = 4+4*n by omega]
        exact filled_trans (filled_word t p v) hrest
    · omega

theorem setHead_filled (v : UInt8) (n p : ℕ) (t : Traced) (hp : p+n ≤ 4294967296) :
    ∃ k t', k ≤ n ∧ setHead v n (u32 p) t = (u32 (p+k), n-k, t') ∧ Filled t t' p k v := by
  induction n generalizing p t with
  | zero => exact ⟨0, t, le_rfl, rfl, filled_zero t p v⟩
  | succ n ih =>
    rw [setHead]
    by_cases ha : aligned4 (u32 p) = true
    · exact ⟨0, t, Nat.zero_le _, by rw [if_pos ha]; rfl, filled_zero t p v⟩
    · obtain ⟨k, t', hk, heq, hrest⟩ := ih (p+1) (t.store8 p v) (by omega)
      refine ⟨1+k, t', by omega, ?_, filled_trans (filled_byte t p v) hrest⟩
      rw [if_neg ha, u32_succ, u32_of_lt (show p < _ by omega), heq, Nat.add_assoc p 1 k,
        show n+1-(1+k) = n-k by omega]

theorem memset_filled (s : ℕ) (c : ℤ) (n : ℕ) (t : Traced) (hs : s ≠ 0)
    (hn : s+n ≤ 4294967296) :
    (memset s c n t).1 = s ∧ Filled t (memset s c n t).2 s n (UInt8.ofInt c) := by
  unfold memset
  by_cases h0 : n = 0
  · rw [if_pos (Or.inr h0), h0]
    exact ⟨rfl, filled_zero t s _⟩
  rw [if_neg (by omega)]
  generalize UInt8.ofInt c = v
  obtain ⟨k, t1, hk, heq, hhead⟩ := setHead_filled v n s t hn
  rw [u32_of_lt (show s < _ by omega)] at heq
  dsimp only
  rw [heq]
  dsimp only
  split_ifs with h4
  · obtain ⟨t2, heq2, hwords⟩ := setWords_filled v ((n-k)/4) (s+k) t1 (by omega)
    rw [heq2]
    have hbytes := setBytes_filled v ((n-k)%4) (s+k+4*((n-k)/4)) t2 (by omega)
    have hall := filled_trans hhead (filled_trans hwords hbytes)
    rw [Nat.div_add_mod, Nat.add_sub_cancel' hk] at hall
    exact ⟨rfl, hall⟩
  · have hbytes := setBytes_filled v (n-k) (s+k) t1 (by omega)
    have hall := filled_trans hhead hbytes
    rw [Nat.add_sub_cancel' hk] at hall
    exact ⟨rfl, hall⟩

end Filling

theorem leaves_of {R : Set ℕ} {f : ℕ → UInt8} (hmem : t'.mem = place t.mem p n f)
    (h : Within R (range p n) t t') : Leaves t t' p n := by
  intro k hk
  refine ⟨by rw [hmem, place_ne _ _ (by omega)], fun hw => ?_⟩
  exact (h.writes k hw).resolve_right hk

/-- The three functions do what their bytewise definitions do. -/
theorem blocks_bytewise (t : Traced) :
    (∀ dest src n, dest ≠ 0 → src ≠ 0 → dest+n ≤ 4294967296 → src+n ≤ 4294967296 →
      (memmove dest src n t).1 = dest ∧
      (∀ i < n, (memmove dest src n t).2.mem (dest+i) = t.mem (src+i)) ∧
      Leaves t (memmove dest src n t).2 dest n) ∧
    (∀ dest src n, dest ≠ 0 → src ≠ 0 → dest+n ≤ 4294967296 → src+n ≤ 4294967296 →
      (dest+n ≤ src ∨ src+n ≤ dest ∨ dest < src) →
      (memcpy dest src n t).1 = dest ∧
      (∀ i < n, (memcpy dest src n t).2.mem (dest+i) = t.mem (src+i)) ∧
      Leaves t (memcpy dest src n t).2 dest n) ∧
    (∀ s c n, s ≠ 0 → s+n ≤ 4294967296 →
      (memset s c n t).1 = s ∧
      (∀ i < n, (memset s c n t).2.mem (s+i) = UInt8.ofInt c) ∧
      Leaves t (memset s c n t).2 s n) := by
  refine ⟨fun dest src n hdest hsrc hd hs => ?_, fun dest src n hdest hsrc hd hs ho => ?_,
    fun s c n hs hn => ?_⟩
  · obtain ⟨hret, hc⟩ := memmove_copied dest src n t hdest hsrc hd hs
    refine ⟨hret, fun i hi => ?_, leaves_of hc.mem hc.within⟩
    rw [hc.mem, place_get _ _ hi]
  · obtain ⟨hret, hc⟩ := memcpy_copied dest src n t hdest hsrc hd hs (by omega)
    refine ⟨hret, fun i hi => ?_, leaves_of hc.mem hc.within⟩
    rw [hc.mem, place_get _ _ hi]
  · obtain ⟨hret, hf⟩ := memset_filled s c n t hs hn
    refine ⟨hret, fun i hi => ?_, leaves_of hf.mem hf.within⟩
    rw [hf.mem, place_get _ _ hi]

/-- Every byte holds its address. -/
def numbered : Traced := ⟨fun k => UInt8.ofNat k, [], []⟩

/-- Ranges that overlap by three bytes, the destination above and below the source, and a fill
that starts and ends inside of words. -/
theorem blocks_bytewise_numbered :
    (∀ i < 6, (memmove 8 5 6 numbered).2.mem (8+i) = UInt8.ofNat (5+i)) ∧
    (∀ i < 6, (memcpy 5 8 6 numbered).2.mem (5+i) = UInt8.ofNat (8+i)) ∧
    (∀ i < 9, (memset 7 300 9 numbered).2.mem (7+i) = 44) := by
  obtain ⟨hmove, hcopy, hset⟩ := blocks_bytewise numbered
  have h1 := hmove 8 5 6 (by decide) (by decide) (by decide) (by decide)
  have h2 := hcopy 5 8 6 (by decide) (by decide) (by decide) (by decide) (by decide)
  have h3 := hset 7 300 9 (by decide) (by decide)
  exact ⟨h1.2.1, h2.2.1, h3.2.1⟩

end Vlsmc.MemoryBlocks
