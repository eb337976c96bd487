import Mathlib.Tactic.Ring

/-!
# Memory in bytes

Bytes at addresses, and 32-bit words stored in them with the least significant
byte first.
-/

set_option autoImplicit false

namespace Vlsmc.ByteMemory

abbrev Memory := ℕ → UInt8

def read32 (m : Memory) (a : ℕ) : ℕ :=
  (m a).toNat+256*(m (a+1)).toNat+65536*(m (a+2)).toNat+16777216*(m (a+3)).toNat

def read16 (m : Memory) (a : ℕ) : ℕ := (m a).toNat+256*(m (a+1)).toNat

def write8 (m : Memory) (a : ℕ) (v : UInt8) : Memory := fun k => if k = a then v else m k

def write16 (m : Memory) (a v : ℕ) : Memory := fun k =>
  if k = a then UInt8.ofNat v else if k = a+1 then UInt8.ofNat (v/256) else m k

def write32 (m : Memory) (a v : ℕ) : Memory := fun k =>
  if k = a then UInt8.ofNat v
  else if k = a+1 then UInt8.ofNat (v/256)
  else if k = a+2 then UInt8.ofNat (v/65536)
  else if k = a+3 then UInt8.ofNat (v/16777216)
  else m k

variable {m m' : Memory} {a b v : ℕ}

theorem read32_lt (m : Memory) (a : ℕ) : read32 m a < 4294967296 := by
  have h0 := (m a).toNat_lt
  have h1 := (m (a+1)).toNat_lt
  have h2 := (m (a+2)).toNat_lt
  have h3 := (m (a+3)).toNat_lt
  unfold read32
  omega

theorem read32_congr (h : ∀ k, a ≤ k → k < a+4 → m' k = m k) : read32 m' a = read32 m a := by
  unfold read32
  rw [h a (by omega) (by omega), h (a+1) (by omega) (by omega), h (a+2) (by omega) (by omega),
    h (a+3) (by omega) (by omega)]

theorem write8_same (m : Memory) (a : ℕ) (v : UInt8) : write8 m a v a = v := if_pos rfl

theorem write8_ne {k : ℕ} (m : Memory) (v : UInt8) (h : k ≠ a) : write8 m a v k = m k := if_neg h

theorem write16_ne {k : ℕ} (m : Memory) (v : ℕ) (h : k < a ∨ a+2 ≤ k) : write16 m a v k = m k := by
  unfold write16
  rw [if_neg (by omega), if_neg (by omega)]

theorem read16_write16 (m : Memory) (a : ℕ) (h : v < 65536) : read16 (write16 m a v) a = v := by
  unfold read16 write16
  rw [if_pos rfl, if_neg (by omega), if_pos rfl, UInt8.toNat_ofNat', UInt8.toNat_ofNat']
  omega

theorem read16_write16_ne (m : Memory) (v : ℕ) (h : a+2 ≤ b ∨ b+2 ≤ a) :
    read16 (write16 m a v) b = read16 m b := by
  unfold read16
  rw [write16_ne m v (by omega), write16_ne m v (by omega)]

theorem write32_ne {k : ℕ} (m : Memory) (v : ℕ) (h : k < a ∨ a+4 ≤ k) :
    write32 m a v k = m k := by
  unfold write32
  rw [if_neg (by omega), if_neg (by omega), if_neg (by omega), if_neg (by omega)]

theorem read32_write32 (m : Memory) (a : ℕ) (h : v < 4294967296) :
    read32 (write32 m a v) a = v := by
  unfold read32 write32
  simp only [if_true, Nat.add_right_inj, Nat.add_eq_left, Nat.reduceEqDiff, if_false, one_ne_zero,
    OfNat.ofNat_ne_zero, UInt8.toNat_ofNat']
  omega

theorem read32_write32_ne (m : Memory) (v : ℕ) (h : a+4 ≤ b ∨ b+4 ≤ a) :
    read32 (write32 m a v) b = read32 m b := by
  apply read32_congr
  intro k _ _
  exact write32_ne m v (by omega)

theorem read32_write8_ne (m : Memory) (v : UInt8) (h : a < b ∨ b+4 ≤ a) :
    read32 (write8 m a v) b = read32 m b := by
  apply read32_congr
  intro k _ _
  exact write8_ne m v (by omega)

/-- `n` bytes from `src` on, one after the other. -/
def copy (m : Memory) (dst src n : ℕ) : Memory :=
  (List.range n).foldl (fun m i => write8 m (dst+i) (m (src+i))) m

def zero (m : Memory) (dst n : ℕ) : Memory :=
  (List.range n).foldl (fun m i => write8 m (dst+i) 0) m

theorem copy_succ (m : Memory) (dst src n : ℕ) :
    copy m dst src (n+1) = write8 (copy m dst src n) (dst+n) (copy m dst src n (src+n)) := by
  unfold copy
  rw [List.range_succ, List.foldl_append]
  rfl

theorem zero_succ (m : Memory) (dst n : ℕ) :
    zero m dst (n+1) = write8 (zero m dst n) (dst+n) 0 := by
  unfold zero
  rw [List.range_succ, List.foldl_append]
  rfl

theorem copy_ne (m : Memory) (dst src n : ℕ) {k : ℕ} (h : k < dst ∨ dst+n ≤ k) :
    copy m dst src n k = m k := by
  induction n with
  | zero => rfl
  | succ n ih => rw [copy_succ, write8_ne _ _ (by omega), ih (by omega)]

/-- Between separate regions a copy copies. -/
theorem copy_get (m : Memory) (dst src n : ℕ) (h : src+n ≤ dst ∨ dst+n ≤ src) {i : ℕ}
    (hi : i < n) : copy m dst src n (dst+i) = m (src+i) := by
  induction n with
  | zero => omega
  | succ n ih =>
    rw [copy_succ]
    by_cases hn : i = n
    · rw [hn, write8_same, copy_ne _ _ _ _ (by omega)]
    · rw [write8_ne _ _ (by omega), ih (by omega) (by omega)]

/-- Copying down the destination may overlap the source. -/
theorem copy_down (m : Memory) (dst src n : ℕ) (h : dst ≤ src) {i : ℕ} (hi : i < n) :
    copy m dst src n (dst+i) = m (src+i) := by
  have hrest : ∀ n k, dst+n ≤ k → copy m dst src n k = m k :=
    fun n k hk => copy_ne m dst src n (Or.inr hk)
  induction n with
  | zero => omega
  | succ n ih =>
    rw [copy_succ]
    by_cases hn : i = n
    · rw [hn, write8_same, hrest n _ (by omega)]
    · rw [write8_ne _ _ (by omega), ih (by omega)]

theorem zero_ne (m : Memory) (dst n : ℕ) {k : ℕ} (h : k < dst ∨ dst+n ≤ k) :
    zero m dst n k = m k := by
  induction n with
  | zero => rfl
  | succ n ih => rw [zero_succ, write8_ne _ _ (by omega), ih (by omega)]

theorem zero_get (m : Memory) (dst n : ℕ) {i : ℕ} (hi : i < n) : zero m dst n (dst+i) = 0 := by
  induction n with
  | zero => omega
  | succ n ih =>
    rw [zero_succ]
    by_cases hn : i = n
    · rw [hn, write8_same]
    · rw [write8_ne _ _ (by omega), ih (by omega)]

/-- The bytes `f 0`, `f 1` and so on, `n` of them, from `a` on. -/
def place (m : Memory) (a n : ℕ) (f : ℕ → UInt8) : Memory := fun k =>
  if a ≤ k ∧ k < a+n then f (k-a) else m k

theorem place_ne (m : Memory) (f : ℕ → UInt8) {n k : ℕ} (h : k < a ∨ a+n ≤ k) :
    place m a n f k = m k := if_neg (by omega)

theorem place_get (m : Memory) (f : ℕ → UInt8) {n i : ℕ} (h : i < n) :
    place m a n f (a+i) = f i := by
  unfold place
  rw [if_pos (by omega), show a+i-a = i by omega]

theorem place_zero (m : Memory) (a : ℕ) (f : ℕ → UInt8) : place m a 0 f = m := by
  funext k
  exact place_ne m f (by omega)

theorem place_one (m : Memory) (a : ℕ) (f : ℕ → UInt8) :
    place m a 1 f = write8 m a (f 0) := by
  funext k
  unfold place write8
  by_cases h : k = a
  · rw [if_pos (by omega), if_pos h, h, Nat.sub_self]
  · rw [if_neg (by omega), if_neg h]

/-- The `n` bytes from `a` on. -/
def bytes (m : Memory) (a n : ℕ) : List UInt8 := (List.range n).map fun i => m (a+i)

@[simp] theorem bytes_length (m : Memory) (a n : ℕ) : (bytes m a n).length = n := by
  simp [bytes]

@[simp] theorem bytes_zero (m : Memory) (a : ℕ) : bytes m a 0 = [] := rfl

theorem bytes_add (m : Memory) (a n k : ℕ) :
    bytes m a (n+k) = bytes m a n ++ bytes m (a+n) k := by
  unfold bytes
  rw [List.range_add, List.map_append, List.map_map]
  congr 1
  apply List.map_congr_left
  intro i _
  exact congrArg m (Nat.add_assoc a n i).symm

theorem bytes_congr {n : ℕ} (h : ∀ i < n, m' (b+i) = m (a+i)) : bytes m' b n = bytes m a n :=
  List.map_congr_left fun i hi => h i (List.mem_range.mp hi)

/-- A word is made of the bytes it was read from. -/
theorem write32_read32 (m : Memory) (a : ℕ) : write32 m a (read32 m a) = m := by
  have h0 := (m a).toNat_lt
  have h1 := (m (a+1)).toNat_lt
  have h2 := (m (a+2)).toNat_lt
  have h3 := (m (a+3)).toNat_lt
  have key : ∀ (b : UInt8) (v : ℕ), v%256 = b.toNat → UInt8.ofNat v = b := by
    intro b v h
    apply UInt8.toNat_inj.mp
    rw [UInt8.toNat_ofNat']
    exact h
  funext k
  unfold write32 read32
  split
  · subst k
    exact key _ _ (by omega)
  split
  · subst k
    exact key _ _ (by omega)
  split
  · subst k
    exact key _ _ (by omega)
  split
  · subst k
    exact key _ _ (by omega)
  · rfl

end Vlsmc.ByteMemory
