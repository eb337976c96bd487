import Mathlib.Data.Nat.Bitwise
import Mathlib.Tactic.Ring

/-!
# 32-bit words

Arithmetic on `uint32_t`, and the words of page directories and page tables: a
frame number in the upper twenty bits and flags in the lower twelve.
-/

set_option autoImplicit false

namespace Vlsmc.Words

/-- Arithmetic on `uint32_t`. -/
def u32 (n : ℕ) : ℕ := n%4294967296

/-- Subtraction on `uint32_t`. -/
def sub32 (a b : ℕ) : ℕ := (((a:ℤ)-b)%4294967296).toNat

/-- A `uint32_t` returned as `int`. -/
def toInt32 (n : ℕ) : ℤ := if n < 2147483648 then n else (n:ℤ)-4294967296

/-- Arithmetic on `int`, with wraparound. -/
def i32 (z : ℤ) : ℤ := (z+2147483648)%4294967296-2147483648

/-- An `int` converted to `uint32_t`. -/
def toUInt32 (z : ℤ) : ℕ := (z%4294967296).toNat

theorem u32_lt (n : ℕ) : u32 n < 4294967296 := Nat.mod_lt _ (by decide)

theorem u32_of_lt {n : ℕ} (h : n < 4294967296) : u32 n = n := Nat.mod_eq_of_lt h

theorem i32_of_range {z : ℤ} (h : -2147483648 ≤ z) (h' : z < 2147483648) : i32 z = z := by
  unfold i32
  omega

theorem sub32_of_le {a b : ℕ} (h : b ≤ a) (ha : a < 4294967296) : sub32 a b = a-b := by
  unfold sub32
  omega

/-- A frame address combined with flags below 4096. -/
def entry (frame flags : ℕ) : ℕ := 4096*frame+flags

/-- `word & 0xFFFFF000`, as a frame number. -/
def frameOf (word : ℕ) : ℕ := word/4096

/-- `PAGE_PRESENT`. -/
def present (word : ℕ) : Bool := word.testBit 0

/-- `PAGE_WRITABLE`. -/
def writable (word : ℕ) : Bool := word.testBit 1

/-- `PAGE_USER`. -/
def user (word : ℕ) : Bool := word.testBit 2

/-- `PAGE_COW`. -/
def cow (word : ℕ) : Bool := word.testBit 9

@[simp] theorem frameOf_entry (f : ℕ) {k : ℕ} (h : k < 4096) : frameOf (entry f k) = f := by
  unfold frameOf entry
  omega

theorem testBit_entry (f : ℕ) {k i : ℕ} (hk : k < 4096) (hi : i < 12) :
    (entry f k).testBit i = k.testBit i := by
  unfold entry
  rw [show 4096 = 2^12 by rfl, Nat.testBit_two_pow_mul_add _ (by simpa using hk), if_pos hi]

@[simp] theorem present_entry (f : ℕ) {k : ℕ} (h : k < 4096) :
    present (entry f k) = present k := testBit_entry f h (by decide)

@[simp] theorem writable_entry (f : ℕ) {k : ℕ} (h : k < 4096) :
    writable (entry f k) = writable k := testBit_entry f h (by decide)

@[simp] theorem user_entry (f : ℕ) {k : ℕ} (h : k < 4096) :
    user (entry f k) = user k := testBit_entry f h (by decide)

@[simp] theorem cow_entry (f : ℕ) {k : ℕ} (h : k < 4096) :
    cow (entry f k) = cow k := testBit_entry f h (by decide)

theorem frameOf_or_four (w : ℕ) : frameOf (w ||| 4) = frameOf w := by
  have h : ∀ n, frameOf n = n >>> 12 := fun n => (Nat.shiftRight_eq_div_pow n 12).symm
  rw [h, h, Nat.shiftRight_or_distrib]
  exact Nat.or_zero _

theorem user_or_four (w : ℕ) : user (w ||| 4) = true := by
  rw [user, Nat.testBit_or]
  exact Bool.or_eq_true_iff.mpr (Or.inr (by decide))

theorem present_or_four (w : ℕ) : present (w ||| 4) = present w := by
  rw [present, Nat.testBit_or]
  exact Bool.or_false _

end Vlsmc.Words
