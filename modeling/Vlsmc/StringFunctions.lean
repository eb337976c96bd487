import Vlsmc.TracedMemory
import Vlsmc.Words

/-!
# The string functions of the C library

`memcpy`, `memset`, `memcmp`, `strlen`, `strcpy` and `strcmp` work on whole words where their
pointers allow it, and on bytes before and after that. `memmove`, `strlcpy` and `strlcat` are
built from them.
-/

set_option autoImplicit false

namespace Vlsmc.StringFunctions
open Vlsmc.ByteMemory Vlsmc.Words Vlsmc.TracedMemory

/-- `ALIGN_4`. -/
def aligned4 (p : ℕ) : Bool := p%4 = 0

/-- `HAS_ZERO_BYTE`. -/
def hasZeroByte (v : ℕ) : Bool :=
  (BitVec.ofNat 32 v-0x01010101#32) &&& ~~~(BitVec.ofNat 32 v) &&& 0x80808080#32 ≠ 0#32

/-- The loop of `memcpy` over words; `d32` and `s32` at its end, and the memory. -/
def copyWords : ℕ → ℕ → ℕ → Traced → ℕ × ℕ × Traced
  | 0, d32, s32, t => (d32, s32, t)
  | n32+1, d32, s32, t =>
    let (v, t) := t.load32 s32
    copyWords n32 (u32 (d32+4)) (u32 (s32+4)) (t.store32 d32 v)

def copyBytes : ℕ → ℕ → ℕ → Traced → Traced
  | 0, _, _, t => t
  | n+1, d8, s8, t =>
    let (c, t) := t.load8 s8
    copyBytes n (u32 (d8+1)) (u32 (s8+1)) (t.store8 d8 c)

def memcpy (dest src n : ℕ) (t : Traced) : ℕ × Traced :=
  if dest = 0 ∨ src = 0 ∨ n = 0 then (dest, t)
  else if aligned4 dest && aligned4 src then
    let (d8, s8, t) := copyWords (n/4) dest src t
    (dest, copyBytes (n%4) d8 s8 t)
  else (dest, copyBytes n dest src t)

/-- The loop of `memmove` from the end of the ranges. -/
def copyBack : ℕ → ℕ → ℕ → Traced → Traced
  | 0, _, _, t => t
  | n+1, d, s, t =>
    let (c, t) := t.load8 (sub32 s 1)
    copyBack n (sub32 d 1) (sub32 s 1) (t.store8 (sub32 d 1) c)

def memmove (dest src n : ℕ) (t : Traced) : ℕ × Traced :=
  if dest = 0 ∨ src = 0 ∨ n = 0 ∨ dest = src then (dest, t)
  else if dest < src then memcpy dest src n t
  else (dest, copyBack n (u32 (dest+n)) (u32 (src+n)) t)

/-- The bytes of `memset` up to an address that is divisible by four: the pointer, the count
and the memory behind them. -/
def setHead (val8 : UInt8) : ℕ → ℕ → Traced → ℕ × ℕ × Traced
  | 0, p, t => (p, 0, t)
  | n+1, p, t =>
    if aligned4 p then (p, n+1, t) else setHead val8 n (u32 (p+1)) (t.store8 p val8)

def setWords (val32 : ℕ) : ℕ → ℕ → Traced → ℕ × Traced
  | 0, p32, t => (p32, t)
  | n32+1, p32, t => setWords val32 n32 (u32 (p32+4)) (t.store32 p32 val32)

def setBytes (val8 : UInt8) : ℕ → ℕ → Traced → Traced
  | 0, _, t => t
  | n+1, p, t => setBytes val8 n (u32 (p+1)) (t.store8 p val8)

/-- `val32`. -/
def fourTimes (val8 : UInt8) : ℕ :=
  val8.toNat ||| val8.toNat <<< 8 ||| val8.toNat <<< 16 ||| val8.toNat <<< 24

def memset (s : ℕ) (c : ℤ) (n : ℕ) (t : Traced) : ℕ × Traced :=
  if s = 0 ∨ n = 0 then (s, t)
  else
    let val8 := UInt8.ofInt c
    let (p, n, t) := setHead val8 n s t
    if 4 ≤ n then
      let (p, t) := setWords (fourTimes val8) (n/4) p t
      (s, setBytes val8 (n%4) p t)
    else (s, setBytes val8 n p t)

/-- The loop of `memcmp` over words that are equal. -/
def equalWords : ℕ → ℕ → ℕ → Traced → ℕ × ℕ × Traced
  | 0, p1, p2, t => (p1, p2, t)
  | n32+1, p1, p2, t =>
    let (v1, t) := t.load32 p1
    let (v2, t) := t.load32 p2
    if v1 ≠ v2 then (p1, p2, t) else equalWords n32 (u32 (p1+4)) (u32 (p2+4)) t

def compareBytes : ℕ → ℕ → ℕ → Traced → ℤ × Traced
  | 0, _, _, t => (0, t)
  | n+1, p1, p2, t =>
    let (c1, t) := t.load8 p1
    let (c2, t) := t.load8 p2
    if c1 ≠ c2 then ((c1.toNat:ℤ)-c2.toNat, t) else compareBytes n (u32 (p1+1)) (u32 (p2+1)) t

def memcmp (s1 s2 n : ℕ) (t : Traced) : ℤ × Traced :=
  if n = 0 then (0, t)
  else if aligned4 s1 && aligned4 s2 then
    let (p1, p2, t) := equalWords (n/4) s1 s2 t
    compareBytes (sub32 n (sub32 p1 s1)) p1 p2 t
  else compareBytes n s1 s2 t

/-- The bytes of `strlen` up to an address that is divisible by four: the length, or that
address. -/
def lengthHead (s : ℕ) : ℕ → ℕ → Traced → Option ((ℕ ⊕ ℕ) × Traced)
  | 0, _, _ => none
  | fuel+1, p, t =>
    if aligned4 p then some (.inr p, t)
    else
      let (c, t) := t.load8 p
      if c = 0 then some (.inl (sub32 p s), t) else lengthHead s fuel (u32 (p+1)) t

/-- The place of the first byte of a word that is zero. -/
def zeroIn (p : ℕ) (t : Traced) : Option ℕ × Traced :=
  let (c0, t) := t.load8 p
  if c0 = 0 then (some p, t)
  else
    let (c1, t) := t.load8 (u32 (p+1))
    if c1 = 0 then (some (u32 (p+1)), t)
    else
      let (c2, t) := t.load8 (u32 (p+2))
      if c2 = 0 then (some (u32 (p+2)), t)
      else
        let (c3, t) := t.load8 (u32 (p+3))
        if c3 = 0 then (some (u32 (p+3)), t) else (none, t)

def lengthWords (s : ℕ) : ℕ → ℕ → Traced → Option (ℕ × Traced)
  | 0, _, _ => none
  | fuel+1, p32, t =>
    let (v, t) := t.load32 p32
    if hasZeroByte v then
      match zeroIn p32 t with
      | (some cp, t) => some (sub32 cp s, t)
      | (none, t) => lengthWords s fuel (u32 (p32+4)) t
    else lengthWords s fuel (u32 (p32+4)) t

/-- `none` while `fuel` rounds do not reach the end of the string. -/
def strlen (fuel s : ℕ) (t : Traced) : Option (ℕ × Traced) :=
  if s = 0 then some (0, t)
  else
    match lengthHead s fuel s t with
    | none => none
    | some (.inl len, t) => some (len, t)
    | some (.inr p, t) => lengthWords s fuel p t

def stringWords : ℕ → ℕ → ℕ → Traced → Option (ℕ × ℕ × Traced)
  | 0, _, _, _ => none
  | fuel+1, d32, s32, t =>
    let (v, t) := t.load32 s32
    if hasZeroByte v then some (d32, s32, t)
    else stringWords fuel (u32 (d32+4)) (u32 (s32+4)) (t.store32 d32 v)

def stringBytes : ℕ → ℕ → ℕ → Traced → Option Traced
  | 0, _, _, _ => none
  | fuel+1, d, s, t =>
    let (c, t) := t.load8 s
    let t := t.store8 d c
    if c = 0 then some t else stringBytes fuel (u32 (d+1)) (u32 (s+1)) t

def strcpy (fuel dest src : ℕ) (t : Traced) : Option (ℕ × Traced) :=
  if dest = 0 ∨ src = 0 then some (dest, t)
  else if aligned4 dest && aligned4 src then do
    let (d, s, t) ← stringWords fuel dest src t
    let t ← stringBytes fuel d s t
    some (dest, t)
  else do
    let t ← stringBytes fuel dest src t
    some (dest, t)

def strlcpy (fuel dest src size : ℕ) (t : Traced) : Option (ℕ × Traced) :=
  if dest = 0 ∨ src = 0 ∨ size = 0 then some (0, t)
  else do
    let (srcLen, t) ← strlen fuel src t
    let toCopy := if srcLen < size-1 then srcLen else size-1
    let (_, t) := memcpy dest src toCopy t
    some (srcLen, t.store8 (u32 (dest+toCopy)) 0)

def strlcat (fuel dest src size : ℕ) (t : Traced) : Option (ℕ × Traced) :=
  if dest = 0 ∨ src = 0 ∨ size = 0 then some (0, t)
  else do
    let (destLen, t) ← strlen fuel dest t
    let (srcLen, t) ← strlen fuel src t
    if size ≤ destLen then some (u32 (size+srcLen), t)
    else
      let rest := size-destLen-1
      let toCopy := if srcLen < rest then srcLen else rest
      let (_, t) := memcpy (u32 (dest+destLen)) src toCopy t
      some (u32 (destLen+srcLen), t.store8 (u32 (dest+destLen+toCopy)) 0)

/-- The words of `strcmp` that are equal and without a zero byte. -/
def sameWords : ℕ → ℕ → ℕ → Traced → Option (ℕ × ℕ × Traced)
  | 0, _, _, _ => none
  | fuel+1, s1, s2, t =>
    let (v1, t) := t.load32 s1
    let (v2, t) := t.load32 s2
    if v1 ≠ v2 ∨ hasZeroByte v1 then some (s1, s2, t)
    else sameWords fuel (u32 (s1+4)) (u32 (s2+4)) t

def sameBytes : ℕ → ℕ → ℕ → Traced → Option (ℤ × Traced)
  | 0, _, _, _ => none
  | fuel+1, s1, s2, t =>
    let (c1, t) := t.load8 s1
    let (c2, t) := t.load8 s2
    if c1 ≠ 0 ∧ c1 = c2 then sameBytes fuel (u32 (s1+1)) (u32 (s2+1)) t
    else some ((c1.toNat:ℤ)-c2.toNat, t)

def strcmp (fuel s1 s2 : ℕ) (t : Traced) : Option (ℤ × Traced) :=
  if s1 = 0 ∨ s2 = 0 then some (0, t)
  else if aligned4 s1 && aligned4 s2 then do
    let (s1, s2, t) ← sameWords fuel s1 s2 t
    sameBytes fuel s1 s2 t
  else sameBytes fuel s1 s2 t

end Vlsmc.StringFunctions
