import Vlsmc.ByteMemory
import Vlsmc.NumberPrinting

/-!
# The two `printf`

Both read a directive in the same way: a minus sign, a zero, the width and the conversion. The C
library notes that a percent sign was read and goes on with the next round of its loop; the kernel
reads the directive in the same round.
-/

set_option autoImplicit false

namespace Vlsmc.FormatPrinting
open Vlsmc.ByteMemory Vlsmc.Numerals Vlsmc.NumberPrinting Vlsmc.Words

/-- What the compiler provides for `double`. -/
structure Doubles (D : Type) where
  isNegative : D → Bool
  neg : D → D
  /-- `(unsigned int)val`. -/
  toUInt : D → UInt32
  /-- `val - (double)int_part`. -/
  subUInt : D → UInt32 → D
  timesTen : D → D
  /-- `(int)frac`. -/
  toInt : D → ℤ
  subInt : D → ℤ → D

/-- An argument behind the format: a word for a number or a pointer, or a `double`. -/
inductive Arg (D : Type)
  | word (w : UInt32)
  | double (d : D)

/-- The pointer into the format, where it was read, the arguments left, the characters that were
put and how many the C library has counted. -/
structure Printing (D : Type) where
  format : ℕ
  reads : List ℕ
  args : List (Arg D)
  out : List UInt8
  count : ℤ

/-- A minus sign, the character for padding and the width. -/
structure Spec where
  leftJustify : Bool
  padChar : UInt8
  width : ℤ

/-- The return of a run, or where it is when the rounds are used up or an argument is missing. -/
inductive Outcome (D : Type)
  | ended (s : Printing D)
  | stopped (s : Printing D)

def isDigit (c : UInt8) : Bool := 48 ≤ c.toNat && c.toNat ≤ 57

variable {D : Type}

namespace Printing

/-- `*format`. -/
def peek (m : Memory) (s : Printing D) : UInt8 × Printing D :=
  (m s.format, { s with reads := s.format::s.reads })

/-- `format++`. -/
def advance (s : Printing D) : Printing D := { s with format := u32 (s.format+1) }

/-- A character is stepped over if it is the one that may stand there. -/
def skip (m : Memory) (s : Printing D) (expected : UInt8) : Bool × Printing D :=
  let (c, s) := s.peek m
  if c = expected then (true, s.advance) else (false, s)

/-- Characters are put, and so many are counted. -/
def put (s : Printing D) (cs : List UInt8) (n : ℤ) : Printing D :=
  { s with out := s.out++cs, count := i32 (s.count+n) }

end Printing

section Arguments

/-- `va_arg` of a number or a pointer. -/
def vaWord : List (Arg D) → Option (ℕ × List (Arg D))
  | .word w::args => some (w.toNat, args)
  | _ => none

def vaDouble : List (Arg D) → Option (D × List (Arg D))
  | .double d::args => some (d, args)
  | _ => none

/-- The characters up to the zero. -/
def chars (m : Memory) : ℕ → ℕ → Option (List UInt8)
  | 0, _ => none
  | rounds+1, p => if m p = 0 then some [] else (chars m rounds (u32 (p+1))).map (m p::·)

/-- The null pointer is printed as a text of its own. -/
def textAt (m : Memory) (rounds p : ℕ) : Option (List UInt8) :=
  if p = 0 then some [40, 110, 117, 108, 108, 41] else chars m rounds p

def paddedText (m : Memory) (rounds p : ℕ) (spec : Spec) : Option (List UInt8) :=
  (textAt m rounds p).map fun str =>
    let padLen := i32 (spec.width-str.length)
    let padding := List.replicate (if padLen < 0 then 0 else padLen).toNat 32
    if spec.leftJustify then str++padding else padding++str

end Arguments

section Directives

def widthLoop (m : Memory) : ℕ → ℤ → Printing D → Option (ℤ × Printing D)
  | 0, _, _ => none
  | rounds+1, width, s =>
    let (c, s) := s.peek m
    if isDigit c then widthLoop m rounds (i32 (i32 (width*10)+(c.toNat-48))) s.advance
    else some (width, s)

/-- The part of a directive before its conversion. -/
def parse (m : Memory) (rounds : ℕ) (s : Printing D) : Option (Spec × Printing D) :=
  let (leftJustify, s) := s.skip m 45
  let (zero, s) := s.skip m 48
  (widthLoop m rounds 0 s).map fun (width, s) =>
    (⟨leftJustify, if zero then 48 else 32, width⟩, s)

end Directives

namespace Libc
open NumberPrinting.Libc

def printPtr (val : ℕ) : List UInt8 :=
  if val = 0 then [48, 120, 48]
  else
    let buf := (List.range 8).map fun i => digitChar 97 (val/16^(7-i)%16)
    [48, 120]++(buf.take 7).dropWhile (· = 48)++buf.drop 7

def fraction (ops : Doubles D) : ℕ → D → List UInt8
  | 0, _ => []
  | n+1, frac =>
    let frac := ops.timesTen frac
    let digit := ops.toInt frac
    UInt8.ofInt (48+digit)::fraction ops n (ops.subInt frac digit)

def printFloat (ops : Doubles D) (val : D) (precision : ℤ) : Option (List UInt8) :=
  let precision := if precision ≤ 0 then 6 else precision
  let (sign, val) := if ops.isNegative val then ([45], ops.neg val) else ([], val)
  let intPart := ops.toUInt val
  (if intPart = 0 then some [48] else digitLoop 97 10 11 intPart.toNat).map fun buf =>
    sign++buf.reverse++[46]++fraction ops precision.toNat (ops.subUInt val intPart)

/-- The `switch` of the C library: what is put, the arguments left and what is counted. -/
def conversion (ops : Doubles D) (m : Memory) (rounds : ℕ) (spec : Spec) (c : UInt8)
    (args : List (Arg D)) : Option (List UInt8 × List (Arg D) × ℤ) :=
  if c = 115 then do
    let (p, args) ← vaWord args
    let out ← paddedText m rounds p spec
    some (out, args, out.length)
  else if c = 100 ∨ c = 105 then do
    let (w, args) ← vaWord args
    let out ← printInt (toInt32 w) spec.width spec.padChar spec.leftJustify
    some (out, args, 0)
  else if c = 117 then do
    let (w, args) ← vaWord args
    let out ← printUintCore w 10 false false false spec.width spec.padChar spec.leftJustify
    some (out, args, 0)
  else if c = 99 then do
    let (w, args) ← vaWord args
    some ([UInt8.ofNat w], args, 1)
  else if c = 120 then do
    let (w, args) ← vaWord args
    let out ← printHex w false spec.width spec.padChar spec.leftJustify
    some (out, args, 0)
  else if c = 88 then do
    let (w, args) ← vaWord args
    let out ← printHex w true spec.width spec.padChar spec.leftJustify
    some (out, args, 0)
  else if c = 112 then do
    let (w, args) ← vaWord args
    some (printPtr w, args, 0)
  else if c = 37 then some ([37], args, 1)
  else if c = 102 then do
    let (d, args) ← vaDouble args
    let out ← printFloat ops d (if 0 < spec.width then spec.width else 6)
    some (out, args, 0)
  else some (37::(if c ≠ 0 then [c] else []), args, 2)

def directive (ops : Doubles D) (m : Memory) (rounds : ℕ) (s : Printing D) :
    Option (Printing D) :=
  (parse m rounds s).bind fun (spec, s) =>
    let (c, s) := s.peek m
    (conversion ops m rounds spec c s.args).map fun (out, args, n) => { s with args }.put out n

def loop (ops : Doubles D) (m : Memory) (rounds : ℕ) : ℕ → Bool → Printing D → Outcome D
  | 0, _, s => .stopped s
  | fuel+1, inFormat, s =>
    let (c, s) := s.peek m
    if c = 0 then .ended s
    else if inFormat then
      match directive ops m rounds s with
      | none => .stopped s
      | some s => loop ops m rounds fuel false s.advance
    else if c = 37 then loop ops m rounds fuel true s.advance
    else loop ops m rounds fuel false (s.put [c] 1).advance

def printf (ops : Doubles D) (m : Memory) (rounds format : ℕ) (args : List (Arg D)) : Outcome D :=
  loop ops m rounds rounds false ⟨format, [], args, [], 0⟩

end Libc

namespace Kernel
open NumberPrinting.Kernel

/-- The `switch` of the kernel. -/
def conversion (m : Memory) (rounds : ℕ) (spec : Spec) (c : UInt8) (args : List (Arg D)) :
    Option (List UInt8 × List (Arg D)) :=
  if c = 100 then do
    let (w, args) ← vaWord args
    let out ← printInt (toInt32 w) spec.width spec.padChar spec.leftJustify
    some (out, args)
  else if c = 120 ∨ c = 88 then do
    let (w, args) ← vaWord args
    let out ← printUint w 16 spec.width spec.padChar spec.leftJustify
    some (out, args)
  else if c = 117 then do
    let (w, args) ← vaWord args
    let out ← printUint w 10 spec.width spec.padChar spec.leftJustify
    some (out, args)
  else if c = 115 then do
    let (p, args) ← vaWord args
    let out ← paddedText m rounds p spec
    some (out, args)
  else if c = 99 then do
    let (w, args) ← vaWord args
    some ([UInt8.ofNat w], args)
  else if c = 37 then some ([37], args)
  else some (37::(if c ≠ 0 then [c] else []), args)

def directive (m : Memory) (rounds : ℕ) (s : Printing D) : Option (Printing D) :=
  (parse m rounds s).bind fun (spec, s) =>
    let (c, s) := s.peek m
    (conversion m rounds spec c s.args).map fun (out, args) => { s with args }.put out 0

def loop (m : Memory) (rounds : ℕ) : ℕ → Printing D → Outcome D
  | 0, s => .stopped s
  | fuel+1, s =>
    let (c, s) := s.peek m
    if c = 0 then .ended s
    else
      match (if c = 37 then directive m rounds s.advance else some (s.put [c] 0)) with
      | none => .stopped s
      | some s =>
        let (c, s) := s.peek m
        loop m rounds fuel (if c ≠ 0 then s.advance else s)

def printf (m : Memory) (rounds format : ℕ) (args : List (Arg D)) : Outcome D :=
  loop m rounds rounds ⟨format, [], args, [], 0⟩

end Kernel

end Vlsmc.FormatPrinting
