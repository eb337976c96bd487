import Vlsmc.ByteMemory
import Vlsmc.Words

/-!
# ELF files

The parts of an executable that the kernel's loader and the dynamic linker read:
the fields of the file header, and the program headers. Both loaders find them in
a buffer filled from the start of the file.
-/

set_option autoImplicit false

namespace Vlsmc.Elf
open Vlsmc.ByteMemory Vlsmc.Words

structure File where
  size : ℕ
  byte : ℕ → UInt8
  size_lt : size < 4294967296

theorem page_size_lt : 4096 < 4294967296 := by decide

/-- How many bytes a read at `off` delivers. -/
def File.available (f : File) (off size : ℕ) : ℕ := min size (f.size-off)

/-- A buffer after a read from the start of a file. -/
def headerBuf (f : File) (size : ℕ) (old : Memory) : Memory :=
  place old 0 (f.available 0 size) f.byte

structure Phdr where
  pType : ℕ
  pOffset : ℕ
  pVaddr : ℕ
  pFilesz : ℕ
  pMemsz : ℕ
  pFlags : ℕ
deriving DecidableEq, Repr

def ptLoad : ℕ := 1
def ptDynamic : ℕ := 2
def ptPhdr : ℕ := 6

def phdrAt (m : Memory) (a : ℕ) : Phdr where
  pType := read32 m a
  pOffset := read32 m (a+4)
  pVaddr := read32 m (a+8)
  pFilesz := read32 m (a+16)
  pMemsz := read32 m (a+20)
  pFlags := read32 m (a+24)

def eType (buf : Memory) : ℕ := read16 buf 16
def eEntry (buf : Memory) : ℕ := read32 buf 24
def ePhoff (buf : Memory) : ℕ := read32 buf 28
def ePhentsize (buf : Memory) : ℕ := read16 buf 42
def ePhnum (buf : Memory) : ℕ := read16 buf 44

def phdrs (buf : Memory) : List Phdr :=
  (List.range (ePhnum buf)).map fun i => phdrAt buf (ePhoff buf+32*i)

def validMagic (buf : Memory) : Bool :=
  buf 0 == 0x7f && buf 1 == 0x45 && buf 2 == 0x4c && buf 3 == 0x46

/-- `a & ~0xFFF`. -/
def pageDown (a : ℕ) : ℕ := a/4096*4096

/-- `(a + 0xFFF) & ~0xFFF`. -/
def pageUp (a : ℕ) : ℕ := pageDown (u32 (a+4095))

theorem pageUp_of_dvd {a : ℕ} (h : 4096 ∣ a) (ha : a+4095 < 4294967296) : pageUp a = a := by
  unfold pageUp pageDown
  rw [u32_of_lt ha]
  omega

theorem dvd_pageUp (a : ℕ) : 4096 ∣ pageUp a := Nat.dvd_mul_left 4096 _

theorem le_pageUp {a : ℕ} (h : a+4095 < 4294967296) : a ≤ pageUp a := by
  unfold pageUp pageDown
  rw [u32_of_lt h]
  omega

/-- The segments of a file fit the address space and hold their file bytes. -/
def Fits (phs : List Phdr) : Prop :=
  ∀ ph ∈ phs, ph.pType = ptLoad →
    ph.pFilesz ≤ ph.pMemsz ∧ ph.pVaddr+ph.pMemsz+4095 < 4294967296

instance (phs : List Phdr) : Decidable (Fits phs) := inferInstanceAs (Decidable (∀ ph ∈ phs, _))

/-- What the headers say the byte `k` of a segment is. -/
def Phdr.imageByte (f : File) (ph : Phdr) (k : ℕ) : UInt8 :=
  if k < ph.pFilesz then f.byte (ph.pOffset+k) else 0

/-- Page ranges that do not meet. -/
def PagesApart (p q : Phdr) : Prop :=
  pageUp (p.pVaddr+p.pMemsz) ≤ pageDown q.pVaddr ∨ pageUp (q.pVaddr+q.pMemsz) ≤ pageDown p.pVaddr

instance (p q : Phdr) : Decidable (PagesApart p q) := inferInstanceAs (Decidable (_ ∨ _))

/-- The segments that occupy memory. -/
def loads (phs : List Phdr) : List Phdr :=
  phs.filter fun ph => ph.pType == ptLoad && ph.pMemsz != 0

theorem mem_loads {phs : List Phdr} {ph : Phdr} :
    ph ∈ loads phs ↔ ph ∈ phs ∧ ph.pType = ptLoad ∧ ph.pMemsz ≠ 0 := by
  simp [loads]

/-- The segments as the image asks for them: inside the file, and in page ranges
of their own. -/
structure Loadable (f : File) (phs : List Phdr) : Prop where
  fits : Fits phs
  inside : ∀ ph ∈ loads phs, ph.pOffset+ph.pFilesz ≤ f.size
  congruent : ∀ ph ∈ loads phs, ph.pVaddr%4096 = ph.pOffset%4096
  apart : (loads phs).Pairwise PagesApart

end Vlsmc.Elf
