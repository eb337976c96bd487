import Vlsmc.ProgramStart

/-!
# The regions of an address space

The heap, the user stack and the VMAs of a process, and the three system calls that place
them: `sys_sbrk` moves the end of the heap, `sys_mmap` adds a VMA at an address of the caller's
or at a free one, `sys_munmap` takes VMAs away. Each checks only some of the other regions.
-/

set_option autoImplicit false

namespace Vlsmc.Regions
open Vlsmc.ByteMemory Vlsmc.Words Vlsmc.Elf Vlsmc.DemandPaging Vlsmc.ElfRelocations
open Vlsmc.ProgramStart

/-- The addresses from `start` up to `finish`; none when `finish` is not above. -/
structure Range where
  start : ℕ
  finish : ℕ

def Range.Has (r : Range) (x : ℕ) : Prop := r.start ≤ x ∧ x < r.finish

def Apart (r r' : Range) : Prop := ∀ x, r.Has x → ¬ r'.Has x

/-- A page with an address of the range. -/
def Range.HasPage (r : Range) (n : ℕ) : Prop := ∃ x, r.Has x ∧ x/4096 = n

def vmaRange (v : Vma) : Range := ⟨v.start, v.finish⟩

def heap (p : Process) : Range := ⟨p.heapStart, p.heapEnd⟩

/-- The four pages below `USER_STACK_TOP`. -/
def stack : Range := ⟨userStackTop-4*4096, userStackTop⟩

/-- The result of a call that fails. -/
def minusOne : ℕ := 4294967295

def unmapPage (p : Process) (page : ℕ) : Process :=
  { p with table := fun q => if q = page/4096 then none else p.table q }

/-- The loops that unmap `n` pages one after the other. -/
def unmapPages (p : Process) (addr : ℕ) : ℕ → Process
  | 0 => p
  | n+1 => unmapPage (unmapPages p addr n) (u32 (addr+4096*n))

/-- The checks of `sys_sbrk`. -/
def sbrkRefused (p : Process) (ebx : ℕ) : Bool :=
  let newEnd := u32 (p.heapEnd+ebx)
  decide (0 < toInt32 ebx) && decide (newEnd < p.heapEnd) ||
  decide (toInt32 ebx < 0) && decide (p.heapEnd < newEnd) ||
  decide (newEnd < p.heapStart) || decide (newEnd < kernelSpaceEnd) ||
  decide (0x8FFFFFFF ≤ newEnd)

/-- What the checks of `sys_sbrk` leave for the new end of a heap. -/
theorem sbrk_checks {heapStart heapEnd newEnd low high : ℕ} {move : ℤ}
    (h : (decide (0 < move) && decide (newEnd < heapEnd) ||
      decide (move < 0) && decide (heapEnd < newEnd) || decide (newEnd < heapStart) ||
      decide (newEnd < low) || decide (high ≤ newEnd)) = false) :
    heapStart ≤ newEnd ∧ low ≤ newEnd ∧ newEnd < high ∧ (0 < move → heapEnd ≤ newEnd) ∧
    (move < 0 → newEnd ≤ heapEnd) := by
  simp only [Bool.or_eq_false_iff, Bool.and_eq_false_iff, decide_eq_false_iff_not, not_lt,
    not_le] at h
  obtain ⟨⟨⟨⟨hgrow, hshrink⟩, hstart⟩, hlow⟩, hhigh⟩ := h
  constructor
  · exact hstart
  constructor
  · exact hlow
  constructor
  · exact hhigh
  constructor
  · exact fun hmove => hgrow.resolve_left (by omega)
  · exact fun hmove => hshrink.resolve_left (by omega)

def sysSbrk (p : Process) (ebx : ℕ) : ℕ × Process :=
  if toInt32 ebx = 0 then (p.heapEnd, p)
  else if sbrkRefused p ebx then (minusOne, p)
  else
    let newEnd := u32 (p.heapEnd+ebx)
    let shrunk := if toInt32 ebx < 0 then
      unmapPages p (pageUp newEnd) ((pageUp p.heapEnd-pageUp newEnd)/4096) else p
    (p.heapEnd, { shrunk with heapEnd := newEnd })

/-- The test of `find_free_vaddr` for one VMA. -/
def conflicts (candidate size : ℕ) (v : Vma) : Bool :=
  decide (candidate < v.finish) && decide (v.start < u32 (candidate+size))

/-- The loop of `find_free_vaddr`; zero when there is no place. -/
def findLoop (vmas : List Vma) (size : ℕ) : ℕ → ℕ → Option ℕ
  | 0, _ => none
  | fuel+1, candidate =>
    if u32 (candidate+size) ≤ 0xB0000000 then
      match vmas.find? (conflicts candidate size) with
      | none => some candidate
      | some v => findLoop vmas size fuel (pageUp v.finish)
    else some 0

/-- The candidates are addresses of pages, each above the one before. -/
def findFreeVaddr (vmas : List Vma) (size : ℕ) : Option ℕ :=
  findLoop vmas size 1048577 0x20000000

def mapFixed : ℕ := 4
def mapAnonymous : ℕ := 5

/-- What one `sys_mmap` gets from the rest of the kernel: the record, the frames, and the
vnodes of the open files. -/
structure Grants where
  kmalloc : Bool
  supply : ℕ → Option ℕ
  fdTable : ℕ → Option File

/-- Map zeroed frames from page `i` on, and take them back when one is missing. -/
def mapAnon (g : Grants) (vaddr flags : ℕ) : ℕ → ℕ → Process → Bool × Process
  | 0, _, p => (true, p)
  | n+1, i, p =>
    match g.supply i with
    | none => (false, unmapPages p vaddr i)
    | some frame => mapAnon g vaddr flags n (i+1)
      ((p.setFrame frame fun _ => 0).mapPage (u32 (vaddr+4096*i)) frame flags)

/-- The address that the caller asks for or that is found. -/
def mmapVaddr (p : Process) (addr length flags : ℕ) : Option ℕ :=
  if addr ≠ 0 ∧ flags.testBit mapFixed then
    some (if addr < kernelSpaceEnd then 0 else pageDown addr)
  else findFreeVaddr p.vmaList length

def pageFlags (prot : ℕ) : ℕ :=
  if prot.testBit 1 then pagePresent+pageUser+pageWritable else pagePresent+pageUser

/-- `sys_mmap`; `none` only if the search does not end. -/
def sysMmap (p : Process) (g : Grants) (addr size prot flags fd : ℕ) : Option (ℕ × Process) :=
  if size = 0 then some (minusOne, p)
  else
    let length := pageUp size
    (mmapVaddr p addr length flags).map fun vaddr =>
      if vaddr = 0 ∨ g.kmalloc = false then (minusOne, p)
      else
        let vma : Vma := {
          start := vaddr, finish := u32 (vaddr+length), flags := pageFlags prot, type := .anon,
          fileVnode := none, fileOffset := 0, fileSize := 0 }
        if flags.testBit mapAnonymous then
          match mapAnon g vaddr (pageFlags prot) (length/4096) 0 p with
          | (false, p) => (minusOne, p)
          | (true, p) => (vaddr, { p with vmaList := vma::p.vmaList })
        else
          match if toInt32 fd < 0 ∨ 16 ≤ toInt32 fd then none else g.fdTable fd with
          | none => (minusOne, p)
          | some f => (vaddr, { p with
            vmaList := { vma with type := .file, fileVnode := some f, fileSize := length }::
              p.vmaList })

/-- `sys_munmap`: all pages of the range go, and the VMAs that lie in it. -/
def sysMunmap (p : Process) (addr size : ℕ) : ℕ × Process :=
  if addr = 0 ∨ size = 0 then (minusOne, p)
  else
    let addr := pageDown addr
    let length := pageUp size
    let q := unmapPages p addr (length/4096)
    (0, { q with
      vmaList := p.vmaList.filter fun v =>
        !(decide (addr ≤ v.start) && decide (v.finish ≤ u32 (addr+length))) })

/-- System calls with the values of their registers, and the page faults between them. -/
inductive Call
  | sbrk (ebx : UInt32)
  | mmap (g : Grants) (ebx ecx edx esi edi : UInt32)
  | munmap (ebx ecx : UInt32)
  | fault (addr : ℕ) (cached : Option ℕ) (newFrame : ℕ)

def Call.run (p : Process) : Call → Option Process
  | .sbrk ebx => some (sysSbrk p ebx.toNat).2
  | .mmap g ebx ecx edx esi edi =>
    (sysMmap p g ebx.toNat ecx.toNat edx.toNat esi.toNat edi.toNat).map Prod.snd
  | .munmap ebx ecx => some (sysMunmap p ebx.toNat ecx.toNat).2
  | .fault addr cached newFrame => handlePageFault p addr cached newFrame

/-- No address has two owners. -/
structure Separate (p : Process) : Prop where
  vmas : p.vmaList.Pairwise fun v w => Apart (vmaRange v) (vmaRange w)
  heapVmas : ∀ v ∈ p.vmaList, Apart (heap p) (vmaRange v)
  stackVmas : ∀ v ∈ p.vmaList, Apart stack (vmaRange v)
  heapStack : Apart (heap p) stack

/-- All regions but the end of the heap start and end with a page. -/
structure Aligned (p : Process) : Prop where
  vmas : ∀ v ∈ p.vmaList, 4096 ∣ v.start ∧ 4096 ∣ v.finish ∧ v.finish < 4294967296
  heapStart : 4096 ∣ p.heapStart
  heapEnd : p.heapStart ≤ p.heapEnd
  heapLimit : p.heapStart < p.heapEnd → p.heapEnd < 0x8FFFFFFF
  small : p.heapEnd < 4294967296

/-- The lowest address from 0x20000000 where the mapping meets no VMA. -/
structure Lowest (vmas : List Vma) (length a : ℕ) : Prop where
  above : 0x20000000 ≤ a
  below : a+length ≤ 0xB0000000
  free : ∀ v ∈ vmas, ¬ (a < v.finish ∧ v.start < a+length)
  first : ∀ b, 0x20000000 ≤ b → b < a → ∃ v ∈ vmas, b < v.finish ∧ v.start < b+length

/-- The new region of a call stays away from those the call does not look at: growth of the
heap from the VMAs, a fixed mapping from all regions, any other mapping from the heap. -/
def Call.Clear (p : Process) : Call → Prop
  | .sbrk ebx => 0 < toInt32 ebx.toNat → sbrkRefused p ebx.toNat = false →
    ∀ v ∈ p.vmaList, Apart ⟨p.heapEnd, u32 (p.heapEnd+ebx.toNat)⟩ (vmaRange v)
  | .mmap _ ebx ecx _ esi _ =>
    if ebx ≠ 0 ∧ esi.toNat.testBit mapFixed then
      kernelSpaceEnd ≤ ebx.toNat →
        let r : Range := ⟨pageDown ebx.toNat, u32 (pageDown ebx.toNat+pageUp ecx.toNat)⟩
        Apart (heap p) r ∧ Apart stack r ∧ ∀ v ∈ p.vmaList, Apart r (vmaRange v)
    else ∀ a, Lowest p.vmaList (pageUp ecx.toNat) a →
      Apart (heap p) ⟨a, a+pageUp ecx.toNat⟩
  | _ => True

end Vlsmc.Regions
