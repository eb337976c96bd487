import Vlsmc.Elf

/-!
# The kernel's loader and demand paging

`load_elf_segments` describes the segments of an executable as VMAs, and
`handle_page_fault` fills the pages of a VMA when user code first touches them.
Faults on present pages belong to copy-on-write and are not taken here.
-/

set_option autoImplicit false

namespace Vlsmc.DemandPaging
open Vlsmc.ByteMemory Vlsmc.Words Vlsmc.Elf

def pagePresent : ℕ := 1
def pageWritable : ℕ := 2
def pageUser : ℕ := 4

inductive VmaType where
  | anon
  | file
deriving DecidableEq

structure Vma where
  start : ℕ
  finish : ℕ
  flags : ℕ
  type : VmaType
  fileVnode : Option File
  fileOffset : ℕ
  fileSize : ℕ

/-- A thread's mappings: its VMAs, the page table as frame and flags of a page,
the bytes of the frames, and the file its name resolves to. -/
structure Process where
  heapStart : ℕ
  heapEnd : ℕ
  vmaList : List Vma
  table : ℕ → Option (ℕ × ℕ)
  frames : ℕ → Memory
  executable : Option File

structure LoadedElf where
  entry : ℕ
  phdrVaddr : ℕ
  phnum : ℕ
  phent : ℕ
  loadBias : ℕ
  maxVaddr : ℕ

/-- The VMA made for a segment. -/
def vmaOf (f : File) (bias : ℕ) (ph : Phdr) : Vma :=
  let biased := u32 (ph.pVaddr+bias)
  { start := pageDown biased
    finish := pageUp (biased+ph.pMemsz)
    flags := if ph.pFlags.testBit 1 then pagePresent+pageUser+pageWritable
      else pagePresent+pageUser
    type := .file
    fileVnode := some f
    fileOffset := sub32 ph.pOffset (biased-pageDown biased)
    fileSize := u32 (ph.pFilesz+(biased-pageDown biased)) }

/-- One turn of the loop over program headers: the VMA list and `max_vaddr`.
`kmalloc` decides whether there is room for the VMA. -/
def addSegment (f : File) (bias : ℕ) (kmalloc : List Vma → Bool) (s : List Vma × ℕ) (ph : Phdr) :
    Option (List Vma × ℕ) :=
  if ph.pType ≠ ptLoad then some s
  else if ph.pMemsz = 0 then some s
  else if kmalloc s.1 then
    some (vmaOf f bias ph::s.1, max s.2 (pageUp (u32 (ph.pVaddr+bias)+ph.pMemsz)))
  else none

/-- The address of the program headers: from `PT_PHDR`, or in the segment that
holds them. -/
def phdrVaddr (buf : Memory) (bias : ℕ) : ℕ :=
  let phs := phdrs buf
  let own := phs.foldl (fun v ph => if ph.pType = ptPhdr then u32 (ph.pVaddr+bias) else v) 0
  if own ≠ 0 then own
  else match phs.find? fun ph => ph.pType == ptLoad && decide (ph.pOffset ≤ ePhoff buf) &&
      decide (ePhoff buf < u32 (ph.pOffset+ph.pFilesz)) with
    | none => 0
    | some ph => u32 (ph.pVaddr+bias+(ePhoff buf-ph.pOffset))

/-- `load_elf_segments`, before the relocations of a position independent file. -/
def loadElfSegments (f : File) (buf : Memory) (bias : ℕ) (kmalloc : List Vma → Bool)
    (p : Process) : Option (Process × LoadedElf) :=
  ((phdrs buf).foldlM (addSegment f bias kmalloc) (p.vmaList, 0)).map fun s =>
    ({ p with vmaList := s.1 },
      { entry := u32 (eEntry buf+bias), phdrVaddr := phdrVaddr buf bias, phnum := ePhnum buf,
        phent := ePhentsize buf, loadBias := bias, maxVaddr := s.2 })

/-- The empty heap that `elf_thread_entry` leaves behind the highest segment. -/
def Process.setHeap (p : Process) (maxVaddr : ℕ) : Process :=
  let heapBase := u32 (pageUp maxVaddr+4096)
  { p with heapStart := heapBase, heapEnd := heapBase }

def Process.mapPage (p : Process) (page frame flags : ℕ) : Process :=
  { p with table := fun q => if q = page/4096 then some (frame, flags) else p.table q }

def Process.setFrame (p : Process) (frame : ℕ) (bytes : Memory) : Process :=
  { p with frames := fun g => if g = frame then bytes else p.frames g }

def Vma.isReadonly (v : Vma) : Bool := !v.flags.testBit 1

def Vma.isFile (v : Vma) : Bool := v.type == .file && v.fileVnode.isSome

/-- The file a page of the VMA is read from. -/
def Process.source (p : Process) (v : Vma) : Option File :=
  if v.isFile then v.fileVnode else p.executable

def readFile (source : Option File) (off size : ℕ) (m : Memory) : Memory :=
  match source with
  | none => m
  | some f => place m 0 (f.available off size) fun i => f.byte (off+i)

/-- The bytes of a fresh frame for a page of the VMA. -/
def Process.fill (p : Process) (v : Vma) (page : ℕ) : Memory :=
  let zeroed : Memory := fun _ => 0
  let fileDataEnd := u32 (v.start+v.fileSize)
  if page < fileDataEnd then
    let readSize := if fileDataEnd < u32 (page+4096) then fileDataEnd-page else 4096
    readFile (p.source v) (u32 (v.fileOffset+(page-v.start))) readSize zeroed
  else zeroed

/-- The branch of `handle_page_fault` for a user access to an absent page.
`cached` is what the page cache holds for the page, `newFrame` what `alloc_frame`
returns. -/
def handlePageFault (p : Process) (faultAddr : ℕ) (cached : Option ℕ) (newFrame : ℕ) :
    Option Process :=
  if p.heapStart ≤ faultAddr ∧ faultAddr < p.heapEnd then
    some (p.mapPage (pageDown faultAddr) newFrame (pagePresent+pageWritable+pageUser))
  else
    match p.vmaList.find? fun v => decide (v.start ≤ faultAddr) && decide (faultAddr < v.finish) with
    | none => none
    | some v =>
      let page := pageDown faultAddr
      match if v.isReadonly && v.isFile then cached else none with
      | some frame => some (p.mapPage page frame v.flags)
      | none => some ((p.setFrame newFrame (p.fill v page)).mapPage page newFrame v.flags)

/-- A user access, with the frames at hand should it fault. -/
structure Access where
  addr : ℕ
  cached : Option ℕ
  newFrame : ℕ

def access (p : Process) (a : Access) : Option Process :=
  if (p.table (a.addr/4096)).isSome then some p
  else handlePageFault p a.addr a.cached a.newFrame

def accesses (p : Process) (as : List Access) : Option Process := as.foldlM access p

/-- The byte user code reads. -/
def readByte (p : Process) (addr : ℕ) : Option UInt8 :=
  (p.table (addr/4096)).map fun e => p.frames e.1 (addr%4096)

end Vlsmc.DemandPaging
