import Vlsmc.PhysicalMemory

/-!
# Page tables

Physical memory is read by frame and by word. Addresses below
`KERNEL_SPACE_END` are mapped to themselves, so that the kernel reaches a frame
of the physical memory manager under its own address, and reaches the loaded
directory and its tables through the recursive entry.
-/

set_option autoImplicit false

namespace Vlsmc.Paging
open Vlsmc.Words Vlsmc.PhysicalMemory

/-- `cr3` is the frame of the loaded directory. -/
structure Machine where
  mem : ℕ → ℕ → ℕ
  pmm : Pmm
  cr3 : ℕ
  kernelDirectory : ℕ

namespace Machine

def read (m : Machine) (p : ℕ × ℕ) : ℕ := m.mem p.1 p.2

def write (m : Machine) (p : ℕ × ℕ) (word : ℕ) : Machine :=
  { m with mem := fun f k => if f = p.1 ∧ k = p.2 then word else m.mem f k }

def clear (m : Machine) (frame : ℕ) : Machine :=
  { m with mem := fun f k => if f = frame ∧ k < 1024 then 0 else m.mem f k }

def copy (m : Machine) (src dst : ℕ) : Machine :=
  { m with mem := fun f k => if f = dst ∧ k < 1024 then m.mem src k else m.mem f k }

def fill (m : Machine) (frame : ℕ) (words : ℕ → ℕ) : Machine :=
  { m with mem := fun f k => if f = frame ∧ k < 1024 then words k else m.mem f k }

def allocFrame (m : Machine) : ℕ × Machine :=
  (m.pmm.allocFrame.1, { m with pmm := m.pmm.allocFrame.2 })

def freeFrame (m : Machine) (frame : ℕ) : Machine := { m with pmm := m.pmm.freeFrame frame }

def incRef (m : Machine) (frame : ℕ) : Machine := { m with pmm := m.pmm.incRef frame }

def decRef (m : Machine) (frame : ℕ) : Machine := { m with pmm := m.pmm.decRef frame }

/-- Where the processor finds word `index` above `PAGE_TABLES_VADDR`. -/
def window (m : Machine) (index : ℕ) : ℕ × ℕ :=
  (frameOf (m.mem (frameOf (m.mem m.cr3 1023)) (index/1024)), index%1024)

def pdePtr (m : Machine) (pdIndex : ℕ) : ℕ × ℕ := m.window (1023*1024+pdIndex)

def ptePtr (m : Machine) (virt : ℕ) : ℕ × ℕ := m.window (virt/4096)

/-- `phys` is a frame. -/
def mapPage (m : Machine) (virt phys flags : ℕ) : Machine :=
  let pdIndex := virt/4194304
  let pde := m.read (m.pdePtr pdIndex)
  let word := entry phys ((flags%4096) ||| 1)
  if present pde then
    let m := if user flags && !user pde then m.write (m.pdePtr pdIndex) (pde ||| 4) else m
    m.write (m.ptePtr virt) word
  else
    let newTable := m.allocFrame.1
    let m := m.allocFrame.2
    if newTable = 0 then m
    else
      let m := m.write (m.pdePtr pdIndex) (entry newTable (if user flags then 7 else 3))
      let m := m.clear (m.ptePtr (pdIndex*4194304)).1
      m.write (m.ptePtr virt) word

def unmapPage (m : Machine) (virt : ℕ) : Machine :=
  if present (m.read (m.pdePtr (virt/4194304))) then m.write (m.ptePtr virt) 0 else m

def getPhysical (m : Machine) (virt : ℕ) : ℕ :=
  if !present (m.read (m.pdePtr (virt/4194304))) then 0
  else if !present (m.read (m.ptePtr virt)) then 0
  else entry (frameOf (m.read (m.ptePtr virt))) (virt%4096)

/-- One page of `sys_munmap`. -/
def munmapPage (m : Machine) (v : ℕ) : Machine :=
  let phys := m.getPhysical v
  if phys = 0 then m else (m.unmapPage v).freeFrame (frameOf phys)

/-- One page that `sys_sbrk` takes off the heap. -/
def sbrkPage (m : Machine) (p : ℕ) : Machine :=
  let phys := m.getPhysical p
  if phys = 0 then m else (m.freeFrame (frameOf phys)).unmapPage p

/-- The references of one table of a directory that is torn down. -/
def releaseTable (m : Machine) (pt : ℕ) : Machine :=
  (List.range 1024).foldl
    (fun m j => if present (m.mem pt j) then m.decRef (frameOf (m.mem pt j)) else m) m

def releaseEntry (m : Machine) (dir i : ℕ) : Machine :=
  if i = 1023 then m
  else if !present (m.mem dir i) then m
  else if !user (m.mem dir i) then m
  else (m.releaseTable (frameOf (m.mem dir i))).freeFrame (frameOf (m.mem dir i))

def destroyAddressSpace (m : Machine) (pageDirPhys : ℕ) : Machine :=
  if pageDirPhys = 0 then m
  else if pageDirPhys = m.kernelDirectory then m
  else
    ((List.range 1024).foldl (fun m i => m.releaseEntry pageDirPhys i) m).freeFrame pageDirPhys

/-- An entry without `PAGE_USER` of the loaded directory goes into the new one. -/
def shareEntry (newDir : ℕ) (m : Machine) (i : ℕ) : Machine :=
  if i = 1023 then m
  else if present (m.read (m.pdePtr i)) && !user (m.read (m.pdePtr i)) then
    m.write (newDir, i) (m.read (m.pdePtr i))
  else m

/-- The frame of the new directory, or zero for `nullptr`. -/
def createAddressSpace (m : Machine) : ℕ × Machine :=
  let newDir := m.allocFrame.1
  let m := m.allocFrame.2
  if newDir = 0 then (0, m)
  else
    let m := (List.range 1024).foldl (shareEntry newDir) (m.clear newDir)
    (newDir, m.write (newDir, 1023) (entry newDir 3))

def switchAddressSpace (m : Machine) (pageDirPhys : ℕ) : Machine := { m with cr3 := pageDirPhys }

def virtOf (i j : ℕ) : ℕ := i*4194304+j*4096

/-- One entry of a user table: both sides lose `PAGE_WRITABLE` and get `PAGE_COW`. -/
def clonePage (m : Machine) (i newPt j : ℕ) : Machine :=
  let src := m.read (m.ptePtr (virtOf i j))
  if !present src then m.write (newPt, j) 0
  else
    let phys := frameOf src
    let m :=
      if writable src then
        let m := m.write (newPt, j) (entry phys 0x205)
        m.write (m.ptePtr (virtOf i j)) (entry phys 0x205)
      else m.write (newPt, j) src
    m.incRef phys

def cloneTable (m : Machine) (i newPt : ℕ) : Machine :=
  (List.range 1024).foldl (fun m j => m.clonePage i newPt j) m

/-- Takes back what was cloned of table `k`. -/
def undoTable (m : Machine) (newDir k : ℕ) : Machine :=
  if k = 1023 then m
  else if !present (m.mem newDir k) then m
  else if !user (m.mem newDir k) then m
  else
    let pt := frameOf (m.mem newDir k)
    let m := (List.range 1024).foldl (fun m j =>
      if present (m.mem pt j) then
        let phys := frameOf (m.mem pt j)
        let m := m.decRef phys
        if cow (m.mem pt j) then m.write (m.ptePtr (virtOf k j)) (entry phys 7) else m
      else m) m
    m.freeFrame pt

/-- `false` when a table could not be allocated. -/
def cloneEntries (newDir : ℕ) : List ℕ → Machine → Bool × Machine
  | [], m => (true, m)
  | i::is, m =>
    let pde := m.read (m.pdePtr i)
    if i = 1023 then cloneEntries newDir is m
    else if !present pde then cloneEntries newDir is m
    else if !user pde then cloneEntries newDir is (m.write (newDir, i) pde)
    else
      let newPt := m.allocFrame.1
      let m := m.allocFrame.2
      if newPt = 0 then
        (false, ((List.range i).foldl (fun m k => m.undoTable newDir k) m).freeFrame newDir)
      else cloneEntries newDir is ((m.cloneTable i newPt).write (newDir, i) (entry newPt 7))

/-- The frame of the new directory, or zero for `nullptr`. -/
def cowCloneDirectory (m : Machine) : ℕ × Machine :=
  let newDir := m.allocFrame.1
  let m := m.allocFrame.2
  if newDir = 0 then (0, m)
  else
    let done := cloneEntries newDir (List.range 1024) (m.clear newDir)
    if done.1 then (newDir, done.2.write (newDir, 1023) (entry newDir 3)) else (0, done.2)

/-- The error code has its present bit in place 0 and its write bit in place 1. -/
def cowHandleFault (m : Machine) (faultAddr errorCode : ℕ) : Bool × Machine :=
  if !errorCode.testBit 0 || !errorCode.testBit 1 then (false, m)
  else if !present (m.read (m.pdePtr (faultAddr/4194304))) then (false, m)
  else
    let pte := m.ptePtr faultAddr
    if !cow (m.read pte) then (false, m)
    else
      let oldPhys := frameOf (m.read pte)
      if m.pmm.getRefcount oldPhys = 1 then (true, m.write pte (entry oldPhys 7))
      else
        let newFrame := m.allocFrame.1
        let m := m.allocFrame.2
        if newFrame = 0 then (false, m)
        else
          let m := (m.copy oldPhys newFrame).decRef oldPhys
          (true, m.write pte (entry newFrame 7))

/-- The directory and table entries that the processor reads for an address. -/
def walk (m : Machine) (virt : ℕ) : ℕ × ℕ :=
  (m.mem m.cr3 (virt/4194304), m.mem (frameOf (m.mem m.cr3 (virt/4194304))) (virt/4096%1024))

/-- A store of the kernel. Where nothing is mapped the kernel stops in a page fault. -/
def kernelStore (m : Machine) (virt value : ℕ) : Machine :=
  if present (m.walk virt).1 && present (m.walk virt).2 then
    m.write (frameOf (m.walk virt).2, virt%4096/4) value
  else m

/-- One page of `sys_mmap`: the page is mapped and then cleared where it is mapped. -/
def mmapPage (m : Machine) (virt flags : ℕ) : Machine :=
  let frame := m.allocFrame.1
  let m := m.allocFrame.2
  if frame = 0 then m
  else
    let m := m.mapPage virt frame flags
    if present (m.walk virt).1 && present (m.walk virt).2 then m.clear (frameOf (m.walk virt).2)
    else m

/-- A fault on the heap, or on a page of a VMA that is not in the page cache: for the
heap the frame keeps its old contents, for a VMA it gets `data`. -/
def faultPage (m : Machine) (virt flags : ℕ) (data : Option (ℕ → ℕ)) : Machine :=
  let frame := m.allocFrame.1
  let m := m.allocFrame.2
  if frame = 0 then m
  else
    let m := match data with
      | none => m
      | some words => m.fill frame words
    m.mapPage virt frame flags

/-- A fault on a page of a VMA that the page cache has in `cached`. -/
def cachedPage (m : Machine) (virt cached flags : ℕ) : Machine :=
  (m.incRef cached).mapPage virt cached flags

/-- The word that an access from user mode reaches, or `none` for a page fault. -/
def userAccess (m : Machine) (virt : ℕ) (isWrite : Bool) : Option (ℕ × ℕ) :=
  let pde := (m.walk virt).1
  let pte := (m.walk virt).2
  if present pde && user pde && present pte && user pte &&
      (!isWrite || (writable pde && writable pte)) then
    some (frameOf pte, virt%4096/4)
  else none

def errorCode (m : Machine) (virt : ℕ) (isWrite : Bool) : ℕ :=
  let pde := (m.walk virt).1
  let pte := (m.walk virt).2
  4+(if isWrite then 2 else 0)+(if present pde && present pte then 1 else 0)

/-- `MemoryValidator::test_vmm`. -/
def testVmm (m : Machine) : Machine :=
  let frame := m.allocFrame.1
  let m := m.allocFrame.2
  if frame = 0 then m
  else
    let m := m.mapPage 0xE0000000 frame 3
    let m := m.kernelStore 0xE0000000 0xDEADBEEF
    let m := m.kernelStore 0xE0000000 0xCAFEBABE
    (m.unmapPage 0xE0000000).freeFrame frame

/-- The loop of `VMM::init` over the pages below `KERNEL_SPACE_END`, before paging is
on. `none` when a table cannot be allocated. -/
def mapLow (pageDir : ℕ) : List ℕ → Machine → Option Machine
  | [], m => some m
  | page::pages, m =>
    let pdIndex := page/1024
    if present (m.mem pageDir pdIndex) then
      mapLow pageDir pages (m.write (frameOf (m.mem pageDir pdIndex), page%1024) (entry page 3))
    else
      let newTable := m.allocFrame.1
      let m := m.allocFrame.2
      if newTable = 0 then none
      else
        let m := (m.clear newTable).write (pageDir, pdIndex) (entry newTable 3)
        mapLow pageDir pages (m.write (frameOf (m.mem pageDir pdIndex), page%1024) (entry page 3))

/-- `VMM::init`, with `KERNEL_SPACE_END` at page 8192. -/
def vmmInit (m : Machine) : Option Machine :=
  let pageDir := m.allocFrame.1
  let m := m.allocFrame.2
  if pageDir = 0 then none
  else
    (mapLow pageDir (List.range 8192) (m.clear pageDir)).map fun m =>
      { m.write (pageDir, 1023) (entry pageDir 3) with cr3 := pageDir, kernelDirectory := pageDir }

theorem allocFrame_fst (m : Machine) : m.allocFrame.1 = m.pmm.allocFrame.1 := rfl

theorem allocFrame_pmm (m : Machine) : m.allocFrame.2.pmm = m.pmm.allocFrame.2 := rfl

theorem allocFrame_mem (m : Machine) : m.allocFrame.2.mem = m.mem := rfl

theorem allocFrame_cr3 (m : Machine) : m.allocFrame.2.cr3 = m.cr3 := rfl

theorem allocFrame_kernelDirectory (m : Machine) :
    m.allocFrame.2.kernelDirectory = m.kernelDirectory := rfl

end Machine

end Vlsmc.Paging
