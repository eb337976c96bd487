import Vlsmc.DemandPaging
import Vlsmc.PageCache
import Vlsmc.PhysicalMemory

/-!
# Pages that a process obtains

The processes with their page tables, the frames they share, the frame manager
and the page cache. A system call that handles several pages is a sequence of
events, one for each page.
-/

set_option autoImplicit false

namespace Vlsmc.FreshPages
open Vlsmc.ByteMemory Vlsmc.Words Vlsmc.Elf Vlsmc.DemandPaging Vlsmc.PageCache
open Vlsmc.PhysicalMemory

/-- Type and vnode of a VMA, a vnode being named by its inode. -/
abbrev Backing := VmaType × Option ℕ

/-- A VMA as `kmalloc` and its maker leave it: `backing` is `none` where type and
vnode were not stored. -/
structure Area where
  start : ℕ
  finish : ℕ
  flags : ℕ
  fileOffset : ℕ
  fileSize : ℕ
  backing : Option Backing
  flags_eq : flags = 5 ∨ flags = 7

/-- The flags of an area that is only read. -/
theorem readonly_flags : 5 = 5 ∨ 5 = 7 := Or.inl rfl

/-- `table` gives frame and flags of a page, `name` the file of the thread's name. -/
structure Thread where
  heapStart : ℕ
  heapEnd : ℕ
  vmaList : List Area
  table : ℕ → Option (ℕ × ℕ)
  name : Option ℕ

structure World where
  frames : ℕ → Memory
  pmm : Pmm
  cache : Cache
  files : ℕ → File
  threads : ℕ → Thread

def pageCow : ℕ := 0x200

namespace World

def setThread (s : World) (t : ℕ) (th : Thread) : World :=
  { s with threads := fun u => if u = t then th else s.threads u }

def setFrame (s : World) (frame : ℕ) (bytes : Memory) : World :=
  { s with frames := fun g => if g = frame then bytes else s.frames g }

def setPage (s : World) (t page : ℕ) (e : Option (ℕ × ℕ)) : World :=
  s.setThread t { s.threads t with table := fun q => if q = page then e else (s.threads t).table q }

def allocated (s : World) : World := { s with pmm := s.pmm.allocFrame.2 }

def incRef (s : World) (frame : ℕ) : World := { s with pmm := s.pmm.incRef frame }

def freeFrame (s : World) (frame : ℕ) : World := { s with pmm := s.pmm.freeFrame frame }

/-- The VMA that the kernel sees. What was not stored is what the memory held. -/
def vma (s : World) (a : Area) (garbage : Backing) : Vma :=
  { start := a.start
    finish := a.finish
    flags := a.flags
    type := (a.backing.getD garbage).1
    fileVnode := (a.backing.getD garbage).2.map s.files
    fileOffset := a.fileOffset
    fileSize := a.fileSize }

/-- The thread as the loader's model has it. -/
def process (s : World) (t : ℕ) (garbage : Backing) : Process :=
  { heapStart := (s.threads t).heapStart
    heapEnd := (s.threads t).heapEnd
    vmaList := (s.threads t).vmaList.map fun a => s.vma a garbage
    table := (s.threads t).table
    frames := s.frames
    executable := (s.threads t).name.map s.files }

def findArea (s : World) (t addr : ℕ) : Option Area :=
  (s.threads t).vmaList.find? fun a => decide (a.start ≤ addr) && decide (addr < a.finish)

def inHeap (s : World) (t addr : ℕ) : Bool :=
  decide ((s.threads t).heapStart ≤ addr) && decide (addr < (s.threads t).heapEnd)

/-- Where the page cache would keep a page of the VMA. -/
def cacheKey (a : Area) (garbage : Backing) (page : ℕ) : ℕ × ℕ :=
  ((a.backing.getD garbage).2.getD 0, u32 (a.fileOffset+(page-a.start)))

def cached (s : World) (a : Area) (garbage : Backing) (page : ℕ) : ℕ :=
  if (s.vma a garbage).isReadonly && (s.vma a garbage).isFile then
    lookup s.cache (cacheKey a garbage page).1 (cacheKey a garbage page).2
  else 0

/-- A page filled from a file goes into the cache if the VMA is read-only. -/
def cacheInsert (s : World) (a : Area) (garbage : Backing) (page frame : ℕ) : World :=
  if page < u32 (a.start+a.fileSize) ∧ (s.vma a garbage).isReadonly ∧ (s.vma a garbage).isFile then
    { s with cache := insert s.cache (cacheKey a garbage page).1 (cacheKey a garbage page).2 frame }
  else s

/-- `handle_page_fault` for a user access to an absent page. Without memory the
machine stops, without a VMA the thread ends. -/
def handlePageFault (s : World) (t faultAddr : ℕ) (garbage : Backing) : World :=
  let page := pageDown faultAddr
  let frame := s.pmm.allocFrame.1
  if s.inHeap t faultAddr then
    if frame = 0 then s.allocated else s.allocated.setPage t (page/4096) (some (frame, 7))
  else
    match s.findArea t faultAddr with
    | none => s
    | some a =>
      let hit := s.cached a garbage page
      if hit ≠ 0 then (s.incRef hit).setPage t (page/4096) (some (hit, a.flags))
      else if frame = 0 then s.allocated
      else
        ((s.allocated.setFrame frame ((s.process t garbage).fill (s.vma a garbage) page)).cacheInsert
          a garbage page frame).setPage t (page/4096) (some (frame, a.flags))

/-- One page of an anonymous `sys_mmap`, or of the stack that `sys_exec` and
`elf_thread_entry` build. -/
def clearedPage (s : World) (t page flags : ℕ) : World :=
  let frame := s.pmm.allocFrame.1
  if frame = 0 then s.allocated
  else (s.allocated.setPage t page (some (frame, flags))).setFrame frame fun _ => 0

/-- One page of `sys_munmap`, of a heap that shrinks, or of a directory that is
torn down. -/
def dropPage (s : World) (t page : ℕ) : World :=
  match (s.threads t).table page with
  | none => s
  | some e => (s.setPage t page none).freeFrame e.1

/-- One entry of `cow_clone_directory`. -/
def forkPage (s : World) (t u page : ℕ) : World :=
  match (s.threads t).table page with
  | none => s.setPage u page none
  | some e =>
    if e.2.testBit 1 then
      (((s.setPage t page (some (e.1, 0x205))).setPage u page (some (e.1, 0x205)))).incRef e.1
    else (s.setPage u page (some e)).incRef e.1

def storeByte (s : World) (frame addr : ℕ) (value : UInt8) : World :=
  s.setFrame frame (write8 (s.frames frame) (addr%4096) value)

/-- A store in user mode to a page that is present, with `cow_handle_fault`. -/
def store (s : World) (t addr : ℕ) (value : UInt8) : World :=
  match (s.threads t).table (addr/4096) with
  | none => s
  | some e =>
    if e.2.testBit 1 then s.storeByte e.1 addr value
    else if e.2.testBit 9 then
      if s.pmm.getRefcount e.1 = 1 then
        (s.setPage t (addr/4096) (some (e.1, 7))).storeByte e.1 addr value
      else
        let frame := s.pmm.allocFrame.1
        if frame = 0 then s.allocated
        else
          (((s.allocated.setFrame frame (s.frames e.1)).freeFrame e.1).setPage t (addr/4096)
            (some (frame, 7))).storeByte frame addr value
    else s

end World

/-- The copy of a VMA that `sys_fork` makes. -/
def forkVma (a : Area) : Area := { a with backing := none }

inductive Event where
  | store (t addr : ℕ) (value : UInt8)
  /-- A user access to an absent page. -/
  | fault (t addr : ℕ) (garbage : Backing)
  /-- Anonymous `sys_mmap` and the initial stack. -/
  | clearedPage (t page flags : ℕ)
  | dropPage (t page : ℕ)
  | forkPage (t u page : ℕ)
  | forkVmas (t u : ℕ)
  /-- A VMA made by `load_elf_segments`, `sys_mmap` or `sys_exec`. -/
  | addVma (t : ℕ) (a : Area)
  /-- `sys_munmap`, with the first page and the page behind the last. -/
  | munmapVmas (t start finish : ℕ)
  | clearVmas (t : ℕ)
  | setHeap (t heapStart heapEnd : ℕ)
  | setName (t : ℕ) (name : Option ℕ)
  | setFile (inode : ℕ) (f : File)
  /-- The kernel takes a frame for itself, or gives one back. -/
  | kernelAlloc
  | kernelFree (frame : ℕ)

def step (s : World) : Event → World
  | .store t addr value => s.store t addr value
  | .fault t addr garbage =>
    if ((s.threads t).table (addr/4096)).isSome then s else s.handlePageFault t addr garbage
  | .clearedPage t page flags => s.clearedPage t page flags
  | .dropPage t page => s.dropPage t page
  | .forkPage t u page => s.forkPage t u page
  | .forkVmas t u =>
    s.setThread u { s.threads u with vmaList := (s.threads t).vmaList.map forkVma }
  | .addVma t a => s.setThread t { s.threads t with vmaList := a::(s.threads t).vmaList }
  | .munmapVmas t start finish =>
    s.setThread t { s.threads t with
      vmaList := (s.threads t).vmaList.filter fun a =>
        !(decide (start ≤ a.start) && decide (a.finish ≤ finish)) }
  | .clearVmas t => s.setThread t { s.threads t with vmaList := [] }
  | .setHeap t heapStart heapEnd =>
    s.setThread t { s.threads t with heapStart := heapStart, heapEnd := heapEnd }
  | .setName t name => s.setThread t { s.threads t with name := name }
  | .setFile inode f => { s with files := fun i => if i = inode then f else s.files i }
  | .kernelAlloc => s.allocated
  | .kernelFree frame => s.freeFrame frame

/-- What the page cache holds for the page of a fault outside the heap. -/
def hitAt (s : World) (t addr : ℕ) (garbage : Backing) : Option ℕ :=
  (s.findArea t addr).bind fun a =>
    let hit := s.cached a garbage (pageDown addr)
    if hit = 0 then none else some hit

theorem setPage_process (s : World) (t a frame flags : ℕ) (g : Backing) :
    (s.setPage t (a/4096) (some (frame, flags))).process t g =
      (s.process t g).mapPage a frame flags := by
  unfold World.process World.setPage World.setThread Process.mapPage
  dsimp only
  rw [if_pos rfl]
  rfl

theorem cacheInsert_process (s : World) (a : Area) (page frame t : ℕ) (g : Backing) :
    (s.cacheInsert a g page frame).process t g = s.process t g := by
  unfold World.cacheInsert
  split_ifs <;> rfl

/-- The thread sees what the loader's model of the fault says. -/
theorem handlePageFault_process {s : World} {t addr : ℕ} {g : Backing} {p : Process}
    (h0 : s.pmm.allocFrame.1 ≠ 0)
    (h : DemandPaging.handlePageFault (s.process t g) addr (hitAt s t addr g) s.pmm.allocFrame.1 =
      some p) : (s.handlePageFault t addr g).process t g = p := by
  have hfind : (s.process t g).vmaList.find? (fun v => decide (v.start ≤ addr) &&
      decide (addr < v.finish)) = (s.findArea t addr).map fun a => s.vma a g := List.find?_map
  unfold DemandPaging.handlePageFault at h
  unfold World.handlePageFault
  rw [hfind] at h
  dsimp only
  by_cases hheap : s.inHeap t addr = true
  · have hin : (s.process t g).heapStart ≤ addr ∧ addr < (s.process t g).heapEnd := by
      simpa [World.inHeap, World.process] using hheap
    rw [if_pos hin] at h
    rw [if_pos hheap, if_neg h0, setPage_process]
    exact Option.some.inj h
  · have hout : ¬((s.process t g).heapStart ≤ addr ∧ addr < (s.process t g).heapEnd) := fun hin =>
      hheap (by simpa [World.inHeap, World.process] using hin)
    rw [if_neg hout] at h
    rw [if_neg hheap]
    unfold hitAt at h
    cases harea : s.findArea t addr with
    | none =>
      rw [harea] at h
      cases h
    | some a =>
      rw [harea] at h
      dsimp only [Option.map_some, Option.bind_some] at h ⊢
      unfold World.cached at h ⊢
      by_cases hro : ((s.vma a g).isReadonly && (s.vma a g).isFile) = true
      · simp only [if_pos hro] at h ⊢
        generalize lookup s.cache _ _ = hit at h ⊢
        by_cases hhit : hit = 0
        · rw [hhit, if_pos rfl] at h
          rw [hhit, if_neg (fun hh => hh rfl), if_neg h0, setPage_process, cacheInsert_process]
          exact Option.some.inj h
        · rw [if_neg hhit] at h
          rw [if_pos hhit, setPage_process]
          exact Option.some.inj h
      · simp only [if_neg hro] at h ⊢
        rw [if_neg (fun hh => hh rfl), if_neg h0, setPage_process, cacheInsert_process]
        exact Option.some.inj h

end Vlsmc.FreshPages
