import Mathlib.Data.List.Forall2
import Vlsmc.ElfImage
import Vlsmc.ElfRelocations

/-!
# The two program starters

`elf_exec` starts a thread in `elf_thread_entry`, and `sys_exec` replaces the
program of the caller with its own copy of the loader. Both end with the address
space, the heap and the first instruction of a new program. What they leave on
the user stack (auxiliary vector there, arguments here) is not compared.
-/

set_option autoImplicit false

namespace Vlsmc.ProgramStart
open Vlsmc.ByteMemory Vlsmc.Words Vlsmc.Elf Vlsmc.DemandPaging Vlsmc.ElfImage Vlsmc.ElfRelocations

def etExec : ℕ := 2
def em386 : ℕ := 3
def ptInterp : ℕ := 3
def pieLoadBase : ℕ := 0x40000000
def interpLoadBase : ℕ := 0x50000000
def userStackTop : ℕ := 0xBFFF0000

def eMachine (buf : Memory) : ℕ := read16 buf 18

def validateElf (buf : Memory) : Bool :=
  validMagic buf && (eType buf == etExec || eType buf == etDyn) && eMachine buf == em386

abbrev Path := List UInt8

/-- The volume, the name of the calling thread and a fresh address space, which
the starters begin with, and the frames for the four pages of the stack. -/
structure Kernel where
  resolve : Path → Option File
  name : Path
  space : Option Process
  stack : ℕ → Option ℕ

/-- What `kmalloc` and `alloc_frame` do for one start: blocks come with their old
contents, so do a VMA's type and vnode. -/
structure Heap where
  header : Option Memory
  interpHeader : Option Memory
  interpPath : Memory
  strings : Bool
  vmaRoom : List Vma → Bool
  vmaOld : List Vma → VmaType × Option File
  kmalloc : ℕ → Option Memory
  supply : ℕ → Supply
  interpSupply : ℕ → Supply

structure Started where
  process : Process
  entry : ℕ

/-- A fresh address space for the program that `name` leads to. -/
def Kernel.freshSpace (k : Kernel) (name : Path) : Option Process :=
  k.space.map fun p => { p with vmaList := [], executable := k.resolve name }

/-- The zeroed pages below `USER_STACK_TOP`. -/
def Kernel.mapStack (k : Kernel) (p : Process) : Option Process :=
  (List.range 4).foldlM (fun p i => (k.stack i).map fun frame =>
    (p.setFrame frame fun _ => 0).mapPage (userStackTop-(4-i)*4096) frame
      (pagePresent+pageWritable+pageUser)) p

def cString (m : Memory) (n : ℕ) : Path := ((List.range n).map m).takeWhile (· != 0)

/-- The path in the first `PT_INTERP` below 64 bytes, empty without one. -/
def interpPath (f : File) (buf old : Memory) : Path :=
  match (phdrs buf).find? fun ph => ph.pType == ptInterp && decide (ph.pFilesz < 64) with
  | none => []
  | some ph =>
    cString (write8 (readFile (some f) ph.pOffset ph.pFilesz (write8 old 0 0)) ph.pFilesz 0) 64

def Heap.buffers (h : Heap) (f : File) (old : Memory) : Buffers where
  header := headerBuf f 4096 old
  headerSize := f.available 0 4096
  kmalloc := h.kmalloc

/-- `load_elf_segments`, when the machine survives it. -/
def Heap.load (h : Heap) (f : File) (old : Memory) (bias : ℕ) (supply : ℕ → Supply)
    (p : Process) : Option (Process × LoadedElf) :=
  match ElfRelocations.loadElfSegments f (h.buffers f old) bias h.vmaRoom supply p with
  | none => none
  | some (s, out) => if s.halted then none else some (s.process, out)

/-- The interpreter, if there is one: process, `max_vaddr` and entry. -/
def Heap.loadInterp (h : Heap) (k : Kernel) (path : Path) (p : Process) (app : LoadedElf) :
    Option (Process × ℕ × ℕ) :=
  if path = [] then some (p, app.maxVaddr, app.entry)
  else
    match k.resolve path, h.interpHeader with
    | some f, some old =>
      if f.available 0 4096 < 52 ∨ validateElf (headerBuf f 4096 old) = false then none
      else (h.load f old interpLoadBase h.interpSupply p).map fun r =>
        (r.1, max app.maxVaddr r.2.maxVaddr, r.2.entry)
    | _, _ => none

/-- The files that `elf_thread_entry` goes on with. -/
def elfAccepts (f : File) (old : Memory) : Bool :=
  decide (52 ≤ f.available 0 4096) && validateElf (headerBuf f 4096 old)

def elfThreadEntry (k : Kernel) (h : Heap) (name : Path) : Option Started :=
  match h.header, k.resolve name with
  | some old, some f =>
    if elfAccepts f old = false then none
    else
      let buf := headerBuf f 4096 old
      let bias := if eType buf = etDyn then pieLoadBase else 0
      (k.freshSpace name).bind fun p =>
        (h.load f old bias h.supply p).bind fun app =>
          (h.loadInterp k (interpPath f buf h.interpPath) app.1 app.2).bind fun r =>
            (k.mapStack (r.1.setHeap r.2.1)).map fun p => ⟨p, r.2.2⟩
  | _, _ => none

/-- `elf_exec`: the name of a thread holds 31 characters. -/
def elfExec (k : Kernel) (h : Heap) (filename : Path) : Option Started :=
  elfThreadEntry k h (filename.take 31)

/-- The VMA that `sys_exec` makes for a segment; `type` and `file_vnode` are left
as they were in the block. -/
def execVma (old : VmaType × Option File) (ph : Phdr) : Vma where
  start := pageDown ph.pVaddr
  finish := pageUp (ph.pVaddr+ph.pMemsz)
  flags := if ph.pFlags.testBit 1 then pagePresent+pageUser+pageWritable
    else pagePresent+pageUser
  type := old.1
  fileVnode := old.2
  fileOffset := sub32 ph.pOffset (ph.pVaddr-pageDown ph.pVaddr)
  fileSize := u32 (ph.pFilesz+(ph.pVaddr-pageDown ph.pVaddr))

/-- The VMAs and `max_vaddr` so far, and whether `break` has left the loop. -/
structure Segments where
  vmaList : List Vma
  maxVaddr : ℕ
  stopped : Bool

def Heap.execSegment (h : Heap) (s : Segments) (ph : Phdr) : Segments :=
  if s.stopped then s
  else if ph.pType ≠ ptLoad ∨ ph.pMemsz = 0 then s
  else
    let maxVaddr := max s.maxVaddr (pageUp (ph.pVaddr+ph.pMemsz))
    if h.vmaRoom s.vmaList then
      ⟨execVma (h.vmaOld s.vmaList) ph::s.vmaList, maxVaddr, false⟩
    else ⟨s.vmaList, maxVaddr, true⟩

/-- The files that `sys_exec` goes on with. -/
def execAccepts (f : File) (old : Memory) : Bool :=
  decide (52 ≤ f.available 0 4096) && validMagic (headerBuf f 4096 old)

/-- The name of the thread afterwards; an empty name changes nothing. -/
def Kernel.execName (k : Kernel) (filename : Path) : Path :=
  if filename = [] then k.name else filename.take 31

def sysExec (k : Kernel) (h : Heap) (filename : Path) : Option Started :=
  match h.header, k.resolve filename with
  | some old, some f =>
    if execAccepts f old = false ∨ h.strings = false then none
    else
      let buf := headerBuf f 4096 old
      (k.freshSpace (k.execName filename)).bind fun p =>
        let s := (phdrs buf).foldl h.execSegment ⟨[], 0, false⟩
        (k.mapStack ({ p with vmaList := s.vmaList }.setHeap s.maxVaddr)).map fun p =>
          ⟨p, eEntry buf⟩
  | _, _ => none

/-! ## Demand paging of two address spaces -/

/-- VMAs that give the same pages. -/
structure SameVma (p q : Process) (v w : Vma) : Prop where
  start : w.start = v.start
  finish : w.finish = v.finish
  flags : w.flags = v.flags
  fileOffset : w.fileOffset = v.fileOffset
  fileSize : w.fileSize = v.fileSize
  source : q.source w = p.source v

structure Alike (p q : Process) : Prop where
  heapStart : q.heapStart = p.heapStart
  heapEnd : q.heapEnd = p.heapEnd
  table : q.table = p.table
  frames : q.frames = p.frames
  vmas : List.Forall₂ (SameVma p q) p.vmaList q.vmaList

variable {p q : Process}

theorem fill_alike {v w : Vma} (h : SameVma p q v w) (page : ℕ) : q.fill w page = p.fill v page := by
  unfold Process.fill
  rw [h.start, h.fileSize, h.fileOffset, h.source]

theorem find_alike {vs ws : List Vma} (h : List.Forall₂ (SameVma p q) vs ws) (a : ℕ) :
    (vs.find? fun v => decide (v.start ≤ a) && decide (a < v.finish)) = none ∧
      (ws.find? fun v => decide (v.start ≤ a) && decide (a < v.finish)) = none ∨
    ∃ v w, (vs.find? fun v => decide (v.start ≤ a) && decide (a < v.finish)) = some v ∧
      (ws.find? fun v => decide (v.start ≤ a) && decide (a < v.finish)) = some w ∧
      SameVma p q v w := by
  induction h with
  | nil => exact Or.inl ⟨rfl, rfl⟩
  | cons hvw _ ih =>
    rw [List.find?_cons, List.find?_cons, hvw.start, hvw.finish]
    split
    · exact Or.inr ⟨_, _, rfl, rfl, hvw⟩
    · exact ih

/-- Mapping the same page of the same frame. -/
theorem alike_map (h : Alike p q) (page frame flags : ℕ) :
    Alike (p.mapPage page frame flags) (q.mapPage page frame flags) := by
  refine ⟨h.heapStart, h.heapEnd, ?_, h.frames, ?_⟩
  · unfold Process.mapPage
    rw [h.table]
  · exact h.vmas.imp fun v w hvw => ⟨hvw.1, hvw.2, hvw.3, hvw.4, hvw.5, hvw.6⟩

theorem alike_setFrame (h : Alike p q) (frame : ℕ) (bytes : Memory) :
    Alike (p.setFrame frame bytes) (q.setFrame frame bytes) := by
  refine ⟨h.heapStart, h.heapEnd, h.table, ?_, ?_⟩
  · unfold Process.setFrame
    rw [h.frames]
  · exact h.vmas.imp fun v w hvw => ⟨hvw.1, hvw.2, hvw.3, hvw.4, hvw.5, hvw.6⟩

/-- Both fail, or both go on alike. -/
def Together (p q : Option Process) : Prop :=
  p = none ∧ q = none ∨ ∃ p' q', p = some p' ∧ q = some q' ∧ Alike p' q'

theorem access_alike (h : Alike p q) {a : Access} (ha : a.cached = none) :
    Together (access p a) (access q a) := by
  unfold access handlePageFault
  rw [h.table, h.heapStart, h.heapEnd]
  split_ifs
  · exact Or.inr ⟨p, q, rfl, rfl, h⟩
  · exact Or.inr ⟨_, _, rfl, rfl, alike_map h _ _ _⟩
  · rcases find_alike h.vmas a.addr with ⟨h1, h2⟩ | ⟨v, w, h1, h2, hvw⟩
    · rw [h1, h2]
      exact Or.inl ⟨rfl, rfl⟩
    · rw [h1, h2, ha]
      dsimp only
      rw [ite_self, ite_self]
      dsimp only
      rw [fill_alike hvw, hvw.flags]
      exact Or.inr ⟨_, _, rfl, rfl, alike_map (alike_setFrame h _ _) _ _ _⟩

theorem accesses_alike (h : Alike p q) (as : List Access) (ha : ∀ a ∈ as, a.cached = none) :
    Together (accesses p as) (accesses q as) := by
  unfold accesses
  induction as generalizing p q with
  | nil => exact Or.inr ⟨p, q, rfl, rfl, h⟩
  | cons a as ih =>
    rw [List.foldlM_cons, List.foldlM_cons]
    rcases access_alike h (ha a (by simp)) with ⟨h1, h2⟩ | ⟨p', q', h1, h2, h3⟩
    · rw [h1, h2]
      exact Or.inl ⟨rfl, rfl⟩
    · rw [h1, h2]
      exact ih h3 fun b hb => ha b (by simp [hb])

/-- What user code reads after any faults. -/
def reads (p : Process) (as : List Access) (addr : ℕ) : Option UInt8 :=
  (accesses p as).bind fun p => readByte p addr

theorem reads_alike (h : Alike p q) (as : List Access) (ha : ∀ a ∈ as, a.cached = none)
    (addr : ℕ) : reads q as addr = reads p as addr := by
  unfold reads
  rcases accesses_alike h as ha with ⟨h1, h2⟩ | ⟨p', q', h1, h2, h3⟩
  · rw [h1, h2]
  · rw [h1, h2]
    dsimp only [Option.bind]
    unfold readByte
    rw [h3.table, h3.frames]

theorem alike_mapStack (k : Kernel) (h : Alike p q) :
    Together (k.mapStack p) (k.mapStack q) := by
  unfold Kernel.mapStack
  generalize List.range 4 = l
  induction l generalizing p q with
  | nil => exact Or.inr ⟨p, q, rfl, rfl, h⟩
  | cons i l ih =>
    rw [List.foldlM_cons, List.foldlM_cons]
    cases k.stack i with
    | none => exact Or.inl ⟨rfl, rfl⟩
    | some frame => exact ih (alike_map (alike_setFrame h _ _) _ _ _)

/-! ## Where the starters agree -/

/-- The program headers lie in the part of the file that both starters read, and
name no interpreter. -/
structure Simple (f : File) : Prop where
  headers : ePhoff f.byte+32*ePhnum f.byte ≤ min 4096 f.size
  interp : ∀ old, interpPath f f.byte old = []

/-- A fixed position i386 executable whose name fits a thread's name, with room
for all VMAs of `sys_exec`, in blocks that do not happen to hold another file. -/
structure Plain (f : File) (filename : Path) (h : Heap) : Prop extends Simple f where
  name : filename ≠ [] ∧ filename.length ≤ 31
  type : eType f.byte = etExec
  machine : eMachine f.byte = em386
  room : ∀ l, h.vmaRoom l = true
  old : ∀ l, (h.vmaOld l).1 = .file → (h.vmaOld l).2 = none ∨ (h.vmaOld l).2 = some f

section Header

variable {f : File} (old : Memory)

theorem validMagic_header (hs : 52 ≤ f.size) :
    validMagic (headerBuf f 4096 old) = validMagic f.byte := by
  unfold validMagic
  rw [headerBuf_get old (by omega) (by omega), headerBuf_get old (by omega) (by omega),
    headerBuf_get old (by omega) (by omega), headerBuf_get old (by omega) (by omega)]

theorem eType_header (hs : 52 ≤ f.size) : eType (headerBuf f 4096 old) = eType f.byte :=
  read16_headerBuf old (by omega)

theorem eMachine_header (hs : 52 ≤ f.size) : eMachine (headerBuf f 4096 old) = eMachine f.byte :=
  read16_headerBuf old (by omega)

theorem eEntry_header (hs : 52 ≤ f.size) : eEntry (headerBuf f 4096 old) = eEntry f.byte :=
  read32_headerBuf old (by omega)

theorem size_of_available (h : 52 ≤ f.available 0 4096) : 52 ≤ f.size := by
  unfold File.available at h
  omega

theorem interpPath_header (h : Simple f) (hs : 52 ≤ f.size) (path : Memory) :
    interpPath f (headerBuf f 4096 old) path = [] := by
  have := h.interp path
  unfold interpPath at this ⊢
  rwa [phdrs_of_inside old (by omega) h.headers]

end Header

/-- Both starters ask for the magic number; `elf_thread_entry` also for the type
and the machine. -/
theorem elfAccepts_iff (f : File) (old old' : Memory) (h : execAccepts f old = true) :
    elfAccepts f old' = true ↔
      (eType f.byte = etExec ∨ eType f.byte = etDyn) ∧ eMachine f.byte = em386 := by
  unfold execAccepts at h
  rw [Bool.and_eq_true, decide_eq_true_eq] at h
  have hs := size_of_available h.1
  rw [validMagic_header old hs] at h
  unfold elfAccepts validateElf
  rw [validMagic_header old' hs, eType_header old' hs, eMachine_header old' hs]
  simp [h.1, h.2]

theorem phdrs_vaddr_lt {buf : Memory} {ph : Phdr} (h : ph ∈ phdrs buf) :
    ph.pVaddr < 4294967296 := by
  obtain ⟨i, -, rfl⟩ := List.mem_map.mp h
  exact read32_lt _ _

/-- A segment gives the same pages in both. -/
theorem execVma_same {f : File} {old : VmaType × Option File} {ph : Phdr}
    (hq : q.executable = some f) (hold : old.1 = .file → old.2 = none ∨ old.2 = some f)
    (hlt : ph.pVaddr < 4294967296) : SameVma p q (vmaOf f 0 ph) (execVma old ph) := by
  have hu : u32 (ph.pVaddr+0) = ph.pVaddr := u32_of_lt hlt
  refine ⟨?_, ?_, rfl, ?_, ?_, ?_⟩
  · unfold execVma vmaOf
    rw [hu]
  · unfold execVma vmaOf
    rw [hu]
  · unfold execVma vmaOf
    rw [hu]
  · unfold execVma vmaOf
    rw [hu]
  · rw [source_vmaOf]
    unfold Process.source Vma.isFile execVma
    dsimp only
    split_ifs with hfile
    · simp only [Bool.and_eq_true, beq_iff_eq] at hfile
      rcases hold hfile.1 with h | h
      · rw [h] at hfile
        exact absurd hfile.2 (by simp)
      · exact h
    · exact hq

theorem addSegment_passed {f : File} {kmalloc : List Vma → Bool} {s : List Vma × ℕ} {ph : Phdr}
    (h : ph.pType ≠ ptLoad ∨ ph.pMemsz = 0) : addSegment f 0 kmalloc s ph = some s := by
  unfold addSegment
  split_ifs with h1 h2
  · rfl
  · rfl
  · exact absurd h (by tauto)
  · exact absurd h (by tauto)

theorem addSegment_loaded {f : File} {kmalloc : List Vma → Bool} {s r : List Vma × ℕ} {ph : Phdr}
    (hlt : ph.pVaddr < 4294967296) (h : ¬(ph.pType ≠ ptLoad ∨ ph.pMemsz = 0))
    (hr : addSegment f 0 kmalloc s ph = some r) :
    r = (vmaOf f 0 ph::s.1, max s.2 (pageUp (ph.pVaddr+ph.pMemsz))) := by
  have hu : u32 (ph.pVaddr+0) = ph.pVaddr := u32_of_lt hlt
  unfold addSegment at hr
  rw [if_neg (by tauto), if_neg (by tauto), hu] at hr
  split_ifs at hr
  exact (Option.some.inj hr).symm

/-- The two loops over the program headers side by side. -/
theorem segments_alike {f : File} {kmalloc : List Vma → Bool} {h : Heap} {phs : List Phdr}
    {vs ws : List Vma} {m : ℕ} {r : List Vma × ℕ} (hq : q.executable = some f)
    (hroom : ∀ l, h.vmaRoom l = true)
    (hold : ∀ l, (h.vmaOld l).1 = .file → (h.vmaOld l).2 = none ∨ (h.vmaOld l).2 = some f)
    (hlt : ∀ ph ∈ phs, ph.pVaddr < 4294967296) (hvs : List.Forall₂ (SameVma p q) vs ws)
    (hr : phs.foldlM (addSegment f 0 kmalloc) (vs, m) = some r) :
    (phs.foldl h.execSegment ⟨ws, m, false⟩).maxVaddr = r.2 ∧
    List.Forall₂ (SameVma p q) r.1 (phs.foldl h.execSegment ⟨ws, m, false⟩).vmaList := by
  induction phs generalizing vs ws m with
  | nil =>
    have hr' : some (vs, m) = some r := hr
    rw [← Option.some.inj hr']
    exact ⟨rfl, hvs⟩
  | cons ph phs ih =>
    have hlt' := fun x hx => hlt x (List.mem_cons_of_mem _ hx)
    have hph := hlt ph (by simp)
    rw [List.foldlM_cons] at hr
    rw [List.foldl_cons]
    unfold Heap.execSegment
    rw [if_neg (by simp)]
    by_cases hload : ph.pType ≠ ptLoad ∨ ph.pMemsz = 0
    · rw [if_pos hload]
      rw [addSegment_passed hload] at hr
      exact ih hlt' hvs hr
    · rw [if_neg hload]
      dsimp only
      rw [if_pos (hroom ws)]
      obtain ⟨s, hs, hr'⟩ := Option.bind_eq_some_iff.mp hr
      rw [addSegment_loaded hph hload hs] at hr'
      exact ih hlt' (List.Forall₂.cons (execVma_same hq (hold ws) hph) hvs) hr'

/-- A start of a fixed position executable without interpreter. -/
theorem elfExec_simple {k : Kernel} {h : Heap} {filename : Path} {f : File} {s : Started}
    (hf : k.resolve filename = some f) (hn : filename.length ≤ 31) (hsimple : Simple f)
    (hs : elfExec k h filename = some s) :
    ∃ old space r, 52 ≤ f.size ∧ k.space = some space ∧
      h.load f old (if eType f.byte = etDyn then pieLoadBase else 0) h.supply
        { space with vmaList := [], executable := some f } = some r ∧
      k.mapStack (r.1.setHeap r.2.maxVaddr) = some s.process ∧ s.entry = r.2.entry := by
  unfold elfExec elfThreadEntry at hs
  rw [List.take_of_length_le hn, hf] at hs
  cases hh : h.header with
  | none =>
    rw [hh] at hs
    exact absurd hs (by simp)
  | some old =>
    rw [hh] at hs
    dsimp only at hs
    by_cases hacc : elfAccepts f old = false
    · rw [if_pos hacc] at hs
      exact absurd hs (by simp)
    have hsize : 52 ≤ f.size := by
      rw [Bool.not_eq_false, elfAccepts, Bool.and_eq_true, decide_eq_true_eq] at hacc
      exact size_of_available hacc.1
    rw [if_neg hacc, eType_header old hsize, interpPath_header old hsimple hsize] at hs
    obtain ⟨p0, hp0, hs⟩ := Option.bind_eq_some_iff.mp hs
    obtain ⟨space, hspace, hp0⟩ := Option.map_eq_some_iff.mp hp0
    obtain ⟨r, hr, hs⟩ := Option.bind_eq_some_iff.mp hs
    obtain ⟨r', hr', hs⟩ := Option.bind_eq_some_iff.mp hs
    obtain ⟨p1, hp1, hs⟩ := Option.map_eq_some_iff.mp hs
    unfold Heap.loadInterp at hr'
    rw [if_pos rfl] at hr'
    subst hs
    rw [hf] at hp0
    rw [← hp0] at hr
    rw [← Option.some.inj hr'] at hp1 ⊢
    exact ⟨old, space, r, hsize, hspace, hr, hp1, rfl⟩

theorem sysExec_inv {k : Kernel} {h : Heap} {filename : Path} {f : File} {s : Started}
    (hf : k.resolve filename = some f) (hs : sysExec k h filename = some s) :
    ∃ old space, 52 ≤ f.size ∧ k.space = some space ∧ s.entry = eEntry f.byte ∧
      k.mapStack (Process.setHeap { space with
          vmaList := ((phdrs (headerBuf f 4096 old)).foldl h.execSegment ⟨[], 0, false⟩).vmaList
          executable := k.resolve (k.execName filename) }
        ((phdrs (headerBuf f 4096 old)).foldl h.execSegment ⟨[], 0, false⟩).maxVaddr) =
      some s.process := by
  unfold sysExec at hs
  rw [hf] at hs
  cases hh : h.header with
  | none =>
    rw [hh] at hs
    exact absurd hs (by simp)
  | some old =>
    rw [hh] at hs
    dsimp only at hs
    by_cases hacc : execAccepts f old = false ∨ h.strings = false
    · rw [if_pos hacc] at hs
      exact absurd hs (by simp)
    have hsize : 52 ≤ f.size := by
      rw [not_or, Bool.not_eq_false, execAccepts, Bool.and_eq_true, decide_eq_true_eq] at hacc
      exact size_of_available hacc.1.1
    rw [if_neg hacc] at hs
    obtain ⟨p0, hp0, hs⟩ := Option.bind_eq_some_iff.mp hs
    obtain ⟨space, hspace, hp0⟩ := Option.map_eq_some_iff.mp hp0
    obtain ⟨p1, hp1, hs⟩ := Option.map_eq_some_iff.mp hs
    subst hs
    subst hp0
    exact ⟨old, space, hsize, hspace, eEntry_header old hsize, hp1⟩

/-- Without relocations, `load_elf_segments` only adds VMAs. -/
theorem load_fixed {h : Heap} {f : File} {old : Memory} {supply : ℕ → Supply} {p0 : Process}
    {r : Process × LoadedElf} (hs : 52 ≤ f.size) (hsimple : Simple f)
    (hr : h.load f old 0 supply p0 = some r) :
    ∃ v, (phdrs f.byte).foldlM (addSegment f 0 h.vmaRoom) (p0.vmaList, 0) = some v ∧
      r.1 = { p0 with vmaList := v.1 } ∧ r.2.maxVaddr = v.2 ∧ r.2.entry = eEntry f.byte := by
  unfold Heap.load ElfRelocations.loadElfSegments DemandPaging.loadElfSegments Heap.buffers at hr
  dsimp only at hr
  rw [phdrs_of_inside old (by omega) hsimple.headers, eEntry_header old hs] at hr
  cases hv : (phdrs f.byte).foldlM (addSegment f 0 h.vmaRoom) (p0.vmaList, 0) with
  | none =>
    rw [hv] at hr
    exact absurd hr (by simp)
  | some v =>
    rw [hv] at hr
    dsimp only [Option.map] at hr
    rw [if_neg (by simp), if_neg (by simp)] at hr
    rw [← Option.some.inj hr]
    exact ⟨v, rfl, rfl, rfl, u32_of_lt (read32_lt _ _)⟩

/-- Both starters give the same program. -/
def Agree (s s' : Started) : Prop :=
  s'.entry = s.entry ∧ s'.process.heapStart = s.process.heapStart ∧
  ∀ as : List Access, (∀ a ∈ as, a.cached = none) → ∀ addr,
    reads s'.process as addr = reads s.process as addr

theorem plain_agree {k : Kernel} {h h' : Heap} {filename : Path} {f : File} {s s' : Started}
    (hf : k.resolve filename = some f) (hp : Plain f filename h')
    (hs : elfExec k h filename = some s) (hs' : sysExec k h' filename = some s') :
    Agree s s' := by
  obtain ⟨old, space, r, hsize, hspace, hload, hstack, hentry⟩ :=
    elfExec_simple hf hp.name.2 hp.toSimple hs
  obtain ⟨old', space', -, hspace', hentry', hstack'⟩ := sysExec_inv hf hs'
  rw [hspace] at hspace'
  rw [← Option.some.inj hspace', phdrs_of_inside old' (by omega) hp.headers, Kernel.execName,
    if_neg hp.name.1, List.take_of_length_le hp.name.2, hf] at hstack'
  rw [hp.type, if_neg (by decide)] at hload
  obtain ⟨v, hv, hr, hmax, he⟩ := load_fixed hsize hp.toSimple hload
  have hseg := segments_alike (p := { space with executable := some f })
    (q := { space with executable := some f }) rfl hp.room hp.old
    (fun ph hph => phdrs_vaddr_lt hph) List.Forall₂.nil hv
  rw [hr, hmax] at hstack
  rw [hseg.1] at hstack'
  have halike : Alike
      (Process.setHeap { space with vmaList := v.1, executable := some f } v.2)
      (Process.setHeap { space with
        vmaList := ((phdrs f.byte).foldl h'.execSegment ⟨[], 0, false⟩).vmaList
        executable := some f } v.2) := by
    refine ⟨rfl, rfl, rfl, rfl, ?_⟩
    exact (segments_alike rfl hp.room hp.old (fun ph hph => phdrs_vaddr_lt hph)
      List.Forall₂.nil hv).2
  rcases alike_mapStack k halike with ⟨h1, -⟩ | ⟨p', q', h1, h2, h3⟩
  · rw [h1] at hstack
    exact absurd hstack (by simp)
  · rw [h1] at hstack
    rw [h2] at hstack'
    rw [Option.some.inj hstack] at h3
    rw [Option.some.inj hstack'] at h3
    refine ⟨hentry'.trans (hentry.trans he).symm, h3.heapStart, fun as has addr => ?_⟩
    exact reads_alike h3 as has addr

theorem load_entry {h : Heap} {f : File} {old : Memory} {bias : ℕ} {supply : ℕ → Supply}
    {p0 : Process} {r : Process × LoadedElf} (hs : 52 ≤ f.size)
    (hr : h.load f old bias supply p0 = some r) : r.2.entry = u32 (eEntry f.byte+bias) := by
  unfold Heap.load at hr
  cases hl : ElfRelocations.loadElfSegments f (h.buffers f old) bias h.vmaRoom supply p0 with
  | none =>
    rw [hl] at hr
    exact absurd hr (by simp)
  | some l =>
    rw [hl] at hr
    dsimp only at hr
    split_ifs at hr
    rw [← Option.some.inj hr]
    unfold ElfRelocations.loadElfSegments DemandPaging.loadElfSegments Heap.buffers at hl
    rw [Option.map_map] at hl
    obtain ⟨v, -, hv⟩ := Option.map_eq_some_iff.mp hl
    rw [← hv]
    dsimp only [Function.comp]
    rw [eEntry_header old hs]

/-- A fixed position i386 executable without interpreter, with a name of up to 31
characters, is started alike by both, and accepted by both. Of the files that
`sys_exec` accepts `elf_thread_entry` accepts those of a known type and machine;
a position independent file without interpreter begins elsewhere in each. -/
theorem starters_agree (k : Kernel) (h h' : Heap) (filename : Path) (f : File)
    (hf : k.resolve filename = some f) :
    (Plain f filename h' →
      (∀ s s', elfExec k h filename = some s → sysExec k h' filename = some s' → Agree s s') ∧
      ∀ old old', execAccepts f old = true → elfAccepts f old' = true) ∧
    (∀ old old', execAccepts f old = true → (elfAccepts f old' = true ↔
      (eType f.byte = etExec ∨ eType f.byte = etDyn) ∧ eMachine f.byte = em386)) ∧
    (eType f.byte = etDyn → Simple f → filename.length ≤ 31 →
      ∀ s s', elfExec k h filename = some s → sysExec k h' filename = some s' → ¬Agree s s') := by
  refine ⟨fun hp => ⟨fun s s' hs hs' => plain_agree hf hp hs hs', fun old old' hacc => ?_⟩,
    fun old old' hacc => elfAccepts_iff f old old' hacc, fun ht hsimple hn s s' hs hs' hag => ?_⟩
  · exact (elfAccepts_iff f old old' hacc).mpr ⟨Or.inl hp.type, hp.machine⟩
  · obtain ⟨old, space, r, hsize, -, hload, -, hentry⟩ := elfExec_simple hf hn hsimple hs
    obtain ⟨-, -, -, -, hentry', -⟩ := sysExec_inv hf hs'
    have he := load_entry hsize hload
    rw [if_pos ht] at he
    have := hag.1
    rw [hentry, hentry', he] at this
    have hlt : eEntry f.byte < 4294967296 := read32_lt _ _
    unfold u32 pieLoadBase at this
    omega

/-- An executable with one segment. -/
def smallProgram (type machine : ℕ) : File where
  size := 84
  byte := fun k => UInt8.ofNat
    (([0x464C457F, 0x00010101, 0, 0, machine*65536+type, 1, 0x08048034, 52, 0, 0, 0x00200034, 1, 0,
      1, 0, 0x08048000, 0, 84, 84, 5, 4096].getD (k/4) 0)/256^(k%4))
  size_lt := by decide

/-- Every name leads to the same file. -/
def smallKernel (f : File) : Kernel where
  resolve := fun _ => some f
  name := [0x61]
  space := some kernelPages
  stack := fun i => some (0x2000000+4096*i)

/-- `old` is what is left in the blocks of VMAs. -/
def smallHeap (old : VmaType × Option File) : Heap where
  header := some fun _ => 0
  interpHeader := none
  interpPath := fun _ => 0
  strings := true
  vmaRoom := fun _ => true
  vmaOld := fun _ => old
  kmalloc := fun _ => none
  supply := fun _ => ⟨none, false⟩
  interpSupply := fun _ => ⟨none, false⟩

theorem starters_agree_small :
    ∃ s s', elfExec (smallKernel (smallProgram 2 3)) (smallHeap (.anon, none)) [0x62] = some s ∧
      sysExec (smallKernel (smallProgram 2 3)) (smallHeap (.anon, none)) [0x62] = some s' ∧
      Agree s s' := by
  have h1 : (elfExec (smallKernel (smallProgram 2 3)) (smallHeap (.anon, none)) [0x62]).isSome :=
    by decide +kernel
  have h2 : (sysExec (smallKernel (smallProgram 2 3)) (smallHeap (.anon, none)) [0x62]).isSome :=
    by decide +kernel
  obtain ⟨s, hs⟩ := Option.isSome_iff_exists.mp h1
  obtain ⟨s', hs'⟩ := Option.isSome_iff_exists.mp h2
  have hplain : Plain (smallProgram 2 3) [0x62] (smallHeap (.anon, none)) := by
    refine ⟨⟨by decide +kernel, fun old => ?_⟩, by decide, by decide +kernel, by decide +kernel,
      fun _ => rfl, fun _ h => absurd (show VmaType.anon = .file from h) (by decide)⟩
    have hnone : ((phdrs (smallProgram 2 3).byte).find? fun ph =>
        ph.pType == ptInterp && decide (ph.pFilesz < 64)) = none := by
      decide +kernel
    unfold interpPath
    rw [hnone]
  exact ⟨s, s', hs, hs', ((starters_agree _ _ _ _ _ rfl).1 hplain).1 s s' hs hs'⟩

/-- A position independent file begins at another address, a file for another
machine is accepted by `sys_exec` only, and a VMA in a block that belonged to
another program shows that program's bytes. -/
theorem starters_differ :
    (∃ s s', elfExec (smallKernel (smallProgram 3 3)) (smallHeap (.anon, none)) [0x62] = some s ∧
      sysExec (smallKernel (smallProgram 3 3)) (smallHeap (.anon, none)) [0x62] = some s' ∧
      s.entry = 0x48048034 ∧ s'.entry = 0x08048034 ∧ ¬Agree s s') ∧
    (execAccepts (smallProgram 2 62) (fun _ => 0) = true ∧
      elfAccepts (smallProgram 2 62) (fun _ => 0) = false) ∧
    ∃ s s', elfExec (smallKernel (smallProgram 2 3)) (smallHeap (.anon, none)) [0x62] = some s ∧
      sysExec (smallKernel (smallProgram 2 3))
        (smallHeap (.file, some (oneRelocation 0x40))) [0x62] = some s' ∧
      ¬Agree s s' := by
  refine ⟨?_, by decide +kernel, ?_⟩
  · have h1 : (elfExec (smallKernel (smallProgram 3 3)) (smallHeap (.anon, none)) [0x62]).map
        Started.entry = some 0x48048034 := by
      decide +kernel
    have h2 : (sysExec (smallKernel (smallProgram 3 3)) (smallHeap (.anon, none)) [0x62]).map
        Started.entry = some 0x08048034 := by
      decide +kernel
    obtain ⟨s, hs, he⟩ := Option.map_eq_some_iff.mp h1
    obtain ⟨s', hs', he'⟩ := Option.map_eq_some_iff.mp h2
    refine ⟨s, s', hs, hs', he, he', fun hag => ?_⟩
    have := hag.1
    rw [he, he'] at this
    exact absurd this (by decide)
  · have h1 : (elfExec (smallKernel (smallProgram 2 3)) (smallHeap (.anon, none)) [0x62]).map
        (fun s => reads s.process [⟨0x08048010, none, 5⟩] 0x08048010) = some (some 2) := by
      decide +kernel
    have h2 : (sysExec (smallKernel (smallProgram 2 3))
        (smallHeap (.file, some (oneRelocation 0x40))) [0x62]).map
        (fun s => reads s.process [⟨0x08048010, none, 5⟩] 0x08048010) = some (some 3) := by
      decide +kernel
    obtain ⟨s, hs, he⟩ := Option.map_eq_some_iff.mp h1
    obtain ⟨s', hs', he'⟩ := Option.map_eq_some_iff.mp h2
    refine ⟨s, s', hs, hs', fun hag => ?_⟩
    have := hag.2.2 [⟨0x08048010, none, 5⟩] (by simp) 0x08048010
    rw [he, he'] at this
    exact absurd this (by decide)

end Vlsmc.ProgramStart
