import Vlsmc.DemandPaging

/-!
# The VMAs of a forked process

`sys_fork` copies the VMA list record by record into memory from `kmalloc`, and leaves two
fields of each copy as the memory has them: `type` and `file_vnode`. The page fault handler
reads both when it fills a page. The requests to the kernel heap, with what the blocks hold,
and the frames that `alloc_frame` hands out are arguments.
-/

set_option autoImplicit false

namespace Vlsmc.ForkVmas
open Vlsmc.ByteMemory Vlsmc.Words Vlsmc.Elf
open Vlsmc.DemandPaging (readFile)

def vmaTypeAnon : UInt8 := 0
def vmaTypeFile : UInt8 := 1

structure Vma where
  start : ℕ
  finish : ℕ
  fileOffset : ℕ
  fileSize : ℕ
  flags : ℕ
  type : UInt8
  fileVnode : ℕ
  deriving DecidableEq

/-- What a block of the kernel heap holds where a VMA has its last two fields. -/
structure Garbage where
  type : UInt8
  fileVnode : ℕ
  deriving DecidableEq

/-- The fields that forking and demand paging use; `present` are the pages that the
directory maps. -/
structure Thread where
  unused : Bool
  name : List UInt8
  heapStart : ℕ
  heapEnd : ℕ
  vmaList : List Vma
  present : ℕ → Bool

structure Threads where
  thread : ℕ → Thread
  currentTid : ℕ

def maxThreads : ℕ := 32

/-- The loop over the parent's list, which ends when a request fails. -/
def copyVmas (kmalloc : ℕ → Option Garbage) : ℕ → List Vma → List Vma
  | _, [] => []
  | k, v::rest =>
    match kmalloc k with
    | none => []
    | some g => { v with type := g.type, fileVnode := g.fileVnode }::copyVmas kmalloc (k+1) rest

/-- The first unused slot; slot zero is not looked at. -/
def freeSlot (s : Threads) : Option ℕ :=
  (List.range' 1 (maxThreads-1)).find? fun i => (s.thread i).unused

/-- `sys_fork` in a system call. `cloned` says whether `clone_directory` finds the frames that
it needs; the directory that it makes maps the same pages. -/
def sysFork (s : Threads) (kmalloc : ℕ → Option Garbage) (cloned : Bool) :
    Option ℕ × Threads :=
  match freeSlot s with
  | none => (none, s)
  | some childTid =>
    let parent := s.thread s.currentTid
    let put (th : Thread) : Threads :=
      { s with thread := fun i => if i = childTid then th else s.thread i }
    let child : Thread := { (s.thread childTid) with
      unused := false
      name := parent.name
      heapStart := parent.heapStart
      heapEnd := parent.heapEnd
      vmaList := copyVmas kmalloc 0 parent.vmaList }
    if cloned then (some childTid, put { child with present := parent.present })
    else (none, put { child with unused := true, vmaList := [] })

/-- A vnode in kernel memory: its number, and the file that its `read` delivers. -/
structure Vnode where
  inodeNum : ℕ
  file : Option File

/-- What a page fault reads: the vnodes by their addresses, the bytes of the cached pages, and
the files that paths lead to. -/
structure Store where
  vnodes : ℕ → Option Vnode
  cache : ℕ → ℕ → Option Memory
  resolve : List UInt8 → Option File

def Vma.isReadonly (v : Vma) : Bool := !v.flags.testBit 1

def Vma.isFile (v : Vma) : Bool := v.type == vmaTypeFile && v.fileVnode != 0

def Vma.fileDataEnd (v : Vma) : ℕ := u32 (v.start+v.fileSize)

/-- The offset in the file of a page of the VMA. -/
def Vma.pageOffset (v : Vma) (page : ℕ) : ℕ := u32 (v.fileOffset+sub32 page v.start)

/-- A cleared frame with the part of the file that belongs to the page. -/
def fill (v : Vma) (page : ℕ) (source : Option File) : Memory :=
  let zeroed : Memory := fun _ => 0
  if page < v.fileDataEnd then
    let readSize := if v.fileDataEnd < u32 (page+4096) then v.fileDataEnd-page else 4096
    readFile source (v.pageOffset page) readSize zeroed
  else zeroed

/-- The page that `handle_page_fault` gives a user access to an absent page. `stale` is what the
frame from `alloc_frame` holds. There is no page outside heap and VMAs, nor when a file VMA has
no vnode at the address that is read. -/
def demandPage (st : Store) (th : Thread) (stale : Memory) (addr : ℕ) : Option Memory :=
  if th.heapStart ≤ addr ∧ addr < th.heapEnd then some stale
  else
    match th.vmaList.find? fun v => decide (v.start ≤ addr) && decide (addr < v.finish) with
    | none => none
    | some v =>
      let page := pageDown addr
      if v.isFile then
        match st.vnodes v.fileVnode with
        | none =>
          if v.isReadonly || decide (page < v.fileDataEnd) then none else some (fill v page none)
        | some vn =>
          match if v.isReadonly then st.cache vn.inodeNum (v.pageOffset page) else none with
          | some bytes => some bytes
          | none => some (fill v page vn.file)
      else some (fill v page (st.resolve th.name))

/-- The same page, or none for both. -/
def SamePage (a b : Option Memory) : Prop :=
  match a, b with
  | none, none => True
  | some m, some n => ∀ i < 4096, m i = n i
  | _, _ => False

/-- The child's list describes what the parent's does, and the child gets by a fault on an absent
page what the parent would have got. `stale` and `stale'` are in the frames that the faults of
parent and child take. -/
def Preserved (st : Store) (stale stale' : Memory) (parent child : Thread) : Prop :=
  child.vmaList = parent.vmaList ∧ ∀ addr, parent.present (addr/4096) = false →
    child.present (addr/4096) = false ∧
      SamePage (demandPage st child stale' addr) (demandPage st parent stale addr)

theorem samePage_refl (a : Option Memory) : SamePage a a := by
  cases a with
  | none => trivial
  | some m => exact fun _ _ => rfl

/-- The copies are equal to the parent's records exactly when every block already holds the two
fields. -/
theorem copyVmas_eq_iff (kmalloc : ℕ → Option Garbage) (k : ℕ) (l : List Vma) :
    copyVmas kmalloc k l = l ↔
      ∀ i v, l[i]? = some v → kmalloc (k+i) = some ⟨v.type, v.fileVnode⟩ := by
  induction l generalizing k with
  | nil => simp [copyVmas]
  | cons a l ih =>
    have hsplit : (∀ i v, (a::l)[i]? = some v → kmalloc (k+i) = some ⟨v.type, v.fileVnode⟩) ↔
        kmalloc k = some ⟨a.type, a.fileVnode⟩ ∧
        ∀ i v, l[i]? = some v → kmalloc (k+1+i) = some ⟨v.type, v.fileVnode⟩ := by
      constructor
      · intro h
        refine ⟨h 0 a rfl, fun i v hv => ?_⟩
        rw [show k+1+i = k+(i+1) by omega]
        exact h (i+1) v hv
      · rintro ⟨h0, h⟩ i v hv
        cases i with
        | zero => exact Option.some.inj hv ▸ h0
        | succ i =>
          rw [show k+(i+1) = k+1+i by omega]
          exact h i v hv
    rw [hsplit, ← ih (k+1), copyVmas]
    cases kmalloc k with
    | none => simp
    | some g =>
      obtain ⟨t, f⟩ := g
      obtain ⟨s, e, o, z, fl, t', f'⟩ := a
      simp [and_assoc]

/-- What the child of a fork that succeeds has of its parent. -/
theorem sysFork_child {s t : Threads} {kmalloc : ℕ → Option Garbage} {cloned : Bool} {tid : ℕ}
    (h : sysFork s kmalloc cloned = (some tid, t)) :
    t.thread tid = { (s.thread s.currentTid) with
      unused := false
      vmaList := copyVmas kmalloc 0 (s.thread s.currentTid).vmaList } := by
  unfold sysFork at h
  split at h
  · simp at h
  · split_ifs at h with hc
    · obtain ⟨htid, rfl⟩ := Prod.mk.inj h
      obtain rfl := Option.some.inj htid
      simp
    · simp at h

/-- Faults of two threads with the same name, heap and VMAs. -/
theorem demandPage_same (st : Store) {th th' : Thread} {stale stale' : Memory} {addr : ℕ}
    (hname : th'.name = th.name) (hstart : th'.heapStart = th.heapStart)
    (hend : th'.heapEnd = th.heapEnd) (hvma : th'.vmaList = th.vmaList)
    (hstale : th.heapStart ≤ addr → addr < th.heapEnd → ∀ i < 4096, stale' i = stale i) :
    SamePage (demandPage st th' stale' addr) (demandPage st th stale addr) := by
  unfold demandPage
  rw [hname, hstart, hend, hvma]
  split_ifs with hh
  · exact hstale hh.1 hh.2
  · exact samePage_refl _

/-- A fork preserves what has not been paged in exactly when the heap's blocks hold the right
`type` and `file_vnode` already and no page of the process heap is left to be given. -/
theorem fork_preserves_iff (s t : Threads) (kmalloc : ℕ → Option Garbage) (cloned : Bool)
    (tid : ℕ) (h : sysFork s kmalloc cloned = (some tid, t)) (st : Store)
    (stale stale' : Memory) :
    Preserved st stale stale' (s.thread s.currentTid) (t.thread tid) ↔
      (∀ i v, (s.thread s.currentTid).vmaList[i]? = some v →
        kmalloc i = some ⟨v.type, v.fileVnode⟩) ∧
      ∀ addr, (s.thread s.currentTid).present (addr/4096) = false →
        (s.thread s.currentTid).heapStart ≤ addr → addr < (s.thread s.currentTid).heapEnd →
        ∀ i < 4096, stale' i = stale i := by
  have hlist := copyVmas_eq_iff kmalloc 0 (s.thread s.currentTid).vmaList
  simp only [Nat.zero_add] at hlist
  rw [Preserved, sysFork_child h]
  simp only [hlist]
  constructor
  · rintro ⟨hgrant, hpage⟩
    refine ⟨hgrant, fun addr habs hs he i hi => ?_⟩
    have hsame := (hpage addr habs).2
    simp only [demandPage, hs, he, and_self, if_true] at hsame
    exact hsame i hi
  · rintro ⟨hgrant, hstale⟩
    refine ⟨hgrant, fun addr habs => ⟨habs, ?_⟩⟩
    exact demandPage_same st rfl rfl rfl (hlist.mpr hgrant) fun hs he => hstale addr habs hs he

/-- Thread one runs the program `A` with one VMA; all other slots are unused. -/
def oneProcess (v : Vma) : Threads where
  currentTid := 1
  thread := fun i =>
    { unused := i != 1, name := [0x41], heapStart := 0x8000, heapEnd := 0x8000, vmaList := [v],
      present := fun _ => false }

def anonVma : Vma := ⟨0x20000000, 0x20001000, 0, 0, 7, vmaTypeAnon, 0⟩

/-- The first page of the dynamic linker, whose vnode is at 0x5000. -/
def interpVma : Vma := ⟨0x40000000, 0x40001000, 0, 4096, 5, vmaTypeFile, 0x5000⟩

theorem fork_preserves_anon : ∃ t, sysFork (oneProcess anonVma) (fun _ => some ⟨0, 0⟩) true =
    (some 2, t) ∧ ∀ st stale stale', Preserved st stale stale'
      ((oneProcess anonVma).thread 1) (t.thread 2) := by
  refine ⟨_, rfl, fun st stale stale' => (fork_preserves_iff (oneProcess anonVma) _
    (fun _ => some ⟨0, 0⟩) true 2 rfl st stale stale').mpr ⟨fun i v hv => ?_, ?_⟩⟩
  · obtain rfl : anonVma = v := List.mem_singleton.mp (List.mem_of_getElem? hv) |>.symm
    rfl
  · intro addr _ hs he
    exact absurd he (Nat.not_lt.mpr hs)

def filled (b : UInt8) : File := ⟨4096, fun _ => b, by decide⟩

/-- The program's file has bytes 9, the linker's has bytes 7. -/
def twoFiles : Store where
  vnodes := fun p => if p = 0x5000 then some ⟨12, some (filled 7)⟩ else none
  cache := fun _ _ => none
  resolve := fun _ => some (filled 9)

/-- With zeroed heap blocks the child reads the linker's page from the program's file. -/
theorem fork_changes_interp : ∃ t, sysFork (oneProcess interpVma) (fun _ => some ⟨0, 0⟩) true =
    (some 2, t) ∧ (t.thread 2).vmaList ≠ ((oneProcess interpVma).thread 1).vmaList ∧
    ∀ stale stale',
      (demandPage twoFiles ((oneProcess interpVma).thread 1) stale 0x40000000).map (· 0) = some 7 ∧
      (demandPage twoFiles (t.thread 2) stale' 0x40000000).map (· 0) = some 9 ∧
      ¬ Preserved twoFiles stale stale' ((oneProcess interpVma).thread 1) (t.thread 2) := by
  refine ⟨_, rfl, by decide, fun stale stale' => ⟨rfl, rfl, fun h => ?_⟩⟩
  exact absurd h.1 (by decide)

end Vlsmc.ForkVmas
