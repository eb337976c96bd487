import Vlsmc.IdentityMap
import Vlsmc.MmioGrants
import Vlsmc.Regions

/-!
# The mappings of the kernel under the memory calls

`sys_mmap`, `sys_munmap`, `sys_sbrk` and `sys_map_mmio` work on the loaded page tables, in which
the kernel lives below `KERNEL_SPACE_END` and the tables themselves in the recursive window.
Each call checks other bounds, and `sys_munmap` checks none.
-/

set_option autoImplicit false

namespace Vlsmc.KernelMappings
open Vlsmc.Words Vlsmc.PhysicalMemory Vlsmc.Paging Vlsmc.CowClone Vlsmc.AddressSpaceSteps
open Vlsmc.AddressSpaces Vlsmc.AddressSpaceLifetimes Vlsmc.AddressSpaceBoot Vlsmc.UserTables
open Vlsmc.AddressSpaceRuns (Event run MeetsRun run_sound)
open Vlsmc.IdentityMap (Identity)
open Vlsmc.Elf Vlsmc.DemandPaging Vlsmc.PmmRuns
open Vlsmc.Regions (minusOne pageFlags mapAnonymous mapFixed findFreeVaddr)
open Vlsmc.MmioGrants (mmioPages sysMapMmio kernelSpaceEnd)

/-- The calling thread, with the loaded page tables. -/
structure Caller where
  machine : Machine
  heapStart : ℕ
  heapEnd : ℕ
  vmaList : List Vma
  thread : MmioGrants.Thread

/-- The loops that unmap pages one after the other and free their frames. -/
def munmapPages (addr : ℕ) : ℕ → Machine → Machine
  | 0, m => m
  | n+1, m => (munmapPages addr n m).munmapPage (u32 (addr+4096*n))

/-- The loop of `sys_mmap`; when a frame is missing the pages are taken back. -/
def mmapPages (vaddr flags : ℕ) : ℕ → ℕ → Machine → Bool × Machine
  | 0, _, m => (true, m)
  | n+1, i, m =>
    if m.allocFrame.1 = 0 then (false, munmapPages vaddr i m.allocFrame.2)
    else mmapPages vaddr flags n (i+1) (m.mmapPage (u32 (vaddr+4096*i)) flags)

/-- What one `sys_mmap` gets from the rest of the kernel: whether `kmalloc` has a record, the
number of frames it takes from the manager for the kernel heap, and the vnodes of the open
files. -/
structure Help where
  kmalloc : Bool
  blocks : ℕ
  fdTable : ℕ → Option File

/-- The address that the caller asks for or that is found; zero where the call fails. -/
def mmapVaddr (vmas : List Vma) (addr length flags : ℕ) : Option ℕ :=
  if addr ≠ 0 ∧ flags.testBit mapFixed then
    some (if addr < kernelSpaceEnd then 0 else pageDown addr)
  else findFreeVaddr vmas length

/-- The machine after `kmalloc`. -/
def Caller.record (c : Caller) (help : Help) : Machine :=
  { c.machine with pmm := (c.machine.pmm.allocBlocks help.blocks).2 }

/-- `sys_mmap`; `none` only if the search does not end. -/
def sysMmap (c : Caller) (help : Help) (addr size prot flags fd : ℕ) : Option (ℕ × Caller) :=
  if size = 0 then some (minusOne, c)
  else
    let length := pageUp size
    (mmapVaddr c.vmaList addr length flags).map fun vaddr =>
      if vaddr = 0 then (minusOne, c)
      else
        let m := c.record help
        if help.kmalloc = false then (minusOne, { c with machine := m })
        else
          let vma : Vma := {
            start := vaddr, finish := u32 (vaddr+length), flags := pageFlags prot, type := .anon,
            fileVnode := none, fileOffset := 0, fileSize := 0 }
          if flags.testBit mapAnonymous then
            match mmapPages vaddr (pageFlags prot) (length/4096) 0 m with
            | (false, m) => (minusOne, { c with machine := m })
            | (true, m) => (vaddr, { c with machine := m, vmaList := vma::c.vmaList })
          else
            match if toInt32 fd < 0 ∨ 16 ≤ toInt32 fd then none else help.fdTable fd with
            | none => (minusOne, { c with machine := m })
            | some f => (vaddr, { c with
              machine := m
              vmaList := { vma with type := .file, fileVnode := some f, fileSize := length }::
                c.vmaList })

def sysMunmap (c : Caller) (addr size : ℕ) : ℕ × Caller :=
  if addr = 0 ∨ size = 0 then (minusOne, c)
  else
    let addr := pageDown addr
    let length := pageUp size
    (0, { c with
      machine := munmapPages addr (length/4096) c.machine
      vmaList := c.vmaList.filter fun v =>
        !(decide (addr ≤ v.start) && decide (v.finish ≤ u32 (addr+length))) })

/-- The checks of `sys_sbrk`. -/
def sbrkRefused (heapStart heapEnd ebx : ℕ) : Bool :=
  let newEnd := u32 (heapEnd+ebx)
  decide (0 < toInt32 ebx) && decide (newEnd < heapEnd) ||
  decide (toInt32 ebx < 0) && decide (heapEnd < newEnd) ||
  decide (newEnd < heapStart) || decide (newEnd < kernelSpaceEnd) ||
  decide (0x8FFFFFFF ≤ newEnd)

/-- The loop of `sys_sbrk`. -/
def sbrkPages (addr : ℕ) : ℕ → Machine → Machine
  | 0, m => m
  | n+1, m => (sbrkPages addr n m).sbrkPage (u32 (addr+4096*n))

def sysSbrk (c : Caller) (ebx : ℕ) : ℕ × Caller :=
  if toInt32 ebx = 0 then (c.heapEnd, c)
  else if sbrkRefused c.heapStart c.heapEnd ebx then (minusOne, c)
  else
    let newEnd := u32 (c.heapEnd+ebx)
    let m := if toInt32 ebx < 0 then
      sbrkPages (pageUp newEnd) ((pageUp c.heapEnd-pageUp newEnd)/4096) c.machine else c.machine
    (c.heapEnd, { c with machine := m, heapEnd := newEnd })

/-- System calls with the values of their registers. -/
inductive Call
  | mmap (help : Help) (ebx ecx edx esi edi : UInt32)
  | munmap (ebx ecx : UInt32)
  | sbrk (ebx : UInt32)
  | mapMmio (ebx ecx edx : UInt32)

def Call.run (c : Caller) : Call → Option Caller
  | .mmap help ebx ecx edx esi edi =>
    (sysMmap c help ebx.toNat ecx.toNat edx.toNat esi.toNat edi.toNat).map Prod.snd
  | .munmap ebx ecx => some (sysMunmap c ebx.toNat ecx.toNat).2
  | .sbrk ebx => some (sysSbrk c ebx.toNat).2
  | .mapMmio ebx ecx edx =>
    some { c with machine := (sysMapMmio c.thread c.machine ebx.toNat ecx.toNat edx.toNat).2 }

def runCalls : List Call → Caller → Option Caller
  | [], c => some c
  | call::calls, c => (call.run c).bind (runCalls calls)

/-- `PAGE_TABLES_VADDR`. -/
def windowStart : ℕ := 0xFFC00000

def Kernel (virt : ℕ) : Prop := virt < kernelSpaceEnd ∨ windowStart ≤ virt ∧ virt < 4294967296

def UserPage (virt : ℕ) : Prop := kernelSpaceEnd ≤ virt ∧ virt < windowStart

/-- The directory and the tables below `KERNEL_SPACE_END`. -/
def KernelFrame (m : Machine) (f : ℕ) : Prop :=
  f = m.cr3 ∨ ∃ i < 8, f = frameOf (m.mem m.cr3 i)

/-- The number of free frames. -/
def freeFrames (p : Pmm) : ℕ := countSet p.maxFrames fun f => !p.memoryBitmap f

/-- The pages that a call maps as long as there are frames. -/
def Call.Maps (c : Caller) (virt : ℕ) : Call → Prop
  | .mmap help ebx ecx _ esi _ => ecx.toNat ≠ 0 ∧ help.kmalloc = true ∧
    esi.toNat.testBit mapAnonymous = true ∧ ∃ vaddr i,
      mmapVaddr c.vmaList ebx.toNat (pageUp ecx.toNat) esi.toNat = some vaddr ∧ vaddr ≠ 0 ∧
      i < pageUp ecx.toNat/4096 ∧ i < freeFrames c.machine.pmm ∧ virt = u32 (vaddr+4096*i)
  | .mapMmio ebx ecx edx => ∃ pages, mmioPages c.thread ebx.toNat ecx.toNat edx.toNat = some pages ∧
    ∃ p ∈ pages, p.1 = virt
  | _ => False

/-- No call maps or unmaps a page of the kernel, unless there is nothing to unmap, and none maps
a frame of the page tables to a device address. -/
def Call.Inside (c : Caller) (call : Call) : Prop :=
  (∀ virt, call.Maps c virt → UserPage virt) ∧
  match call with
  | .munmap ebx ecx => ebx.toNat ≠ 0 → ∀ i < pageUp ecx.toNat/4096,
    UserPage (u32 (pageDown ebx.toNat+4096*i)) ∨
      c.machine.getPhysical (u32 (pageDown ebx.toNat+4096*i)) = 0
  | .mapMmio ebx ecx edx => ∀ pages, mmioPages c.thread ebx.toNat ecx.toNat edx.toNat = some pages →
    ∀ p ∈ pages, ¬KernelFrame c.machine (frameOf p.2)
  | _ => True

/-- A condition on the calls of a run, each in the state it is made in. -/
def Along (P : Caller → Call → Prop) : List Call → Caller → Prop
  | [], _ => True
  | call::calls, c => P c call ∧ ∀ d, call.run c = some d → Along P calls d

/-- A directory entry that no mapping changes. -/
def Fixed (pde : ℕ) : Prop := present pde = true ∧ user pde = true

/-- The page tables as the kernel lays them out. -/
structure Laid (m : Machine) : Prop where
  window : frameOf (m.mem m.cr3 1023) = m.cr3
  low : ∀ i < 8, frameOf (m.mem m.cr3 i) ≠ m.cr3
  tables : ∀ j, 8 ≤ j → j < 1023 → present (m.mem m.cr3 j) = true →
    ¬KernelFrame m (frameOf (m.mem m.cr3 j))
  pages : ∀ j, 8 ≤ j → j < 1023 → present (m.mem m.cr3 j) = true → ∀ k < 1024,
    present (m.mem (frameOf (m.mem m.cr3 j)) k) = true →
    ¬KernelFrame m (frameOf (m.mem (frameOf (m.mem m.cr3 j)) k))
  used : ∀ f, KernelFrame m f → m.pmm.memoryBitmap f = true

/-- The entries of the kernel are as before, and so are those of `T` and the fixed ones. -/
structure Kept (T : ℕ → Prop) (m m' : Machine) : Prop where
  cr3 : m'.cr3 = m.cr3
  dir : ∀ k, k < 8 ∨ k = 1023 ∨ T k ∨ Fixed (m.mem m.cr3 k) → m'.mem m.cr3 k = m.mem m.cr3 k
  tables : ∀ i < 8, m'.mem (frameOf (m.mem m.cr3 i)) = m.mem (frameOf (m.mem m.cr3 i))

variable {T : ℕ → Prop} {m m' m'' : Machine} {virt phys flags : ℕ}

theorem Kept.refl (m : Machine) : Kept T m m := ⟨rfl, fun _ _ => rfl, fun _ _ => rfl⟩

theorem Kept.trans (h : Kept T m m') (h' : Kept T m' m'') : Kept T m m'' := by
  refine ⟨h'.cr3.trans h.cr3, fun k hk => ?_, fun i hi => ?_⟩
  · have hsame := h.dir k hk
    rw [← hsame, ← h.cr3] at hk
    rw [← hsame, ← h.cr3]
    exact h'.dir k hk
  · have hsame := h.dir i (Or.inl hi)
    have htab := h'.tables i hi
    rw [h.cr3, hsame] at htab
    exact htab.trans (h.tables i hi)

theorem Kept.mono {S : ℕ → Prop} (h : Kept T m m')
    (hS : ∀ k, S k → T k ∨ Fixed (m.mem m.cr3 k)) : Kept S m m' :=
  ⟨h.cr3, fun k hk => h.dir k (by
    rcases hk with hk | hk | hk | hk
    · exact Or.inl hk
    · exact Or.inr (Or.inl hk)
    · exact Or.inr (Or.inr (hS k hk))
    · exact Or.inr (Or.inr (Or.inr hk))), h.tables⟩

theorem kernelFrame_kept (h : Kept T m m') (f : ℕ) : KernelFrame m' f ↔ KernelFrame m f := by
  unfold KernelFrame
  rw [h.cr3]
  refine or_congr_right (exists_congr fun i => and_congr_right fun hi => ?_)
  rw [h.dir i (Or.inl hi)]

/-- What an operation has to leave for the layout to stay. -/
theorem laid_of (h : Laid m) (hk : Kept T m m')
    (htables : ∀ j, 8 ≤ j → j < 1023 → present (m'.mem m.cr3 j) = true →
      ¬KernelFrame m (frameOf (m'.mem m.cr3 j)) ∧ ∀ k < 1024,
        present (m'.mem (frameOf (m'.mem m.cr3 j)) k) = true →
        ¬KernelFrame m (frameOf (m'.mem (frameOf (m'.mem m.cr3 j)) k)))
    (hused : ∀ f, KernelFrame m f → m'.pmm.memoryBitmap f = true) : Laid m' := by
  refine ⟨?_, fun i hi => ?_, fun j h8 hj hp => ?_, fun j h8 hj hp k hk1 hp' => ?_, fun f hf => ?_⟩
  · rw [hk.cr3, hk.dir 1023 (Or.inr (Or.inl rfl))]
    exact h.window
  · rw [hk.cr3, hk.dir i (Or.inl hi)]
    exact h.low i hi
  · rw [kernelFrame_kept hk, hk.cr3]
    rw [hk.cr3] at hp
    exact (htables j h8 hj hp).1
  · rw [kernelFrame_kept hk, hk.cr3]
    rw [hk.cr3] at hp hp'
    exact (htables j h8 hj hp).2 k hk1 hp'
  · exact hused f ((kernelFrame_kept hk f).mp hf)

/-- What one step does: the layout stays, with the entries of the kernel. -/
structure Good (T : ℕ → Prop) (m m' : Machine) : Prop where
  laid : Laid m'
  kept : Kept T m m'

theorem Good.refl (h : Laid m) : Good T m m := ⟨h, Kept.refl m⟩

theorem Good.trans (h : Good T m m') (h' : Good T m' m'') : Good T m m'' :=
  ⟨h'.laid, h.kept.trans h'.kept⟩

theorem allocFrame_used (p : Pmm) :
    ∀ f, p.memoryBitmap f = true → p.allocFrame.2.memoryBitmap f = true := by
  intro f hf
  rcases allocFrame_eq p with heq | ⟨g, -, -, heq⟩
  · rw [heq]
    exact hf
  · rw [heq]
    by_cases hg : f = g
    · rw [hg]
      exact (occupy_spec p g _).2.1
    · rw [((occupy_spec p g _).2.2.2 f hg).1]
      exact hf

section Words

variable (h : Laid m)
include h

theorem good_pmm (hmem : m'.mem = m.mem) (hcr3 : m'.cr3 = m.cr3)
    (hused : ∀ f, m.pmm.memoryBitmap f = true → KernelFrame m f →
      m'.pmm.memoryBitmap f = true) : Good T m m' := by
  have hkept : Kept T m m' := ⟨hcr3, fun _ _ => by rw [hmem], fun _ _ => by rw [hmem]⟩
  refine ⟨laid_of h hkept (fun j h8 hj hp => ?_) fun f hf => hused f (h.used f hf) hf, hkept⟩
  rw [hmem] at hp ⊢
  exact ⟨h.tables j h8 hj hp, h.pages j h8 hj hp⟩

/-- Words change in a frame outside the page tables of the kernel, and no page comes to lead
into these. -/
theorem good_words {t : ℕ} (ht : ¬KernelFrame m t) (hcr3 : m'.cr3 = m.cr3)
    (hpmm : m'.pmm = m.pmm) (hmem : ∀ f k, m'.mem f k = m.mem f k ∨ f = t ∧
      (present (m'.mem f k) = true → ¬KernelFrame m (frameOf (m'.mem f k)))) : Good T m m' := by
  have hother : ∀ f, f ≠ t → m'.mem f = m.mem f := fun f hf => funext fun k =>
    (hmem f k).resolve_right fun hc => hf hc.1
  have hdir : m'.mem m.cr3 = m.mem m.cr3 := hother _ fun he => ht (Or.inl he.symm)
  have hkept : Kept T m m' := ⟨hcr3, fun _ _ => by rw [hdir],
    fun i hi => hother _ fun he => ht (Or.inr ⟨i, hi, he.symm⟩)⟩
  refine ⟨laid_of h hkept (fun j h8 hj hp => ?_) fun f hf => hpmm ▸ h.used f hf, hkept⟩
  rw [hdir] at hp ⊢
  refine ⟨h.tables j h8 hj hp, fun k hk hw => ?_⟩
  rcases hmem (frameOf (m.mem m.cr3 j)) k with heq | ⟨-, hnew⟩
  · rw [heq] at hw ⊢
    exact h.pages j h8 hj hp k hk hw
  · exact hnew hw

theorem good_clear {t : ℕ} (ht : ¬KernelFrame m t) : Good T m (m.clear t) := by
  refine good_words h ht rfl rfl fun f k => ?_
  by_cases hc : f = t ∧ k < 1024
  · refine Or.inr ⟨hc.1, fun hp => ?_⟩
    have hz : (m.clear t).mem f k = 0 := if_pos hc
    rw [hz] at hp
    exact absurd hp (by decide)
  · exact Or.inl (if_neg hc)

/-- An entry of a table for user pages. -/
theorem good_write {j : ℕ} (k word : ℕ) (h8 : 8 ≤ j) (hj : j < 1023)
    (hp : present (m.mem m.cr3 j) = true)
    (hw : present word = true → ¬KernelFrame m (frameOf word)) :
    Good T m (m.write (frameOf (m.mem m.cr3 j), k) word) := by
  refine good_words h (h.tables j h8 hj hp) rfl rfl fun f i => ?_
  rw [write_mem]
  by_cases hc : f = frameOf (m.mem m.cr3 j) ∧ i = k
  · rw [if_pos hc]
    exact Or.inr ⟨hc.1, hw⟩
  · rw [if_neg hc]
    exact Or.inl rfl

/-- The user flag of an entry of the directory. -/
theorem good_flag {j : ℕ} (h8 : 8 ≤ j) (hj : j < 1023) (hp : present (m.mem m.cr3 j) = true)
    (hT : ¬T j) (hu : user (m.mem m.cr3 j) = false) :
    Good T m (m.write (m.cr3, j) (m.mem m.cr3 j ||| 4)) := by
  generalize hm : m.write (m.cr3, j) (m.mem m.cr3 j ||| 4) = m'
  have hmem : ∀ f k, m'.mem f k =
      if f = m.cr3 ∧ k = j then m.mem m.cr3 j ||| 4 else m.mem f k := by
    intro f k
    rw [← hm]
    rfl
  have hcr3 : m'.cr3 = m.cr3 := by rw [← hm]; rfl
  have hother : ∀ f, f ≠ m.cr3 → m'.mem f = m.mem f := fun f hf => funext fun k => by
    rw [hmem, if_neg fun hc => hf hc.1]
  have hkept : Kept T m m' := by
    refine ⟨hcr3, fun k hk => ?_, fun i hi => hother _ (h.low i hi)⟩
    rw [hmem]
    refine if_neg ?_
    rintro ⟨-, rfl⟩
    rcases hk with hk | hk | hk | hk
    · omega
    · omega
    · exact hT hk
    · exact absurd hk.2 (by simp [hu])
  have hframes : ∀ k, frameOf (m'.mem m.cr3 k) = frameOf (m.mem m.cr3 k) := by
    intro k
    rw [hmem]
    split_ifs with hc
    · rw [frameOf_or_four, hc.2]
    · rfl
  refine ⟨laid_of h hkept (fun k h8' hk hp' => ?_) fun f hf => ?_, hkept⟩
  · rw [hframes]
    have hpk : present (m.mem m.cr3 k) = true := by
      by_cases hkj : k = j
      · rw [hkj]
        exact hp
      · rwa [hmem, if_neg fun hc => hkj hc.2] at hp'
    have ht := h.tables k h8' hk hpk
    rw [hother _ fun he => ht (Or.inl he)]
    exact ⟨ht, h.pages k h8' hk hpk⟩
  · rw [← hm]
    exact h.used f hf

theorem good_alloc : Good T m m.allocFrame.2 := by
  exact good_pmm h rfl rfl fun f hf _ => allocFrame_used m.pmm f hf

theorem alloc_other (h0 : m.allocFrame.1 ≠ 0) : ¬KernelFrame m m.allocFrame.1 := by
  intro hf
  have hused := h.used _ hf
  rcases allocFrame_eq m.pmm with heq | ⟨g, -, hg, heq⟩
  · exact h0 (congrArg Prod.fst heq)
  · have hfst : m.allocFrame.1 = g := congrArg Prod.fst heq
    rw [hfst, hg] at hused
    exact absurd hused (by simp)

theorem good_free {f : ℕ} (hf : ¬KernelFrame m f) : Good T m (m.freeFrame f) := by
  refine good_pmm h rfl rfl fun g hg hk => ?_
  have hne : g ≠ f := by
    rintro rfl
    exact hf hk
  exact (freeFrame_same m.pmm hne).1.trans hg

/-- A table is made for a page. -/
theorem good_made {t : ℕ} (hv : UserPage virt) (hphys : ¬KernelFrame m phys)
    (ht : ¬KernelFrame m t) (hT : ¬T (virt/4194304))
    (hp : present (m.mem m.cr3 (virt/4194304)) = false)
    (hm : TableMade m m' virt phys flags t) (hused : ∀ f, KernelFrame m f →
      m'.pmm.memoryBitmap f = true) : Good T m m' := by
  have h8 : 8 ≤ virt/4194304 := by
    have := hv.1
    unfold kernelSpaceEnd at this
    omega
  have hlt : virt/4194304 < 1023 := by
    have := hv.2
    unfold windowStart at this
    omega
  have hfl : (if user flags then 7 else 3) < 4096 := by split_ifs <;> decide
  have hdir : ∀ k, k ≠ virt/4194304 → m'.mem m.cr3 k = m.mem m.cr3 k := fun k hk => by
    rw [hm.mem, if_neg fun hc => ht (Or.inl hc.1.symm), if_neg fun hc => hk hc.2,
      if_neg fun hc => ht (Or.inl hc.1.symm)]
  have hpde : frameOf (m'.mem m.cr3 (virt/4194304)) = t := by
    rw [hm.mem, if_neg fun hc => ht (Or.inl hc.1.symm), if_pos ⟨rfl, rfl⟩, frameOf_entry _ hfl]
  have hother : ∀ f, f ≠ m.cr3 → f ≠ t → m'.mem f = m.mem f := fun f hf hft => funext fun k => by
    rw [hm.mem, if_neg fun hc => hft hc.1, if_neg fun hc => hf hc.1, if_neg fun hc => hft hc.1]
  have hkept : Kept T m m' := by
    refine ⟨hm.cr3, fun k hk => hdir k ?_, fun i hi => hother _ (h.low i hi)
      fun he => ht (Or.inr ⟨i, hi, he.symm⟩)⟩
    rintro rfl
    rcases hk with hk | hk | hk | hk
    · omega
    · omega
    · exact hT hk
    · exact absurd hk.1 (by simp [hp])
  -- the words of the new table
  have hnew : ∀ k < 1024, present (m'.mem t k) = true → ¬KernelFrame m (frameOf (m'.mem t k)) := by
    intro k hk hw
    rw [hm.mem] at hw ⊢
    by_cases hc : t = t ∧ k = virt/4096%1024
    · rw [if_pos hc, frameOf_pte]
      exact hphys
    · rw [if_neg hc, if_neg fun hc' => ht (Or.inl hc'.1), if_pos ⟨rfl, hk⟩] at hw
      exact absurd hw (by decide)
  refine ⟨laid_of h hkept (fun j hj8 hj hpj => ?_) hused, hkept⟩
  by_cases hjv : j = virt/4194304
  · rw [hjv, hpde]
    exact ⟨ht, hnew⟩
  · rw [hdir j hjv] at hpj ⊢
    refine ⟨h.tables j hj8 hj hpj, fun k hk hw => ?_⟩
    by_cases he : frameOf (m.mem m.cr3 j) = t
    · rw [he] at hw ⊢
      exact hnew k hk hw
    · rw [hother _ (fun he' => h.tables j hj8 hj hpj (Or.inl he')) he] at hw ⊢
      exact h.pages j hj8 hj hpj k hk hw

end Words

section Pages

theorem userPage_table (hv : UserPage virt) :
    virt < 4294967296 ∧ 8 ≤ virt/4194304 ∧ virt/4194304 < 1023 := by
  unfold UserPage kernelSpaceEnd windowStart at hv
  omega

/-- `map_page` for a page of the user. Where its table has to be made or marked, the entry of the
directory changes. -/
theorem good_mapPage (h : Laid m) (hv : UserPage virt) (hphys : ¬KernelFrame m phys)
    (hT : T (virt/4194304) → Fixed (m.mem m.cr3 (virt/4194304))) :
    Good T m (m.mapPage virt phys flags) := by
  obtain ⟨hword, h8, hlt⟩ := userPage_table hv
  have hframe : present (entry phys ((flags%4096) ||| 1)) = true →
      ¬KernelFrame m (frameOf (entry phys ((flags%4096) ||| 1))) := fun _ => by
    rw [frameOf_pte]
    exact hphys
  by_cases hp : present (m.mem m.cr3 (virt/4194304)) = true
  · by_cases hu : user flags = true → user (m.mem m.cr3 (virt/4194304)) = true
    · rw [mapPage_present h.window hword hp hu]
      exact good_write h _ _ h8 hlt hp hframe
    · obtain ⟨huf, hnu⟩ := Classical.not_imp.mp hu
      rw [Bool.not_eq_true] at hnu
      have hflag : Good T m (m.write (m.cr3, virt/4194304) (m.mem m.cr3 (virt/4194304) ||| 4)) :=
        good_flag h h8 hlt hp (fun hT' => absurd (hT hT').2 (by simp [hnu])) hnu
      rw [mapPage_raised h.window hword (by omega) hp huf hnu]
      generalize hm1 : m.write (m.cr3, virt/4194304) (m.mem m.cr3 (virt/4194304) ||| 4) = m1
        at hflag ⊢
      have hw : m1.mem m1.cr3 (virt/4194304) = m.mem m.cr3 (virt/4194304) ||| 4 := by
        rw [← hm1]
        exact if_pos ⟨rfl, rfl⟩
      have hp1 : present (m1.mem m1.cr3 (virt/4194304)) = true := by rw [hw, present_or_four, hp]
      have hframe1 : frameOf (m1.mem m1.cr3 (virt/4194304)) =
          frameOf (m.mem m.cr3 (virt/4194304)) := by rw [hw, frameOf_or_four]
      rw [← hframe1]
      refine hflag.trans (good_write hflag.laid _ _ h8 hlt hp1 fun _ => ?_)
      rw [kernelFrame_kept hflag.kept, frameOf_pte]
      exact hphys
  · rw [Bool.not_eq_true] at hp
    by_cases h0 : m.allocFrame.1 = 0
    · rw [mapPage_full h.window hword hp h0]
      exact good_alloc h
    · have hother := alloc_other h h0
      have hne : m.allocFrame.1 ≠ m.cr3 := fun he => hother (Or.inl he)
      have hmade : TableMade m (m.mapPage virt phys flags) virt phys flags m.allocFrame.1 :=
        mapPage_absent h.window hword (by omega) hp h0 hne
      refine good_made h hv hphys hother (fun hT' => absurd (hT hT').1 (by simp [hp])) hp hmade
        fun f hf => ?_
      rw [hmade.pmm]
      exact (good_alloc (T := T) h).laid.used f hf

/-- The entries that the processor reads for an address of the kernel. In the window these show
the directory itself. -/
theorem walk_kept (h : Laid m) (hk : Kept T m m') (hv : Kernel virt)
    (hT : windowStart ≤ virt → virt/4096%1024 < 8 ∨ virt/4096%1024 = 1023 ∨
      T (virt/4096%1024) ∨ Fixed (m.mem m.cr3 (virt/4096%1024))) :
    m'.walk virt = m.walk virt := by
  unfold Machine.walk
  rw [hk.cr3]
  rcases hv with hlow | ⟨hwin, hlt⟩
  · have h8 : virt/4194304 < 8 := by
      unfold kernelSpaceEnd at hlow
      omega
    rw [hk.dir _ (Or.inl h8), hk.tables _ h8]
  · have hwin' : virt/4194304 = 1023 := by
      unfold windowStart at hwin
      omega
    rw [hwin', hk.dir 1023 (Or.inr (Or.inl rfl)), h.window, hk.dir _ (hT hwin)]

theorem good_munmapPage (h : Laid m) (hv : UserPage virt ∨ m.getPhysical virt = 0) :
    Good T m (m.munmapPage virt) := by
  unfold Machine.munmapPage
  dsimp only
  by_cases h0 : m.getPhysical virt = 0
  · rw [if_pos h0]
    exact Good.refl h
  · rw [if_neg h0]
    obtain ⟨hword, h8, hlt⟩ := userPage_table (hv.resolve_right h0)
    have hphys := getPhysical_walk h.window hword
    by_cases hp : (present (m.walk virt).1 && present (m.walk virt).2) = true
    · rw [if_pos hp] at hphys
      rw [Bool.and_eq_true] at hp
      have hun : m.unmapPage virt =
          m.write (frameOf (m.mem m.cr3 (virt/4194304)), virt/4096%1024) 0 :=
        unmapPage_present h.window hword hp.1
      have hwrite : Good T m (m.unmapPage virt) := by
        rw [hun]
        exact good_write h _ 0 h8 hlt hp.1 fun hc => absurd hc (by decide)
      rw [hphys, frameOf_entry _ (Nat.mod_lt _ (by decide))]
      refine hwrite.trans (good_free hwrite.laid ?_)
      rw [kernelFrame_kept hwrite.kept]
      exact h.pages _ h8 hlt hp.1 _ (Nat.mod_lt _ (by decide)) hp.2
    · rw [if_neg hp] at hphys
      exact absurd hphys h0

theorem good_mmapPage (h : Laid m) (hv : UserPage virt)
    (hT : T (virt/4194304) → Fixed (m.mem m.cr3 (virt/4194304))) :
    Good T m (m.mmapPage virt flags) := by
  have halloc : Good T m m.allocFrame.2 := good_alloc h
  unfold Machine.mmapPage
  dsimp only
  by_cases h0 : m.allocFrame.1 = 0
  · rw [if_pos h0]
    exact halloc
  rw [if_neg h0]
  have hother := alloc_other h h0
  have hmap : Good T m.allocFrame.2 (m.allocFrame.2.mapPage virt m.allocFrame.1 flags) :=
    good_mapPage halloc.laid hv (fun hf => hother ((kernelFrame_kept halloc.kept _).mp hf)) hT
  generalize hm' : m.allocFrame.2.mapPage virt m.allocFrame.1 flags = m' at hmap ⊢
  split_ifs with hp
  · -- the page is cleared in the frame that it leads to
    rw [Bool.and_eq_true] at hp
    obtain ⟨-, h8, hlt⟩ := userPage_table hv
    exact (halloc.trans hmap).trans (good_clear hmap.laid
      (hmap.laid.pages _ h8 hlt hp.1 _ (Nat.mod_lt _ (by decide)) hp.2))
  · exact halloc.trans hmap

end Pages

section Loops

theorem kernel_of_not_user (hv : virt < 4294967296) (hu : ¬UserPage virt) : Kernel virt := by
  unfold UserPage at hu
  unfold Kernel
  omega

/-- Pages where nothing is mapped stay so while others are unmapped. -/
theorem good_munmapPages (h : Laid m) (addr n : ℕ) (hv : ∀ i < n, UserPage (u32 (addr+4096*i)) ∨
    m.getPhysical (u32 (addr+4096*i)) = 0) : Good T m (munmapPages addr n m) := by
  have hall : Good (fun _ => True) m (munmapPages addr n m) := by
    induction n with
    | zero => exact Good.refl h
    | succ n ih =>
      have hn := ih fun i hi => hv i (by omega)
      refine hn.trans (good_munmapPage hn.laid ?_)
      rcases hv n (by omega) with hu | hz
      · exact Or.inl hu
      · by_cases hu : UserPage (u32 (addr+4096*n))
        · exact Or.inl hu
        · have hwalk := walk_kept h hn.kept (kernel_of_not_user (u32_lt _) hu)
            fun _ => Or.inr (Or.inr (Or.inl trivial))
          right
          rw [getPhysical_walk h.window (u32_lt _), ← hwalk] at hz
          rw [getPhysical_walk hn.laid.window (u32_lt _)]
          exact hz
  exact ⟨hall.laid, hall.kept.mono fun _ _ => Or.inl trivial⟩

theorem sbrkPages_eq (addr n : ℕ) (m : Machine) : sbrkPages addr n m = munmapPages addr n m := by
  induction n with
  | zero => rfl
  | succ n ih => rw [sbrkPages, munmapPages, ih, CowRefinement.sbrkPage_eq]

theorem freeFrames_le {p q : Pmm} (hmax : q.maxFrames = p.maxFrames)
    (h : ∀ f, p.memoryBitmap f = true → q.memoryBitmap f = true) :
    freeFrames q ≤ freeFrames p := by
  unfold freeFrames countSet
  rw [hmax]
  refine Finset.card_le_card fun f hf => ?_
  rw [Finset.mem_filter] at hf ⊢
  refine ⟨hf.1, ?_⟩
  cases hb : p.memoryBitmap f with
  | false => simp [hb]
  | true => exact absurd hf.2 (by simp [h f hb])

theorem allocFrame_free {p : Pmm} (h0 : p.allocFrame.1 ≠ 0) :
    freeFrames p.allocFrame.2+1 = freeFrames p := by
  rcases allocFrame_eq p with heq | ⟨g, hlt, hg, heq⟩
  · exact absurd (congrArg Prod.fst heq) h0
  · obtain ⟨hmax, hbit, -, hsame⟩ := occupy_spec p g (u32 (p.usedFrames+1))
    rw [heq]
    unfold freeFrames
    rw [hmax]
    exact countSet_clear hlt (by simp [hg]) (by simp [hbit]) fun f hf => by rw [(hsame f hf).1]

theorem mapPage_pmm (m : Machine) (virt phys flags : ℕ) :
    (m.mapPage virt phys flags).pmm = m.pmm ∨
      (m.mapPage virt phys flags).pmm = m.pmm.allocFrame.2 := by
  unfold Machine.mapPage
  dsimp only
  split_ifs
  all_goals first | exact Or.inl rfl | exact Or.inr rfl

/-- A page that gets a frame takes at least that one. -/
theorem mmapPage_free (h0 : m.allocFrame.1 ≠ 0) :
    freeFrames (m.mmapPage virt flags).pmm+1 ≤ freeFrames m.pmm := by
  have hle : freeFrames (m.mmapPage virt flags).pmm ≤ freeFrames m.allocFrame.2.pmm := by
    have hmap : freeFrames (m.allocFrame.2.mapPage virt m.allocFrame.1 flags).pmm ≤
        freeFrames m.allocFrame.2.pmm := by
      rcases mapPage_pmm m.allocFrame.2 virt m.allocFrame.1 flags with hp | hp
      · rw [hp]
      · rw [hp]
        exact freeFrames_le (allocFrame_maxFrames _) (allocFrame_used _)
    unfold Machine.mmapPage
    dsimp only
    rw [if_neg h0]
    split_ifs
    · exact hmap
    · exact hmap
  have hone : freeFrames m.allocFrame.2.pmm+1 = freeFrames m.pmm := allocFrame_free h0
  omega

/-- The loop of `sys_mmap` reaches page `i` only after it has taken `i` frames. -/
theorem good_mmapPages {vaddr n limit : ℕ}
    (hv : ∀ j < n, j < limit → UserPage (u32 (vaddr+4096*j))) (c : ℕ) : ∀ (i : ℕ) (m : Machine),
    i+c = n → Laid m → freeFrames m.pmm+i ≤ limit →
    (∀ j < n, j < limit → T (u32 (vaddr+4096*j)/4194304) →
      Fixed (m.mem m.cr3 (u32 (vaddr+4096*j)/4194304))) →
    Good T m (mmapPages vaddr flags c i m).2 := by
  induction c with
  | zero => exact fun _ m _ h _ _ => Good.refl h
  | succ c ih =>
    intro i m hi h hfree hT
    unfold mmapPages
    by_cases h0 : m.allocFrame.1 = 0
    · rw [if_pos h0]
      have halloc : Good T m m.allocFrame.2 := good_alloc h
      exact halloc.trans (good_munmapPages halloc.laid vaddr i fun j hj =>
        Or.inl (hv j (by omega) (by omega)))
    · rw [if_neg h0]
      have hone : freeFrames (m.mmapPage (u32 (vaddr+4096*i)) flags).pmm+1 ≤ freeFrames m.pmm :=
        mmapPage_free h0
      have hstep : Good T m (m.mmapPage (u32 (vaddr+4096*i)) flags) :=
        good_mmapPage h (hv i (by omega) (by omega)) (hT i (by omega) (by omega))
      refine hstep.trans (ih (i+1) _ (by omega) hstep.laid (by omega) fun j hj hj' hTj => ?_)
      have hfixed := hT j hj hj' hTj
      rw [hstep.kept.cr3, hstep.kept.dir _ (Or.inr (Or.inr (Or.inr hfixed)))]
      exact hfixed

end Loops

section Calls

theorem allocBlocks_used (p : Pmm) (n : ℕ) : (p.allocBlocks n).2.maxFrames = p.maxFrames ∧
    ∀ f, p.memoryBitmap f = true → (p.allocBlocks n).2.memoryBitmap f = true := by
  rcases allocBlocks_eq p n with heq | ⟨st, -, -, -, heq⟩
  · rw [heq]
    exact ⟨rfl, fun _ => id⟩
  · rw [heq]
    dsimp only
    clear heq
    generalize List.range n = L
    induction L generalizing p with
    | nil => exact ⟨rfl, fun _ => id⟩
    | cons i L ih =>
      obtain ⟨hmax, hused⟩ := ih (p.markUsed (st+i))
      exact ⟨hmax, fun f hf => hused f (by
        change (if f = st+i then true else p.memoryBitmap f) = true
        rw [hf, ite_self])⟩

variable {c d : Caller} {call : Call}

theorem good_record (h : Laid c.machine) (help : Help) : Good T c.machine (c.record help) :=
  good_pmm h rfl rfl fun f hf _ => (allocBlocks_used c.machine.pmm help.blocks).2 f hf

/-- The entries that no page of the call lies below. -/
def Call.Leaves (c : Caller) (call : Call) (k : ℕ) : Prop :=
  ∀ virt, call.Maps c virt → virt/4194304 ≠ k

theorem good_mmap (h : Laid c.machine) {help : Help} {ebx ecx edx esi edi : UInt32}
    (hin : ∀ virt, (Call.mmap help ebx ecx edx esi edi).Maps c virt → UserPage virt)
    (hr : (Call.mmap help ebx ecx edx esi edi).run c = some d) :
    Good ((Call.mmap help ebx ecx edx esi edi).Leaves c) c.machine d.machine ∧
      d.heapEnd = c.heapEnd := by
  obtain ⟨⟨ret, d'⟩, hs, rfl⟩ := Option.map_eq_some_iff.mp hr
  dsimp only
  unfold sysMmap at hs
  by_cases hsize : ecx.toNat = 0
  · rw [if_pos hsize] at hs
    obtain ⟨-, rfl⟩ := Prod.mk.inj (Option.some.inj hs)
    exact ⟨Good.refl h, rfl⟩
  rw [if_neg hsize] at hs
  obtain ⟨vaddr, hvaddr, hs⟩ := Option.map_eq_some_iff.mp hs
  by_cases hv0 : vaddr = 0
  · rw [if_pos hv0] at hs
    obtain ⟨-, rfl⟩ := Prod.mk.inj hs
    exact ⟨Good.refl h, rfl⟩
  rw [if_neg hv0] at hs
  have hrecord : Good ((Call.mmap help ebx ecx edx esi edi).Leaves c) c.machine (c.record help) :=
    good_record h help
  dsimp only at hs
  by_cases hk : help.kmalloc = false
  · rw [if_pos hk] at hs
    obtain ⟨-, rfl⟩ := Prod.mk.inj hs
    exact ⟨hrecord, rfl⟩
  rw [if_neg hk] at hs
  by_cases hanon : esi.toNat.testBit mapAnonymous = true
  · rw [if_pos hanon] at hs
    have hmaps : ∀ j < pageUp ecx.toNat/4096, j < freeFrames c.machine.pmm →
        (Call.mmap help ebx ecx edx esi edi).Maps c (u32 (vaddr+4096*j)) := fun j hj hj' =>
      ⟨hsize, by simpa using hk, hanon, vaddr, j, hvaddr, hv0, hj, hj', rfl⟩
    have hfree : freeFrames (c.record help).pmm ≤ freeFrames c.machine.pmm :=
      freeFrames_le (allocBlocks_used _ _).1 (allocBlocks_used _ _).2
    have hpages : Good ((Call.mmap help ebx ecx edx esi edi).Leaves c) (c.record help)
        (mmapPages vaddr (pageFlags edx.toNat) (pageUp ecx.toNat/4096) 0 (c.record help)).2 :=
      good_mmapPages (fun j hj hj' => hin _ (hmaps j hj hj')) _ 0 _ (Nat.zero_add _) hrecord.laid
        hfree fun j hj hj' hT => absurd rfl (hT _ (hmaps j hj hj'))
    generalize mmapPages vaddr (pageFlags edx.toNat) (pageUp ecx.toNat/4096) 0 (c.record help) = r
      at hs hpages
    obtain ⟨ok, m⟩ := r
    cases ok with
    | false =>
      obtain ⟨-, rfl⟩ := Prod.mk.inj hs
      exact ⟨hrecord.trans hpages, rfl⟩
    | true =>
      obtain ⟨-, rfl⟩ := Prod.mk.inj hs
      exact ⟨hrecord.trans hpages, rfl⟩
  · rw [if_neg hanon] at hs
    split at hs
    · obtain ⟨-, rfl⟩ := Prod.mk.inj hs
      exact ⟨hrecord, rfl⟩
    · obtain ⟨-, rfl⟩ := Prod.mk.inj hs
      exact ⟨hrecord, rfl⟩

theorem good_mapMmio (h : Laid c.machine) {ebx ecx edx : UInt32}
    (hin : (Call.mapMmio ebx ecx edx).Inside c) : Good ((Call.mapMmio ebx ecx edx).Leaves c)
      c.machine (sysMapMmio c.thread c.machine ebx.toNat ecx.toNat edx.toNat).2 := by
  obtain ⟨huser, hframes⟩ := hin
  unfold sysMapMmio
  cases hpages : mmioPages c.thread ebx.toNat ecx.toNat edx.toNat with
  | none => exact Good.refl h
  | some pages =>
    have hloop : ∀ (L : List (ℕ × ℕ)) (m : Machine),
        Good ((Call.mapMmio ebx ecx edx).Leaves c) c.machine m → (∀ p ∈ L, p ∈ pages) →
        Good ((Call.mapMmio ebx ecx edx).Leaves c) c.machine
          (L.foldl (fun m p => m.mapPage p.1 (frameOf p.2) 7) m) := by
      intro L
      induction L with
      | nil => exact fun m hm _ => hm
      | cons p L ih =>
        intro m hm hL
        have hp := hL p List.mem_cons_self
        have hmap : (Call.mapMmio ebx ecx edx).Maps c p.1 := ⟨pages, hpages, p, hp, rfl⟩
        refine ih _ (hm.trans (good_mapPage hm.laid (huser _ hmap) ?_ fun hT => ?_))
          fun q hq => hL q (List.mem_cons_of_mem p hq)
        · rw [kernelFrame_kept hm.kept]
          exact hframes pages hpages p hp
        · exact absurd rfl (hT _ hmap)
    exact hloop pages c.machine (Good.refl h) fun _ => id

/-- The heap ends below the window, so what it gives up are pages of the user. -/
theorem good_sbrk (h : Laid c.machine) (hheap : c.heapEnd ≤ windowStart) (ebx : ℕ) :
    Good T c.machine (sysSbrk c ebx).2.machine ∧ (sysSbrk c ebx).2.heapEnd ≤ windowStart := by
  unfold sysSbrk
  by_cases h0 : toInt32 ebx = 0
  · rw [if_pos h0]
    exact ⟨Good.refl h, hheap⟩
  rw [if_neg h0]
  by_cases hrefused : sbrkRefused c.heapStart c.heapEnd ebx = true
  · rw [if_pos hrefused]
    exact ⟨Good.refl h, hheap⟩
  rw [if_neg hrefused]
  unfold sbrkRefused at hrefused
  simp only [Bool.or_eq_true, Bool.and_eq_true, decide_eq_true_eq, not_or, not_and, not_lt,
    not_le] at hrefused
  obtain ⟨⟨-, hlow⟩, hhigh⟩ := hrefused
  dsimp only
  generalize u32 (c.heapEnd+ebx) = newEnd at *
  unfold kernelSpaceEnd at hlow
  unfold windowStart at hheap
  refine ⟨?_, ?_⟩
  · split_ifs
    · rw [sbrkPages_eq]
      refine good_munmapPages h _ _ fun i hi => Or.inl ?_
      unfold UserPage kernelSpaceEnd windowStart
      unfold pageUp pageDown u32 at *
      omega
    · exact Good.refl h
  · unfold windowStart
    omega

theorem good_call (h : Laid c.machine) (hheap : c.heapEnd ≤ windowStart) (hin : call.Inside c)
    (hr : call.run c = some d) :
    Good (call.Leaves c) c.machine d.machine ∧ d.heapEnd ≤ windowStart := by
  cases call with
  | mmap help ebx ecx edx esi edi =>
    obtain ⟨hgood, hend⟩ := good_mmap h hin.1 hr
    exact ⟨hgood, hend.trans_le hheap⟩
  | munmap ebx ecx =>
    rw [← Option.some.inj hr]
    unfold sysMunmap
    split_ifs with h0
    · exact ⟨Good.refl h, hheap⟩
    · exact ⟨good_munmapPages h _ _ (hin.2 fun he => h0 (Or.inl he)), hheap⟩
  | sbrk ebx =>
    rw [← Option.some.inj hr]
    exact good_sbrk h hheap ebx.toNat
  | mapMmio ebx ecx edx =>
    rw [← Option.some.inj hr]
    exact ⟨good_mapMmio h hin, hheap⟩

end Calls

section Runs

/-- The entries of an address are as before, and the frames that they lie in are in use. -/
structure Untouched (m m' : Machine) (virt : ℕ) : Prop where
  entries : m'.walk virt = m.walk virt
  directory : m'.pmm.memoryBitmap m.cr3 = true
  table : m'.pmm.memoryBitmap (frameOf (m.walk virt).1) = true

/-- In the window, the entry that shows there is one of the kernel or that of a table for user
pages. -/
def Settled (m : Machine) (virt : ℕ) : Prop :=
  windowStart ≤ virt → virt/4096%1024 < 8 ∨ virt/4096%1024 = 1023 ∨
    Fixed (m.mem m.cr3 (virt/4096%1024))

/-- The pages that a call maps have their tables. -/
def Call.Tabled (c : Caller) (call : Call) : Prop :=
  ∀ virt, call.Maps c virt → Fixed (c.machine.mem c.machine.cr3 (virt/4194304))

theorem good_run (calls : List Call) : ∀ (c d : Caller), Laid c.machine →
    c.heapEnd ≤ windowStart → Along (fun c call => call.Inside c ∧
      ∀ k, T k → call.Leaves c k ∨ Fixed (c.machine.mem c.machine.cr3 k)) calls c →
    runCalls calls c = some d → Good T c.machine d.machine := by
  induction calls with
  | nil =>
    intro c d h _ _ hr
    rw [← Option.some.inj hr]
    exact Good.refl h
  | cons call calls ih =>
    intro c d h hheap hin hr
    obtain ⟨e, he, hr⟩ := Option.bind_eq_some_iff.mp hr
    obtain ⟨⟨hcall, hT⟩, hrest⟩ := hin
    obtain ⟨hgood, hheap'⟩ := good_call h hheap hcall he
    have hstep : Good T c.machine e.machine := ⟨hgood.laid, hgood.kept.mono hT⟩
    exact hstep.trans (ih e d hgood.laid hheap' (hrest e he) hr)

theorem untouched_of_good (h : Laid m) (hg : Good T m m') (hv : Kernel virt)
    (hT : windowStart ≤ virt → virt/4096%1024 < 8 ∨ virt/4096%1024 = 1023 ∨
      T (virt/4096%1024) ∨ Fixed (m.mem m.cr3 (virt/4096%1024))) : Untouched m m' virt := by
  have hused : ∀ f, KernelFrame m f → m'.pmm.memoryBitmap f = true := fun f hf =>
    hg.laid.used f ((kernelFrame_kept hg.kept f).mpr hf)
  refine ⟨walk_kept h hg.kept hv hT, hused _ (Or.inl rfl), hused _ ?_⟩
  rcases hv with hlow | ⟨hwin, hlt⟩
  · refine Or.inr ⟨virt/4194304, ?_, rfl⟩
    unfold kernelSpaceEnd at hlow
    omega
  · have hwin' : virt/4194304 = 1023 := by
      unfold windowStart at hwin
      omega
    left
    change frameOf (m.mem m.cr3 (virt/4194304)) = m.cr3
    rw [hwin']
    exact h.window

theorem along_and {P Q : Caller → Call → Prop} (calls : List Call) : ∀ c, Along P calls c →
    Along Q calls c → Along (fun c call => P c call ∧ Q c call) calls c := by
  induction calls with
  | nil => exact fun _ _ _ => trivial
  | cons call calls ih => exact fun c hp hq => ⟨⟨hp.1, hq.1⟩, fun d hd => ih d (hp.2 d hd) (hq.2 d hd)⟩

theorem along_mono {P Q : Caller → Call → Prop} (hPQ : ∀ c call, P c call → Q c call)
    (calls : List Call) : ∀ c, Along P calls c → Along Q calls c := by
  induction calls with
  | nil => exact fun _ _ => trivial
  | cons call calls ih => exact fun c hp => ⟨hPQ c call hp.1, fun d hd => ih d (hp.2 d hd)⟩

/-- In a run of calls that stay among the pages of the user, the kernel keeps its entries. Those
that show in the window for the tables of user pages only change when a table is made or marked
for users. -/
theorem kernel_mappings_kept (calls : List Call) (c d : Caller) (hl : Laid c.machine)
    (hheap : c.heapEnd ≤ windowStart) (hin : Along (fun c call => call.Inside c) calls c)
    (hr : runCalls calls c = some d) :
    (∀ virt, Kernel virt → Settled c.machine virt → Untouched c.machine d.machine virt) ∧
      (Along (fun c call => call.Tabled c) calls c →
        ∀ virt, Kernel virt → Untouched c.machine d.machine virt) := by
  refine ⟨fun virt hv hs => ?_, fun htab virt hv => ?_⟩
  · have hgood : Good (fun _ => False) c.machine d.machine :=
      good_run calls c d hl hheap (along_mono (fun _ _ h => ⟨h, fun _ => False.elim⟩) calls c hin) hr
    exact untouched_of_good hl hgood hv fun hwin => by
      rcases hs hwin with hk | hk | hk
      · exact Or.inl hk
      · exact Or.inr (Or.inl hk)
      · exact Or.inr (Or.inr (Or.inr hk))
  · have hleaves : ∀ (c : Caller) (call : Call), call.Inside c ∧ call.Tabled c → call.Inside c ∧
        ∀ k, True → call.Leaves c k ∨ Fixed (c.machine.mem c.machine.cr3 k) := by
      rintro c call ⟨hcall, htabled⟩
      refine ⟨hcall, fun k _ => ?_⟩
      by_cases hk : call.Leaves c k
      · exact Or.inl hk
      · unfold Call.Leaves at hk
        push Not at hk
        obtain ⟨virt, hmaps, rfl⟩ := hk
        exact Or.inr (htabled virt hmaps)
    have hgood : Good (fun _ => True) c.machine d.machine := good_run calls c d hl hheap
      (along_mono hleaves calls c (along_and calls c hin htab)) hr
    exact untouched_of_good hl hgood hv fun _ => Or.inr (Or.inr (Or.inl trivial))

end Runs

section Unmapping

theorem munmapPage_zero (m : Machine) (virt : ℕ) : (m.munmapPage virt).cr3 = m.cr3 ∧
    ∀ f k, (m.munmapPage virt).mem f k = m.mem f k ∨ (m.munmapPage virt).mem f k = 0 := by
  unfold Machine.munmapPage Machine.unmapPage
  dsimp only
  split_ifs
  · exact ⟨rfl, fun _ _ => Or.inl rfl⟩
  · refine ⟨rfl, fun f k => ?_⟩
    change (if _ then 0 else m.mem f k) = _ ∨ (if _ then 0 else m.mem f k) = 0
    split_ifs
    · exact Or.inr rfl
    · exact Or.inl rfl
  · exact ⟨rfl, fun _ _ => Or.inl rfl⟩

/-- Unmapping further pages only writes zeros. -/
theorem munmapPages_zero (addr : ℕ) (m : Machine) {i n : ℕ} (hi : i ≤ n) :
    (munmapPages addr n m).cr3 = (munmapPages addr i m).cr3 ∧
      ∀ f k, (munmapPages addr n m).mem f k = (munmapPages addr i m).mem f k ∨
        (munmapPages addr n m).mem f k = 0 := by
  induction n, hi using Nat.le_induction with
  | base => exact ⟨rfl, fun _ _ => Or.inl rfl⟩
  | succ n hi ih =>
    obtain ⟨hcr3, hmem⟩ := munmapPage_zero (munmapPages addr n m) (u32 (addr+4096*n))
    refine ⟨hcr3.trans ih.1, fun f k => ?_⟩
    rcases hmem f k with heq | heq
    · rcases ih.2 f k with heq' | heq'
      · exact Or.inl (heq.trans heq')
      · exact Or.inr (heq.trans heq')
    · exact Or.inr heq

/-- A page of the kernel loses its entry, and whatever follows does not bring it back. -/
theorem walk_cleared (h : Laid m) (hw : virt < 4294967296) (hp : m.getPhysical virt ≠ 0)
    (hcr3 : m''.cr3 = m.cr3) (hzero : ∀ f k, m''.mem f k = (m.munmapPage virt).mem f k ∨
      m''.mem f k = 0) : m''.walk virt ≠ m.walk virt := by
  have hphys := getPhysical_walk h.window hw
  by_cases hboth : (present (m.walk virt).1 && present (m.walk virt).2) = true
  · rw [Bool.and_eq_true] at hboth
    have hun : (m.munmapPage virt).mem =
        (m.write (frameOf (m.mem m.cr3 (virt/4194304)), virt/4096%1024) 0).mem := by
      unfold Machine.munmapPage
      dsimp only
      rw [if_neg hp, unmapPage_present h.window hw hboth.1]
      rfl
    intro heq
    have hdir : m''.mem m.cr3 (virt/4194304) = m.mem m.cr3 (virt/4194304) := by
      have hfst := congrArg Prod.fst heq
      rwa [Machine.walk, hcr3] at hfst
    have hpte : m''.mem (frameOf (m.mem m.cr3 (virt/4194304))) (virt/4096%1024) =
        (m.walk virt).2 := by
      have hsnd := congrArg Prod.snd heq
      rwa [Machine.walk, hcr3, hdir] at hsnd
    have hgone : m''.mem (frameOf (m.mem m.cr3 (virt/4194304))) (virt/4096%1024) = 0 := by
      rcases hzero (frameOf (m.mem m.cr3 (virt/4194304))) (virt/4096%1024) with hz | hz
      · rw [hz, hun]
        exact if_pos ⟨rfl, rfl⟩
      · exact hz
    rw [← hpte, hgone] at hboth
    exact absurd hboth.2 (by decide)
  · rw [if_neg hboth] at hphys
    exact absurd hphys hp

/-- `sys_munmap` leaves the kernel its entries exactly when the range has no page of the kernel
that is mapped. -/
theorem munmapPages_iff (h : Laid m) (addr n : ℕ) :
    (∀ virt, Kernel virt → (munmapPages addr n m).walk virt = m.walk virt) ↔
      ∀ i < n, UserPage (u32 (addr+4096*i)) ∨ m.getPhysical (u32 (addr+4096*i)) = 0 := by
  constructor
  · classical
    intro hall
    by_contra hno
    push Not at hno
    have hex : ∃ i, i < n ∧ ¬UserPage (u32 (addr+4096*i)) ∧
        m.getPhysical (u32 (addr+4096*i)) ≠ 0 := hno
    -- the first page that goes wrong
    obtain ⟨hi, huser, hphys⟩ := Nat.find_spec hex
    have hmin : ∀ j < Nat.find hex, ¬(j < n ∧ ¬UserPage (u32 (addr+4096*j)) ∧
      m.getPhysical (u32 (addr+4096*j)) ≠ 0) := fun j hj => Nat.find_min hex hj
    generalize Nat.find hex = i at hi huser hphys hmin
    have hkernel := kernel_of_not_user (u32_lt _) huser
    have hbefore : Good (fun _ => True) m (munmapPages addr i m) :=
      good_munmapPages h addr i fun j hj => by
        by_contra hc
        rw [not_or] at hc
        exact hmin j hj ⟨by omega, hc.1, hc.2⟩
    have hwalk : (munmapPages addr i m).walk (u32 (addr+4096*i)) = m.walk (u32 (addr+4096*i)) :=
      walk_kept h hbefore.kept hkernel fun _ => Or.inr (Or.inr (Or.inl trivial))
    rw [getPhysical_walk h.window (u32_lt _), ← hwalk, ← getPhysical_walk hbefore.laid.window (u32_lt _)] at hphys
    have hlater := (munmapPages_zero addr m hi).2
    have hcr3 := (munmapPages_zero addr m (Nat.le_of_lt hi)).1
    exact walk_cleared hbefore.laid (u32_lt _) hphys hcr3 hlater ((hall _ hkernel).trans hwalk.symm)
  · intro hv virt hk
    have hgood : Good (fun _ => True) m (munmapPages addr n m) := good_munmapPages h addr n hv
    exact walk_kept h hgood.kept hk fun _ => Or.inr (Or.inr (Or.inl trivial))

end Unmapping

section Start

variable {m₀ : Machine} {R : ℕ → Prop} {dirs : Finset ℕ}

/-- In the runs of the kernel every live address space is laid out so, as long as the tables that
it shares above `KERNEL_SPACE_END` do not lead into the page tables of the kernel. -/
theorem laid_of_sound (hm₀ : Booted m₀) (hs : Sound (kernelBase m₀) R dirs m) (hl : m.cr3 ∈ dirs)
    (hshared : ∀ j, 8 ≤ j → j < 1023 → present (m.mem m.cr3 j) = true →
      user (m.mem m.cr3 j) = false → ∀ k < 1024,
      present (m.mem (frameOf (m.mem m.cr3 j)) k) = true →
      ¬KernelFrame m (frameOf (m.mem (frameOf (m.mem m.cr3 j)) k))) : Laid m := by
  have hlow : ∀ i < 8, frameOf (m.mem m.cr3 i) = kernelTable m₀ i := fun i hi => by
    have hw := hs.complete.low m.cr3 hl i _ (if_pos hi)
    rw [hw, hm₀.entries i hi, frameOf_entry _ (by decide)]
  have hfixed : ∀ i < 8, (kernelBase m₀).fixed (frameOf (m.mem m.cr3 i)) := fun i hi =>
    ⟨i, hi, hlow i hi⟩
  have hown : ∀ f, KernelFrame m f → Own R dirs m f := by
    rintro f (rfl | ⟨i, hi, rfl⟩)
    · exact Or.inr (Or.inl hl)
    · exact Or.inl (hs.keeps.kernel _ (hfixed i hi)).1
  refine ⟨recursive_loaded hs hl, fun i hi he => ?_, fun j h8 hj hp => ?_,
    fun j h8 hj hp k hk hw => ?_, fun f hf => hs.keeps.covered.owned f (hown f hf)⟩
  · have hR := (hs.keeps.kernel _ (hfixed i hi)).1
    rw [he] at hR
    exact (hs.keeps.dir _ hl).2 hR
  · cases hu : user (m.mem m.cr3 j) with
    | true =>
      obtain ⟨hR, hdirs⟩ := hs.keeps.table _ hl j _ (tableAt_of hj hp hu)
      rintro (he | ⟨i, hi, he⟩)
      · rw [he] at hdirs
        exact hdirs hl
      · rw [he] at hR
        exact hR (hs.keeps.kernel _ (hfixed i hi)).1
    | false =>
      obtain ⟨hR, hnot⟩ := hs.keeps.shared _ hl j hj hp hu
      rintro (he | ⟨i, hi, he⟩)
      · rw [he] at hR
        exact (hs.keeps.dir _ hl).2 hR
      · rw [he] at hnot
        exact hnot (if_neg (by omega)) (hfixed i hi)
  · cases hu : user (m.mem m.cr3 j) with
    | true =>
      have hslot := slots_table (G := noGhost) hl (tableAt_of hj hp hu) hk
      rw [if_pos hw] at hslot
      exact fun hf => not_own_of_slot hs.keeps hslot (hown _ hf)
    | false => exact hshared j h8 hj hp hu k hk hw

/-- The first process is made and loaded. -/
def firstLoaded : List Event := [.create, .switch 10]

theorem run_firstLoaded (m : Machine) : run (boot m) firstLoaded =
    ⟨m.createAddressSpace.2.switchAddressSpace 10,
      if m.createAddressSpace.1 = 0 then {m.kernelDirectory}
      else insert m.createAddressSpace.1 {m.kernelDirectory}⟩ := rfl

theorem firstLoaded_spec (hm₀ : Booted m₀) (ha : m₀.allocFrame.1 = 10)
    (hne : m₀.kernelDirectory ≠ 10) : Laid (run (boot m₀) firstLoaded).machine ∧
      Identity (run (boot m₀) firstLoaded).machine (run (boot m₀) firstLoaded).machine.cr3 1 := by
  have hcreate : m₀.createAddressSpace.1 = 10 := by
    rw [createAddressSpace_fst (by rw [ha]; decide), ha]
  have hlive : (run (boot m₀) firstLoaded).live = insert 10 {m₀.kernelDirectory} := by
    rw [run_firstLoaded, hcreate]
    rfl
  have hten : 10 ∈ (run (boot m₀) firstLoaded).live := by
    rw [hlive]
    exact Finset.mem_insert_self _ _
  have hmeets : MeetsRun (kernelBase m₀) (boot m₀) firstLoaded :=
    ⟨Finset.mem_singleton.mpr hm₀.loaded, hten, trivial⟩
  obtain ⟨R, -, hs⟩ :=
    run_sound (kernelBase_proper hm₀) firstLoaded (booted_sound hm₀) hmeets
  have hload : Loaded (kernelBase m₀) _ m₀ := loaded_of_live (booted_sound hm₀) (by
    rw [hm₀.loaded]
    exact Finset.mem_singleton_self _)
  obtain ⟨-, -, -, -, hwords, -⟩ := createAddressSpace_spec hload
    (by rw [ha, hm₀.loaded]; exact hne.symm) (by rw [ha]; decide)
  have hcr3 : (run (boot m₀) firstLoaded).machine.cr3 = 10 := rfl
  refine ⟨laid_of_sound hm₀ hs (hcr3 ▸ hten) fun j h8 hj hp => ?_,
    IdentityMap.identity_of_sound hm₀ hs (hcr3 ▸ hten) (by decide)⟩
  -- above the kernel nothing is shared
  have hword : (run (boot m₀) firstLoaded).machine.mem 10 j = sharedWord m₀ j := by
    have hw := hwords j (by omega)
    rwa [ha] at hw
  have hzero : m₀.mem m₀.cr3 j = 0 := by
    rw [hm₀.loaded]
    exact hm₀.rest j h8 hj
  rw [hcr3, hword, sharedWord, hzero, ite_self] at hp
  exact absurd hp (by decide)

/-- The first process calls. -/
def firstCaller : Caller where
  machine := (run (boot kernelStart) firstLoaded).machine
  heapStart := 0x10000000
  heapEnd := 0x10000000
  vmaList := []
  thread := ⟨1, false, false, 0, fun _ => ⟨0, 0⟩⟩

theorem firstCaller_spec : Laid firstCaller.machine ∧
    Identity firstCaller.machine firstCaller.machine.cr3 1 :=
  firstLoaded_spec kernelStart_booted (by decide +kernel) (by decide)

/-- Two pages at 1 GiB, one of them taken back, and a heap of one page. -/
def ownCalls : List Call :=
  [.mmap ⟨true, 0, fun _ => none⟩ 0x40000000 0x2000 2 0x30 0, .munmap 0x40001000 0x1000,
    .sbrk 0x1000]

theorem ownCalls_inside : Along (fun c call => call.Inside c) ownCalls firstCaller := by
  refine ⟨⟨?_, trivial⟩, fun d _ => ⟨⟨fun _ h => h.elim, fun _ i hi => Or.inl ?_⟩,
    fun e _ => ⟨⟨fun _ h => h.elim, trivial⟩, fun _ _ => trivial⟩⟩⟩
  · rintro virt ⟨-, -, -, vaddr, i, hv, -, hi, -, rfl⟩
    obtain rfl : 0x40000000 = vaddr := Option.some.inj hv
    have hi2 : i < 2 := hi
    unfold UserPage kernelSpaceEnd windowStart u32
    omega
  · have hi1 : i < 1 := hi
    have h0 : i = 0 := by omega
    subst h0
    unfold UserPage kernelSpaceEnd windowStart
    decide

theorem kernel_mappings_kept_own : ∃ d, runCalls ownCalls firstCaller = some d ∧
    (∀ virt, Kernel virt → Settled firstCaller.machine virt →
      Untouched firstCaller.machine d.machine virt) ∧
    (Along (fun c call => call.Tabled c) ownCalls firstCaller →
      ∀ virt, Kernel virt → Untouched firstCaller.machine d.machine virt) := by
  have hrun : (runCalls ownCalls firstCaller).isSome = true := rfl
  obtain ⟨d, hd⟩ := Option.isSome_iff_exists.mp hrun
  exact ⟨d, hd, kernel_mappings_kept ownCalls firstCaller d firstCaller_spec.1 (by decide)
    ownCalls_inside hd⟩

/-- A page that is mapped to itself. -/
theorem getPhysical_identity (h : Laid m) {f : ℕ} (hf : 4096*f < 4294967296)
    (hid : Identity m m.cr3 f) : m.getPhysical (4096*f) = 4096*f := by
  have h1 : present (m.walk (4096*f)).1 = true := hid.directory
  have h2 : present (m.walk (4096*f)).2 = true := hid.table
  have h3 : frameOf (m.walk (4096*f)).2 = f := hid.frame
  rw [getPhysical_walk h.window hf, h1, h2, h3, Nat.mul_mod_right]
  rfl

theorem munmap_page (c : Caller) : ∃ d, runCalls [.munmap 0x1000 0x1000] c = some d ∧
    d.machine = c.machine.munmapPage 0x1000 := ⟨_, rfl, rfl⟩

/-- Page 1, which every address space has below `KERNEL_SPACE_END`, is unmapped. -/
theorem kernel_page_unmapped : ∃ d, runCalls [.munmap 0x1000 0x1000] firstCaller = some d ∧
    Laid firstCaller.machine ∧ Kernel 0x1000 ∧
    d.machine.walk 0x1000 ≠ firstCaller.machine.walk 0x1000 := by
  obtain ⟨hl, hid⟩ := firstCaller_spec
  obtain ⟨d, hd, hm⟩ := munmap_page firstCaller
  have hphys := getPhysical_identity hl (by decide) hid
  refine ⟨d, hd, hl, Or.inl (by decide), ?_⟩
  rw [hm]
  generalize firstCaller.machine = m at *
  refine walk_cleared hl (by decide) ?_ (munmapPage_zero m 4096).1 fun _ _ => Or.inl rfl
  rw [hphys]
  decide

end Start

end Vlsmc.KernelMappings
