import Vlsmc.PmmRuns
import Vlsmc.UserTables

/-!
# Physical memory is mapped to itself

The kernel reaches the frames that it allocates at their physical addresses. `VMM::init` maps
the first 32 MiB to themselves in every directory, and they stay so in every run that keeps its
mappings out of there. The framebuffer goes to four megabytes, over frames that are handed out.
-/

set_option autoImplicit false

namespace Vlsmc.IdentityMap
open Vlsmc.Words Vlsmc.PhysicalMemory Vlsmc.Paging Vlsmc.AddressSpaces
open Vlsmc.AddressSpaceSteps Vlsmc.AddressSpaceLifetimes Vlsmc.AddressSpaceBoot
open Vlsmc.AddressSpaceRuns Vlsmc.UserTables
open Vlsmc.PmmRuns (allocBlocks_eq)

/-- With directory `d` the processor finds frame `f` at its own address. -/
structure Identity (m : Machine) (d f : ℕ) : Prop where
  directory : present ((m.switchAddressSpace d).walk (4096*f)).1 = true
  table : present ((m.switchAddressSpace d).walk (4096*f)).2 = true
  frame : frameOf ((m.switchAddressSpace d).walk (4096*f)).2 = f

/-- A frame that `alloc_frame` or `alloc_blocks` can return, whatever is in use. -/
def CanReturn (p : Pmm) (f : ℕ) : Prop := ∃ q : Pmm, q.maxFrames = p.maxFrames ∧
  (q.allocFrame.1 ≠ 0 ∧ f = q.allocFrame.1 ∨
    ∃ n, (q.allocBlocks n).1 ≠ 0 ∧ ∃ k < n, f = (q.allocBlocks n).1+k)

/-- The pages that `BgaDriver::init` maps, at 4 MiB and up. The loop ends for sizes up to
0xFFFFF000. -/
def bgaInit (framebufferPhys width height bpp : ℕ) : List Event :=
  if framebufferPhys = 0 then []
  else
    let pitch := width*bpp/8
    let framebufferSize := u32 (pitch*height)
    (List.range ((framebufferSize+4095)/4096)).map fun i =>
      .mapKernel (u32 (0x400000+4096*i)) (u32 (framebufferPhys+4096*i)/4096) 3

theorem canReturn_inside {p : Pmm} {f : ℕ} (h : CanReturn p f) : f < p.maxFrames := by
  obtain ⟨q, hq, h⟩ := h
  rw [← hq]
  rcases h with ⟨h0, rfl⟩ | ⟨n, h0, k, hk, rfl⟩
  · rcases allocFrame_eq q with heq | ⟨g, hlt, -, heq⟩
    · exact absurd (congrArg Prod.fst heq) h0
    · rw [heq]
      exact hlt
  · rcases allocBlocks_eq q n with heq | ⟨st, -, hle, -, heq⟩
    · exact absurd (congrArg Prod.fst heq) h0
    · rw [heq]
      dsimp only
      omega

/-- All 8192 frames but one are in use. -/
theorem canReturn_last {p : Pmm} (h : p.maxFrames = 8192) : CanReturn p 1024 := by
  refine ⟨⟨fun f => decide (f ≠ 1024), 8192, 8191, fun _ => 0⟩, h.symm, Or.inl ?_⟩
  decide +kernel

section Limit

variable (m : Machine)

theorem allocFrame_limit : m.allocFrame.2.pmm.maxFrames = m.pmm.maxFrames :=
  allocFrame_maxFrames m.pmm

theorem write_limit (p : ℕ × ℕ) (word : ℕ) : (m.write p word).pmm.maxFrames = m.pmm.maxFrames :=
  rfl

theorem clear_limit (frame : ℕ) : (m.clear frame).pmm.maxFrames = m.pmm.maxFrames := rfl

theorem mapPage_limit (virt phys flags : ℕ) :
    (m.mapPage virt phys flags).pmm.maxFrames = m.pmm.maxFrames := by
  unfold Machine.mapPage
  dsimp only
  split_ifs <;> first | rfl | exact allocFrame_limit m

theorem decRef_limit (frame : ℕ) : (m.decRef frame).pmm.maxFrames = m.pmm.maxFrames := by
  rw [Machine.decRef, decRef_eq]
  exact freeFrame_maxFrames m.pmm frame

theorem freeFrame_limit (frame : ℕ) : (m.freeFrame frame).pmm.maxFrames = m.pmm.maxFrames :=
  freeFrame_maxFrames m.pmm frame

theorem munmapPage_limit (virt : ℕ) : (m.munmapPage virt).pmm.maxFrames = m.pmm.maxFrames := by
  unfold Machine.munmapPage Machine.unmapPage
  dsimp only
  split_ifs <;> first | rfl | exact freeFrame_maxFrames _ _

theorem mmapPage_limit (virt flags : ℕ) :
    (m.mmapPage virt flags).pmm.maxFrames = m.pmm.maxFrames := by
  unfold Machine.mmapPage
  dsimp only
  split_ifs
  · exact allocFrame_limit m
  · exact (mapPage_limit _ _ _ _).trans (allocFrame_limit m)
  · exact (mapPage_limit _ _ _ _).trans (allocFrame_limit m)

theorem faultPage_limit (virt flags : ℕ) (data : Option (ℕ → ℕ)) :
    (m.faultPage virt flags data).pmm.maxFrames = m.pmm.maxFrames := by
  unfold Machine.faultPage
  dsimp only
  split_ifs
  · exact allocFrame_limit m
  · rw [mapPage_limit]
    cases data <;> exact allocFrame_limit m

theorem cachedPage_limit (virt cached flags : ℕ) :
    (m.cachedPage virt cached flags).pmm.maxFrames = m.pmm.maxFrames := by
  rw [Machine.cachedPage, mapPage_limit]
  exact incRef_maxFrames m.pmm cached

theorem cowHandleFault_limit (addr code : ℕ) :
    (m.cowHandleFault addr code).2.pmm.maxFrames = m.pmm.maxFrames := by
  unfold Machine.cowHandleFault
  dsimp only
  split_ifs
  all_goals first | rfl | exact allocFrame_limit m | skip
  exact (decRef_limit _ _).trans (allocFrame_limit m)

theorem foldl_limit {α : Type} (f : Machine → α → Machine)
    (hf : ∀ m x, (f m x).pmm.maxFrames = m.pmm.maxFrames) (xs : List α) (m : Machine) :
    (xs.foldl f m).pmm.maxFrames = m.pmm.maxFrames := by
  induction xs generalizing m with
  | nil => rfl
  | cons x xs ih => exact (ih (f m x)).trans (hf m x)

theorem destroyAddressSpace_limit (d : ℕ) :
    (m.destroyAddressSpace d).pmm.maxFrames = m.pmm.maxFrames := by
  have htable : ∀ (m : Machine) (pt : ℕ), (m.releaseTable pt).pmm.maxFrames = m.pmm.maxFrames := by
    intro m pt
    unfold Machine.releaseTable
    generalize List.range 1024 = L
    refine foldl_limit _ (fun m j => ?_) L m
    split_ifs
    · exact decRef_limit m _
    · rfl
  have hentry : ∀ (m : Machine) (i : ℕ), (m.releaseEntry d i).pmm.maxFrames = m.pmm.maxFrames := by
    intro m i
    unfold Machine.releaseEntry
    split_ifs
    · rfl
    · rfl
    · rfl
    · exact (freeFrame_limit _ _).trans (htable m _)
  unfold Machine.destroyAddressSpace
  generalize List.range 1024 = L
  split_ifs
  · rfl
  · rfl
  · exact (freeFrame_limit _ _).trans (foldl_limit _ hentry _ m)

theorem createAddressSpace_limit : m.createAddressSpace.2.pmm.maxFrames = m.pmm.maxFrames := by
  have hshare : ∀ (nd : ℕ) (m : Machine) (i : ℕ),
      (Machine.shareEntry nd m i).pmm.maxFrames = m.pmm.maxFrames := by
    intro nd m i
    unfold Machine.shareEntry
    split_ifs <;> rfl
  by_cases h0 : m.allocFrame.1 = 0
  · rw [createAddressSpace_full h0]
    exact allocFrame_limit m
  · rw [createAddressSpace_eq h0]
    generalize List.range 1024 = L
    rw [write_limit, foldl_limit _ (hshare _), clear_limit]
    exact allocFrame_limit m

theorem undoTable_limit (nd k : ℕ) : (m.undoTable nd k).pmm.maxFrames = m.pmm.maxFrames := by
  unfold Machine.undoTable
  generalize List.range 1024 = L
  dsimp only
  split_ifs
  · rfl
  · rfl
  · rfl
  · refine (freeFrame_limit _ _).trans (foldl_limit _ (fun m j => ?_) _ m)
    split_ifs
    · exact decRef_limit m _
    · exact decRef_limit m _
    · rfl

theorem cloneTable_limit (i t : ℕ) : (m.cloneTable i t).pmm.maxFrames = m.pmm.maxFrames := by
  unfold Machine.cloneTable
  generalize List.range 1024 = L
  refine foldl_limit _ (fun m j => ?_) L m
  unfold Machine.clonePage
  dsimp only
  split_ifs
  · rfl
  · exact incRef_maxFrames _ _
  · exact incRef_maxFrames _ _

theorem cloneEntries_limit (nd : ℕ) (is : List ℕ) (m : Machine) :
    (Machine.cloneEntries nd is m).2.pmm.maxFrames = m.pmm.maxFrames := by
  induction is generalizing m with
  | nil => rfl
  | cons i is ih =>
    unfold Machine.cloneEntries
    dsimp only
    split_ifs
    · exact ih m
    · exact ih m
    · exact ih _
    · rw [freeFrame_limit, foldl_limit _ fun m k => undoTable_limit m nd k]
      exact allocFrame_limit m
    · rw [ih, write_limit, cloneTable_limit]
      exact allocFrame_limit m

theorem cowCloneDirectory_limit : m.cowCloneDirectory.2.pmm.maxFrames = m.pmm.maxFrames := by
  unfold Machine.cowCloneDirectory
  generalize List.range 1024 = L
  dsimp only
  split_ifs
  · exact allocFrame_limit m
  · rw [write_limit, cloneEntries_limit, clear_limit]
    exact allocFrame_limit m
  · rw [cloneEntries_limit, clear_limit]
    exact allocFrame_limit m

theorem testVmm_limit : m.testVmm.pmm.maxFrames = m.pmm.maxFrames := by
  have hstore : ∀ (m : Machine) (virt value : ℕ),
      (m.kernelStore virt value).pmm.maxFrames = m.pmm.maxFrames := by
    intro m virt value
    unfold Machine.kernelStore
    split_ifs <;> rfl
  have hunmap : ∀ (m : Machine) (virt : ℕ), (m.unmapPage virt).pmm.maxFrames = m.pmm.maxFrames := by
    intro m virt
    unfold Machine.unmapPage
    split_ifs <;> rfl
  unfold Machine.testVmm
  dsimp only
  split_ifs
  · exact allocFrame_limit m
  · rw [freeFrame_limit, hunmap, hstore, hstore, mapPage_limit]
    exact allocFrame_limit m

end Limit

section Runs

theorem identity_of_sound {m m' : Machine} {R : ℕ → Prop} {dirs : Finset ℕ} {d f : ℕ}
    (hm : Booted m) (hs : Sound (kernelBase m) R dirs m') (hd : d ∈ dirs) (hf : f < 8192) :
    Identity m' d f := by
  have hi : f/1024 < 8 := by omega
  have hj : f%1024 < 1024 := Nat.mod_lt _ (by decide)
  have hpage : 4096*f/4194304 = f/1024 ∧ 4096*f/4096%1024 = f%1024 := by omega
  have hlow : m'.mem d (f/1024) = entry (kernelTable m (f/1024)) 3 :=
    (hs.complete.low d hd _ _ (if_pos hi)).trans (hm.entries _ hi)
  have hword : m'.mem (kernelTable m (f/1024)) (f%1024) = entry f 3 := by
    rw [(hs.keeps.kernel _ ⟨_, hi, rfl⟩).2]
    refine (hm.words _ hi _ hj).trans ?_
    rw [Nat.div_add_mod]
  have hwalk : (m'.switchAddressSpace d).walk (4096*f) =
      (entry (kernelTable m (f/1024)) 3, entry f 3) := by
    change (m'.mem d _, m'.mem (frameOf (m'.mem d _)) _) = _
    rw [hpage.1, hpage.2, hlow, frameOf_entry _ (by decide), hword]
  refine ⟨?_, ?_, ?_⟩ <;> rw [hwalk]
  · exact present_entry _ (by decide)
  · exact present_entry _ (by decide)
  · exact frameOf_entry _ (by decide)

/-- The manager has as many frames as before. -/
theorem step_limit (w : World) (e : Event) :
    (step w e).machine.pmm.maxFrames = w.machine.pmm.maxFrames := by
  cases e with
  | switch dir => rfl
  | create => exact createAddressSpace_limit w.machine
  | clone => exact cowCloneDirectory_limit w.machine
  | destroy dir => exact destroyAddressSpace_limit w.machine dir
  | exec =>
    change w.exec.machine.pmm.maxFrames = _
    unfold World.exec
    dsimp only
    split_ifs <;> exact (createAddressSpace_limit _).trans (destroyAddressSpace_limit w.machine _)
  | mmap virt protWrite => exact mmapPage_limit w.machine virt _
  | fault virt flags data => exact faultPage_limit w.machine virt flags data
  | faultCached virt frame flags => exact cachedPage_limit w.machine virt frame flags
  | mapMmio virt frame => exact mapPage_limit w.machine virt frame 7
  | mapKernel virt frame flags => exact mapPage_limit w.machine virt frame flags
  | munmap virt => exact munmapPage_limit w.machine virt
  | sbrk virt =>
    change (w.machine.sbrkPage virt).pmm.maxFrames = _
    rw [CowRefinement.sbrkPage_eq]
    exact munmapPage_limit w.machine virt
  | cowFault virt => exact cowHandleFault_limit w.machine virt _
  | store virt value =>
    unfold step
    dsimp only
    cases w.machine.userAccess virt true <;> rfl
  | testVmm => exact testVmm_limit w.machine
  | kernelAlloc => exact allocFrame_limit w.machine

theorem run_limit (es : List Event) (w : World) :
    (run w es).machine.pmm.maxFrames = w.machine.pmm.maxFrames := by
  induction es generalizing w with
  | nil => rfl
  | cons e es ih => exact (ih (step w e)).trans (step_limit w e)

/-- In a run whose steps all meet their condition, and so map nothing below 32 MiB, every frame
of the manager stays mapped to itself in every directory. -/
theorem identity_kept (m : Machine) (hm : Booted m) (hmax : m.pmm.maxFrames ≤ 8192)
    (es : List Event) (h : MeetsRun (kernelBase m) (boot m) es) :
    ∀ d ∈ (run (boot m) es).live, ∀ f, CanReturn (run (boot m) es).machine.pmm f →
      Identity (run (boot m) es).machine d f := by
  obtain ⟨R, -, hs⟩ := run_sound (kernelBase_proper hm) es (booted_sound hm) h
  have hlimit := run_limit es (boot m)
  intro d hd f hret
  have hf : f < 8192 := lt_of_lt_of_le (canReturn_inside hret) (hlimit.trans_le hmax)
  exact identity_of_sound hm hs hd hf

/-- One page of the framebuffer goes into the second table of the kernel. -/
theorem framebuffer_page {m m' : Machine} (hm : Booted m) (hcr3 : m'.cr3 = m.kernelDirectory)
    (hdir : m'.mem m.kernelDirectory = m.mem m.kernelDirectory) {i : ℕ} (hi : i < 1024)
    (frame : ℕ) : m'.mapPage (u32 (0x400000+4096*i)) frame 3 =
      m'.write (kernelTable m 1, i) (entry frame 3) := by
  have hv : u32 (0x400000+4096*i) = 0x400000+4096*i := u32_of_lt (by omega)
  have hpage : (0x400000+4096*i)/4194304 = 1 ∧ (0x400000+4096*i)/4096%1024 = i := by omega
  have hentry : m'.mem m'.cr3 ((0x400000+4096*i)/4194304) = entry (kernelTable m 1) 3 := by
    rw [hcr3, hdir, hpage.1]
    exact hm.entries 1 (by decide)
  have hrec : frameOf (m'.mem m'.cr3 1023) = m'.cr3 := by
    rw [hcr3, hdir, hm.recursive, frameOf_entry _ (by decide)]
  rw [hv, mapPage_present hrec (by omega) (by rw [hentry]; exact present_entry _ (by decide))
    fun hc => absurd hc (by decide), hentry, frameOf_entry _ (by decide), hpage.2]
  rfl

theorem framebuffer_pages {m : Machine} (hm : Booted m) (phys n : ℕ) (hn : n ≤ 1024) :
    ∀ w, w = run (boot m) ((List.range n).map fun i =>
      .mapKernel (u32 (0x400000+4096*i)) (u32 (phys+4096*i)/4096) 3) →
    w.live = {m.kernelDirectory} ∧ w.machine.cr3 = m.kernelDirectory ∧
      w.machine.mem m.kernelDirectory = m.mem m.kernelDirectory ∧
      (0 < n → w.machine.mem (kernelTable m 1) 0 = entry (u32 phys/4096) 3) := by
  induction n with
  | zero =>
    rintro w rfl
    exact ⟨rfl, hm.loaded, rfl, fun hc => absurd hc (by decide)⟩
  | succ n ih =>
    rintro w rfl
    rw [List.range_succ, List.map_append, run, List.foldl_append]
    obtain ⟨hlive, hcr3, hdir, hfirst⟩ := ih (by omega) _ rfl
    rw [run] at hlive hcr3 hdir hfirst
    generalize ((List.range n).map fun i => Event.mapKernel (u32 (0x400000+4096*i))
      (u32 (phys+4096*i)/4096) 3).foldl step (boot m) = w' at *
    change w'.live = _ ∧
      (w'.machine.mapPage (u32 (0x400000+4096*n)) (u32 (phys+4096*n)/4096) 3).cr3 = _ ∧
      (w'.machine.mapPage (u32 (0x400000+4096*n)) (u32 (phys+4096*n)/4096) 3).mem _ = _ ∧
      (_ → (w'.machine.mapPage (u32 (0x400000+4096*n)) (u32 (phys+4096*n)/4096) 3).mem _ _ = _)
    have hne := (hm.tables 1 (by decide)).2.2
    rw [framebuffer_page hm hcr3 hdir (by omega)]
    refine ⟨hlive, hcr3, ?_, fun _ => ?_⟩
    · rw [← hdir]
      funext k
      exact if_neg fun hc => hne hc.1.symm
    · by_cases h0 : n = 0
      · subst h0
        exact if_pos ⟨rfl, rfl⟩
      · exact (if_neg fun hc => h0 hc.2.symm).trans (hfirst (by omega))

/-- A framebuffer of up to 4 MiB takes the place of frame 1024. -/
theorem framebuffer_breaks {m : Machine} (hm : Booted m) {phys width height bpp : ℕ}
    (hphys : phys ≠ 0) (hother : u32 phys/4096 ≠ 1024) (hsize : 0 < u32 (width*bpp/8*height))
    (hfits : u32 (width*bpp/8*height) ≤ 4194304) :
    m.kernelDirectory ∈ (run (boot m) (bgaInit phys width height bpp)).live ∧
      ¬Identity (run (boot m) (bgaInit phys width height bpp)).machine m.kernelDirectory 1024 := by
  rw [bgaInit, if_neg hphys]
  dsimp only
  generalize hw : run (boot m) _ = w
  obtain ⟨hlive, -, hdir, hfirst⟩ := framebuffer_pages hm phys _ (by omega) w hw.symm
  have hword := hfirst (by omega)
  refine ⟨hlive ▸ Finset.mem_singleton_self _, fun h => ?_⟩
  have hframe := h.frame
  have hwalk : ((w.machine.switchAddressSpace m.kernelDirectory).walk (4096*1024)).2 =
      entry (u32 phys/4096) 3 := by
    change w.machine.mem (frameOf (w.machine.mem m.kernelDirectory 1)) 0 = _
    rw [hdir]
    exact hword
  rw [hwalk, frameOf_entry _ (by decide)] at hframe
  exact hother hframe

end Runs

/-- The first process has been started; memory is as `VMM::init` left it. -/
theorem identity_kept_firstProcess : kernelStart.pmm.maxFrames ≤ 8192 ∧
    ∀ d ∈ (run (boot kernelStart) firstProcess).live, ∀ f,
      CanReturn (run (boot kernelStart) firstProcess).machine.pmm f →
      Identity (run (boot kernelStart) firstProcess).machine d f :=
  ⟨le_rfl, identity_kept kernelStart kernelStart_booted le_rfl firstProcess
    (meets_firstProcess kernelStart rfl (by decide) testVmm_start.1 create_start rfl)⟩

/-- The framebuffer of the boot sequence hides frame 1024, which is free. -/
theorem framebuffer_hides_frame : CanReturn (run (boot kernelStart)
      (bgaInit 0xFD000000 1024 768 32)).machine.pmm 1024 ∧
    1 ∈ (run (boot kernelStart) (bgaInit 0xFD000000 1024 768 32)).live ∧
    ¬Identity (run (boot kernelStart) (bgaInit 0xFD000000 1024 768 32)).machine 1 1024 :=
  ⟨canReturn_last (run_limit (bgaInit 0xFD000000 1024 768 32) (boot kernelStart)),
    framebuffer_breaks kernelStart_booted (by decide) (by decide) (by decide) (by decide)⟩

end Vlsmc.IdentityMap
