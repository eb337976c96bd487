import Vlsmc.AddressSpaceBoot
import Vlsmc.AddressSpaceClone
import Vlsmc.CowRefinement

/-!
# Runs of the virtual memory manager

Everything that changes page tables, from the end of `VMM::init` on: the calls of
drivers and of the self-test, system calls and page faults of any process, forks,
`exec` and the end of processes.
-/

set_option autoImplicit false

namespace Vlsmc.AddressSpaceRuns
open Vlsmc.Words Vlsmc.SharedFrames Vlsmc.PhysicalMemory Vlsmc.FrameHolders Vlsmc.Paging
open Vlsmc.CowClone Vlsmc.AddressSpaces Vlsmc.AddressSpaceSteps Vlsmc.AddressSpaceLifetimes
open Vlsmc.AddressSpaceClone Vlsmc.AddressSpaceBoot

/-- `live` are the directories that were made and not torn down, the one of the kernel
among them. -/
structure World where
  machine : Machine
  live : Finset ℕ

/-- One page at a time. `frame` stands for the frame of a device, or the one that the
page cache names. -/
inductive Event where
  | switch (dir : ℕ)
  | create
  | clone
  | destroy (dir : ℕ)
  | exec
  | mmap (virt : ℕ) (protWrite : Bool)
  | fault (virt flags : ℕ) (data : Option (ℕ → ℕ))
  | faultCached (virt frame flags : ℕ)
  | mapMmio (virt frame : ℕ)
  | mapKernel (virt frame flags : ℕ)
  | munmap (virt : ℕ)
  | sbrk (virt : ℕ)
  | cowFault (virt : ℕ)
  | store (virt value : ℕ)
  | testVmm
  | kernelAlloc

def World.added (w : World) (r : ℕ × Machine) : World :=
  ⟨r.2, if r.1 = 0 then w.live else insert r.1 w.live⟩

def World.destroyed (w : World) (dir : ℕ) : World :=
  ⟨w.machine.destroyAddressSpace dir,
    if dir = 0 ∨ dir = w.machine.kernelDirectory then w.live else w.live.erase dir⟩

def mmapFlags (protWrite : Bool) : ℕ := if protWrite then 7 else 5

/-- `sys_exec` tears the old directory down while it is still loaded. -/
def World.exec (w : World) : World :=
  let w := w.destroyed w.machine.cr3
  let r := w.machine.createAddressSpace
  if r.1 = 0 then w.added r
  else ⟨r.2.switchAddressSpace r.1, insert r.1 w.live⟩

def step (w : World) : Event → World
  | .switch dir => ⟨w.machine.switchAddressSpace dir, w.live⟩
  | .create => w.added w.machine.createAddressSpace
  | .clone => w.added w.machine.cowCloneDirectory
  | .destroy dir => w.destroyed dir
  | .exec => w.exec
  | .mmap virt protWrite => ⟨w.machine.mmapPage virt (mmapFlags protWrite), w.live⟩
  | .fault virt flags data => ⟨w.machine.faultPage virt flags data, w.live⟩
  | .faultCached virt frame flags => ⟨w.machine.cachedPage virt frame flags, w.live⟩
  | .mapMmio virt frame => ⟨w.machine.mapPage virt frame 7, w.live⟩
  | .mapKernel virt frame flags => ⟨w.machine.mapPage virt frame flags, w.live⟩
  | .munmap virt => ⟨w.machine.munmapPage virt, w.live⟩
  | .sbrk virt => ⟨w.machine.sbrkPage virt, w.live⟩
  | .cowFault virt =>
    ⟨(w.machine.cowHandleFault virt (w.machine.errorCode virt true)).2, w.live⟩
  | .store virt value =>
    match w.machine.userAccess virt true with
    | some p => ⟨w.machine.write p value, w.live⟩
    | none => w
  | .testVmm => ⟨w.machine.testVmm, w.live⟩
  | .kernelAlloc => ⟨w.machine.allocFrame.2, w.live⟩

def run (w : World) (es : List Event) : World := es.foldl step w

/-- A page that some live directory maps to the frame. -/
def InUse (w : World) (frame : ℕ) : Prop :=
  ∃ d ∈ w.live, ∃ n, (pteAt w.machine d n).map frameOf = some frame

/-- What the code relies on when it takes a step and does not check. -/
def Meets (b : Base) (w : World) : Event → Prop
  | .switch dir => dir ∈ w.live
  | .create => w.machine.cr3 ∈ w.live
  | .clone => w.machine.cr3 ∈ w.live ∧ Room w.machine.pmm w.machine w.machine.cr3 0
  | .destroy dir => dir ∈ w.live
  | .exec => w.machine.cr3 ∈ w.live ∧
      (w.machine.destroyAddressSpace w.machine.cr3).allocFrame.1 ≠ w.machine.cr3
  | .mmap virt protWrite =>
    w.machine.cr3 ∈ w.live ∧ PageAllowed b w.machine virt (mmapFlags protWrite)
  | .fault virt flags _ => w.machine.cr3 ∈ w.live ∧ PageAllowed b w.machine virt flags
  | .faultCached virt frame flags =>
    w.machine.cr3 ∈ w.live ∧ PageAllowed b w.machine virt flags ∧ InUse w frame ∧
      w.machine.pmm.refcounts frame < 255
  | .mapMmio virt frame => w.machine.cr3 ∈ w.live ∧ PageAllowed b w.machine virt 7 ∧
      w.machine.pmm.maxFrames ≤ frame
  | .mapKernel virt _ flags =>
    w.machine.cr3 ∈ w.live ∧ PageAllowed b w.machine virt flags ∧ user flags = false ∧
      (present (w.machine.mem w.machine.cr3 (virt/4194304)) = true →
        user (w.machine.mem w.machine.cr3 (virt/4194304)) = false)
  | .munmap virt => w.machine.cr3 ∈ w.live ∧ PageAllowed b w.machine virt 7
  | .sbrk virt => w.machine.cr3 ∈ w.live ∧ PageAllowed b w.machine virt 7
  | .cowFault virt => w.machine.cr3 ∈ w.live ∧ virt < 4294967296 ∧
      (cow (w.machine.walk virt).2 = true → user (w.machine.walk virt).1 = true)
  | .store virt _ => w.machine.cr3 ∈ w.live ∧ virt < 4294967296
  | .testVmm => w.machine.cr3 ∈ w.live ∧ b.low 896 = none ∧
      (present (w.machine.mem w.machine.cr3 896) = true →
        user (w.machine.mem w.machine.cr3 896) = false)
  | .kernelAlloc => True

def MeetsRun (b : Base) (w : World) : List Event → Prop
  | [] => True
  | e::es => Meets b w e ∧ MeetsRun b (step w e) es

variable {b : Base} {R : ℕ → Prop} {w : World}

theorem meetsRun_append (es es' : List Event) (w : World) :
    MeetsRun b w (es ++ es') ↔ MeetsRun b w es ∧ MeetsRun b (run w es) es' := by
  induction es generalizing w with
  | nil => exact ⟨fun h => ⟨trivial, h⟩, fun h => h.2⟩
  | cons e es ih =>
    rw [List.cons_append]
    exact (and_congr_right fun _ => ih (step w e)).trans and_assoc.symm

/-- The steps that leave the set of live directories alone. -/
def SameLive : Event → Bool
  | .mmap _ _ => true
  | .fault _ _ _ => true
  | .faultCached _ _ _ => true
  | .mapMmio _ _ => true
  | .mapKernel _ _ _ => true
  | .munmap _ => true
  | .sbrk _ => true
  | .cowFault _ => true
  | .store _ _ => true
  | .kernelAlloc => true
  | _ => false

/-- A step in the loaded address space. -/
theorem step_kept (h : Sound b R w.live w.machine) {e : Event} (he : SameLive e = true)
    (hm : Meets b w e) :
    (step w e).live = w.live ∧ Kept b R w.live w.machine (step w e).machine := by
  have hself : Kept b R w.live w.machine w.machine :=
    ⟨⟨R, fun _ hr => hr, h⟩, fun _ _ _ _ => rfl, rfl, rfl⟩
  cases e with
  | mmap virt protWrite =>
    refine ⟨rfl, mmapPage_kept h hm.1 hm.2 ?_⟩
    cases protWrite <;> decide
  | fault virt flags data => exact ⟨rfl, faultPage_kept h hm.1 hm.2 data⟩
  | faultCached virt frame flags =>
    obtain ⟨hl, ha, ⟨d, hd, n, hn⟩, hroom⟩ := hm
    exact ⟨rfl, cachedPage_kept h hl ha ⟨(d, n), (slots_dir hd n).trans hn⟩ fun _ => hroom⟩
  | mapMmio virt frame =>
    exact ⟨rfl, mapPage_kept frame h hm.1 hm.2.1 fun _ => spare_foreign h hm.2.2⟩
  | mapKernel virt frame flags =>
    obtain ⟨hl, ha, hu, hk⟩ := hm
    refine ⟨rfl, mapPage_kept frame h hl ha fun hc => ?_⟩
    rcases hc with hc | ⟨hp, hc⟩
    · rw [hu] at hc
      exact absurd hc (by simp)
    · rw [hk hp] at hc
      exact absurd hc (by simp)
  | munmap virt => exact ⟨rfl, munmapPage_kept h hm.1 hm.2⟩
  | sbrk virt =>
    refine ⟨rfl, ?_⟩
    have heq : (step w (.sbrk virt)).machine = w.machine.munmapPage virt :=
      CowRefinement.sbrkPage_eq _ _
    rw [heq]
    exact munmapPage_kept h hm.1 hm.2
  | cowFault virt => exact ⟨rfl, cowHandleFault_kept h hm.1 hm.2.1 hm.2.2⟩
  | store virt value =>
    unfold step
    dsimp only
    cases hp : w.machine.userAccess virt true with
    | none => exact ⟨rfl, hself⟩
    | some p => exact ⟨rfl, store_kept h hm.1 hm.2 hp⟩
  | kernelAlloc => exact ⟨rfl, kept_allocFrame h⟩
  | switch dir => exact absurd he (by simp [SameLive])
  | create => exact absurd he (by simp [SameLive])
  | clone => exact absurd he (by simp [SameLive])
  | destroy dir => exact absurd he (by simp [SameLive])
  | exec => exact absurd he (by simp [SameLive])
  | testVmm => exact absurd he (by simp [SameLive])

theorem added_sound (hb : Proper b) (h : Sound b R w.live w.machine) (hl : Loaded b R w.machine)
    (hne : w.machine.allocFrame.1 ≠ 0 → w.machine.allocFrame.1 ≠ w.machine.cr3) :
    Sound b R (w.added w.machine.createAddressSpace).live
      (w.added w.machine.createAddressSpace).machine := by
  unfold World.added
  by_cases h0 : w.machine.allocFrame.1 = 0
  · rw [createAddressSpace_full h0]
    exact sound_allocFrame h
  · have hfst := (createAddressSpace_spec hl (hne h0) h0).1
    dsimp only
    rw [if_neg (by rwa [hfst])]
    exact createAddressSpace_sound hb h hl (hne h0) h0

theorem destroyed_sound (h : Sound b R w.live w.machine) {d : ℕ} (hd : d ∈ w.live) :
    Sound b R (w.destroyed d).live (w.destroyed d).machine ∧
      (w.destroyed d).machine.mem = w.machine.mem ∧ SameSpace w.machine (w.destroyed d).machine := by
  have h0 := (h.keeps.dir d hd).1
  unfold World.destroyed
  by_cases hk : d = w.machine.kernelDirectory
  · have hnop : w.machine.destroyAddressSpace d = w.machine := by
      rw [Machine.destroyAddressSpace, if_neg h0, if_pos hk]
    rw [hnop, if_pos (Or.inr hk)]
    exact ⟨h, rfl, rfl, rfl⟩
  · rw [if_neg fun hc => hc.elim h0 hk]
    exact destroyAddressSpace_sound h hd hk

theorem exec_sound (hb : Proper b) (h : Sound b R w.live w.machine) (hm : Meets b w .exec) :
    Sound b R w.exec.live w.exec.machine := by
  obtain ⟨hl, hne⟩ := hm
  obtain ⟨h1, hmem, hsp⟩ := destroyed_sound h hl
  have hload : Loaded b R (w.destroyed w.machine.cr3).machine := by
    have hold := loaded_of_live h hl
    refine ⟨?_, ?_, ?_⟩
    · rw [hmem, hsp.1]
      exact hold.recursive
    · rw [hmem, hsp.1]
      exact hold.shared
    · rw [hmem, hsp.1]
      exact hold.low
  have hne' : (w.destroyed w.machine.cr3).machine.allocFrame.1 ≠
      (w.destroyed w.machine.cr3).machine.cr3 := by
    rw [hsp.1]
    exact hne
  have hadd := added_sound hb h1 hload fun _ => hne'
  unfold World.exec
  dsimp only
  split_ifs with h0
  · exact hadd
  · unfold World.added at hadd
    rw [if_neg h0] at hadd
    exact ⟨⟨hadd.keeps.inside, hadd.keeps.dir, hadd.keeps.table, hadd.keeps.tables,
      hadd.keeps.shared, hadd.keeps.kernel, hadd.keeps.covered⟩, hadd.complete.recursive,
      hadd.complete.low⟩

/-- Every step that meets its condition keeps the order. -/
theorem step_sound (hb : Proper b) (h : Sound b R w.live w.machine) (e : Event) (hm : Meets b w e) :
    ∃ R', (∀ s, R s → R' s) ∧ Sound b R' (step w e).live (step w e).machine := by
  by_cases he : SameLive e = true
  · obtain ⟨hlive, hkept⟩ := step_kept h he hm
    rw [hlive]
    exact hkept.sound
  · cases e with
    | switch dir =>
      exact ⟨R, fun _ hr => hr, ⟨h.keeps.inside, h.keeps.dir, h.keeps.table, h.keeps.tables,
        h.keeps.shared, h.keeps.kernel, h.keeps.covered⟩, h.complete.recursive, h.complete.low⟩
    | create =>
      refine ⟨R, fun _ hr => hr, added_sound hb h (loaded_of_live h hm) fun h0 => ?_⟩
      exact (taken_not_dir (taken_alloc h h0).1 hm).symm
    | clone =>
      obtain ⟨hl, hroom⟩ := hm
      obtain ⟨-, h1, h2⟩ := cowCloneDirectory_sound hb h hl hroom rfl
      refine ⟨R, fun _ hr => hr, ?_⟩
      unfold step World.added
      dsimp only
      split_ifs with h0
      · exact h1 h0
      · exact h2 h0
    | destroy dir => exact ⟨R, fun _ hr => hr, (destroyed_sound h hm).1⟩
    | exec => exact ⟨R, fun _ hr => hr, exec_sound hb h hm⟩
    | testVmm => exact (testVmm_sound h hm.1 hm.2.1 hm.2.2).1
    | mmap virt protWrite => exact absurd rfl he
    | fault virt flags data => exact absurd rfl he
    | faultCached virt frame flags => exact absurd rfl he
    | mapMmio virt frame => exact absurd rfl he
    | mapKernel virt frame flags => exact absurd rfl he
    | munmap virt => exact absurd rfl he
    | sbrk virt => exact absurd rfl he
    | cowFault virt => exact absurd rfl he
    | store virt value => exact absurd rfl he
    | kernelAlloc => exact absurd rfl he

theorem run_sound (hb : Proper b) (es : List Event) (h : Sound b R w.live w.machine)
    (hm : MeetsRun b w es) :
    ∃ R', (∀ s, R s → R' s) ∧ Sound b R' (run w es).live (run w es).machine := by
  induction es generalizing w R with
  | nil => exact ⟨R, fun _ hr => hr, h⟩
  | cons e es ih =>
    obtain ⟨R1, hsub, h1⟩ := step_sound hb h e hm.1
    obtain ⟨R2, hsub2, h2⟩ := ih h1 hm.2
    exact ⟨R2, fun s hs => hsub2 s (hsub s hs), h2⟩

end Vlsmc.AddressSpaceRuns
