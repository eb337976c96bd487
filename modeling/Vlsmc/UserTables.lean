import Vlsmc.AddressSpaceRuns

/-!
# Tables of user pages are private

No directory leads to a table of user pages of another one, so that a page that
one process maps is seen by no other, and no table is given back that somebody
still uses. `map_page` sets `PAGE_USER` in place in entries of the kernel, which is
what the runs here must not do.
-/

set_option autoImplicit false

namespace Vlsmc.UserTables
open Vlsmc.Words Vlsmc.SharedFrames Vlsmc.PhysicalMemory Vlsmc.FrameHolders Vlsmc.Paging
open Vlsmc.CowClone Vlsmc.AddressSpaces Vlsmc.AddressSpaceSteps Vlsmc.AddressSpaceLifetimes
open Vlsmc.AddressSpaceBoot Vlsmc.AddressSpaceRuns

/-- Only the kernel has an address space. -/
def boot (m : Machine) : World := ⟨m, {m.kernelDirectory}⟩

/-- The tables that entries with `PAGE_USER` lead to. -/
structure TablesPrivate (w : World) : Prop where
  apart : ∀ d ∈ w.live, ∀ d' ∈ w.live, d ≠ d' → ∀ i < 1024, ∀ j < 1024,
    present (w.machine.mem d i) = true → user (w.machine.mem d i) = true →
    present (w.machine.mem d' j) = true → frameOf (w.machine.mem d' j) ≠ frameOf (w.machine.mem d i)
  used : ∀ d ∈ w.live, ∀ i < 1024, present (w.machine.mem d i) = true →
    user (w.machine.mem d i) = true → w.machine.pmm.memoryBitmap (frameOf (w.machine.mem d i)) = true

/-- The pages of the address spaces that are not loaded stay as they are. -/
def Unseen (w : World) (e : Event) : Prop := SameLive e = true →
  ∀ d ∈ w.live, d ≠ w.machine.cr3 → ∀ n, pteAt (step w e).machine d n = pteAt w.machine d n

variable {R : ℕ → Prop} {b : Base} {w : World}

theorem tableAt_user (h : Sound b R w.live w.machine) {d i : ℕ} (hd : d ∈ w.live) (hi : i < 1024)
    (hp : present (w.machine.mem d i) = true) (hu : user (w.machine.mem d i) = true) :
    tableAt w.machine d i = some (frameOf (w.machine.mem d i)) := by
  have hlt : i < 1023 := by
    by_contra hge
    have h3 : i = 1023 := by omega
    rw [h3, h.complete.recursive d hd, user_entry _ (by decide)] at hu
    exact absurd hu (by decide)
  exact tableAt_of hlt hp hu

theorem tablesPrivate_of_sound (h : Sound b R w.live w.machine) : TablesPrivate w := by
  constructor
  · intro d hd d' hd' hne i hi j hj hp hu hp' he
    have ht := tableAt_user h hd hi hp hu
    obtain ⟨hR, hdir⟩ := h.keeps.table d hd i _ ht
    by_cases h3 : j = 1023
    · rw [h3, h.complete.recursive d' hd', frameOf_entry _ (by decide)] at he
      exact hdir (he ▸ hd')
    · cases hu' : user (w.machine.mem d' j) with
      | true =>
        have ht' := tableAt_user h hd' hj hp' hu'
        exact hne (h.keeps.tables d hd d' hd' i j _ ht (he ▸ ht')).1
      | false => exact hR (he ▸ (h.keeps.shared d' hd' j (by omega) hp' hu').1)
  · intro d hd i hi hp hu
    exact h.keeps.covered.owned _ (Or.inr (Or.inr ⟨d, hd, i, tableAt_user h hd hi hp hu⟩))

/-- In a run whose steps all meet their condition, the tables of user pages are private
in every state, and so are the pages. -/
theorem user_tables_private (m : Machine) (hm : Booted m) (es : List Event)
    (h : MeetsRun Base.free (boot m) es) :
    TablesPrivate (run (boot m) es) ∧
      ∀ e, Meets Base.free (run (boot m) es) e → Unseen (run (boot m) es) e := by
  have hproper : Proper Base.free := fun i w hw => absurd hw (by simp [Base.free])
  have hstart : Sound Base.free (fun t => ∃ i < 8, t = kernelTable m i) (boot m).live
      (boot m).machine := sound_free (booted_sound hm)
  obtain ⟨R, -, hs⟩ := run_sound hproper es hstart h
  refine ⟨tablesPrivate_of_sound hs, fun e he hsame => ?_⟩
  exact (step_kept hs hsame he).2.apart

section Expose

variable {m : Machine} {virt : ℕ}

theorem mapPage_cr3 (m : Machine) (virt phys flags : ℕ) : (m.mapPage virt phys flags).cr3 = m.cr3 := by
  unfold Machine.mapPage
  dsimp only
  split_ifs <;> rfl

/-- `map_page` for a user below an entry of the kernel. -/
theorem mapPage_exposes (phys flags : ℕ) (hrec : frameOf (m.mem m.cr3 1023) = m.cr3) (hi : virt/4194304 < 1023)
    (hp : present (m.mem m.cr3 (virt/4194304)) = true)
    (hu : user (m.mem m.cr3 (virt/4194304)) = false) (huf : user flags = true) (f k : ℕ) :
    (m.mapPage virt phys flags).mem f k =
      if f = frameOf (m.mem m.cr3 (virt/4194304)) ∧ k = virt/4096%1024 then
        entry phys ((flags%4096) ||| 1)
      else if f = m.cr3 ∧ k = virt/4194304 then m.mem m.cr3 (virt/4194304) ||| 4
      else m.mem f k := by
  rw [mapPage_raised hrec (by omega) (by omega) hp huf hu, write_mem, write_mem]

/-- A page for users below an entry that another directory shares. -/
theorem mmap_exposes (virt : ℕ) (h : Sound b R w.live w.machine) (hl : w.machine.cr3 ∈ w.live) {d : ℕ}
    (hd : d ∈ w.live) (hne : w.machine.cr3 ≠ d) (hi : virt/4194304 < 1023)
    (hp : present (w.machine.mem w.machine.cr3 (virt/4194304)) = true)
    (hu : user (w.machine.mem w.machine.cr3 (virt/4194304)) = false)
    (hsame : w.machine.mem d (virt/4194304) = w.machine.mem w.machine.cr3 (virt/4194304))
    (h0 : w.machine.allocFrame.1 ≠ 0) : ¬TablesPrivate (step w (.mmap virt true)) := by
  have hrec := recursive_loaded h hl
  have hR := (h.keeps.shared _ hl _ hi hp hu).1
  have hspare := (spare_fresh h h0).unowned
  have hds : ∀ e ∈ w.live, e ≠ frameOf (w.machine.mem w.machine.cr3 (virt/4194304)) := fun e he heq =>
    (h.keeps.dir e he).2 (heq ▸ hR)
  have hdf : ∀ e ∈ w.live, e ≠ w.machine.allocFrame.1 := fun e he heq =>
    hspare (Or.inr (Or.inl (heq ▸ he)))
  generalize hm' : (step w (.mmap virt true)).machine = m'
  have hmem : ∀ e ∈ w.live, ∀ k, m'.mem e k = if e = w.machine.cr3 ∧ k = virt/4194304 then
      w.machine.mem w.machine.cr3 (virt/4194304) ||| 4 else w.machine.mem e k := by
    intro e he k
    have hmap := mapPage_exposes (m := w.machine.allocFrame.2) w.machine.allocFrame.1 7 hrec hi hp hu
      (by decide)
    have hcr := mapPage_cr3 w.machine.allocFrame.2 virt w.machine.allocFrame.1 7
    have hmm := Machine.allocFrame_mem w.machine
    rw [Machine.allocFrame_cr3] at hmap hcr
    rw [hmm] at hmap
    have hstep : m' = w.machine.mmapPage virt 7 := hm'.symm
    rw [hstep, Machine.mmapPage]
    dsimp only
    rw [if_neg h0]
    generalize w.machine.allocFrame.1 = frame at *
    generalize w.machine.allocFrame.2.mapPage virt frame 7 = m2 at *
    have hentry : m2.mem e k = if e = w.machine.cr3 ∧ k = virt/4194304 then
        w.machine.mem w.machine.cr3 (virt/4194304) ||| 4 else w.machine.mem e k := by
      rw [hmap, if_neg fun hc => hds e he hc.1]
    have hwalk1 : (m2.walk virt).1 = w.machine.mem w.machine.cr3 (virt/4194304) ||| 4 := by
      rw [Machine.walk, hcr]
      dsimp only
      rw [hmap, if_neg fun hc => hds _ hl hc.1, if_pos ⟨rfl, rfl⟩]
    have hwalk2 : frameOf (m2.walk virt).2 = frame := by
      have h2 : (m2.walk virt).2 = m2.mem (frameOf (m2.walk virt).1) (virt/4096%1024) := rfl
      rw [h2, hwalk1, frameOf_or_four, hmap, if_pos ⟨rfl, rfl⟩, frameOf_pte]
    rw [← hentry, hwalk2]
    split_ifs
    · exact if_neg fun hc => hdf e he hc.1
    · rfl
  intro hpriv
  have happ := hpriv.apart _ hl d hd hne _ (show virt/4194304 < 1024 by omega) _
    (show virt/4194304 < 1024 by omega)
  rw [hm', hmem _ hl, if_pos ⟨rfl, rfl⟩, hmem d hd, if_neg fun hc => hne hc.1.symm, hsame,
    present_or_four, user_or_four, frameOf_or_four] at happ
  exact happ hp rfl hp rfl

end Expose

section Example

/-- A machine with 32 MiB after `VMM::init`: the directory of the kernel is in frame 1
and its tables in the frames behind it. -/
def kernelStart : Machine where
  mem := fun f k =>
    if f = 1 then (if k < 8 then entry (k+2) 3 else if k = 1023 then entry 1 3 else 0)
    else if 2 ≤ f ∧ f < 10 then entry (1024*(f-2)+k) 3 else 0
  pmm := ⟨fun f => decide (f < 10), 8192, 10, fun f => if f < 10 then 1 else 0⟩
  cr3 := 1
  kernelDirectory := 1

theorem kernelStart_table {i : ℕ} (hi : i < 8) : kernelTable kernelStart i = i+2 := by
  have : kernelStart.mem 1 i = entry (i+2) 3 := if_pos hi
  rw [kernelTable]
  exact (congrArg frameOf this).trans (frameOf_entry _ (by decide))

theorem kernelStart_booted : Booted kernelStart := by
  refine ⟨rfl, by decide, fun i hi => ?_, fun i hi => ?_, fun i hi j hj => ?_, fun i h8 hi => ?_, rfl⟩
  · rw [kernelStart_table hi]
    exact if_pos hi
  · rw [kernelStart_table hi]
    exact ⟨show i+2 < 8192 by omega, decide_eq_true (show i+2 < 10 by omega),
      show i+2 ≠ 1 by omega⟩
  · rw [kernelStart_table hi]
    unfold kernelStart
    dsimp only
    rw [if_neg (by omega), if_pos (by omega), Nat.add_sub_cancel]
  · have h1 : kernelStart.mem 1 i = if i = 1023 then entry 1 3 else 0 := if_neg (by omega)
    exact h1.trans (if_neg (by omega))

/-- The self-test, then the first process is started. -/
def firstProcess : List Event := [.testVmm, .create, .switch 10]

theorem run_firstProcess (m : Machine) : run (boot m) firstProcess =
    ⟨m.testVmm.createAddressSpace.2.switchAddressSpace 10,
      if m.testVmm.createAddressSpace.1 = 0 then {m.kernelDirectory}
      else insert m.testVmm.createAddressSpace.1 {m.kernelDirectory}⟩ := by
  unfold run firstProcess boot
  rw [List.foldl_cons, List.foldl_cons, List.foldl_cons, List.foldl_nil]
  have htest : step ⟨m, {m.kernelDirectory}⟩ .testVmm = ⟨m.testVmm, {m.kernelDirectory}⟩ := rfl
  rw [htest]
  generalize m.testVmm = m'
  rfl

theorem run_snoc (w : World) (es : List Event) (e : Event) :
    run w (es ++ [e]) = step (run w es) e := List.foldl_append

theorem cr3_firstProcess (m : Machine) : (run (boot m) firstProcess).machine.cr3 = 10 := rfl

theorem live_firstProcess (m : Machine) (h4 : m.testVmm.createAddressSpace.1 = 10) :
    (run (boot m) firstProcess).live = insert 10 {m.kernelDirectory} := by
  rw [run_firstProcess, h4]
  rfl

theorem meets_firstProcess (m : Machine) (h1 : m.cr3 = m.kernelDirectory)
    (h2 : present (m.mem m.cr3 896) = false) (h3 : m.testVmm.cr3 = m.kernelDirectory)
    (h4 : m.testVmm.createAddressSpace.1 = 10) (hb : b.low 896 = none) :
    MeetsRun b (boot m) firstProcess := by
  refine ⟨⟨Finset.mem_singleton.mpr h1, hb, fun hp => ?_⟩, Finset.mem_singleton.mpr h3, ?_, trivial⟩
  · have hp' : present (m.mem m.cr3 896) = true := hp
    rw [h2] at hp'
    exact absurd hp' (by simp)
  · have hlive : 10 ∈ (if m.testVmm.createAddressSpace.1 = 0 then {m.kernelDirectory}
        else insert m.testVmm.createAddressSpace.1 {m.kernelDirectory} : Finset ℕ) := by
      rw [h4, if_neg (by decide)]
      exact Finset.mem_insert_self _ _
    exact hlive

theorem testVmm_start : kernelStart.testVmm.cr3 = 1 ∧ kernelStart.testVmm.allocFrame.1 = 10 ∧
    kernelStart.testVmm.mem kernelStart.kernelDirectory 896 = entry 11 3 ∧
    kernelStart.testVmm.mem kernelStart.kernelDirectory 128 = 0 ∧
    kernelStart.testVmm.allocFrame.2.pmm.allocFrame.1 ≠ 0 := by
  decide +kernel

theorem create_start : kernelStart.testVmm.createAddressSpace.1 = 10 := by
  rw [createAddressSpace_fst (by rw [testVmm_start.2.1]; decide)]
  exact testVmm_start.2.1

/-- The first process has the tables of the kernel and nothing of its own. -/
theorem entries_firstProcess (m : Machine) (hm : Booted m) (h1 : m.testVmm.cr3 = m.kernelDirectory)
    (ha : m.testVmm.allocFrame.1 = 10) (hne : m.kernelDirectory ≠ 10) :
    (∀ k < 1023, (run (boot m) firstProcess).machine.mem 10 k = sharedWord m.testVmm k) ∧
    (∀ f, f ≠ 10 → (run (boot m) firstProcess).machine.mem f = m.testVmm.mem f) ∧
    (run (boot m) firstProcess).machine.allocFrame.1 = m.testVmm.allocFrame.2.pmm.allocFrame.1 := by
  have hentry : m.mem m.kernelDirectory 896 = 0 := hm.rest 896 (by decide) (by decide)
  obtain ⟨⟨R, -, hs⟩, -⟩ := testVmm_sound (booted_sound hm) (by rw [hm.loaded]; simp) rfl
    fun hp => by
      rw [hm.loaded, hentry] at hp
      exact absurd hp (by decide)
  have hload : Loaded (kernelBase m) R m.testVmm := loaded_of_live hs (by rw [h1]; simp)
  obtain ⟨-, h2, -, h4, h5, -⟩ := createAddressSpace_spec hload (by rw [ha, h1]; exact hne.symm)
    (by rw [ha]; decide)
  rw [ha] at h4 h5
  rw [run_firstProcess, ← h2]
  generalize m.testVmm.createAddressSpace = c at *
  exact ⟨h5, h4, rfl⟩

/-- The first process maps the page that the self-test used. -/
theorem firstProcess_exposes (m : Machine) (hm : Booted m) (h1 : m.testVmm.cr3 = m.kernelDirectory)
    (ha : m.testVmm.allocFrame.1 = 10) (hne : m.kernelDirectory ≠ 10)
    (hpde : m.testVmm.mem m.kernelDirectory 896 = entry 11 3)
    (hfree : m.testVmm.allocFrame.2.pmm.allocFrame.1 ≠ 0) :
    ¬TablesPrivate (run (boot m) (firstProcess ++ [.mmap 0xE0000000 true])) := by
  obtain ⟨hmem, hold, halloc⟩ := entries_firstProcess m hm h1 ha hne
  have hcreate : m.testVmm.createAddressSpace.1 = 10 := by
    rw [createAddressSpace_fst (by rw [ha]; decide), ha]
  have hmeets : MeetsRun Base.free (boot m) firstProcess := by
    refine meets_firstProcess m hm.loaded ?_ h1 hcreate rfl
    rw [hm.loaded, hm.rest 896 (by decide) (by decide)]
    decide
  obtain ⟨R, -, hs⟩ := run_sound (w := boot m) (fun i w hw => absurd hw (by simp [Base.free]))
    firstProcess (sound_free (booted_sound hm)) hmeets
  have hlive := live_firstProcess m hcreate
  have hcr := cr3_firstProcess m
  have hshared : sharedWord m.testVmm 896 = entry 11 3 := by
    rw [sharedWord, h1, hpde, if_pos ⟨by decide, by decide, by decide⟩]
  have h10 := (hmem 896 (by decide)).trans hshared
  have hkd := (congrFun (hold _ hne) 896).trans hpde
  rw [run_snoc]
  rw [← halloc] at hfree
  generalize run (boot m) firstProcess = w at *
  refine mmap_exposes 0xE0000000 hs (d := m.kernelDirectory) ?_ ?_ ?_ (by decide) ?_ ?_ ?_ hfree
  · rw [hlive, hcr]
    exact Finset.mem_insert_self _ _
  · rw [hlive]
    exact Finset.mem_insert_of_mem (Finset.mem_singleton_self _)
  · rw [hcr]
    exact hne.symm
  · rw [hcr]
    exact (congrArg present h10).trans (by decide)
  · rw [hcr]
    exact (congrArg user h10).trans (by decide)
  · rw [hcr]
    exact hkd.trans h10.symm

theorem user_table_exposed :
    ¬∀ (m : Machine) (es : List Event), Booted m → TablesPrivate (run (boot m) es) := fun hall =>
  firstProcess_exposes kernelStart kernelStart_booted testVmm_start.1 testVmm_start.2.1 (by decide)
    testVmm_start.2.2.1 testVmm_start.2.2.2.2 (hall _ _ kernelStart_booted)

/-- A run that meets the condition: the first process maps a page of its own. -/
theorem firstPage_meets (m : Machine) (hm : Booted m) (h1 : m.testVmm.cr3 = m.kernelDirectory)
    (ha : m.testVmm.allocFrame.1 = 10) (hne : m.kernelDirectory ≠ 10)
    (hpde : m.testVmm.mem m.kernelDirectory 128 = 0) :
    MeetsRun Base.free (boot m) (firstProcess ++ [.mmap 0x20000000 true]) := by
  obtain ⟨hmem, -, -⟩ := entries_firstProcess m hm h1 ha hne
  have hcreate : m.testVmm.createAddressSpace.1 = 10 := by
    rw [createAddressSpace_fst (by rw [ha]; decide), ha]
  refine (meetsRun_append _ _ _).mpr ⟨meets_firstProcess m hm.loaded ?_ h1 hcreate rfl, ⟨?_, ?_⟩, trivial⟩
  · rw [hm.loaded, hm.rest 896 (by decide) (by decide)]
    decide
  · rw [live_firstProcess m hcreate, cr3_firstProcess]
    exact Finset.mem_insert_self _ _
  · have hzero : sharedWord m.testVmm 128 = 0 := by
      rw [sharedWord, h1, hpde]
      exact ite_self 0
    refine ⟨by decide, by decide, rfl, fun _ hp => ?_⟩
    rw [cr3_firstProcess] at hp
    have habs := (hmem 128 (by decide)).trans hzero
    exact absurd ((congrArg present habs).symm.trans hp) (by decide)

theorem user_tables_private_firstPage : Booted kernelStart ∧
    TablesPrivate (run (boot kernelStart) (firstProcess ++ [.mmap 0x20000000 true])) :=
  ⟨kernelStart_booted, (user_tables_private kernelStart kernelStart_booted _
    (firstPage_meets kernelStart kernelStart_booted testVmm_start.1 testVmm_start.2.1 (by decide)
      testVmm_start.2.2.2.1)).1⟩

end Example

end Vlsmc.UserTables
