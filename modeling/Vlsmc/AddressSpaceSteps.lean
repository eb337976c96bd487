import Vlsmc.AddressSpaces

/-!
# Mapping and unmapping in live address spaces

`map_page`, `unmap_page` and the code around them keep the tables of user pages
apart, as long as no page for users goes below an entry of the kernel.
-/

set_option autoImplicit false

namespace Vlsmc.AddressSpaceSteps
open Vlsmc.Words Vlsmc.SharedFrames Vlsmc.PhysicalMemory Vlsmc.FrameHolders Vlsmc.Paging
open Vlsmc.CowClone Vlsmc.AddressSpaces

theorem pte_flags_lt (flags : ℕ) : (flags%4096) ||| 1 < 4096 :=
  Nat.or_lt_two_pow (n := 12) (Nat.mod_lt _ (by decide)) (by decide)

theorem present_pte (f flags : ℕ) : present (entry f ((flags%4096) ||| 1)) = true := by
  rw [present_entry f (pte_flags_lt flags), present, Nat.testBit_or]
  simp

theorem frameOf_pte (f flags : ℕ) : frameOf (entry f ((flags%4096) ||| 1)) = f :=
  frameOf_entry f (pte_flags_lt flags)

section MapPage

variable {m : Machine} {virt phys flags : ℕ}

theorem page_split (virt : ℕ) : virt/4096 = 1024*(virt/4194304)+virt/4096%1024 := by omega

theorem page_table (virt : ℕ) : virt/4096/1024 = virt/4194304 := by omega

/-- The kernel reads its own page tables through the recursive entry. -/
theorem read_pde (hrec : frameOf (m.mem m.cr3 1023) = m.cr3) (hv : virt < 4294967296) :
    m.read (m.pdePtr (virt/4194304)) = m.mem m.cr3 (virt/4194304) := by
  rw [pdePtr_eq hrec (by omega)]
  rfl

theorem ptePtr_table (hrec : frameOf (m.mem m.cr3 1023) = m.cr3) (virt : ℕ) :
    m.ptePtr virt = (frameOf (m.mem m.cr3 (virt/4194304)), virt/4096%1024) := by
  rw [ptePtr_eq hrec, page_table]

/-- `get_physical` finds what the processor finds. -/
theorem getPhysical_walk (hrec : frameOf (m.mem m.cr3 1023) = m.cr3) (hw : virt < 4294967296) :
    m.getPhysical virt =
      if present (m.walk virt).1 && present (m.walk virt).2 then
        entry (frameOf (m.walk virt).2) (virt%4096) else 0 := by
  have hpd : m.read (m.pdePtr (virt/4194304)) = (m.walk virt).1 := read_pde hrec hw
  have hpt : m.read (m.ptePtr virt) = (m.walk virt).2 := by
    rw [ptePtr_table hrec]
    rfl
  rw [Machine.getPhysical, hpd, hpt]
  cases present (m.walk virt).1 <;> cases present (m.walk virt).2 <;> rfl

theorem unmapPage_present (hrec : frameOf (m.mem m.cr3 1023) = m.cr3) (hv : virt < 4294967296)
    (hp : present (m.mem m.cr3 (virt/4194304)) = true) :
    m.unmapPage virt = m.write (frameOf (m.mem m.cr3 (virt/4194304)), virt/4096%1024) 0 := by
  rw [Machine.unmapPage, read_pde hrec hv, if_pos hp, ptePtr_table hrec]

/-- `map_page` below an entry that is there and need not change. -/
theorem mapPage_present (hrec : frameOf (m.mem m.cr3 1023) = m.cr3) (hv : virt < 4294967296)
    (hp : present (m.mem m.cr3 (virt/4194304)) = true)
    (hu : user flags = true → user (m.mem m.cr3 (virt/4194304)) = true) :
    m.mapPage virt phys flags = m.write
      (frameOf (m.mem m.cr3 (virt/4194304)), virt/4096%1024) (entry phys ((flags%4096) ||| 1)) := by
  have hno : (user flags && !user (m.mem m.cr3 (virt/4194304))) = false := by
    cases huf : user flags with
    | false => rfl
    | true => simp [hu huf]
  rw [Machine.mapPage]
  simp only [read_pde hrec hv]
  rw [if_pos hp, hno, if_neg (by simp), ptePtr_table hrec]

/-- `map_page` below an entry that is there and is made one of the user. -/
theorem mapPage_raised (hrec : frameOf (m.mem m.cr3 1023) = m.cr3) (hv : virt < 4294967296)
    (hi : virt/4194304 ≠ 1023) (hp : present (m.mem m.cr3 (virt/4194304)) = true)
    (hu : user flags = true) (hkernel : user (m.mem m.cr3 (virt/4194304)) = false) :
    m.mapPage virt phys flags =
      (m.write (m.cr3, virt/4194304) (m.mem m.cr3 (virt/4194304) ||| 4)).write
        (frameOf (m.mem m.cr3 (virt/4194304)), virt/4096%1024)
        (entry phys ((flags%4096) ||| 1)) := by
  rw [Machine.mapPage]
  simp only [read_pde hrec hv]
  rw [if_pos hp, hu, hkernel, if_pos (by rfl), pdePtr_eq hrec (by omega)]
  generalize hpde : m.mem m.cr3 (virt/4194304) = pde
  have hrec' : frameOf ((m.write (m.cr3, virt/4194304) (pde ||| 4)).mem
      (m.write (m.cr3, virt/4194304) (pde ||| 4)).cr3 1023) =
      (m.write (m.cr3, virt/4194304) (pde ||| 4)).cr3 := by
    rw [write_cr3, write_mem, if_neg fun hc => hi hc.2.symm, hrec]
  rw [ptePtr_table hrec', write_cr3, write_mem, if_pos ⟨rfl, rfl⟩, frameOf_or_four]

/-- What `map_page` makes of a table that it has to allocate. -/
structure TableMade (m m' : Machine) (virt phys flags t : ℕ) : Prop where
  pmm : m'.pmm = m.pmm.allocFrame.2
  cr3 : m'.cr3 = m.cr3
  kernelDirectory : m'.kernelDirectory = m.kernelDirectory
  mem : ∀ f k, m'.mem f k = if f = t ∧ k = virt/4096%1024 then entry phys ((flags%4096) ||| 1)
    else if f = m.cr3 ∧ k = virt/4194304 then entry t (if user flags then 7 else 3)
    else if f = t ∧ k < 1024 then 0 else m.mem f k

theorem mapPage_absent (hrec : frameOf (m.mem m.cr3 1023) = m.cr3) (hv : virt < 4294967296)
    (hi : virt/4194304 ≠ 1023) (hp : present (m.mem m.cr3 (virt/4194304)) = false)
    (h0 : m.allocFrame.1 ≠ 0) (hne : m.allocFrame.1 ≠ m.cr3) :
    TableMade m (m.mapPage virt phys flags) virt phys flags m.allocFrame.1 := by
  have hfl : (if user flags then 7 else 3) < 4096 := by split_ifs <;> decide
  generalize hw : entry m.allocFrame.1 (if user flags then 7 else 3) = w
  have hframe : frameOf w = m.allocFrame.1 := by rw [← hw, frameOf_entry _ hfl]
  -- the loaded directory after the new entry is in place
  generalize hm1 : m.allocFrame.2.write (m.cr3, virt/4194304) w = m1
  have hcr1 : m1.cr3 = m.cr3 := by rw [← hm1]; rfl
  have hmem1 : ∀ f k, m1.mem f k = if f = m.cr3 ∧ k = virt/4194304 then w else m.mem f k := by
    intro f k
    rw [← hm1]
    rfl
  have hrec1 : frameOf (m1.mem m1.cr3 1023) = m1.cr3 := by
    rw [hcr1, hmem1, if_neg (fun hc => hi hc.2.symm), hrec]
  have hpt1 : (m1.ptePtr (virt/4194304*4194304)).1 = m.allocFrame.1 := by
    have h1 : virt/4194304*4194304/4096/1024 = virt/4194304 := by omega
    rw [ptePtr_eq hrec1, h1, hcr1, hmem1, if_pos ⟨rfl, rfl⟩, hframe]
  generalize hm2 : m1.clear m.allocFrame.1 = m2
  have hcr2 : m2.cr3 = m.cr3 := by rw [← hm2]; exact hcr1
  have hmem2 : ∀ f k, m2.mem f k =
      if f = m.allocFrame.1 ∧ k < 1024 then 0 else m1.mem f k := by
    intro f k
    rw [← hm2]
    rfl
  have hdir2 : ∀ k, m2.mem m.cr3 k = m1.mem m.cr3 k := fun k => by
    rw [hmem2, if_neg fun hc => hne hc.1.symm]
  have hrec2 : frameOf (m2.mem m2.cr3 1023) = m2.cr3 := by
    rw [hcr2, hdir2, ← hcr1, hrec1]
  have hpt2 : m2.ptePtr virt = (m.allocFrame.1, virt/4096%1024) := by
    rw [ptePtr_table hrec2, hcr2, hdir2, hmem1, if_pos ⟨rfl, rfl⟩, hframe]
  have heq : m.mapPage virt phys flags =
      m2.write (m.allocFrame.1, virt/4096%1024) (entry phys ((flags%4096) ||| 1)) := by
    have hpd : m.allocFrame.2.pdePtr (virt/4194304) = (m.cr3, virt/4194304) :=
      pdePtr_eq (m := m.allocFrame.2) hrec (by omega)
    rw [Machine.mapPage]
    simp only [read_pde hrec hv]
    rw [if_neg (by rw [hp]; simp), if_neg h0, hpd, hw, hm1, hpt1, hm2, hpt2]
  rw [heq]
  refine ⟨?_, hcr2, ?_, fun f k => ?_⟩
  · rw [write_pmm, ← hm2, ← hm1]
    rfl
  · rw [write_kernelDirectory, ← hm2, ← hm1]
    rfl
  · rw [write_mem, hw]
    by_cases h1 : f = m.allocFrame.1 ∧ k = virt/4096%1024
    · rw [if_pos h1, if_pos h1]
    · rw [if_neg h1, if_neg h1, hmem2]
      by_cases h2 : f = m.cr3 ∧ k = virt/4194304
      · rw [if_neg (fun hc => hne (hc.1.symm.trans h2.1)), hmem1, if_pos h2, if_pos h2]
      · rw [if_neg h2, hmem1, if_neg h2]

/-- An entry is stored in table `t`, below the entry `pde` of the directory. Where there was
no table, it is new. -/
structure Stored (m m' : Machine) (virt word t pde : ℕ) : Prop where
  cr3 : m'.cr3 = m.cr3
  mem : ∀ f k, m'.mem f k = if f = t ∧ k = virt/4096%1024 then word
    else if f = m.cr3 ∧ k = virt/4194304 then pde
    else if present (m.mem m.cr3 (virt/4194304)) = false ∧ f = t ∧ k < 1024 then 0 else m.mem f k
  linked : present pde = true
  frame : frameOf pde = t
  table : present (m.mem m.cr3 (virt/4194304)) = true ∧ frameOf (m.mem m.cr3 (virt/4194304)) = t ∧
      m'.pmm = m.pmm ∨
    present (m.mem m.cr3 (virt/4194304)) = false ∧ t = m.pmm.allocFrame.1 ∧ t ≠ 0 ∧
      m'.pmm = m.pmm.allocFrame.2

/-- A store into a table that is there. -/
theorem stored_write (hp : present (m.mem m.cr3 (virt/4194304)) = true) (word : ℕ) :
    Stored m (m.write (frameOf (m.mem m.cr3 (virt/4194304)), virt/4096%1024) word) virt word
      (frameOf (m.mem m.cr3 (virt/4194304))) (m.mem m.cr3 (virt/4194304)) := by
  refine ⟨rfl, fun f k => ?_, hp, rfl, Or.inl ⟨hp, rfl, rfl⟩⟩
  rw [write_mem, if_neg (c := present _ = false ∧ _) fun hc => by simp [hp] at hc]
  split_ifs with h1 h2
  · rfl
  · rw [h2.1, h2.2]
  · rfl

/-- `map_page`, unless it has no frame for the table. -/
theorem mapPage_stored (hrec : frameOf (m.mem m.cr3 1023) = m.cr3) (hv : virt < 4294967296)
    (hi : virt/4194304 ≠ 1023)
    (halloc : present (m.mem m.cr3 (virt/4194304)) = false →
      m.allocFrame.1 ≠ 0 ∧ m.allocFrame.1 ≠ m.cr3) :
    ∃ t pde, Stored m (m.mapPage virt phys flags) virt (entry phys ((flags%4096) ||| 1)) t pde := by
  cases hp : present (m.mem m.cr3 (virt/4194304)) with
  | true =>
    by_cases hu : user flags = true → user (m.mem m.cr3 (virt/4194304)) = true
    · rw [mapPage_present hrec hv hp hu]
      exact ⟨_, _, stored_write hp _⟩
    · obtain ⟨huf, hnu⟩ := Classical.not_imp.mp hu
      rw [Bool.not_eq_true] at hnu
      rw [mapPage_raised hrec hv hi hp huf hnu]
      refine ⟨_, m.mem m.cr3 (virt/4194304) ||| 4, rfl, fun f k => ?_,
        (present_or_four _).trans hp, frameOf_or_four _, Or.inl ⟨hp, rfl, rfl⟩⟩
      rw [write_mem, write_mem, if_neg (c := present _ = false ∧ _) fun hc => by simp [hp] at hc]
  | false =>
    obtain ⟨h0, hne⟩ := halloc hp
    have hmade : TableMade m (m.mapPage virt phys flags) virt phys flags m.allocFrame.1 :=
      mapPage_absent hrec hv hi hp h0 hne
    have hfl : (if user flags then 7 else 3) < 4096 := by split_ifs <;> decide
    refine ⟨m.allocFrame.1, entry m.allocFrame.1 (if user flags then 7 else 3), hmade.cr3,
      fun f k => ?_, ?_, frameOf_entry _ hfl, Or.inr ⟨hp, rfl, h0, hmade.pmm⟩⟩
    · rw [hmade.mem]
      simp only [hp, true_and]
    · rw [present_entry _ hfl]
      split_ifs <;> decide

/-- Without memory for a table the page is not mapped. -/
theorem mapPage_full (hrec : frameOf (m.mem m.cr3 1023) = m.cr3) (hv : virt < 4294967296)
    (hp : present (m.mem m.cr3 (virt/4194304)) = false) (h0 : m.allocFrame.1 = 0) :
    m.mapPage virt phys flags = m.allocFrame.2 := by
  rw [Machine.mapPage]
  simp only [read_pde hrec hv]
  rw [if_neg (by rw [hp]; simp), if_pos h0]

end MapPage

def noGhost : ℕ × ℕ → Option ℕ := fun _ => none

/-- The state between two operations. -/
structure Sound (b : Base) (R : ℕ → Prop) (dirs : Finset ℕ) (m : Machine) : Prop where
  keeps : Private b R noGhost dirs m
  complete : Complete b dirs m

/-- A page may be mapped: it is not in the recursive window, and a page for users does
not lie below an entry of the kernel. -/
structure PageAllowed (b : Base) (m : Machine) (virt flags : ℕ) : Prop where
  word : virt < 4294967296
  window : virt/4194304 ≠ 1023
  low : b.low (virt/4194304) = none
  entry : user flags = true → present (m.mem m.cr3 (virt/4194304)) = true →
    user (m.mem m.cr3 (virt/4194304)) = true

/-- The pages of the other address spaces are as before. -/
def Apart (dirs : Finset ℕ) (m m' : Machine) : Prop :=
  ∀ d ∈ dirs, d ≠ m.cr3 → ∀ n, pteAt m' d n = pteAt m d n

/-- The loaded directory is the same. -/
def SameSpace (m m' : Machine) : Prop := m'.cr3 = m.cr3 ∧ m'.kernelDirectory = m.kernelDirectory

variable {b : Base} {R : ℕ → Prop} {dirs : Finset ℕ} {m m' : Machine} {d t : ℕ}

theorem complete_congr (h : Complete b dirs m)
    (hrec : ∀ d ∈ dirs, m'.mem d 1023 = m.mem d 1023)
    (hlow : ∀ d ∈ dirs, ∀ i w, b.low i = some w → m'.mem d i = m.mem d i) : Complete b dirs m' :=
  ⟨fun d hd => (hrec d hd).trans (h.recursive d hd),
    fun d hd i w hw => (hlow d hd i w hw).trans (h.low d hd i w hw)⟩

theorem complete_dirs (h : Complete b dirs m) (hdir : ∀ d ∈ dirs, m'.mem d = m.mem d) :
    Complete b dirs m' :=
  complete_congr h (fun d hd => by rw [hdir d hd]) fun d hd _ _ _ => by rw [hdir d hd]

theorem recursive_loaded (h : Sound b R dirs m) (hl : m.cr3 ∈ dirs) :
    frameOf (m.mem m.cr3 1023) = m.cr3 := by
  rw [h.complete.recursive _ hl, frameOf_entry _ (by decide)]

theorem pteAt_kept {n : ℕ} (hdir : m'.mem d = m.mem d)
    (htab : ∀ t, tableAt m d (n/1024) = some t → m'.mem t = m.mem t) :
    pteAt m' d n = pteAt m d n := by
  have ht : tableAt m' d (n/1024) = tableAt m d (n/1024) := tableAt_congr (by rw [hdir])
  cases hs : tableAt m d (n/1024) with
  | none => rw [pteAt, pteAt, ht, hs, Option.bind_none, Option.bind_none]
  | some t => rw [pteAt_table (ht.trans hs), pteAt_table hs, htab t hs]

/-- A frame that the manager does not know is spare. -/
theorem spare_foreign (h : Sound b R dirs m) {f : ℕ} (hf : m.pmm.maxFrames ≤ f) :
    Spare m.pmm (slots noGhost dirs m) (Own R dirs m) f :=
  ⟨fun ho => absurd (h.keeps.inside f ho) (by omega), fun hlt => absurd hlt (by omega)⟩

section MapSound

variable {virt phys flags : ℕ} (h : Sound b R dirs m) (hl : m.cr3 ∈ dirs)
include h hl

/-- The entry leads to a table of user pages. -/
theorem mapPage_user (ha : PageAllowed b m virt flags)
    (hs : Spare m.pmm (slots noGhost dirs m) (Own R dirs m) phys)
    (ht : tableAt m m.cr3 (virt/4194304) = some t) :
    Sound b R dirs (m.mapPage virt phys flags) ∧ Apart dirs m (m.mapPage virt phys flags) ∧
      SameSpace m (m.mapPage virt phys flags) := by
  obtain ⟨-, hp, hu, hframe⟩ := tableAt_some ht
  obtain ⟨hR, hdir⟩ := h.keeps.table _ hl _ t ht
  rw [mapPage_present (recursive_loaded h hl) ha.word hp fun _ => hu, hframe]
  have hother : ∀ f, f ≠ t → (m.write (t, virt/4096%1024)
      (entry phys ((flags%4096) ||| 1))).mem f = m.mem f := by
    intro f hf
    funext k
    exact if_neg fun hc => hf hc.1
  refine ⟨⟨private_setPte h.keeps hl ht (Nat.mod_lt _ (by decide)) rfl (fun f k => rfl) ?_, ?_⟩, ?_,
    rfl, rfl⟩
  · rw [present_pte, if_pos rfl, frameOf_pte]
    exact covered_put h.keeps.covered hs _
  · exact complete_dirs h.complete fun d hd => hother d fun he => hdir (he ▸ hd)
  · intro d hd hne n
    refine pteAt_kept (hother d fun he => hdir (he ▸ hd)) fun s hs' => hother s ?_
    rintro rfl
    exact hne (h.keeps.tables d hd _ hl _ _ s hs' ht).1

variable (phys) in
/-- The entry leads to a table of the kernel. -/
theorem mapPage_kernel (ha : PageAllowed b m virt flags)
    (hp : present (m.mem m.cr3 (virt/4194304)) = true)
    (hu : user (m.mem m.cr3 (virt/4194304)) = false) :
    Sound b R dirs (m.mapPage virt phys flags) ∧ Apart dirs m (m.mapPage virt phys flags) ∧
      SameSpace m (m.mapPage virt phys flags) := by
  have hflags : user flags = true → user (m.mem m.cr3 (virt/4194304)) = true := fun huf =>
    ha.entry huf hp
  obtain ⟨hR, hfix⟩ := h.keeps.shared _ hl (virt/4194304)
    (by have := ha.word; have := ha.window; omega) hp hu
  rw [mapPage_present (recursive_loaded h hl) ha.word hp hflags]
  generalize frameOf (m.mem m.cr3 (virt/4194304)) = s at *
  have hother : ∀ f, f ≠ s → (m.write (s, virt/4096%1024)
      (entry phys ((flags%4096) ||| 1))).mem f = m.mem f := by
    intro f hf
    funext k
    exact if_neg fun hc => hf hc.1
  have hds : ∀ d ∈ dirs, d ≠ s := fun d hd he => (h.keeps.dir d hd).2 (he ▸ hR)
  have hts : ∀ d ∈ dirs, ∀ i t, tableAt m d i = some t → t ≠ s := fun d hd i t ht he =>
    (h.keeps.table d hd i t ht).1 (he ▸ hR)
  refine ⟨⟨private_mem h.keeps rfl (fun d hd k _ => by rw [hother d (hds d hd)])
    (fun d hd i t ht k _ => by rw [hother t (hts d hd i t ht)])
    fun t ht => hother t fun he => hfix ha.low (he ▸ ht), ?_⟩, ?_, rfl, rfl⟩
  · exact complete_dirs h.complete fun d hd => hother d (hds d hd)
  · exact fun d hd _ n => pteAt_kept (hother d (hds d hd)) fun t ht => hother t (hts d hd _ t ht)

omit hl in
theorem fixed_reserved : ∀ s, b.fixed s → R s := fun s hs => (h.keeps.kernel s hs).1

omit hl in
/-- A frame that was handed out for a table. -/
theorem taken_alloc (h0 : m.allocFrame.1 ≠ 0) :
    Taken b R noGhost dirs m.allocFrame.2 m.allocFrame.1 ∧ ¬b.fixed m.allocFrame.1 := by
  have ht := taken_fresh h.keeps h0
  exact ⟨ht, taken_not_fixed ht (fixed_reserved h)⟩

omit h hl in
/-- What a new table leaves alone. -/
theorem tableMade_other
    (hm : TableMade m m' virt phys flags m.allocFrame.1) {f : ℕ} (hf : f ≠ m.allocFrame.1)
    (hfd : f ≠ m.cr3) : m'.mem f = m.mem f := by
  funext k
  rw [hm.mem, if_neg fun hc => hf hc.1, if_neg fun hc => hfd hc.1, if_neg fun hc => hf hc.1]

omit hl in
theorem tableMade_complete (ha : PageAllowed b m virt flags) (h0 : m.allocFrame.1 ≠ 0)
    (hm : TableMade m m' virt phys flags m.allocFrame.1) : Complete b dirs m' := by
  obtain ⟨ht, -⟩ := taken_alloc h h0
  have hentry : ∀ d ∈ dirs, ∀ k, k ≠ virt/4194304 → m'.mem d k = m.mem d k := by
    intro d hd k hk
    have hdt := taken_not_dir ht hd
    rw [hm.mem, if_neg fun hc => hdt hc.1, if_neg fun hc => hk hc.2, if_neg fun hc => hdt hc.1]
  refine complete_congr h.complete (fun d hd => hentry d hd _ ha.window.symm)
    fun d hd i w hw => hentry d hd i ?_
  rintro rfl
  rw [ha.low] at hw
  exact absurd hw (by simp)

theorem tableMade_apart (h0 : m.allocFrame.1 ≠ 0)
    (hm : TableMade m m' virt phys flags m.allocFrame.1) : Apart dirs m m' := by
  obtain ⟨ht, -⟩ := taken_alloc h h0
  intro d hd hne n
  refine pteAt_kept (tableMade_other hm (taken_not_dir ht hd) hne) fun s hs => ?_
  refine tableMade_other hm (taken_not_table ht hd hs) fun he => ?_
  exact (h.keeps.table d hd _ s hs).2 (he ▸ hl)

/-- The memory after the new table is in place and before the page is. -/
def withTable (m : Machine) (i t w : ℕ) : Machine :=
  { m with mem := fun f k => if f = m.cr3 ∧ k = i then w else if f = t ∧ k < 1024 then 0
      else m.mem f k }

/-- The page gets a table of user pages. -/
theorem mapPage_newUser (ha : PageAllowed b m virt flags)
    (hs : Spare m.pmm (slots noGhost dirs m) (Own R dirs m) phys) (hu : user flags = true)
    (hp : present (m.mem m.cr3 (virt/4194304)) = false) (h0 : m.allocFrame.1 ≠ 0)
    (hm : TableMade m m' virt phys flags m.allocFrame.1) : Private b R noGhost dirs m' := by
  obtain ⟨ht, hfix⟩ := taken_alloc h h0
  have hi : virt/4194304 < 1023 := by have := ha.word; have := ha.window; omega
  have hspare := spare_alloc hs h0
  rw [← Machine.allocFrame_fst, ← Machine.allocFrame_pmm] at hspare
  have hmem := Machine.allocFrame_mem m
  have hcr := Machine.allocFrame_cr3 m
  have hpmm := hm.pmm.trans (Machine.allocFrame_pmm m).symm
  have hmm := hm.mem
  generalize m.allocFrame.1 = t at *
  generalize m.allocFrame.2 = m1 at *
  have hold : tableAt m1 m.cr3 (virt/4194304) = none := by
    apply if_neg
    rintro ⟨-, hp', -⟩
    rw [hmem, hp] at hp'
    exact absurd hp' (by simp)
  have hdi : (withTable m1 (virt/4194304) t (entry t 7)).mem m.cr3 (virt/4194304) = entry t 7 := by
    rw [← hcr]
    exact if_pos ⟨rfl, rfl⟩
  have hnew : NewTable dirs m1 (withTable m1 (virt/4194304) t (entry t 7)) m.cr3 (virt/4194304) t :=
    ⟨hl, hi, hold, tableAt_made hi hdi, rfl, fun f k hx => if_neg (by rwa [hcr])⟩
  have hsound := taken_newTable ht hnew hfix
  have hown := newTable_own ht hnew
  have hslots := newTable_slots ht hnew
  generalize hm2 : withTable m1 (virt/4194304) t (entry t 7) = m2 at *
  have hpmm2 : m2.pmm = m1.pmm := hnew.pmm
  refine private_setPte hsound hl hnew.new (j := virt/4096%1024) (Nat.mod_lt _ (by decide))
    (by rw [hpmm, hpmm2]) (fun f k => ?_) (w := entry phys ((flags%4096) ||| 1)) ?_
  · rw [hmm, if_pos hu, ← hm2]
    unfold withTable
    dsimp only
    rw [hcr, hmem]
  · rw [present_pte, if_pos rfl, frameOf_pte, hpmm, ← hpmm2]
    refine covered_put hsound.covered ⟨fun ho => ?_, fun hlt => ?_⟩ _
    · rcases (hown phys).mp ho with (hr | he) | hd | ⟨d, hd, i, hi⟩
      · exact hspare.unowned (Or.inl (Or.inl hr))
      · exact hspare.unowned (Or.inr he)
      · exact hspare.unowned (Or.inl (Or.inr (Or.inl hd)))
      · exact hspare.unowned (Or.inl (Or.inr (Or.inr ⟨d, hd, i,
          (tableAt_congr (by rw [hmem])).symm.trans hi⟩)))
    · rw [hslots, hpmm2, slots_mem noGhost dirs hmem]
      exact hspare.room (hpmm2 ▸ hlt)

/-- The page gets a table of the kernel. -/
theorem mapPage_newKernel (hu : user flags = false)
    (hp : present (m.mem m.cr3 (virt/4194304)) = false) (h0 : m.allocFrame.1 ≠ 0)
    (hm : TableMade m m' virt phys flags m.allocFrame.1) :
    Private b (fun s => R s ∨ s = m.allocFrame.1) noGhost dirs m' := by
  obtain ⟨ht, hfix⟩ := taken_alloc h h0
  have hdi : m'.mem m.cr3 (virt/4194304) = entry m.allocFrame.1 3 := by
    rw [hm.mem, if_neg fun hc => taken_not_dir ht hl hc.1, if_pos ⟨rfl, rfl⟩, hu]
    rfl
  have hother : ∀ f, f ≠ m.allocFrame.1 → ∀ k, ¬(f = m.cr3 ∧ k = virt/4194304) →
      m'.mem f k = m.allocFrame.2.mem f k := by
    intro f hf k hx
    rw [hm.mem, if_neg fun hc => hf hc.1, if_neg hx, if_neg fun hc => hf hc.1]
    rfl
  refine private_setPde ht.keeps (d := m.cr3) (i := virt/4194304) ?_ ?_ hm.pmm
    (fun d hd k _ hx => ?_) (fun d hd i s hs k _ => ?_) (fun s hs => ?_) fun _ _ _ => ?_
  · apply if_neg
    rintro ⟨-, hp', -⟩
    rw [Machine.allocFrame_mem, hp] at hp'
    exact absurd hp' (by simp)
  · apply if_neg
    rintro ⟨-, -, hu'⟩
    rw [hdi, user_entry _ (by decide)] at hu'
    exact absurd hu' (by decide)
  · exact hother d (taken_not_dir ht hd) k (by tauto)
  · refine hother s (taken_not_table ht hd hs) k fun hc => ?_
    exact (ht.keeps.table d hd i s hs).2 (hc.1 ▸ hl)
  · funext k
    refine hother s (fun he => hfix (he ▸ hs)) k fun hc => ?_
    exact (h.keeps.dir _ hl).2 (hc.1 ▸ fixed_reserved h s hs)
  · rw [hdi, frameOf_entry _ (by decide)]
    exact ⟨Or.inr rfl, fun _ => hfix⟩

/-- The kernel may own more frames than before. -/
structure Kept (b : Base) (R : ℕ → Prop) (dirs : Finset ℕ) (m m' : Machine) : Prop where
  sound : ∃ R', (∀ s, R s → R' s) ∧ Sound b R' dirs m'
  apart : Apart dirs m m'
  space : SameSpace m m'

variable (phys) in
/-- The frame matters only where the table is one of user pages. -/
theorem mapPage_kept (ha : PageAllowed b m virt flags)
    (hs : user flags = true ∨ present (m.mem m.cr3 (virt/4194304)) = true ∧
      user (m.mem m.cr3 (virt/4194304)) = true →
      Spare m.pmm (slots noGhost dirs m) (Own R dirs m) phys) : Kept b R dirs m (m.mapPage virt phys flags) := by
  have hrec := recursive_loaded h hl
  have hi : virt/4194304 < 1023 := by have := ha.word; have := ha.window; omega
  cases hp : present (m.mem m.cr3 (virt/4194304)) with
  | true =>
    cases hu : user (m.mem m.cr3 (virt/4194304)) with
    | true =>
      obtain ⟨h1, h2, h3⟩ := mapPage_user h hl ha (hs (Or.inr ⟨hp, hu⟩)) (tableAt_of hi hp hu)
      exact ⟨⟨R, fun _ hr => hr, h1⟩, h2, h3⟩
    | false =>
      obtain ⟨h1, h2, h3⟩ := mapPage_kernel phys h hl ha hp hu
      exact ⟨⟨R, fun _ hr => hr, h1⟩, h2, h3⟩
  | false =>
    by_cases h0 : m.allocFrame.1 = 0
    · rw [mapPage_full hrec ha.word hp h0]
      refine ⟨⟨R, fun _ hr => hr, private_rebuild h.keeps ?_ (fun _ _ _ _ => rfl) (fun _ _ => rfl)
        (covered_allocFrame h.keeps.covered), complete_dirs h.complete fun _ _ => rfl⟩,
        fun _ _ _ _ => rfl, rfl, rfl⟩
      exact allocFrame_maxFrames m.pmm
    · have hm : TableMade m (m.mapPage virt phys flags) virt phys flags m.allocFrame.1 :=
        mapPage_absent hrec ha.word ha.window hp h0
          (taken_not_dir (taken_alloc h h0).1 hl).symm
      refine ⟨?_, tableMade_apart h hl h0 hm, hm.cr3, hm.kernelDirectory⟩
      cases hu : user flags with
      | true =>
        exact ⟨R, fun _ hr => hr, mapPage_newUser h hl ha (hs (Or.inl hu)) hu hp h0 hm,
          tableMade_complete h ha h0 hm⟩
      | false =>
        exact ⟨_, fun _ hr => Or.inl hr, mapPage_newKernel h hl hu hp h0 hm,
          tableMade_complete h ha h0 hm⟩

variable (phys) in
/-- What the processor finds once a page is mapped. -/
theorem mapPage_walk (ha : PageAllowed b m virt flags)
    (hp : present ((m.mapPage virt phys flags).walk virt).1 = true) :
    ((m.mapPage virt phys flags).walk virt).2 = entry phys ((flags%4096) ||| 1) ∧
      (user flags = true → user ((m.mapPage virt phys flags).walk virt).1 = true) := by
  have hrec := recursive_loaded h hl
  have hi : virt/4194304 < 1023 := by have := ha.word; have := ha.window; omega
  cases hpde : present (m.mem m.cr3 (virt/4194304)) with
  | true =>
    -- the table is no directory, so the entry of the directory is still there
    have hne : frameOf (m.mem m.cr3 (virt/4194304)) ≠ m.cr3 := by
      intro he
      cases hu : user (m.mem m.cr3 (virt/4194304)) with
      | true => exact (h.keeps.table _ hl _ _ (tableAt_of hi hpde hu)).2 (he.symm ▸ hl)
      | false => exact (h.keeps.dir _ hl).2 (he ▸ (h.keeps.shared _ hl _ hi hpde hu).1)
    rw [mapPage_present hrec ha.word hpde fun huf => ha.entry huf hpde]
    have hdir : (m.write (frameOf (m.mem m.cr3 (virt/4194304)), virt/4096%1024)
        (entry phys ((flags%4096) ||| 1))).mem m.cr3 (virt/4194304) =
        m.mem m.cr3 (virt/4194304) := if_neg fun hc => hne hc.1.symm
    constructor
    · rw [Machine.walk, write_cr3, hdir]
      exact if_pos ⟨rfl, rfl⟩
    · intro huf
      rw [Machine.walk, write_cr3, hdir]
      exact ha.entry huf hpde
  | false =>
    by_cases h0 : m.allocFrame.1 = 0
    · rw [mapPage_full hrec ha.word hpde h0] at hp
      have hp' : present (m.mem m.cr3 (virt/4194304)) = true := hp
      rw [hpde] at hp'
      exact absurd hp' (by simp)
    · have hdt := taken_not_dir (taken_alloc h h0).1 hl
      have hm : TableMade m (m.mapPage virt phys flags) virt phys flags m.allocFrame.1 :=
        mapPage_absent hrec ha.word ha.window hpde h0 hdt.symm
      generalize m.mapPage virt phys flags = m' at *
      have hdir : m'.mem m'.cr3 (virt/4194304) =
          entry m.allocFrame.1 (if user flags then 7 else 3) := by
        rw [hm.cr3, hm.mem, if_neg fun hc => hdt hc.1, if_pos ⟨rfl, rfl⟩]
      have hfl : (if user flags then 7 else 3) < 4096 := by split_ifs <;> decide
      constructor
      · rw [Machine.walk, hdir, frameOf_entry _ hfl]
        exact (hm.mem _ _).trans (if_pos ⟨rfl, rfl⟩)
      · intro huf
        rw [Machine.walk]
        dsimp only
        rw [hdir, user_entry _ hfl, huf]
        decide

variable (phys) in
/-- A page of the kernel changes no entry of a directory, or makes one for a fresh table. -/
theorem mapPage_entries (ha : PageAllowed b m virt flags) (huf : user flags = false) {k : ℕ}
    (hd : d ∈ dirs) : (m.mapPage virt phys flags).mem d k = m.mem d k ∨
      ∃ s, (m.mapPage virt phys flags).mem d k = entry s 3 ∧ ¬Own R dirs m s := by
  have hrec := recursive_loaded h hl
  have hi : virt/4194304 < 1023 := by have := ha.word; have := ha.window; omega
  cases hpde : present (m.mem m.cr3 (virt/4194304)) with
  | true =>
    rw [mapPage_present hrec ha.word hpde fun hc => ha.entry hc hpde]
    refine Or.inl (if_neg fun hc => ?_)
    have he : d = frameOf (m.mem m.cr3 (virt/4194304)) := hc.1
    cases hu : user (m.mem m.cr3 (virt/4194304)) with
    | true => exact (h.keeps.table _ hl _ _ (tableAt_of hi hpde hu)).2 (he ▸ hd)
    | false => exact (h.keeps.dir d hd).2 (he ▸ (h.keeps.shared _ hl _ hi hpde hu).1)
  | false =>
    by_cases h0 : m.allocFrame.1 = 0
    · rw [mapPage_full hrec ha.word hpde h0]
      exact Or.inl rfl
    · obtain ⟨ht, -⟩ := taken_alloc h h0
      have hm : TableMade m (m.mapPage virt phys flags) virt phys flags m.allocFrame.1 :=
        mapPage_absent hrec ha.word ha.window hpde h0 (taken_not_dir ht hl).symm
      have hdt := taken_not_dir ht hd
      rw [hm.mem, if_neg fun hc => hdt hc.1]
      by_cases hx : d = m.cr3 ∧ k = virt/4194304
      · rw [if_pos hx, huf]
        exact Or.inr ⟨_, rfl, (covered_alloc h.keeps.covered h0).2.unowned⟩
      · rw [if_neg hx, if_neg fun hc => hdt hc.1]
        exact Or.inl rfl

end MapSound

theorem kept_after {m1 : Machine} (h1 : Kept b R dirs m m1) (h2 : Kept b R dirs m1 m') :
    Kept b R dirs m m' := by
  refine ⟨h2.sound, fun d hd hne n => ?_, h2.space.1.trans h1.space.1,
    h2.space.2.trans h1.space.2⟩
  rw [h2.apart d hd (by rwa [h1.space.1]) n, h1.apart d hd hne n]

theorem kept_trans {m1 : Machine} (h1 : Kept b R dirs m m1)
    (h2 : ∀ R', (∀ s, R s → R' s) → Sound b R' dirs m1 → Kept b R' dirs m1 m') :
    Kept b R dirs m m' := by
  obtain ⟨R1, hsub, hs1⟩ := h1.sound
  have hk := h2 R1 hsub hs1
  obtain ⟨R2, hsub2, hs2⟩ := hk.sound
  exact kept_after h1 ⟨⟨R2, fun s hs => hsub2 s (hsub s hs), hs2⟩, hk.apart, hk.space⟩

section Data

variable {f : ℕ} (h : Sound b R dirs m) (hf : ¬Own R dirs m f)
  (hmem : ∀ g, g ≠ f → m'.mem g = m.mem g)
include h hf hmem

omit h in
theorem data_dir : ∀ d ∈ dirs, m'.mem d = m.mem d := fun d hd =>
  hmem d fun he => hf (Or.inr (Or.inl (he ▸ hd)))

omit h in
theorem data_table : ∀ d ∈ dirs, ∀ i t, tableAt m d i = some t → m'.mem t = m.mem t :=
  fun d hd i t ht => hmem t fun he => hf (Or.inr (Or.inr ⟨d, hd, i, he ▸ ht⟩))

theorem sound_data (hp : m'.pmm = m.pmm) : Sound b R dirs m' :=
  ⟨private_data h.keeps hf hp hmem, complete_dirs h.complete (data_dir hf hmem)⟩

omit h in
theorem spare_data (hp : m'.pmm = m.pmm) {g : ℕ}
    (hs : Spare m.pmm (slots noGhost dirs m) (Own R dirs m) g) :
    Spare m'.pmm (slots noGhost dirs m') (Own R dirs m') g := by
  have hdir := data_dir hf hmem
  have hslots : slots noGhost dirs m' = slots noGhost dirs m :=
    slots_same (fun d hd k _ => by rw [hdir d hd])
      fun d hd i t ht k _ => by rw [data_table hf hmem d hd i t ht]
  rw [hp, hslots]
  refine ⟨fun ho => hs.unowned ?_, hs.room⟩
  exact (own_congr (fun d hd i => tableAt_congr (by rw [hdir d hd])) g).mp ho

theorem kept_data (hp : m'.pmm = m.pmm) (hspace : SameSpace m m') : Kept b R dirs m m' := by
  refine ⟨⟨R, fun _ hr => hr, sound_data h hf hmem hp⟩, fun d hd _ n => ?_, hspace⟩
  exact pteAt_kept (data_dir hf hmem d hd) fun t ht => data_table hf hmem d hd _ t ht

end Data

/-- The page of a user that the processor finds is one of the slots. -/
theorem slot_of_walk {virt : ℕ} (hl : m.cr3 ∈ dirs) (hi : virt/4194304 < 1023)
    (hp : present (m.walk virt).1 = true) (hu : user (m.walk virt).1 = true)
    (hpte : present (m.walk virt).2 = true) :
    slots noGhost dirs m (m.cr3, virt/4096) = some (frameOf (m.walk virt).2) := by
  have ht : tableAt m m.cr3 (virt/4096/1024) = some (frameOf (m.walk virt).1) := by
    rw [page_table]
    exact tableAt_of hi hp hu
  rw [slots_dir hl, pteAt_table ht]
  exact congrArg (Option.map frameOf) (if_pos hpte)

section Pages

variable {virt flags : ℕ} (h : Sound b R dirs m)
include h

/-- A frame is handed out for data. -/
theorem sound_allocFrame : Sound b R dirs m.allocFrame.2 :=
  ⟨private_rebuild h.keeps (allocFrame_maxFrames m.pmm) (fun _ _ _ _ => rfl) (fun _ _ => rfl)
    (covered_allocFrame h.keeps.covered), complete_dirs h.complete fun _ _ => rfl⟩

theorem kept_allocFrame : Kept b R dirs m m.allocFrame.2 :=
  ⟨⟨R, fun _ hr => hr, sound_allocFrame h⟩, fun _ _ _ _ => rfl, rfl, rfl⟩

theorem spare_fresh (h0 : m.allocFrame.1 ≠ 0) :
    Spare m.allocFrame.2.pmm (slots noGhost dirs m.allocFrame.2) (Own R dirs m.allocFrame.2)
      m.allocFrame.1 := spare_allocFrame h.keeps.covered h0

omit h in
theorem kept_of_alloc (h : Kept b R dirs m.allocFrame.2 m') : Kept b R dirs m m' :=
  ⟨h.sound, h.apart, h.space⟩

variable (hl : m.cr3 ∈ dirs)
include hl

theorem mmapPage_kept (ha : PageAllowed b m virt flags) (hu : user flags = true) :
    Kept b R dirs m (m.mmapPage virt flags) := by
  unfold Machine.mmapPage
  by_cases h0 : m.allocFrame.1 = 0
  · simp only [if_pos h0]
    exact kept_allocFrame h
  · simp only [if_neg h0]
    have h1 := sound_allocFrame h
    have hs := spare_fresh h h0
    have ha1 : PageAllowed b m.allocFrame.2 virt flags := ⟨ha.word, ha.window, ha.low, ha.entry⟩
    have hl1 : m.allocFrame.2.cr3 ∈ dirs := hl
    have hi : virt/4194304 < 1023 := by have := ha.word; have := ha.window; omega
    apply kept_of_alloc
    generalize m.allocFrame.1 = frame at *
    generalize m.allocFrame.2 = m1 at *
    have hmap := mapPage_kept frame h1 hl1 ha1 fun _ => hs
    have hwalk := mapPage_walk frame h1 hl1 ha1
    generalize m1.mapPage virt frame flags = m2 at *
    refine kept_trans hmap fun R' _ hs2 => ?_
    split_ifs with hp
    · rw [Bool.and_eq_true] at hp
      have hl2 : m2.cr3 ∈ dirs := by rwa [hmap.space.1]
      have hslot := slot_of_walk hl2 hi hp.1 ((hwalk hp.1).2 hu) hp.2
      refine kept_data hs2 (not_own_of_slot hs2.keeps hslot) (fun g hg => ?_) rfl ⟨rfl, rfl⟩
      funext k
      exact if_neg fun hc => hg hc.1
    · exact ⟨⟨R', fun _ hr => hr, hs2⟩, fun _ _ _ _ => rfl, rfl, rfl⟩

theorem faultPage_kept (ha : PageAllowed b m virt flags) (data : Option (ℕ → ℕ)) :
    Kept b R dirs m (m.faultPage virt flags data) := by
  unfold Machine.faultPage
  by_cases h0 : m.allocFrame.1 = 0
  · simp only [if_pos h0]
    exact kept_allocFrame h
  · simp only [if_neg h0]
    have h1 := sound_allocFrame h
    have hs := spare_fresh h h0
    have ha1 : PageAllowed b m.allocFrame.2 virt flags := ⟨ha.word, ha.window, ha.low, ha.entry⟩
    have hl1 : m.allocFrame.2.cr3 ∈ dirs := hl
    apply kept_of_alloc
    generalize m.allocFrame.1 = frame at *
    generalize m.allocFrame.2 = m1 at *
    cases data with
    | none => exact mapPage_kept frame h1 hl1 ha1 fun _ => hs
    | some words =>
      dsimp only
      generalize hm2 : m1.fill frame words = m2
      have hmem : ∀ g, g ≠ frame → m2.mem g = m1.mem g := by
        intro g hg
        funext k
        rw [← hm2]
        exact if_neg fun hc => hg hc.1
      have hp : m2.pmm = m1.pmm := by
        rw [← hm2]
        rfl
      have hspace : SameSpace m1 m2 := by
        rw [← hm2]
        exact ⟨rfl, rfl⟩
      have hd := hs.unowned
      have hs2 := sound_data h1 hd hmem hp
      have hl2 : m2.cr3 ∈ dirs := by rwa [hspace.1]
      have hentry : m2.mem m2.cr3 = m1.mem m1.cr3 := by
        rw [hspace.1]
        exact data_dir hd hmem _ hl1
      have ha2 : PageAllowed b m2 virt flags := by
        refine ⟨ha1.word, ha1.window, ha1.low, ?_⟩
        rw [hentry]
        exact ha1.entry
      exact kept_after (kept_data h1 hd hmem hp hspace)
        (mapPage_kept frame hs2 hl2 ha2 fun _ => spare_data hd hmem hp hs)

/-- The frame of the cache is still mapped by somebody. -/
theorem cachedPage_kept {cached : ℕ} (ha : PageAllowed b m virt flags)
    (hx : ∃ x, slots noGhost dirs m x = some cached)
    (hroom : cached < m.pmm.maxFrames → m.pmm.refcounts cached < 255) :
    Kept b R dirs m (m.cachedPage virt cached flags) := by
  obtain ⟨x, hx⟩ := hx
  have hown : ¬Own R dirs m cached := not_own_of_slot h.keeps hx
  have hcov := covered_incRef h.keeps.covered cached
  have h1 : Sound b R dirs (m.incRef cached) :=
    ⟨private_rebuild h.keeps (incRef_maxFrames m.pmm cached) (fun _ _ _ _ => rfl) (fun _ _ => rfl)
      hcov, complete_dirs h.complete fun _ _ => rfl⟩
  have hs : Spare (m.incRef cached).pmm (slots noGhost dirs (m.incRef cached))
      (Own R dirs (m.incRef cached)) cached := by
    refine ⟨hown, fun hlt => ?_⟩
    have hp : (m.incRef cached).pmm = m.pmm.incRef cached := rfl
    rw [hp, incRef_maxFrames] at hlt
    rw [hp, incRef_memoryBitmap, incRef_refcounts _ hlt (hroom hlt)]
    exact ⟨h.keeps.covered.held x cached hx hlt,
      Nat.succ_le_succ (h.keeps.covered.counted cached hlt hown)⟩
  have hmap := mapPage_kept cached h1 hl
    (show PageAllowed b (m.incRef cached) virt flags from ⟨ha.word, ha.window, ha.low, ha.entry⟩)
    fun _ => hs
  exact ⟨hmap.sound, hmap.apart, hmap.space⟩

/-- The table and the slot of a page of the loaded address space. -/
theorem loaded_slot (hw : virt < 4294967296) (hp : present (m.walk virt).1 = true)
    (hu : user (m.walk virt).1 = true) (hpte : present (m.walk virt).2 = true) :
    virt/4194304 < 1023 ∧
      tableAt m m.cr3 (virt/4194304) = some (frameOf (m.mem m.cr3 (virt/4194304))) ∧
      slots noGhost dirs m (m.cr3, 1024*(virt/4194304)+virt/4096%1024) =
        some (frameOf (m.walk virt).2) := by
  have hi : virt/4194304 < 1023 := by
    by_contra hge
    have h3 : virt/4194304 = 1023 := by omega
    have hu' : user (m.mem m.cr3 1023) = true := h3 ▸ hu
    rw [h.complete.recursive _ hl, user_entry _ (by decide)] at hu'
    exact absurd hu' (by decide)
  refine ⟨hi, tableAt_of hi hp hu, ?_⟩
  rw [← page_split]
  exact slot_of_walk hl hi hp hu hpte

/-- The entry of a page of the loaded address space changes. -/
theorem kept_setPte {w : ℕ} (ht : tableAt m m.cr3 (virt/4194304) = some t)
    (hmem : ∀ f k, m'.mem f k = if f = t ∧ k = virt/4096%1024 then w else m.mem f k)
    (hmax : m'.pmm.maxFrames = m.pmm.maxFrames) (hspace : SameSpace m m')
    (hcov : Covered m'.pmm (setSlot (slots noGhost dirs m)
      (m.cr3, 1024*(virt/4194304)+virt/4096%1024)
      (if present w then some (frameOf w) else none)) (Own R dirs m)) : Kept b R dirs m m' := by
  have hdir := (h.keeps.table _ hl _ t ht).2
  have hother : ∀ f, f ≠ t → m'.mem f = m.mem f := by
    intro f hf
    funext k
    rw [hmem]
    exact if_neg fun hc => hf hc.1
  refine ⟨⟨R, fun _ hr => hr,
    private_setPte h.keeps hl ht (Nat.mod_lt _ (by decide)) hmax hmem hcov,
    complete_dirs h.complete fun d hd => hother d fun he => hdir (he ▸ hd)⟩,
    fun d hd hne n => ?_, hspace⟩
  refine pteAt_kept (hother d fun he => hdir (he ▸ hd)) fun s hs' => hother s ?_
  rintro rfl
  exact hne (h.keeps.tables d hd _ hl _ _ s hs' ht).1

/-- One page of `sys_munmap` that lies in no table of the kernel. -/
theorem munmapPage_kept (ha : PageAllowed b m virt 7) : Kept b R dirs m (m.munmapPage virt) := by
  have hrec := recursive_loaded h hl
  have hself : Kept b R dirs m m := ⟨⟨R, fun _ hr => hr, h⟩, fun _ _ _ _ => rfl, rfl, rfl⟩
  unfold Machine.munmapPage
  rw [getPhysical_walk hrec ha.word]
  dsimp only
  by_cases hp : (present (m.walk virt).1 && present (m.walk virt).2) = true
  · rw [if_pos hp]
    split_ifs
    · exact hself
    rw [Bool.and_eq_true] at hp
    have hu : user (m.walk virt).1 = true := ha.entry (by decide) hp.1
    obtain ⟨hi, ht, hslot⟩ := loaded_slot h hl ha.word hp.1 hu hp.2
    rw [unmapPage_present hrec ha.word hp.1, frameOf_entry _ (Nat.mod_lt _ (by decide))]
    refine kept_setPte h hl ht (w := 0) (fun f k => rfl) (freeFrame_maxFrames _ _) ⟨rfl, rfl⟩ ?_
    exact covered_drop h.keeps.covered hslot
  · rw [if_neg hp, if_pos rfl]
    exact hself

/-- A store of the running process. -/
theorem store_kept {value : ℕ} {p : ℕ × ℕ} (hw : virt < 4294967296)
    (hp : m.userAccess virt true = some p) : Kept b R dirs m (m.write p value) := by
  unfold Machine.userAccess at hp
  dsimp only at hp
  split_ifs at hp with hc
  simp only [Bool.and_eq_true] at hc
  obtain ⟨⟨⟨⟨hp1, hu1⟩, hp2⟩, -⟩, -⟩ := hc
  obtain ⟨-, -, hslot⟩ := loaded_slot h hl hw hp1 hu1 hp2
  have hown := not_own_of_slot h.keeps hslot
  rw [← Option.some.inj hp]
  refine kept_data h hown (fun g hg => ?_) rfl ⟨rfl, rfl⟩
  funext k
  exact if_neg fun hcc => hg hcc.1

/-- The page is copied to a fresh frame, and the old one loses a reference. -/
theorem copyPage_kept {old s : ℕ} (ht : tableAt m m.cr3 (virt/4194304) = some s)
    (hslot : slots noGhost dirs m (m.cr3, 1024*(virt/4194304)+virt/4096%1024) = some old)
    (h0 : m.allocFrame.1 ≠ 0) : Kept b R dirs m.allocFrame.2
      (((m.allocFrame.2.copy old m.allocFrame.1).decRef old).write (s, virt/4096%1024)
        (entry m.allocFrame.1 7)) := by
  have h1 := sound_allocFrame h
  have hs := spare_fresh h h0
  have hl1 : m.allocFrame.2.cr3 ∈ dirs := hl
  have hslot1 : slots noGhost dirs m.allocFrame.2
      (m.allocFrame.2.cr3, 1024*(virt/4194304)+virt/4096%1024) = some old := hslot
  have ht1 : tableAt m.allocFrame.2 m.allocFrame.2.cr3 (virt/4194304) = some s := ht
  have hfree : ∀ x, slots noGhost dirs m.allocFrame.2 x ≠ some m.allocFrame.1 := fun x hx =>
    (covered_alloc h.keeps.covered h0).2.free x hx
  generalize m.allocFrame.1 = new at *
  generalize m.allocFrame.2 = m1 at *
  have hne : new ≠ old := fun he => hfree _ (he ▸ hslot1)
  have hmem : ∀ g, g ≠ new → (m1.copy old new).mem g = m1.mem g := by
    intro g hg
    funext k
    exact if_neg fun hc => hg hc.1
  have hown := hs.unowned
  have h2 := sound_data h1 hown hmem rfl
  have hs2 := spare_data hown hmem rfl hs
  have hdir : (m1.copy old new).mem m1.cr3 = m1.mem m1.cr3 := data_dir hown hmem _ hl1
  have ht2 : tableAt (m1.copy old new) (m1.copy old new).cr3 (virt/4194304) = some s :=
    (tableAt_congr (congrFun hdir _)).trans ht1
  have hslot2 : slots noGhost dirs (m1.copy old new)
      ((m1.copy old new).cr3, 1024*(virt/4194304)+virt/4096%1024) = some old := by
    rw [← hslot1]
    exact congrFun (slots_same (fun d hd k _ => congrFun (data_dir hown hmem d hd) k)
      fun d hd i t ht k _ => congrFun (data_table hown hmem d hd i t ht) k) _
  refine kept_after (kept_data h1 hown hmem rfl ⟨rfl, rfl⟩) ?_
  refine kept_setPte h2 hl1 ht2 (w := entry new 7) (fun f k => rfl) ?_ ⟨rfl, rfl⟩ ?_
  · rw [write_pmm, Machine.decRef, decRef_eq, freeFrame_maxFrames]
  · rw [write_pmm, Machine.decRef, decRef_eq, present_entry _ (by decide),
      frameOf_entry _ (by decide)]
    exact covered_replace h2.keeps.covered hslot2 hs2 hne

/-- A write fault on a page that is shared for copying. -/
theorem cowHandleFault_kept (hw : virt < 4294967296)
    (hcow : cow (m.walk virt).2 = true → user (m.walk virt).1 = true) :
    Kept b R dirs m (m.cowHandleFault virt (m.errorCode virt true)).2 := by
  have hrec := recursive_loaded h hl
  have hself : Kept b R dirs m m := ⟨⟨R, fun _ hr => hr, h⟩, fun _ _ _ _ => rfl, rfl, rfl⟩
  have hpd : m.read (m.pdePtr (virt/4194304)) = (m.walk virt).1 := read_pde hrec hw
  have hpt : m.ptePtr virt = (frameOf (m.walk virt).1, virt/4096%1024) := ptePtr_table hrec virt
  have hrd : m.read (frameOf (m.walk virt).1, virt/4096%1024) = (m.walk virt).2 := rfl
  unfold Machine.cowHandleFault
  dsimp only
  rw [hpd, hpt, hrd]
  cases hbits : (!(m.errorCode virt true).testBit 0 || !(m.errorCode virt true).testBit 1) with
  | true => exact hself
  | false =>
    rw [if_neg (by simp)]
    have hpres : present (m.walk virt).1 = true ∧ present (m.walk virt).2 = true := by
      rw [Bool.or_eq_false_iff, Bool.not_eq_false', Bool.not_eq_false'] at hbits
      have h0 := hbits.1
      unfold Machine.errorCode at h0
      dsimp only at h0
      cases hp1 : present (m.walk virt).1 <;> cases hp2 : present (m.walk virt).2
      all_goals simp_all
    rw [if_neg (by rw [hpres.1]; simp)]
    cases hc : cow (m.walk virt).2 with
    | false => exact hself
    | true =>
      rw [if_neg (by simp)]
      obtain ⟨hi, ht, hslot⟩ := loaded_slot h hl hw hpres.1 (hcow hc) hpres.2
      have ht' : tableAt m m.cr3 (virt/4194304) = some (frameOf (m.walk virt).1) := ht
      generalize frameOf (m.walk virt).1 = s at *
      generalize frameOf (m.walk virt).2 = old at *
      split_ifs with hone h0
      · refine kept_setPte h hl ht' (w := entry old 7) (fun f k => rfl) rfl ⟨rfl, rfl⟩ ?_
        rw [present_entry _ (by decide), frameOf_entry _ (by decide)]
        have hsame : setSlot (slots noGhost dirs m) (m.cr3, 1024*(virt/4194304)+virt/4096%1024)
            (if present 7 = true then some old else none) = slots noGhost dirs m :=
          setSlot_self hslot
        rw [hsame]
        exact h.keeps.covered
      · exact kept_allocFrame h
      · exact kept_of_alloc (copyPage_kept h hl ht' hslot h0)

end Pages

end Vlsmc.AddressSpaceSteps
