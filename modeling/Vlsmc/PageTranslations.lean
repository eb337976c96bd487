import Vlsmc.FrameSupply
import Vlsmc.KernelMappings
import Vlsmc.KeyedUpdates

/-!
# The translations of an address space

`map_page` and `unmap_page` treat the page tables as a finite map from pages to entries, and
`get_physical` reads it. The window at the top of the address space shows the page tables
themselves, so that a table that `map_page` has to make appears there as a page.
-/

set_option autoImplicit false

namespace Vlsmc.PageTranslations
open Vlsmc.Words Vlsmc.PhysicalMemory Vlsmc.Paging Vlsmc.AddressSpaceSteps
open Vlsmc.AddressSpaces Vlsmc.AddressSpaceBoot Vlsmc.AddressSpaceLifetimes Vlsmc.UserTables
open Vlsmc.FrameSupply Vlsmc.KeyedUpdates Vlsmc.StepConditions
open Vlsmc.KernelMappings (windowStart allocFrame_used)

/-- A call of `VMM::map_page` or of `VMM::unmap_page`, with addresses of bytes. -/
inductive Call where
  | map (virt phys flags : ℕ)
  | unmap (virt : ℕ)

def Call.virt : Call → ℕ
  | .map virt _ _ => virt
  | .unmap virt => virt

def Call.page (c : Call) : ℕ := c.virt/4096

/-- The entry that the call leaves. -/
def Call.word : Call → ℕ
  | .map _ phys flags => entry (phys/4096) ((flags%4096) ||| 1)
  | .unmap _ => 0

def Call.run (m : Machine) : Call → Machine
  | .map virt phys flags => m.mapPage virt (phys/4096) flags
  | .unmap virt => m.unmapPage virt

/-- The address is below the window, and a page table that `map_page` needs can be allocated. -/
def Permitted (m : Machine) : Call → Prop
  | .map virt _ _ =>
    virt < windowStart ∧ (present (m.mem m.cr3 (virt/4194304)) = false → m.allocFrame.1 ≠ 0)
  | .unmap virt => virt < windowStart

/-- The table for the pages of entry `j` of the loaded directory. -/
def pageTable (m : Machine) (j : ℕ) : Option ℕ :=
  if j < 1023 ∧ present (m.mem m.cr3 j) = true then some (frameOf (m.mem m.cr3 j)) else none

/-- The frame to which entry `j` of the loaded directory leads; the window shows it. -/
def shown (m : Machine) (j : ℕ) : Option ℕ :=
  if present (m.mem m.cr3 j) = true then some (frameOf (m.mem m.cr3 j)) else none

/-- The entry of a page below the window; zero where there is no table. -/
def pageEntry (m : Machine) (n : ℕ) : ℕ :=
  ((pageTable m (n/1024)).map fun t => m.mem t (n%1024)).getD 0

/-- The physical address to which an entry sends `virt`; zero where nothing is mapped. -/
def translate (word virt : ℕ) : ℕ :=
  if present word then entry (frameOf word) (virt%4096) else 0

/-- The loaded directory has its recursive entry and a table of its own below every other
entry, and their frames are in use. -/
structure Separate (m : Machine) : Prop where
  window : frameOf (m.mem m.cr3 1023) = m.cr3
  recursive : present (m.mem m.cr3 1023) = true
  dir : m.pmm.memoryBitmap m.cr3 = true
  tables : ∀ j t, pageTable m j = some t → m.pmm.memoryBitmap t = true ∧ t ≠ m.cr3
  distinct : ∀ i j t, pageTable m i = some t → pageTable m j = some t → i = j

/-- What the calls make of the translations. -/
structure Translates (m : Machine) (calls : List Call) : Prop where
  physical : ∀ w < windowStart, (calls.foldl Call.run m).getPhysical w =
    match lastFor Call.page (w/4096) calls with
    | some (.map _ phys _) => entry (phys/4096) (w%4096)
    | some (.unmap _) => 0
    | none => m.getPhysical w
  entries : ∀ n < windowStart/4096, pageEntry (calls.foldl Call.run m) n =
    match lastFor Call.page n calls with
    | some (.map _ phys flags) => entry (phys/4096) ((flags%4096) ||| 1)
    | some (.unmap _) => 0
    | none => pageEntry m n
  others : ∀ before c, before++[c] <+: calls → ∀ w < windowStart, w/4096 ≠ c.page →
    ((before++[c]).foldl Call.run m).getPhysical w = (before.foldl Call.run m).getPhysical w
  shown : ∀ w, windowStart ≤ w → w < 4294967296 →
    (calls.foldl Call.run m).getPhysical w = m.getPhysical w ∨
    m.getPhysical w = 0 ∧ ∃ virt phys flags, .map virt phys flags ∈ calls ∧
      virt/4194304 = w/4096%1024

variable {m m' : Machine} {virt word t pde j n w : ℕ}

theorem translate_zero (virt : ℕ) : translate 0 virt = 0 := if_neg (by decide)

theorem translate_pte (f flags virt : ℕ) :
    translate (entry f ((flags%4096) ||| 1)) virt = entry f (virt%4096) := by
  rw [translate, present_pte, if_pos rfl, frameOf_pte]

theorem below_window (hv : virt < windowStart) : virt < 4294967296 ∧ virt/4194304 < 1023 := by
  unfold windowStart at hv
  omega

theorem pageTable_some : pageTable m j = some t ↔
    j < 1023 ∧ present (m.mem m.cr3 j) = true ∧ frameOf (m.mem m.cr3 j) = t := by
  unfold pageTable
  constructor
  · intro h
    split_ifs at h with hc
    exact ⟨hc.1, hc.2, Option.some.inj h⟩
  · rintro ⟨hj, hp, rfl⟩
    exact if_pos ⟨hj, hp⟩

theorem pageTable_none (hj : j < 1023) :
    pageTable m j = none ↔ present (m.mem m.cr3 j) = false := by
  unfold pageTable
  cases hp : present (m.mem m.cr3 j) <;> simp [hj]

section Reading

variable (h : Separate m)
include h

theorem getPhysical_below (hw : w < windowStart) :
    m.getPhysical w = translate (pageEntry m (w/4096)) w := by
  obtain ⟨hlt, hi⟩ := below_window hw
  rw [getPhysical_walk h.window hlt, pageEntry, page_table]
  cases hp : present (m.mem m.cr3 (w/4194304)) with
  | false =>
    rw [(pageTable_none hi).mpr hp, Machine.walk]
    simp only [hp, Bool.false_and, Bool.false_eq_true, if_false]
    exact (translate_zero w).symm
  | true =>
    rw [pageTable_some.mpr ⟨hi, hp, rfl⟩, Machine.walk]
    simp only [hp, Bool.true_and]
    rfl

/-- In the window the processor takes the directory for a page table. -/
theorem getPhysical_window (hw : windowStart ≤ w) (hlt : w < 4294967296) :
    m.getPhysical w = ((shown m (w/4096%1024)).map fun t => entry t (w%4096)).getD 0 := by
  have hi : w/4194304 = 1023 := by
    unfold windowStart at hw
    omega
  rw [getPhysical_walk h.window hlt, Machine.walk, hi, h.window, shown]
  simp only [h.recursive, Bool.true_and]
  cases present (m.mem m.cr3 (w/4096%1024)) <;> rfl

end Reading

section Step

variable (h : Separate m) (hp : Stored m m' virt word t pde) (hi : virt/4194304 < 1023)

include hp hi in
/-- The table was there, or its frame was free. -/
theorem stored_table : pageTable m (virt/4194304) = some t ∧ m'.pmm = m.pmm ∨
    pageTable m (virt/4194304) = none ∧ m.pmm.memoryBitmap t = false ∧
      m'.pmm.memoryBitmap t = true ∧ m'.pmm = m.pmm.allocFrame.2 := by
  rcases hp.table with ⟨hpre, ht, hpmm⟩ | ⟨hpre, ht, h0, hpmm⟩
  · exact Or.inl ⟨pageTable_some.mpr ⟨hi, hpre, ht⟩, hpmm⟩
  · rw [ht] at h0
    obtain ⟨hfree, -, hset, -⟩ := alloc_takes h0
    rw [← ht] at hfree hset
    exact Or.inr ⟨(pageTable_none hi).mpr hpre, hfree.bit, by rw [hpmm]; exact hset, hpmm⟩

include hp hi in
theorem stored_used {f : ℕ} (hf : m.pmm.memoryBitmap f = true) :
    m'.pmm.memoryBitmap f = true := by
  rcases stored_table hp hi with ⟨-, hpmm⟩ | ⟨-, -, -, hpmm⟩
  · rw [hpmm]
    exact hf
  · rw [hpmm]
    exact allocFrame_used _ f hf

include h hp hi

theorem stored_dir : t ≠ m.cr3 := by
  rcases stored_table hp hi with ⟨ht, -⟩ | ⟨-, hfree, -⟩
  · exact (h.tables _ _ ht).2
  · rintro rfl
    rw [h.dir] at hfree
    exact absurd hfree (by decide)

/-- The other tables are other frames. -/
theorem stored_apart {s : ℕ} (hj : j ≠ virt/4194304) (hs : pageTable m j = some s) : s ≠ t := by
  rintro rfl
  rcases stored_table hp hi with ⟨ht, -⟩ | ⟨-, hfree, -⟩
  · exact hj (h.distinct _ _ _ hs ht)
  · rw [(h.tables _ _ hs).1] at hfree
    exact absurd hfree (by decide)

theorem stored_directory (j : ℕ) :
    m'.mem m.cr3 j = if j = virt/4194304 then pde else m.mem m.cr3 j := by
  have hdir := stored_dir h hp hi
  rw [hp.mem, if_neg fun hc => hdir hc.1.symm]
  by_cases hj : j = virt/4194304
  · rw [if_pos ⟨rfl, hj⟩, if_pos hj]
  · rw [if_neg fun hc => hj hc.2, if_neg fun hc => hdir hc.2.1.symm, if_neg hj]

theorem stored_pageTable (j : ℕ) :
    pageTable m' j = if j = virt/4194304 then some t else pageTable m j := by
  unfold pageTable
  rw [hp.cr3, stored_directory h hp hi]
  by_cases hj : j = virt/4194304
  · rw [if_pos hj, if_pos hj, hp.linked, hp.frame, if_pos ⟨by omega, rfl⟩]
  · rw [if_neg hj, if_neg hj]

theorem stored_separate : Separate m' := by
  have htable := stored_pageTable h hp hi
  refine ⟨?_, ?_, ?_, fun j s hs => ?_, fun i j s hs hs' => ?_⟩
  · rw [hp.cr3, stored_directory h hp hi, if_neg (by omega), h.window]
  · rw [hp.cr3, stored_directory h hp hi, if_neg (by omega), h.recursive]
  · rw [hp.cr3]
    exact stored_used hp hi h.dir
  · rw [htable] at hs
    rw [hp.cr3]
    by_cases hj : j = virt/4194304
    · rw [if_pos hj] at hs
      obtain rfl := Option.some.inj hs
      refine ⟨?_, stored_dir h hp hi⟩
      rcases stored_table hp hi with ⟨ht, -⟩ | ⟨-, -, hset, -⟩
      · exact stored_used hp hi (h.tables _ _ ht).1
      · exact hset
    · rw [if_neg hj] at hs
      exact ⟨stored_used hp hi (h.tables _ _ hs).1, (h.tables _ _ hs).2⟩
  · rw [htable] at hs hs'
    by_cases hiv : i = virt/4194304
    · by_cases hjv : j = virt/4194304
      · rw [hiv, hjv]
      · rw [if_pos hiv] at hs
        rw [if_neg hjv] at hs'
        exact absurd (Option.some.inj hs).symm (stored_apart h hp hi hjv hs')
    · rw [if_neg hiv] at hs
      by_cases hjv : j = virt/4194304
      · rw [if_pos hjv] at hs'
        exact absurd (Option.some.inj hs').symm (stored_apart h hp hi hiv hs)
      · rw [if_neg hjv] at hs'
        exact h.distinct _ _ _ hs hs'

/-- One entry changes; a new table has no other. -/
theorem stored_entries : pageEntry m' = Function.update (pageEntry m) (virt/4096) word := by
  funext n
  have hdir := stored_dir h hp hi
  unfold pageEntry
  rw [stored_pageTable h hp hi]
  by_cases hn : n = virt/4096
  · subst hn
    rw [page_table, if_pos rfl, Function.update_self, Option.map_some, hp.mem,
      if_pos ⟨rfl, rfl⟩, Option.getD_some]
  rw [Function.update_of_ne hn]
  by_cases hj : n/1024 = virt/4194304
  · have hidx : n%1024 ≠ virt/4096%1024 := by omega
    have hword := hp.mem t (n%1024)
    rw [if_neg fun hc => hidx hc.2, if_neg fun hc => hdir hc.1] at hword
    rw [if_pos hj, Option.map_some, Option.getD_some, hword, hj]
    rcases hp.table with ⟨hpre, ht, -⟩ | ⟨hpre, -⟩
    · rw [if_neg fun hc => by simp [hpre] at hc, pageTable_some.mpr ⟨hi, hpre, ht⟩]
      rfl
    · rw [if_pos ⟨hpre, rfl, Nat.mod_lt _ (by decide)⟩, (pageTable_none hi).mpr hpre]
      rfl
  · rw [if_neg hj]
    cases hs : pageTable m (n/1024) with
    | none => rfl
    | some s =>
      have hst := stored_apart h hp hi hj hs
      rw [Option.map_some, Option.map_some, Option.getD_some, Option.getD_some, hp.mem,
        if_neg fun hc => hst hc.1, if_neg fun hc => (h.tables _ _ hs).2 hc.1,
        if_neg fun hc => hst hc.2.1]

/-- The directory shows the same tables, and perhaps a new one. -/
theorem stored_shown (j : ℕ) :
    shown m' j = shown m j ∨ shown m j = none ∧ virt/4194304 = j := by
  unfold shown
  rw [hp.cr3, stored_directory h hp hi]
  by_cases hj : j = virt/4194304
  · rw [if_pos hj, hp.linked, hp.frame, hj]
    rcases hp.table with ⟨hpre, ht, -⟩ | ⟨hpre, -⟩
    · rw [hpre, ht]
      exact Or.inl rfl
    · rw [hpre]
      exact Or.inr ⟨rfl, rfl⟩
  · rw [if_neg hj]
    exact Or.inl rfl

end Step

section Calls

variable {calls : List Call} {c : Call}

theorem map_stored (h : Separate m) {virt phys flags : ℕ}
    (hk : Permitted m (.map virt phys flags)) :
    ∃ t pde, Stored m (m.mapPage virt (phys/4096) flags) virt
      (entry (phys/4096) ((flags%4096) ||| 1)) t pde := by
  obtain ⟨hlt, hi⟩ := below_window hk.1
  refine mapPage_stored h.window hlt (by omega) fun hpre => ?_
  have h0 := hk.2 hpre
  refine ⟨h0, fun he => ?_⟩
  have hbit := (alloc_takes h0).1.bit
  rw [← Machine.allocFrame_fst, he, h.dir] at hbit
  exact absurd hbit (by decide)

theorem unmap_stored (h : Separate m) (hv : virt < windowStart) :
    (∃ t pde, present (m.mem m.cr3 (virt/4194304)) = true ∧
      Stored m (m.unmapPage virt) virt 0 t pde) ∨
    m.unmapPage virt = m ∧ pageTable m (virt/4194304) = none := by
  obtain ⟨hlt, hi⟩ := below_window hv
  cases hpre : present (m.mem m.cr3 (virt/4194304)) with
  | true =>
    rw [unmapPage_present h.window hlt hpre]
    exact Or.inl ⟨_, _, rfl, stored_write hpre 0⟩
  | false =>
    refine Or.inr ⟨?_, (pageTable_none hi).mpr hpre⟩
    rw [Machine.unmapPage, read_pde h.window hlt, if_neg (by simp [hpre])]

/-- What one call does: the invariant, the page table as a map, the tables in the window. -/
theorem run_call (h : Separate m) (hk : Permitted m c) : Separate (Call.run m c) ∧
    pageEntry (Call.run m c) = Function.update (pageEntry m) c.page c.word ∧
    ∀ j, shown (Call.run m c) j = shown m j ∨ shown m j = none ∧
      ∃ virt phys flags, c = .map virt phys flags ∧ virt/4194304 = j := by
  cases c with
  | map virt phys flags =>
    have hi := (below_window hk.1).2
    obtain ⟨t, pde, hs⟩ := map_stored h hk
    refine ⟨stored_separate h hs hi, stored_entries h hs hi, fun j => ?_⟩
    rcases stored_shown h hs hi j with he | ⟨hnone, hj⟩
    · exact Or.inl he
    · exact Or.inr ⟨hnone, virt, phys, flags, rfl, hj⟩
  | unmap virt =>
    have hv : virt < windowStart := hk
    have hi := (below_window hv).2
    rcases unmap_stored h hk with ⟨t, pde, hpre, hs⟩ | ⟨hsame, hnone⟩
    · refine ⟨stored_separate h hs hi, stored_entries h hs hi, fun j => ?_⟩
      rcases stored_shown h hs hi j with he | ⟨hnone, rfl⟩
      · exact Or.inl he
      · rw [shown, if_pos hpre] at hnone
        exact absurd hnone (by simp)
    · have hold : pageEntry m (virt/4096) = 0 := by
        rw [pageEntry, page_table, hnone]
        rfl
      have hself : Function.update (pageEntry m) (virt/4096) 0 = pageEntry m := by
        rw [← hold, Function.update_eq_self]
      rw [Call.run, hsame]
      exact ⟨h, hself.symm, fun _ => Or.inl rfl⟩

theorem call_updating : Updating Call.run Separate Permitted pageEntry Call.page Call.word :=
  ⟨fun _ _ h hk => (run_call h hk).1, fun _ _ h hk => (run_call h hk).2.1⟩

/-- A table that the directory shows after the calls was there, or one of them made it. -/
theorem run_shown (h : Separate m) (hm : Meets Call.run Permitted m calls) (j : ℕ) :
    shown (calls.foldl Call.run m) j = shown m j ∨ shown m j = none ∧
      ∃ virt phys flags, .map virt phys flags ∈ calls ∧ virt/4194304 = j := by
  induction calls generalizing m with
  | nil => exact Or.inl rfl
  | cons c calls ih =>
    obtain ⟨hk, hrest⟩ := meets_cons.mp hm
    obtain ⟨hsep, -, hstep⟩ := run_call h hk
    rw [List.foldl_cons]
    rcases hstep j with he | ⟨hnone, virt, phys, flags, rfl, hj⟩
    · rcases ih hsep hrest with he' | ⟨hnone, virt, phys, flags, hin, hj⟩
      · exact Or.inl (he'.trans he)
      · exact Or.inr ⟨he ▸ hnone, virt, phys, flags, List.mem_cons_of_mem _ hin, hj⟩
    · exact Or.inr ⟨hnone, virt, phys, flags, List.mem_cons_self, hj⟩

end Calls

section AddressSpaces

/-- The address space that `VMM::init` leaves. -/
theorem separate_booted (hm : Booted m) : Separate m := by
  have htable : ∀ j t, pageTable m j = some t → j < 8 ∧ t = kernelTable m j := by
    intro j t h
    obtain ⟨hj, hp, rfl⟩ := pageTable_some.mp h
    rw [hm.loaded] at hp ⊢
    by_cases h8 : j < 8
    · exact ⟨h8, rfl⟩
    · rw [hm.rest j (by omega) hj] at hp
      exact absurd hp (by decide)
  refine ⟨?_, ?_, ?_, fun j t h => ?_, fun i j t hi hj => ?_⟩
  · rw [hm.loaded, hm.recursive, frameOf_entry _ (by decide)]
  · rw [hm.loaded, hm.recursive, present_entry _ (by decide)]
    rfl
  · rw [hm.loaded]
    exact hm.dir.2.2
  · obtain ⟨h8, rfl⟩ := htable j t h
    rw [hm.loaded]
    exact (hm.tables j h8).2
  · obtain ⟨hi8, rfl⟩ := htable i t hi
    obtain ⟨hj8, hij⟩ := htable j _ hj
    -- the tables map different pages
    have hword := hm.words i hi8 0 (by decide)
    rw [hij, hm.words j hj8 0 (by decide)] at hword
    unfold entry at hword
    omega

/-- The address space that `create_address_space` makes, once it is loaded. -/
theorem separate_created (h : Separate m) (hrec : m.mem m.cr3 1023 = entry m.cr3 3)
    (h0 : m.allocFrame.1 ≠ 0) :
    Separate (m.createAddressSpace.2.switchAddressSpace m.createAddressSpace.1) := by
  obtain ⟨hfree, -, hset, -⟩ := alloc_takes (p := m.pmm) h0
  have hload : Loaded Base.free (fun _ => True) m :=
    ⟨hrec, fun _ _ _ _ => ⟨trivial, fun _ hf => hf⟩, fun i w hw => absurd hw (by simp [Base.free])⟩
  have hne : m.allocFrame.1 ≠ m.cr3 := fun he => by
    have hbit := hfree.bit
    rw [← Machine.allocFrame_fst, he, h.dir] at hbit
    exact absurd hbit (by decide)
  obtain ⟨hfst, hpmm, -, -, hwords, hlast⟩ := createAddressSpace_spec hload hne h0
  generalize hm : m.createAddressSpace.2.switchAddressSpace m.createAddressSpace.1 = m'
  have hcr3 : m'.cr3 = m.allocFrame.1 := by
    rw [← hm, hfst]
    rfl
  have hmem : ∀ k, m'.mem m'.cr3 k = m.createAddressSpace.2.mem m.allocFrame.1 k := fun k => by
    rw [hcr3, ← hm]
    rfl
  have hpmm' : m'.pmm = m.pmm.allocFrame.2 := by
    rw [← hm]
    exact hpmm
  -- what is shared is a part of the old address space
  have htable : ∀ j t, pageTable m' j = some t → pageTable m j = some t := by
    intro j t ht
    obtain ⟨hj, hp, hframe⟩ := pageTable_some.mp ht
    rw [hmem, hwords j hj, sharedWord] at hp hframe
    split_ifs at hp hframe with hc
    · exact pageTable_some.mpr ⟨hj, hp, hframe⟩
    · exact absurd hp (by decide)
  refine ⟨?_, ?_, ?_, fun j t ht => ⟨?_, ?_⟩, fun i j t hi hj =>
    h.distinct i j t (htable i t hi) (htable j t hj)⟩
  · rw [hmem, hlast, frameOf_entry _ (by decide), hcr3]
  · rw [hmem, hlast, present_entry _ (by decide)]
    rfl
  · rw [hcr3, hpmm']
    exact hset
  · rw [hpmm']
    exact allocFrame_used _ t (h.tables j t (htable j t ht)).1
  · rw [hcr3]
    rintro rfl
    have hbit := (h.tables j _ (htable j _ ht)).1
    rw [Machine.allocFrame_fst, hfree.bit] at hbit
    exact absurd hbit (by decide)

end AddressSpaces

/-- Two pages of one new table, and the first is taken back. -/
def twoPages : List Call :=
  [.map 0xE0000000 0x5000 3, .map 0xE0001000 0x6000 3, .unmap 0xE0000000]

theorem twoPages_permitted : Meets Call.run Permitted kernelStart twoPages := by
  have hstart : kernelStart.allocFrame.1 ≠ 0 := by decide +kernel
  have hlinked : present ((Call.run kernelStart (.map 0xE0000000 0x5000 3)).mem
      (Call.run kernelStart (.map 0xE0000000 0x5000 3)).cr3 (0xE0001000/4194304)) = true := by
    decide +kernel
  refine meets_cons.mpr ⟨⟨by decide, fun _ => hstart⟩, meets_cons.mpr ⟨?_, meets_cons.mpr
    ⟨show 0xE0000000 < windowStart by decide, meets_nil⟩⟩⟩
  generalize Call.run kernelStart (.map 0xE0000000 0x5000 3) = m at hlinked ⊢
  exact ⟨by decide, fun hno => absurd (hlinked.symm.trans hno) (by decide)⟩

end Vlsmc.PageTranslations
