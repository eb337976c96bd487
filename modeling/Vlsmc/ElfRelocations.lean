import Vlsmc.DemandPaging

/-!
# The relocations the kernel applies

`apply_relocations` patches a position independent file in ring 0, and fills the
pages that are not there yet. The tables are read from the header buffer or from
a buffer of their own, in kernel memory either way; the write-protect bit of CR0
is clear, so a present page can be written, and a kernel access to an absent one
halts the machine.
-/

set_option autoImplicit false

namespace Vlsmc.ElfRelocations
open Vlsmc.ByteMemory Vlsmc.Words Vlsmc.Elf Vlsmc.DemandPaging

def etDyn : ℕ := 3
def r386Relative : ℕ := 8
def kernelSpaceEnd : ℕ := 0x02000000
def pageTablesVaddr : ℕ := 0xFFC00000

structure Rel where
  rOffset : ℕ
  rInfo : ℕ
deriving DecidableEq, Repr

def relAt (m : Memory) (a : ℕ) : Rel := ⟨read32 m a, read32 m (a+4)⟩

/-- `ELF32_R_TYPE`. -/
def Rel.type (r : Rel) : ℕ := r.rInfo%256

/-- The four entries of the dynamic section that are used. -/
structure Dynamic where
  relVaddr : ℕ
  relSize : ℕ
  jmprelVaddr : ℕ
  jmprelSize : ℕ

def Dynamic.set (d : Dynamic) (tag val : ℕ) : Dynamic :=
  if tag = 17 then { d with relVaddr := val }
  else if tag = 18 then { d with relSize := val }
  else if tag = 23 then { d with jmprelVaddr := val }
  else if tag = 2 then { d with jmprelSize := val }
  else d

/-- The loop over at most `n` entries from `a` on; `DT_NULL` ends it. -/
def scanDynamic (m : Memory) : ℕ → ℕ → Dynamic → Dynamic
  | 0, _, d => d
  | n+1, a, d =>
    if read32 m a = 0 then d else scanDynamic m n (a+8) (d.set (read32 m a) (read32 m (a+4)))

/-- What the loader reads a part of the file through: the header buffer when the
part lies in it, else a block from `kmalloc`, given with its old contents. -/
structure Buffers where
  header : Memory
  headerSize : ℕ
  kmalloc : ℕ → Option Memory

def Buffers.part (b : Buffers) (f : File) (off size : ℕ) : Option Memory :=
  if u32 (off+size) ≤ b.headerSize then some fun k => b.header (u32 (off+k))
  else (b.kmalloc size).map fun old => readFile (some f) off size old

def dynamic (f : File) (b : Buffers) : Option Dynamic :=
  match (phdrs b.header).find? fun ph => ph.pType == ptDynamic with
  | none => none
  | some ph =>
    (b.part f ph.pOffset ph.pFilesz).map fun m =>
      scanDynamic m (ph.pFilesz/8) 0 ⟨0, 0, 0, 0⟩

def vaddrToFileOffset (phs : List Phdr) (vaddr : ℕ) : ℕ :=
  match phs.find? fun ph => ph.pType == ptLoad && decide (ph.pVaddr ≤ vaddr) &&
      decide (vaddr < u32 (ph.pVaddr+ph.pFilesz)) with
  | none => 0
  | some ph => u32 (ph.pOffset+(vaddr-ph.pVaddr))

/-- The entries of a table. -/
def relTable (f : File) (b : Buffers) (vaddr size : ℕ) : List Rel :=
  if vaddr = 0 ∨ size = 0 then []
  else
    let fileOff := vaddrToFileOffset (phdrs b.header) vaddr
    if fileOff = 0 then []
    else match b.part f fileOff size with
      | none => []
      | some m => (List.range (size/8)).map fun i => relAt m (8*i)

/-- Both tables, in the order in which they are processed. -/
def relocations (f : File) (b : Buffers) : List Rel :=
  match dynamic f b with
  | none => []
  | some d => relTable f b d.relVaddr d.relSize++relTable f b d.jmprelVaddr d.jmprelSize

/-- `size` bytes stored from `addr` on. The bytes of a new page are stored through
its frame, and recorded at the page. -/
structure Store where
  addr : ℕ
  size : ℕ
deriving DecidableEq, Repr

/-- What `alloc_frame` returns for a page, and whether the page gets a page table. -/
structure Supply where
  frame : Option ℕ
  table : Bool

/-- The process that is being loaded, with a record of the stores, of the
relocations met, of a page fault in the kernel and of a relocation that was
passed over because there was no frame. -/
structure Loading where
  process : Process
  stores : List Store
  met : ℕ
  halted : Bool
  skipped : Bool

/-- The bytes of a fresh page: those of the VMA it lies in, read from `f`. -/
def pageBytes (f : File) (vmas : List Vma) (page : ℕ) : Memory :=
  match vmas.find? fun v => decide (v.start ≤ page) && decide (page < v.finish) with
  | none => fun _ => 0
  | some v =>
    let off := page-v.start
    if off < v.fileSize then
      let size := if v.fileSize < u32 (off+4096) then v.fileSize-off else 4096
      readFile (some f) (u32 (v.fileOffset+off)) size fun _ => 0
    else fun _ => 0

/-- Page 0 of the kernel is present and yet has the physical address 0. -/
def getPhysical (p : Process) (page : ℕ) : ℕ :=
  match p.table (page/4096) with
  | none => 0
  | some e => e.1

def setByte (p : Process) (addr : ℕ) (v : UInt8) : Process :=
  match p.table (addr/4096) with
  | none => p
  | some e => p.setFrame e.1 (write8 (p.frames e.1) (addr%4096) v)

def wordBytes (p : Process) (addr : ℕ) : Memory := fun k => (readByte p (u32 (addr+k))).getD 0

/-- `*patch += load_bias`. -/
def patchWord (p : Process) (addr bias : ℕ) : Process :=
  let v := u32 (read32 (wordBytes p addr) 0+bias)
  (List.range 4).foldl (fun p k => setByte p (u32 (addr+k)) (UInt8.ofNat (v/256^k))) p

def present (p : Process) (addr : ℕ) : Bool := (p.table (addr/4096)).isSome

def Loading.patch (s : Loading) (addr bias : ℕ) : Loading :=
  if present s.process addr && present s.process (u32 (addr+3)) then
    { s with process := patchWord s.process addr bias, stores := s.stores++[⟨addr, 4⟩] }
  else { s with halted := true }

/-- Fill and map a page that is not there. -/
def Loading.fillPage (s : Loading) (f : File) (page frame : ℕ) (table : Bool) : Loading :=
  let p := s.process.setFrame frame (pageBytes f s.process.vmaList page)
  { s with
    process := if table then p.mapPage page frame (pagePresent+pageWritable+pageUser) else p
    stores := s.stores++[⟨page, 4096⟩] }

def Loading.relocate (f : File) (bias : ℕ) (supply : ℕ → Supply) (s : Loading) (r : Rel) :
    Loading :=
  if s.halted then s
  else if r.type ≠ r386Relative then s
  else
    let target := u32 (r.rOffset+bias)
    let page := pageDown target
    let n := s.met
    let s := { s with met := n+1 }
    if getPhysical s.process page = 0 then
      match (supply n).frame with
      | none => { s with skipped := true }
      | some frame => (s.fillPage f page frame (supply n).table).patch target bias
    else s.patch target bias

/-- The whole of `load_elf_segments`. -/
def loadElfSegments (f : File) (b : Buffers) (bias : ℕ) (kmalloc : List Vma → Bool)
    (supply : ℕ → Supply) (p : Process) : Option (Loading × LoadedElf) :=
  (DemandPaging.loadElfSegments f b.header bias kmalloc p).map fun r =>
    let s : Loading := ⟨r.1, [], 0, false, false⟩
    (if eType b.header = etDyn ∧ bias ≠ 0 then
      (relocations f b).foldl (Loading.relocate f bias supply) s else s, r.2)

/-- A user address in the page range of a segment. -/
def InImage (phs : List Phdr) (bias addr : ℕ) : Prop :=
  kernelSpaceEnd ≤ addr ∧ addr < pageTablesVaddr ∧
  ∃ ph ∈ loads phs, pageDown (u32 (ph.pVaddr+bias)) ≤ addr ∧
    addr < pageUp (u32 (ph.pVaddr+bias)+ph.pMemsz)

instance (phs : List Phdr) (bias addr : ℕ) : Decidable (InImage phs bias addr) :=
  inferInstanceAs (Decidable (_ ∧ _ ∧ _))

def Store.Inside (phs : List Phdr) (bias : ℕ) (st : Store) : Prop :=
  ∀ k < st.size, InImage phs bias (u32 (st.addr+k))

/-- The word that a relocation patches lies in the image. -/
def Rel.Inside (phs : List Phdr) (bias : ℕ) (r : Rel) : Prop :=
  ∀ k < 4, InImage phs bias (u32 (u32 (r.rOffset+bias)+k))

/-- The relocations of a file that is relocated. -/
def applied (f : File) (b : Buffers) (bias : ℕ) : List Rel :=
  if eType b.header = etDyn ∧ bias ≠ 0 then
    (relocations f b).filter fun r => r.type == r386Relative
  else []

section Stores

variable {f : File} {phs : List Phdr} {bias : ℕ} {supply : ℕ → Supply} {s : Loading} {r : Rel}

/-- Segments cover whole pages. -/
theorem page_inImage {a b : ℕ} (h : InImage phs bias a) (hp : b/4096 = a/4096) :
    InImage phs bias b := by
  obtain ⟨h1, h2, ph, hph, h3, h4⟩ := h
  have hd := dvd_pageUp (u32 (ph.pVaddr+bias)+ph.pMemsz)
  unfold kernelSpaceEnd at h1
  unfold pageTablesVaddr at h2
  refine ⟨by unfold kernelSpaceEnd; omega, by unfold pageTablesVaddr; omega, ph, hph, ?_, by omega⟩
  unfold pageDown at h3 ⊢
  omega

theorem fillPage_inside {a : ℕ} (h : InImage phs bias a) :
    Store.Inside phs bias ⟨pageDown a, 4096⟩ := by
  intro k hk
  have ha := h.2.1
  unfold pageTablesVaddr at ha
  apply page_inImage h
  unfold pageDown
  dsimp only at hk ⊢
  rw [u32_of_lt (by omega)]
  omega

theorem patch_stores (s : Loading) (addr bias : ℕ) :
    (s.patch addr bias).stores = s.stores ∧ (s.patch addr bias).halted = true ∨
    (s.patch addr bias).stores = s.stores++[⟨addr, 4⟩] ∧ (s.patch addr bias).halted = s.halted := by
  unfold Loading.patch
  split_ifs
  · exact Or.inr ⟨rfl, rfl⟩
  · exact Or.inl ⟨rfl, rfl⟩

theorem patch_skipped (s : Loading) (addr bias : ℕ) :
    (s.patch addr bias).skipped = s.skipped := by
  unfold Loading.patch
  split_ifs <;> rfl

/-- A store of a relocation: its page, or the word that it patches. -/
def Rel.Makes (bias : ℕ) (r : Rel) (st : Store) : Prop :=
  st = ⟨pageDown (u32 (r.rOffset+bias)), 4096⟩ ∨ st = ⟨u32 (r.rOffset+bias), 4⟩

/-- What a patch of the word that `r` names adds to the record. -/
theorem patch_makes (bias : ℕ) (s : Loading) (r : Rel) :
    ∃ new, (s.patch (u32 (r.rOffset+bias)) bias).stores = s.stores++new ∧
      (∀ st ∈ new, r.Makes bias st) ∧
      ((s.patch (u32 (r.rOffset+bias)) bias).halted = false → ⟨u32 (r.rOffset+bias), 4⟩ ∈ new) := by
  rcases patch_stores s (u32 (r.rOffset+bias)) bias with ⟨h1, h2⟩ | ⟨h1, -⟩
  · refine ⟨[], by rw [h1, List.append_nil], by simp, fun hh => ?_⟩
    rw [h2] at hh
    exact absurd hh (by simp)
  · exact ⟨[⟨u32 (r.rOffset+bias), 4⟩], h1, by simp [Rel.Makes], by simp⟩

/-- What a relocation adds to the record. -/
theorem relocate_makes (f : File) (bias : ℕ) (supply : ℕ → Supply) (s : Loading) (r : Rel) :
    ∃ new, (s.relocate f bias supply r).stores = s.stores++new ∧
      (∀ st ∈ new, r.type = r386Relative ∧ r.Makes bias st) ∧
      (r.type = r386Relative → (s.relocate f bias supply r).halted = false →
        (s.relocate f bias supply r).skipped = false → ⟨u32 (r.rOffset+bias), 4⟩ ∈ new) := by
  unfold Loading.relocate
  dsimp only
  by_cases hh : s.halted = true
  · rw [if_pos hh]
    exact ⟨[], by simp, by simp, fun _ hf => absurd hh (by simp [hf])⟩
  rw [if_neg hh]
  by_cases ht : r.type ≠ r386Relative
  · rw [if_pos ht]
    exact ⟨[], by simp, by simp, fun he => absurd he ht⟩
  rw [if_neg ht]
  rw [not_not] at ht
  split_ifs with hp
  · cases hf : (supply s.met).frame with
    | none => exact ⟨[], by simp, by simp, fun _ _ hs => absurd hs (by simp)⟩
    | some frame =>
      dsimp only
      obtain ⟨new, h1, h2, h3⟩ := patch_makes bias
        (Loading.fillPage { s with met := s.met+1 } f (pageDown (u32 (r.rOffset+bias))) frame
          (supply s.met).table) r
      refine ⟨⟨pageDown (u32 (r.rOffset+bias)), 4096⟩::new, ?_, ?_, fun _ hh _ => ?_⟩
      · rw [h1]
        simp [Loading.fillPage]
      · intro st hst
        rcases List.mem_cons.mp hst with rfl | hst
        · exact ⟨ht, Or.inl rfl⟩
        · exact ⟨ht, h2 st hst⟩
      · exact List.mem_cons_of_mem _ (h3 hh)
  · obtain ⟨new, h1, h2, h3⟩ := patch_makes bias { s with met := s.met+1 } r
    exact ⟨new, h1, fun st hst => ⟨ht, h2 st hst⟩, fun _ hh _ => h3 hh⟩

/-- A halt and a relocation passed over stay on record. -/
theorem relocate_marks (f : File) (bias : ℕ) (supply : ℕ → Supply) (s : Loading) (r : Rel) :
    (s.halted = true → (s.relocate f bias supply r).halted = true) ∧
    (s.skipped = true → (s.relocate f bias supply r).skipped = true) := by
  unfold Loading.relocate
  dsimp only
  split_ifs with h1 h2 h3
  · exact ⟨fun h => h, fun h => h⟩
  · exact ⟨fun h => h, fun h => h⟩
  · cases (supply s.met).frame with
    | none => exact ⟨fun h => h, fun _ => rfl⟩
    | some frame =>
      dsimp only
      rw [patch_skipped]
      exact ⟨fun h => absurd h h1, fun h => h⟩
  · rw [patch_skipped]
    exact ⟨fun h => absurd h h1, fun h => h⟩

theorem relocates_marks (f : File) (bias : ℕ) (supply : ℕ → Supply) (rs : List Rel)
    (s : Loading) :
    (s.halted = true → (rs.foldl (Loading.relocate f bias supply) s).halted = true) ∧
    (s.skipped = true → (rs.foldl (Loading.relocate f bias supply) s).skipped = true) := by
  induction rs generalizing s with
  | nil => exact ⟨fun h => h, fun h => h⟩
  | cons r rs ih =>
    obtain ⟨h1, h2⟩ := relocate_marks f bias supply s r
    obtain ⟨h3, h4⟩ := ih (s.relocate f bias supply r)
    exact ⟨fun h => h3 (h1 h), fun h => h4 (h2 h)⟩

theorem relocates_makes (f : File) (bias : ℕ) (supply : ℕ → Supply) (rs : List Rel)
    (s : Loading) :
    ∃ new, (rs.foldl (Loading.relocate f bias supply) s).stores = s.stores++new ∧
      (∀ st ∈ new, ∃ r ∈ rs, r.type = r386Relative ∧ r.Makes bias st) ∧
      ((rs.foldl (Loading.relocate f bias supply) s).halted = false →
        (rs.foldl (Loading.relocate f bias supply) s).skipped = false →
        ∀ r ∈ rs, r.type = r386Relative → ⟨u32 (r.rOffset+bias), 4⟩ ∈ new) := by
  induction rs generalizing s with
  | nil => exact ⟨[], by simp, by simp, by simp⟩
  | cons r rs ih =>
    obtain ⟨new, h1, h2, h3⟩ := relocate_makes f bias supply s r
    obtain ⟨new', h4, h5, h6⟩ := ih (s.relocate f bias supply r)
    obtain ⟨h7, h8⟩ := relocates_marks f bias supply rs
      (s.relocate f bias supply r)
    rw [List.foldl_cons]
    refine ⟨new++new', by rw [h4, h1, List.append_assoc], fun st hst => ?_, fun hh hs r' hr ht => ?_⟩
    · rcases List.mem_append.mp hst with hst | hst
      · exact ⟨r, by simp, h2 st hst⟩
      · obtain ⟨r', hr', hm⟩ := h5 st hst
        exact ⟨r', by simp [hr'], hm⟩
    · rcases List.mem_cons.mp hr with rfl | hr
      · refine List.mem_append_left _ (h3 ht ?_ ?_)
        · rw [← Bool.not_eq_true]
          exact fun hb => absurd (h7 hb) (by simp [hh])
        · rw [← Bool.not_eq_true]
          exact fun hb => absurd (h8 hb) (by simp [hs])
      · exact List.mem_append_right _ (h6 hh hs r' hr ht)

theorem makes_inside {st : Store} (h : r.Inside phs bias) (hm : r.Makes bias st) :
    st.Inside phs bias := by
  rcases hm with rfl | rfl
  · have h0 := h 0 (by decide)
    have hlt : u32 (r.rOffset+bias) < 4294967296 := Nat.mod_lt _ (by decide)
    rw [Nat.add_zero, u32_of_lt hlt] at h0
    exact fillPage_inside h0
  · exact h

end Stores

/-- Every ring 0 store of a load goes into the image when each R_386_RELATIVE
relocation names a word in it; and a load that does not halt the machine, and
passes over no relocation, stores outside the image when one does not. -/
theorem stores_inside_image (f : File) (b : Buffers) (bias : ℕ) (kmalloc : List Vma → Bool)
    (supply : ℕ → Supply) (p : Process) (s : Loading) (out : LoadedElf)
    (h : loadElfSegments f b bias kmalloc supply p = some (s, out)) :
    ((∀ r ∈ applied f b bias, r.Inside (phdrs b.header) bias) →
      ∀ st ∈ s.stores, st.Inside (phdrs b.header) bias) ∧
    (s.halted = false → s.skipped = false →
      ((∀ st ∈ s.stores, st.Inside (phdrs b.header) bias) ↔
        ∀ r ∈ applied f b bias, r.Inside (phdrs b.header) bias)) := by
  unfold loadElfSegments at h
  obtain ⟨⟨p', out'⟩, -, hs⟩ := Option.map_eq_some_iff.mp h
  have hs' := congrArg Prod.fst hs
  dsimp only at hs'
  unfold applied
  split_ifs at hs' ⊢ with hd
  · obtain ⟨new, h1, h2, h3⟩ := relocates_makes f bias supply
      (relocations f b) ⟨p', [], 0, false, false⟩
    rw [hs', List.nil_append] at h1
    rw [hs'] at h3
    have hin : (∀ r ∈ (relocations f b).filter fun r => r.type == r386Relative,
        r.Inside (phdrs b.header) bias) → ∀ st ∈ s.stores, st.Inside (phdrs b.header) bias := by
      intro hr st hst
      rw [h1] at hst
      obtain ⟨r, hmem, ht, hm⟩ := h2 st hst
      exact makes_inside (hr r (List.mem_filter.mpr ⟨hmem, by simpa using ht⟩)) hm
    refine ⟨hin, fun hh hk => ⟨fun hst r hr => ?_, hin⟩⟩
    obtain ⟨hmem, ht⟩ := List.mem_filter.mp hr
    have := h3 hh hk r hmem (by simpa using ht)
    rw [← h1] at this
    exact hst _ this
  · subst hs'
    simp

/-- A position independent file with one segment and one R_386_RELATIVE
relocation at `rOffset`. -/
def oneRelocation (rOffset : ℕ) : File where
  size := 148
  byte := fun k => UInt8.ofNat
    (([0x464C457F, 0x00010101, 0, 0, 0x00030003, 1, 0, 52, 0, 0, 0x00200034, 2, 0,
      1, 0, 0, 0, 148, 148, 6, 4096,
      2, 116, 116, 0, 24, 24, 6, 4,
      17, 140, 18, 8, 0, 0, rOffset, 8].getD (k/4) 0)/256^(k%4))
  size_lt := by decide

def oneRelocationBuffers (rOffset : ℕ) : Buffers where
  header := headerBuf (oneRelocation rOffset) 4096 fun _ => 0
  headerSize := 148
  kmalloc := fun _ => none

/-- A fresh address space: the kernel's pages, mapped to themselves. -/
def kernelPages : Process where
  heapStart := 0
  heapEnd := 0
  vmaList := []
  table := fun q => if q < 8192 then some (q*4096, pagePresent+pageWritable) else none
  frames := fun _ _ => 0
  executable := none

theorem stores_inside_image_relative :
    ∃ s out, loadElfSegments (oneRelocation 0x40) (oneRelocationBuffers 0x40) 0x40000000
      (fun _ => true) (fun _ => ⟨some 0x2000000, true⟩) kernelPages = some (s, out) ∧
    s.stores = [⟨0x40000000, 4096⟩, ⟨0x40000040, 4⟩] ∧
    ∀ st ∈ s.stores, st.Inside (phdrs (oneRelocationBuffers 0x40).header) 0x40000000 := by
  have hst : (loadElfSegments (oneRelocation 0x40) (oneRelocationBuffers 0x40) 0x40000000
      (fun _ => true) (fun _ => ⟨some 0x2000000, true⟩) kernelPages).map (fun r => r.1.stores) =
      some [⟨0x40000000, 4096⟩, ⟨0x40000040, 4⟩] := by
    decide +kernel
  obtain ⟨⟨s, out⟩, h, hs⟩ := Option.map_eq_some_iff.mp hst
  refine ⟨s, out, h, hs, (stores_inside_image _ _ _ _ _ _ s out h).1 ?_⟩
  have hr : applied (oneRelocation 0x40) (oneRelocationBuffers 0x40) 0x40000000 =
      [⟨0x40, 8⟩] := by
    decide +kernel
  rw [hr]
  intro r hmem
  rw [List.mem_singleton] at hmem
  subst hmem
  change ∀ k < 4, InImage _ _ _
  decide +kernel

/-- A relocation patches the kernel at 1 MiB. -/
theorem relocation_patches_kernel :
    ∃ s out, loadElfSegments (oneRelocation 0xC0100000) (oneRelocationBuffers 0xC0100000)
      0x40000000 (fun _ => true) (fun _ => ⟨some 0x2000000, true⟩) kernelPages = some (s, out) ∧
    s.halted = false ∧ s.stores = [⟨0x100000, 4⟩] ∧
    ¬∀ st ∈ s.stores, st.Inside (phdrs (oneRelocationBuffers 0xC0100000).header) 0x40000000 := by
  have hst : (loadElfSegments (oneRelocation 0xC0100000) (oneRelocationBuffers 0xC0100000)
      0x40000000 (fun _ => true) (fun _ => ⟨some 0x2000000, true⟩) kernelPages).map
      (fun r => (r.1.halted, r.1.stores)) = some (false, [⟨0x100000, 4⟩]) := by
    decide +kernel
  obtain ⟨⟨s, out⟩, h, hs⟩ := Option.map_eq_some_iff.mp hst
  have h1 := congrArg Prod.fst hs
  have h2 := congrArg Prod.snd hs
  dsimp only at h1 h2
  refine ⟨s, out, h, h1, h2, fun hin => ?_⟩
  rw [h2] at hin
  have := (hin _ (List.mem_singleton.mpr rfl) 0 (by decide)).1
  exact absurd this (by decide)

end Vlsmc.ElfRelocations
