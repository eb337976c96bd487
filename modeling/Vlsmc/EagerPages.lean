import Mathlib.Data.List.Find
import Vlsmc.ElfImage
import Vlsmc.ElfRelocations

/-!
# Pages that the relocation pass brings in

`apply_relocations` fills and maps the page of a word that it patches, with code of its own.
`handle_page_fault` fills the same page at the first access of the process. The end of the file
part, the flags, the file that is read and a page outside of the VMAs are not treated alike.
-/

set_option autoImplicit false

namespace Vlsmc.EagerPages
open Vlsmc.ByteMemory Vlsmc.Words Vlsmc.Elf Vlsmc.DemandPaging Vlsmc.ElfImage
open Vlsmc.ElfRelocations hiding loadElfSegments

/-- The flags and the bytes of the page at an address. -/
def installed (p : Process) (page : ℕ) : Option (ℕ×Memory) :=
  (p.table (page/4096)).map fun e => (e.2, p.frames e.1)

/-- The same 4096 bytes with the same flags, or no page. -/
def SamePage : Option (ℕ×Memory) → Option (ℕ×Memory) → Prop
  | none, none => True
  | some x, some y => x.1 = y.1 ∧ ∀ k < 4096, x.2 k = y.2 k
  | _, _ => False

/-- The page that the relocation pass installs for a word at `addr`. -/
def eagerPage (f : File) (s : Loading) (addr frame : ℕ) : Option (ℕ×Memory) :=
  installed (s.fillPage f (pageDown addr) frame true).process (pageDown addr)

/-- The page that an access to `addr` gets. -/
def lazyPage (p : Process) (addr : ℕ) (cached : Option ℕ) (newFrame : ℕ) : Option (ℕ×Memory) :=
  (handlePageFault p addr cached newFrame).bind fun q => installed q (pageDown addr)

/-- A byte of a file, zero behind its end. -/
def fileByte (f : File) (k : ℕ) : UInt8 := if k < f.size then f.byte k else 0

def vnodeByte (vnode : Option File) (k : ℕ) : UInt8 := (vnode.map (fileByte · k)).getD 0

/-- What the pass reads of the file `f` for a page of the VMA is what the fault reads of the VMA's
file, or zero if the end of the file part passes the end of the address space. -/
def SamePart (f : File) (v : Vma) (page : ℕ) : Prop :=
  ∀ k < min 4096 (v.fileSize-(page-v.start)),
    fileByte f (u32 (v.fileOffset+(page-v.start))+k) =
      if v.start+v.fileSize < 4294967296 then
        vnodeByte v.fileVnode (u32 (v.fileOffset+(page-v.start))+k)
      else 0

/-- The first VMA at the address can be written, and the page gets the same bytes. -/
def Alike (f : File) (vmas : List Vma) (addr : ℕ) : Prop :=
  ∃ v, vmas.find? (fun v => decide (v.start ≤ addr) && decide (addr < v.finish)) = some v ∧
    v.flags.testBit 1 = true ∧ SamePart f v (pageDown addr)

/-- A VMA that `load_elf_segments` made. -/
def Segment (v : Vma) : Prop := ∃ f bias ph, v = vmaOf f bias ph

section Pages

variable {f : File} {v : Vma} {vmas : List Vma} {p : Process} {page addr k : ℕ}

/-- Without a wrap the pass agrees with the fault on the VMAs of its own file. -/
theorem samePart_self (hf : v.fileVnode = some f) (hend : v.start+v.fileSize < 4294967296) :
    SamePart f v page := by
  intro k _
  rw [if_pos hend, hf]
  rfl

/-- A read into a zeroed frame. -/
theorem readFile_byte (f : File) (off size k : ℕ) :
    readFile (some f) off size (fun _ => 0) k = if k < size then fileByte f (off+k) else 0 := by
  unfold readFile place File.available fileByte
  dsimp only
  rw [Nat.sub_zero]
  by_cases hk : k < size
  · rw [if_pos hk]
    by_cases hend : off+k < f.size
    · rw [if_pos ⟨Nat.zero_le k, by omega⟩, if_pos hend]
    · rw [if_neg (by omega), if_neg hend]
  · rw [if_neg (by omega), if_neg hk]

/-- VMAs cover whole pages below the last one. -/
theorem segment_spec (h : Segment v) : 4096 ∣ v.start ∧ 4096 ∣ v.finish ∧
    v.finish ≤ 4294963200 ∧ v.fileSize < 4294967296 ∧ v.isFile = true ∧
    (v.flags = 5 ∨ v.flags = 7) ∧ ∃ g, v.fileVnode = some g := by
  obtain ⟨g, bias, ph, rfl⟩ := h
  have hlast : pageUp (u32 (ph.pVaddr+bias)+ph.pMemsz) < 4294967296 := by
    unfold pageUp pageDown u32
    omega
  have hdvd := dvd_pageUp (u32 (ph.pVaddr+bias)+ph.pMemsz)
  refine ⟨Nat.dvd_mul_left 4096 _, hdvd, ?_, Nat.mod_lt _ (by decide), rfl, ?_, g, rfl⟩
  · change pageUp (u32 (ph.pVaddr+bias)+ph.pMemsz) ≤ _
    omega
  · change (if ph.pFlags.testBit 1 then _ else _) = 5 ∨ (if ph.pFlags.testBit 1 then _ else _) = 7
    by_cases hw : ph.pFlags.testBit 1
    · rw [if_pos hw]
      exact .inr rfl
    · rw [if_neg hw]
      exact .inl rfl

/-- A VMA has an address exactly if it has its page. -/
theorem find_page (h : ∀ v ∈ vmas, Segment v) (addr : ℕ) :
    vmas.find? (fun v => decide (v.start ≤ pageDown addr) && decide (pageDown addr < v.finish)) =
      vmas.find? (fun v => decide (v.start ≤ addr) && decide (addr < v.finish)) := by
  apply List.find?_congr
  intro v hv
  obtain ⟨hstart, hfinish, -⟩ := segment_spec (h v hv)
  have hlow : v.start ≤ pageDown addr ↔ v.start ≤ addr := by
    unfold pageDown
    omega
  have hhigh : pageDown addr < v.finish ↔ addr < v.finish := by
    unfold pageDown
    omega
  rw [decide_eq_decide.mpr hlow, decide_eq_decide.mpr hhigh]

/-- The bytes that the relocation pass puts into a page. -/
theorem eager_byte (hv : Segment v) (hlow : v.start ≤ page) (hhigh : page < v.finish)
    (hpage : 4096 ∣ page)
    (hfind : vmas.find? (fun v => decide (v.start ≤ page) && decide (page < v.finish)) = some v)
    (hk : k < 4096) : pageBytes f vmas page k =
      if k < v.fileSize-(page-v.start) then
        fileByte f (u32 (v.fileOffset+(page-v.start))+k)
      else 0 := by
  obtain ⟨-, -, hend, -⟩ := segment_spec hv
  unfold pageBytes
  rw [hfind]
  dsimp only
  rw [u32_of_lt (by omega : page-v.start+4096 < 4294967296)]
  by_cases hoff : page-v.start < v.fileSize
  · rw [if_pos hoff, readFile_byte]
    by_cases hin : k < v.fileSize-(page-v.start)
    · rw [if_pos hin, if_pos (by split_ifs <;> omega)]
    · rw [if_neg hin, if_neg (by rw [if_pos (by omega)]; exact hin)]
  · rw [if_neg hoff, if_neg (by omega)]

/-- The bytes that the fault puts into a page. -/
theorem lazy_byte (hv : Segment v) (hlow : v.start ≤ page) (hhigh : page < v.finish)
    (hpage : 4096 ∣ page) (hk : k < 4096) : p.fill v page k =
      if k < v.fileSize-(page-v.start) ∧ v.start+v.fileSize < 4294967296 then
        vnodeByte v.fileVnode (u32 (v.fileOffset+(page-v.start))+k)
      else 0 := by
  obtain ⟨-, hdvd, hend, hsize, hfile, -, g, hg⟩ := segment_spec hv
  have hsource : p.source v = some g := (if_pos hfile).trans hg
  unfold Process.fill
  dsimp only
  rw [u32_of_lt (by omega : page+4096 < 4294967296), hsource, hg]
  by_cases hwrap : v.start+v.fileSize < 4294967296
  · rw [u32_of_lt hwrap]
    by_cases hoff : page < v.start+v.fileSize
    · rw [if_pos hoff, readFile_byte]
      by_cases hin : k < v.fileSize-(page-v.start)
      · rw [if_pos (by split_ifs <;> omega), if_pos ⟨hin, hwrap⟩]
        rfl
      · rw [if_neg (by rw [if_pos (by omega)]; omega), if_neg (fun h => hin h.1)]
    · rw [if_neg hoff, if_neg (by omega)]
  · have hlast : u32 (v.start+v.fileSize) ≤ page := by
      unfold u32
      omega
    rw [if_neg (by omega), if_neg (fun h => hwrap h.2)]

/-- A page that was filled and mapped. -/
theorem installed_mapPage (p : Process) (page frame flags : ℕ) (m : Memory) :
    installed ((p.setFrame frame m).mapPage page frame flags) page = some (flags, m) := by
  simp [installed, Process.mapPage, Process.setFrame]

theorem eagerPage_eq (f : File) (s : Loading) (addr frame : ℕ) :
    eagerPage f s addr frame = some (7, pageBytes f s.process.vmaList (pageDown addr)) :=
  installed_mapPage s.process (pageDown addr) frame 7 _

/-- The first access, in a process with an empty heap. -/
theorem lazyPage_eq (p : Process) (maxVaddr addr : ℕ) (cached : Option ℕ) (newFrame : ℕ) :
    lazyPage (p.setHeap maxVaddr) addr cached newFrame =
      (p.vmaList.find? fun v => decide (v.start ≤ addr) && decide (addr < v.finish)).bind fun v =>
        match if v.isReadonly && v.isFile then cached else none with
        | some frame => some (v.flags, p.frames frame)
        | none => some (v.flags, p.fill v (pageDown addr)) := by
  obtain ⟨heapBase, hheap⟩ : ∃ n, p.setHeap maxVaddr = { p with heapStart := n, heapEnd := n } :=
    ⟨_, rfl⟩
  rw [hheap]
  unfold lazyPage handlePageFault
  dsimp only
  rw [if_neg (show ¬ (heapBase ≤ addr ∧ addr < heapBase) by omega)]
  cases p.vmaList.find? fun v : Vma => decide (v.start ≤ addr) && decide (addr < v.finish) with
  | none => rfl
  | some v =>
    dsimp only [Option.bind]
    cases (if v.isReadonly && v.isFile then cached else none) with
    | none => exact installed_mapPage _ (pageDown addr) newFrame v.flags _
    | some frame => simp [installed, Process.mapPage]

/-- Both pages agree exactly if the address is in a VMA that can be written, and the two reads
agree. -/
theorem samePage_iff {s : Loading} (h : ∀ v ∈ s.process.vmaList, Segment v)
    (maxVaddr addr frame newFrame : ℕ) (cached : Option ℕ) :
    SamePage (eagerPage f s addr frame)
      (lazyPage (s.process.setHeap maxVaddr) addr cached newFrame) ↔
    Alike f s.process.vmaList addr := by
  have hpage : 4096 ∣ pageDown addr := Nat.dvd_mul_left 4096 _
  rw [eagerPage_eq, lazyPage_eq]
  have hfound := find_page h addr
  cases hfind : s.process.vmaList.find? fun v => decide (v.start ≤ addr) && decide (addr < v.finish)
    with
  | none =>
    constructor
    · exact False.elim
    · rintro ⟨v, hv, -⟩
      exact nomatch hfind.symm.trans hv
  | some v =>
    have hseg := h v (List.mem_of_find?_eq_some hfind)
    rw [hfind] at hfound
    obtain ⟨hlow, hhigh⟩ : v.start ≤ pageDown addr ∧ pageDown addr < v.finish := by
      simpa using List.find?_some hfound
    obtain ⟨-, -, -, -, -, hflags, -⟩ := segment_spec hseg
    dsimp only [Option.bind]
    rcases hflags with hro | hrw
    · -- the flags differ, whatever the page cache holds
      constructor
      · intro hsame
        split at hsame
        · exact absurd (hsame.1.trans hro) (show (7:ℕ) ≠ 5 by decide)
        · exact absurd (hsame.1.trans hro) (show (7:ℕ) ≠ 5 by decide)
      · rintro ⟨w, hw, hwritable, -⟩
        cases hfind.symm.trans hw
        rw [hro] at hwritable
        exact absurd hwritable (by decide)
    · have hwritable : v.isReadonly = false := by
        rw [Vma.isReadonly, hrw]
        decide
      rw [hwritable, Bool.false_and, if_neg (by decide)]
      constructor
      · rintro ⟨-, hbytes⟩
        refine ⟨v, hfind, by rw [hrw]; decide, fun k hk => ?_⟩
        have hbyte := hbytes k (by omega)
        dsimp only at hbyte
        rw [eager_byte hseg hlow hhigh hpage hfound (by omega), if_pos (by omega),
          lazy_byte hseg hlow hhigh hpage (by omega)] at hbyte
        rw [hbyte]
        by_cases hend : v.start+v.fileSize < 4294967296
        · rw [if_pos hend, if_pos ⟨by omega, hend⟩]
        · rw [if_neg hend, if_neg fun hh => hend hh.2]
      · rintro ⟨w, hw, -, hpart⟩
        cases hfind.symm.trans hw
        refine ⟨hrw.symm, fun k hk => ?_⟩
        dsimp only
        rw [eager_byte hseg hlow hhigh hpage hfound hk, lazy_byte hseg hlow hhigh hpage hk]
        by_cases hin : k < v.fileSize-(pageDown addr-v.start)
        · rw [if_pos hin, hpart k (by omega)]
          by_cases hend : v.start+v.fileSize < 4294967296
          · rw [if_pos hend, if_pos ⟨hin, hend⟩]
          · rw [if_neg hend, if_neg fun hh => hend hh.2]
        · rw [if_neg hin, if_neg fun hh => hin hh.1]

end Pages

section Pass

variable {f : File} {bias : ℕ} {supply : ℕ → Supply} {s : Loading} {r : Rel}

theorem setByte_vmaList (p : Process) (addr : ℕ) (v : UInt8) :
    (setByte p addr v).vmaList = p.vmaList := by
  unfold setByte
  cases p.table (addr/4096) with
  | none => rfl
  | some e => rfl

theorem patch_vmaList (s : Loading) (addr bias : ℕ) :
    (s.patch addr bias).process.vmaList = s.process.vmaList := by
  unfold Loading.patch
  split_ifs
  · dsimp only
    unfold patchWord
    dsimp only
    generalize u32 (read32 (wordBytes s.process addr) 0+bias) = value
    generalize s.process = p
    generalize List.range 4 = ks
    induction ks generalizing p with
    | nil => rfl
    | cons k ks ih => exact (ih _).trans (setByte_vmaList p _ _)
  · rfl

theorem relocate_vmaList (f : File) (bias : ℕ) (supply : ℕ → Supply) (s : Loading) (r : Rel) :
    (s.relocate f bias supply r).process.vmaList = s.process.vmaList := by
  unfold Loading.relocate
  dsimp only
  split_ifs
  · rfl
  · rfl
  · cases (supply s.met).frame with
    | none => rfl
    | some frame =>
      dsimp only
      rw [patch_vmaList]
      unfold Loading.fillPage
      dsimp only
      split_ifs <;> rfl
  · exact patch_vmaList _ _ _

theorem relocates_vmaList (f : File) (bias : ℕ) (supply : ℕ → Supply) (rs : List Rel)
    (s : Loading) :
    (rs.foldl (Loading.relocate f bias supply) s).process.vmaList = s.process.vmaList := by
  induction rs generalizing s with
  | nil => rfl
  | cons r rs ih => exact (ih _).trans (relocate_vmaList f bias supply s r)

theorem load_segments {buf : Memory} {kmalloc : List Vma → Bool} {p q : Process} {out : LoadedElf}
    (h : DemandPaging.loadElfSegments f buf bias kmalloc p = some (q, out)) :
    q.vmaList = ((loads (phdrs buf)).map (vmaOf f bias)).reverse++p.vmaList := by
  unfold DemandPaging.loadElfSegments at h
  obtain ⟨r, hr, heq⟩ := Option.map_eq_some_iff.mp h
  have hq := congrArg (fun r => r.1.vmaList) heq
  dsimp only at hq
  rw [← hq]
  exact addSegments_vmas hr

/-- In every state of the relocation pass, the page that is brought in for a word is the one of
the first access exactly if the first VMA at the word can be written, and the two reads agree. -/
theorem pages_agree_iff (f : File) (b : Buffers) (bias : ℕ) (kmalloc : List Vma → Bool)
    (supply : ℕ → Supply) (p q : Process) (out : LoadedElf) (hold : ∀ v ∈ p.vmaList, Segment v)
    (hload : DemandPaging.loadElfSegments f b.header bias kmalloc p = some (q, out))
    (before : List Rel) (r : Rel) (frame newFrame : ℕ) (cached : Option ℕ) :
    SamePage
      (eagerPage f (before.foldl (Loading.relocate f bias supply) ⟨q, [], 0, false, false⟩)
        (u32 (r.rOffset+bias)) frame)
      (lazyPage ((before.foldl (Loading.relocate f bias supply)
        ⟨q, [], 0, false, false⟩).process.setHeap out.maxVaddr)
        (u32 (r.rOffset+bias)) cached newFrame) ↔
    Alike f q.vmaList (u32 (r.rOffset+bias)) := by
  have hvmas := relocates_vmaList f bias supply before ⟨q, [], 0, false, false⟩
  have hsegments : ∀ v ∈ q.vmaList, Segment v := by
    intro v hv
    rw [load_segments hload, List.mem_append, List.mem_reverse] at hv
    rcases hv with hnew | hv
    · obtain ⟨ph, -, rfl⟩ := List.mem_map.mp hnew
      exact ⟨f, bias, ph, rfl⟩
    · exact hold v hv
  generalize before.foldl (Loading.relocate f bias supply) ⟨q, [], 0, false, false⟩ = s at *
  rw [show q.vmaList = s.process.vmaList from hvmas.symm] at hsegments ⊢
  exact samePage_iff hsegments _ _ _ _ _

/-- The file with the relocation, with its segment as `flags`. -/
def flaggedRelocation (rOffset : ℕ) (flags : UInt8) : File :=
  { oneRelocation rOffset with byte := write8 (oneRelocation rOffset).byte 76 flags }

def flaggedBuffers (rOffset : ℕ) (flags : UInt8) : Buffers where
  header := headerBuf (flaggedRelocation rOffset flags) 4096 fun _ => 0
  headerSize := 148
  kmalloc := fun _ => none

/-- With room for every VMA the segments are loaded. -/
theorem load_succeeds (f : File) (buf : Memory) (bias : ℕ) (p : Process) :
    ∃ q out, DemandPaging.loadElfSegments f buf bias (fun _ => true) p = some (q, out) := by
  have hsegments : ∀ (phs : List Phdr) (s : List Vma×ℕ),
      ∃ r, phs.foldlM (addSegment f bias fun _ => true) s = some r := by
    intro phs
    induction phs with
    | nil => exact fun s => ⟨s, rfl⟩
    | cons ph phs ih =>
      intro s
      rw [List.foldlM_cons]
      unfold addSegment
      split_ifs
      · exact ih s
      · exact ih s
      · exact ih _
      · contradiction
  obtain ⟨r, hr⟩ := hsegments (phdrs buf) (p.vmaList, 0)
  unfold DemandPaging.loadElfSegments
  rw [hr]
  exact ⟨_, _, rfl⟩

theorem one_segment (f : File) (bias : ℕ) {buf : Memory} {ph : Phdr}
    (hloads : loads (phdrs buf) = [ph]) :
    ∃ q out, DemandPaging.loadElfSegments f buf bias (fun _ => true) kernelPages = some (q, out) ∧
      q.vmaList = [vmaOf f bias ph] := by
  obtain ⟨q, out, hload⟩ := load_succeeds f buf bias kernelPages
  refine ⟨q, out, hload, ?_⟩
  rw [load_segments hload, hloads]
  rfl

/-- The program headers read back as the one segment with its flags. -/
theorem flagged_loads : ∀ x ∈ [(0x40, (6 : UInt8)), (0x40, 5), (0x10000, 6)],
    loads (phdrs (flaggedBuffers x.1 x.2).header) = [⟨1, 0, 0, 148, 148, x.2.toNat⟩] := by
  decide +kernel

/-- A word of a segment that can be written. -/
theorem pages_agree : ∃ q out, DemandPaging.loadElfSegments (flaggedRelocation 0x40 6)
      (flaggedBuffers 0x40 6).header 0x40000000 (fun _ => true) kernelPages = some (q, out) ∧
    SamePage
      (eagerPage (flaggedRelocation 0x40 6)
        (List.foldl (Loading.relocate (flaggedRelocation 0x40 6) 0x40000000
          fun _ => ⟨some 0x2000000, true⟩) ⟨q, [], 0, false, false⟩ [])
        (u32 ((⟨0x40, 8⟩ : Rel).rOffset+0x40000000)) 8192)
      (lazyPage ((List.foldl (Loading.relocate (flaggedRelocation 0x40 6) 0x40000000
        fun _ => ⟨some 0x2000000, true⟩) ⟨q, [], 0, false, false⟩ []).process.setHeap
          out.maxVaddr)
        (u32 ((⟨0x40, 8⟩ : Rel).rOffset+0x40000000)) none 8192) := by
  obtain ⟨q, out, hload, hvmas⟩ := one_segment (flaggedRelocation 0x40 6) 0x40000000
    (flagged_loads (0x40, 6) (by simp))
  have halike : Alike (flaggedRelocation 0x40 6) q.vmaList
      (u32 ((⟨0x40, 8⟩ : Rel).rOffset+0x40000000)) := by
    rw [hvmas]
    exact ⟨_, List.find?_cons_of_pos (by decide), by decide, samePart_self rfl (by decide)⟩
  refine ⟨q, out, hload, ?_⟩
  rw [pages_agree_iff (flaggedRelocation 0x40 6) (flaggedBuffers 0x40 6) 0x40000000
    (fun _ => true) (fun _ => ⟨some 0x2000000, true⟩) kernelPages q out
    (fun v hv => nomatch hv) hload [] ⟨0x40, 8⟩ 8192 8192 none]
  exact halike

/-- A page of a read-only segment gets other flags, and the page of an address in no VMA is mapped
by the relocation pass only. -/
theorem pages_differ :
    (∃ q out, DemandPaging.loadElfSegments (flaggedRelocation 0x40 5)
      (flaggedBuffers 0x40 5).header 0x40000000 (fun _ => true) kernelPages = some (q, out) ∧
      ((eagerPage (flaggedRelocation 0x40 5) ⟨q, [], 0, false, false⟩ 0x40000040 8192).map
        Prod.fst = some 7) ∧
      (lazyPage (q.setHeap out.maxVaddr) 0x40000040 none 8192).map Prod.fst = some 5) ∧
    (∃ q out, DemandPaging.loadElfSegments (flaggedRelocation 0x10000 6)
      (flaggedBuffers 0x10000 6).header 0x40000000 (fun _ => true) kernelPages = some (q, out) ∧
      ((eagerPage (flaggedRelocation 0x10000 6) ⟨q, [], 0, false, false⟩ 0x40010000 8192).map
        Prod.fst = some 7) ∧
      lazyPage (q.setHeap out.maxVaddr) 0x40010000 none 8192 = none) := by
  constructor
  · obtain ⟨q, out, hload, hvmas⟩ := one_segment (flaggedRelocation 0x40 5) 0x40000000
      (flagged_loads (0x40, 5) (by simp))
    refine ⟨q, out, hload, rfl, ?_⟩
    rw [lazyPage_eq, hvmas]
    rfl
  · obtain ⟨q, out, hload, hvmas⟩ := one_segment (flaggedRelocation 0x10000 6) 0x40000000
      (flagged_loads (0x10000, 6) (by simp))
    refine ⟨q, out, hload, rfl, ?_⟩
    rw [lazyPage_eq, hvmas]
    rfl

end Pass

end Vlsmc.EagerPages
