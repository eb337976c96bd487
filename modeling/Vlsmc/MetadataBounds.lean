import Vlsmc.AuxVectors

/-!
# How far the loader reads

The program headers, the interpreter's path, the dynamic section and the relocation records come
from the header buffer or from a block of their own. How many bytes of the file were read into it is
not looked at, and a sum that wraps around makes a part seem to lie in the header buffer.
-/

set_option autoImplicit false

namespace Vlsmc.MetadataBounds
open Vlsmc.ByteMemory Vlsmc.Words Vlsmc.Elf Vlsmc.DemandPaging Vlsmc.ProgramStart Vlsmc.AuxVectors
open Vlsmc.ElfImage
open Vlsmc.ElfRelocations hiding loadElfSegments

/-- A loop looks at `n` entries of `width` bytes as long as it is alive. It stays in the first `v`
bytes exactly if all entries do, or it ends in front of the first that does not. -/
theorem visits_inside {width n v : ℕ} {alive inside : ℕ → Prop} (hwidth : 0 < width)
    (hdown : ∀ i j, i ≤ j → alive j → alive i) (hin : ∀ i, width*i+width ≤ v → inside i)
    (hout : ¬ inside (v/width)) :
    (∀ i < n, alive i → inside i) ↔ width*n ≤ v ∨ ¬ alive (v/width) := by
  have hfloor := Nat.div_add_mod v width
  have hrest := Nat.mod_lt v hwidth
  constructor
  · intro hall
    by_contra hneither
    rw [not_or, Nat.not_le, not_not] at hneither
    have hfirst : v/width < n := Nat.div_lt_of_lt_mul hneither.1
    exact hout (hall (v/width) hfirst hneither.2)
  · intro hfits i hi halive
    apply hin
    rcases hfits with hfits | hends
    · have hnext : width*(i+1) ≤ width*n := Nat.mul_le_mul_left width hi
      rw [Nat.mul_add, Nat.mul_one] at hnext
      exact hnext.trans hfits
    · have hbefore : i < v/width := by
        by_contra hafter
        exact hends (hdown (v/width) i (Nat.le_of_not_lt hafter) halive)
      have hnext : width*(i+1) ≤ width*(v/width) := Nat.mul_le_mul_left width hbefore
      rw [Nat.mul_add, Nat.mul_one] at hnext
      omega

/-- A byte of the header buffer that was read from the file. -/
def Header (b : Buffers) (off : ℕ) : Prop := u32 off < b.headerSize

/-- The byte `k` of a part was read from the file, into the buffer that the loader takes the part
from. -/
def Delivered (b : Buffers) (f : File) (off size k : ℕ) : Prop :=
  if u32 (off+size) ≤ b.headerSize then Header b (off+k) else k < f.available off size

/-- How many bytes of a part were read. -/
def delivered (b : Buffers) (f : File) (off size : ℕ) : ℕ :=
  if u32 (off+size) ≤ b.headerSize then b.headerSize-off else f.available off size

def HeaderIn (b : Buffers) (i : ℕ) : Prop := ∀ k < 32, Header b (ePhoff b.header+(32*i+k))

/-- An entry of the dynamic section, or a relocation record. -/
def EntryIn (b : Buffers) (f : File) (off size i : ℕ) : Prop :=
  ∀ k < 8, Delivered b f off size (8*i+k)

/-- Where in the file a relocation table is that is processed. -/
def tableAt (b : Buffers) (vaddr size : ℕ) : Option ℕ :=
  if vaddr = 0 ∨ size = 0 then none
  else if vaddrToFileOffset (phdrs b.header) vaddr = 0 then none
  else some (vaddrToFileOffset (phdrs b.header) vaddr)

/-- The process that relocations are applied in, if they are. -/
def relocating (f : File) (b : Buffers) (bias : ℕ) (kmalloc : List Vma → Bool) (p : Process) :
    Option Process :=
  if eType b.header = etDyn ∧ bias ≠ 0 then
    (DemandPaging.loadElfSegments f b.header bias kmalloc p).map Prod.fst
  else none

/-- The kernel has survived the relocations. -/
def Reached (f : File) (bias : ℕ) (supply : ℕ → Supply) (q : Process) (rs : List Rel) : Prop :=
  (rs.foldl (Loading.relocate f bias supply) ⟨q, [], 0, false, false⟩).halted = false

section Parts

variable {b : Buffers} {f : File} {off size k i : ℕ}

theorem header_of_lt (hsize : b.headerSize < 4294967296) (h : k < b.headerSize-off) :
    Header b (off+k) := by
  unfold Header
  rw [u32_of_lt (by omega)]
  omega

theorem header_ends (hsize : b.headerSize < 4294967296) (hoff : off < 4294967296) :
    ¬ Header b (off+(b.headerSize-off)) := by
  unfold Header
  rw [u32_of_lt (by omega)]
  omega

theorem delivered_of_lt (hsize : b.headerSize < 4294967296) (h : k < delivered b f off size) :
    Delivered b f off size k := by
  unfold delivered at h
  unfold Delivered
  split_ifs at h ⊢
  · exact header_of_lt hsize h
  · exact h

theorem delivered_ends (hsize : b.headerSize < 4294967296) (hoff : off < 4294967296) :
    ¬ Delivered b f off size (delivered b f off size) := by
  unfold delivered Delivered
  split_ifs
  · exact header_ends hsize hoff
  · exact Nat.lt_irrefl _

/-- A byte that was read is one of the file. -/
theorem delivered_byte {h : Heap} {old m : Memory} (hm : (h.buffers f old).part f off size = some m)
    (hk : Delivered (h.buffers f old) f off size k) : m k = f.byte (u32 (off+k)) := by
  unfold Buffers.part at hm
  unfold Delivered at hk
  split_ifs at hm hk
  · have hbyte : u32 (off+k) < min 4096 (f.size-0) := hk
    rw [← Option.some.inj hm]
    exact headerBuf_get old (by omega) (by omega)
  · obtain ⟨block, -, rfl⟩ := Option.map_eq_some_iff.mp hm
    have hplaced := place_get block (fun i => f.byte (off+i)) (a := 0) hk
    have hsize := f.size_lt
    unfold File.available at hk
    rw [u32_of_lt (by omega)]
    rwa [Nat.zero_add] at hplaced

/-- A loop over entries of eight bytes. -/
theorem entries_inside {n : ℕ} {alive : ℕ → Prop} (hsize : b.headerSize < 4294967296)
    (hoff : off < 4294967296) (hdown : ∀ i j, i ≤ j → alive j → alive i) :
    (∀ i < n, alive i → EntryIn b f off size i) ↔
      8*n ≤ delivered b f off size ∨ ¬ alive (delivered b f off size/8) := by
  apply visits_inside (by decide) hdown
  · exact fun i hi k hk => delivered_of_lt hsize (by omega)
  · intro hentry
    have hbyte := hentry (delivered b f off size%8) (Nat.mod_lt _ (by decide))
    rw [Nat.div_add_mod] at hbyte
    exact delivered_ends hsize hoff hbyte

/-- The loops over the program headers. -/
theorem headers_inside (hsize : b.headerSize < 4294967296) (n : ℕ) :
    (∀ i < n, HeaderIn b i) ↔ 32*n ≤ b.headerSize-ePhoff b.header := by
  have hlast : ¬ HeaderIn b ((b.headerSize-ePhoff b.header)/32) := by
    intro hheader
    have hbyte := hheader ((b.headerSize-ePhoff b.header)%32) (Nat.mod_lt _ (by decide))
    rw [Nat.div_add_mod] at hbyte
    exact header_ends hsize (read32_lt _ _) hbyte
  have hvisits : (∀ i < n, True → HeaderIn b i) ↔ 32*n ≤ b.headerSize-ePhoff b.header ∨ ¬ True :=
    visits_inside (by decide) (fun _ _ _ h => h)
      (fun i hi k hk => header_of_lt hsize (by omega)) hlast
  simpa using hvisits

/-- The scan of the dynamic section depends on the entries up to a `DT_NULL` only. -/
theorem scanDynamic_congr {m m' : Memory} {n a : ℕ} (d : ElfRelocations.Dynamic)
    (h : ∀ i < n, (∀ j < i, read32 m (a+8*j) ≠ 0) →
      read32 m' (a+8*i) = read32 m (a+8*i) ∧ read32 m' (a+8*i+4) = read32 m (a+8*i+4)) :
    scanDynamic m' n a d = scanDynamic m n a d := by
  induction n generalizing a d with
  | zero => rfl
  | succ n ih =>
    obtain ⟨htag, hval⟩ := h 0 (by omega) fun j hj => absurd hj (by omega)
    rw [Nat.mul_zero, Nat.add_zero] at htag hval
    unfold scanDynamic
    rw [htag, hval]
    split_ifs with hnull
    · rfl
    · apply ih
      intro i hi hbefore
      rw [show a+8+8*i = a+8*(i+1) by omega]
      apply h (i+1) (by omega)
      intro j hj
      cases j with
      | zero => exact hnull
      | succ j =>
        have htags := hbefore j (by omega)
        rwa [show a+8+8*j = a+8*(j+1) by omega] at htags

/-- The loop over the dynamic section ends at `DT_NULL`. -/
theorem dynamic_inside {m : Memory} (hsize : b.headerSize < 4294967296) (hoff : off < 4294967296) :
    (∀ i < size/8, (∀ j < i, read32 m (8*j) ≠ 0) → EntryIn b f off size i) ↔
      8*(size/8) ≤ delivered b f off size ∨
        ∃ j < delivered b f off size/8, read32 m (8*j) = 0 := by
  rw [entries_inside hsize hoff fun i j hij h l hl => h l (by omega)]
  push Not
  rfl

end Parts

section Tables

variable {f : File} {bias : ℕ} {supply : ℕ → Supply} {q : Process} {rs ss : List Rel}

theorem reached_prefix (hhead : rs <+: ss) (h : Reached f bias supply q ss) :
    Reached f bias supply q rs := by
  obtain ⟨ts, rfl⟩ := hhead
  unfold Reached at h ⊢
  rw [List.foldl_append] at h
  rw [← Bool.not_eq_true] at h ⊢
  exact fun hhalted => h ((relocates_marks f bias supply ts _).1 hhalted)

/-- The records of a table that the kernel reaches, behind those of `before`, were read. -/
def TableInside (f : File) (b : Buffers) (bias : ℕ) (supply : ℕ → Supply) (q : Process)
    (before : List Rel) (vaddr size : ℕ) : Prop :=
  ∀ off, tableAt b vaddr size = some off → (b.part f off size).isSome = true →
    ∀ i < size/8, Reached f bias supply q (before++(relTable f b vaddr size).take i) →
      EntryIn b f off size i

/-- All of the table was read, or the kernel halts at a record that was. -/
def TableFits (f : File) (b : Buffers) (bias : ℕ) (supply : ℕ → Supply) (q : Process)
    (before : List Rel) (vaddr size : ℕ) : Prop :=
  ∀ off, tableAt b vaddr size = some off → (b.part f off size).isSome = true →
    8*(size/8) ≤ delivered b f off size ∨
      ¬ Reached f bias supply q
        (before++(relTable f b vaddr size).take (delivered b f off size/8))

theorem relTable_eq (f : File) (b : Buffers) (vaddr size : ℕ) : relTable f b vaddr size =
    ((tableAt b vaddr size).bind fun off => b.part f off size).elim [] fun m =>
      (List.range (size/8)).map fun i => relAt m (8*i) := by
  unfold relTable tableAt
  split_ifs
  · rfl
  · dsimp only
    split_ifs
    rfl
  · dsimp only
    split_ifs
    cases hpart : b.part f (vaddrToFileOffset (phdrs b.header) vaddr) size <;> simp [hpart]

theorem tableAt_lt {b : Buffers} {vaddr size off : ℕ} (h : tableAt b vaddr size = some off) :
    off < 4294967296 := by
  unfold tableAt at h
  split_ifs at h
  cases h
  unfold vaddrToFileOffset
  split
  · decide
  · exact u32_lt _

theorem table_inside_iff {b : Buffers} (hsize : b.headerSize < 4294967296) (before : List Rel)
    (vaddr size : ℕ) : TableInside f b bias supply q before vaddr size ↔
      TableFits f b bias supply q before vaddr size := by
  have hdown : ∀ i j, i ≤ j →
      Reached f bias supply q (before++(relTable f b vaddr size).take j) →
      Reached f bias supply q (before++(relTable f b vaddr size).take i) := by
    intro i j hij
    apply reached_prefix
    exact (List.prefix_append_right_inj before).mpr (List.take_prefix_take_left hij)
  constructor
  · intro hinside off hat hpart
    exact (entries_inside hsize (tableAt_lt hat) hdown).mp (hinside off hat hpart)
  · intro hfits off hat hpart
    exact (entries_inside hsize (tableAt_lt hat) hdown).mpr (hfits off hat hpart)

end Tables

section Loads

/-- What `load_elf_segments` and `apply_relocations` interpret was read. -/
structure LoadInside (f : File) (b : Buffers) (bias : ℕ) (kmalloc : List Vma → Bool)
    (supply : ℕ → Supply) (p : Process) : Prop where
  headers : ∀ i < ePhnum b.header, HeaderIn b i
  entries : ∀ q, relocating f b bias kmalloc p = some q →
    ∀ ph, (phdrs b.header).find? (fun ph => ph.pType == ptDynamic) = some ph →
    ∀ m, b.part f ph.pOffset ph.pFilesz = some m →
    ∀ i < ph.pFilesz/8, (∀ j < i, read32 m (8*j) ≠ 0) → EntryIn b f ph.pOffset ph.pFilesz i
  rel : ∀ q, relocating f b bias kmalloc p = some q → ∀ d, dynamic f b = some d →
    TableInside f b bias supply q [] d.relVaddr d.relSize
  jmprel : ∀ q, relocating f b bias kmalloc p = some q → ∀ d, dynamic f b = some d →
    TableInside f b bias supply q (relTable f b d.relVaddr d.relSize) d.jmprelVaddr d.jmprelSize

/-- The header table lies in the header buffer. The dynamic section of a file that is relocated was
read whole or up to a `DT_NULL`, and so were the two tables, unless the kernel halts before. -/
structure LoadFits (f : File) (b : Buffers) (bias : ℕ) (kmalloc : List Vma → Bool)
    (supply : ℕ → Supply) (p : Process) : Prop where
  headers : 32*ePhnum b.header ≤ b.headerSize-ePhoff b.header
  entries : ∀ q, relocating f b bias kmalloc p = some q →
    ∀ ph, (phdrs b.header).find? (fun ph => ph.pType == ptDynamic) = some ph →
    ∀ m, b.part f ph.pOffset ph.pFilesz = some m →
    8*(ph.pFilesz/8) ≤ delivered b f ph.pOffset ph.pFilesz ∨
      ∃ j < delivered b f ph.pOffset ph.pFilesz/8, read32 m (8*j) = 0
  rel : ∀ q, relocating f b bias kmalloc p = some q → ∀ d, dynamic f b = some d →
    TableFits f b bias supply q [] d.relVaddr d.relSize
  jmprel : ∀ q, relocating f b bias kmalloc p = some q → ∀ d, dynamic f b = some d →
    TableFits f b bias supply q (relTable f b d.relVaddr d.relSize) d.jmprelVaddr d.jmprelSize

theorem phdr_offset_lt {buf : Memory} {ph : Phdr} (h : ph ∈ phdrs buf) :
    ph.pOffset < 4294967296 := by
  obtain ⟨i, -, rfl⟩ := List.mem_map.mp h
  exact read32_lt _ _

theorem load_inside_iff {f : File} {b : Buffers} (hsize : b.headerSize < 4294967296) (bias : ℕ)
    (kmalloc : List Vma → Bool) (supply : ℕ → Supply) (p : Process) :
    LoadInside f b bias kmalloc supply p ↔ LoadFits f b bias kmalloc supply p := by
  constructor
  · intro h
    constructor
    · exact (headers_inside hsize _).mp h.headers
    · intro q hq ph hph m hm
      exact (dynamic_inside hsize (phdr_offset_lt (List.mem_of_find?_eq_some hph))).mp
        (h.entries q hq ph hph m hm)
    · exact fun q hq d hd => (table_inside_iff hsize _ _ _).mp (h.rel q hq d hd)
    · exact fun q hq d hd => (table_inside_iff hsize _ _ _).mp (h.jmprel q hq d hd)
  · intro h
    constructor
    · exact (headers_inside hsize _).mpr h.headers
    · intro q hq ph hph m hm
      exact (dynamic_inside hsize (phdr_offset_lt (List.mem_of_find?_eq_some hph))).mpr
        (h.entries q hq ph hph m hm)
    · exact fun q hq d hd => (table_inside_iff hsize _ _ _).mpr (h.rel q hq d hd)
    · exact fun q hq d hd => (table_inside_iff hsize _ _ _).mpr (h.jmprel q hq d hd)

end Loads

section Starts

variable {k : Kernel} {h : Heap} {name : Path}

/-- The interpreter that is loaded behind the application: its file, the old bytes of its header
buffer, and the process. -/
def interpreter (o : Opened k h name) : Option (File×Memory×Process) :=
  if interpPath o.file o.buf h.interpPath = [] then none
  else
    match h.load o.file o.old o.bias h.supply o.space,
        k.resolve (interpPath o.file o.buf h.interpPath), h.interpHeader with
    | some app, some f, some old => if elfAccepts f old then some (f, old, app.1) else none
    | _, _, _ => none

/-- All that a start interprets of the application and of its interpreter was read. -/
structure StartInside (o : Opened k h name) : Prop where
  app : LoadInside o.file (h.buffers o.file o.old) o.bias h.vmaRoom h.supply o.space
  path : ∀ ph, (phdrs o.buf).find?
      (fun ph => ph.pType == ptInterp && decide (ph.pFilesz < 64)) = some ph →
    ∀ i < ph.pFilesz, i < o.file.available ph.pOffset ph.pFilesz
  linker : ∀ f old image, interpreter o = some (f, old, image) →
    LoadInside f (h.buffers f old) interpLoadBase h.vmaRoom h.interpSupply image

structure StartFits (o : Opened k h name) : Prop where
  app : LoadFits o.file (h.buffers o.file o.old) o.bias h.vmaRoom h.supply o.space
  path : ∀ ph, (phdrs o.buf).find?
      (fun ph => ph.pType == ptInterp && decide (ph.pFilesz < 64)) = some ph →
    ph.pFilesz = 0 ∨ ph.pOffset+ph.pFilesz ≤ o.file.size
  linker : ∀ f old image, interpreter o = some (f, old, image) →
    LoadFits f (h.buffers f old) interpLoadBase h.vmaRoom h.interpSupply image

theorem headerSize_lt (h : Heap) (f : File) (old : Memory) :
    (h.buffers f old).headerSize < 4294967296 := by
  show min 4096 (f.size-0) < 4294967296
  omega

theorem path_inside {f : File} (off size : ℕ) :
    (∀ i < size, i < f.available off size) ↔ size = 0 ∨ off+size ≤ f.size := by
  unfold File.available
  constructor
  · intro hall
    by_cases hzero : size = 0
    · exact .inl hzero
    · have hlast := hall (size-1) (by omega)
      omega
  · intro hfits i hi
    omega

/-- The metadata is read in bounds exactly if every part fits what was read of it. -/
theorem metadata_inside_iff (o : Opened k h name) : StartInside o ↔ StartFits o := by
  constructor
  · intro hinside
    constructor
    · exact (load_inside_iff (headerSize_lt h _ _) _ _ _ _).mp hinside.app
    · exact fun ph hph => (path_inside _ _).mp (hinside.path ph hph)
    · exact fun f old image hi =>
        (load_inside_iff (headerSize_lt h _ _) _ _ _ _).mp (hinside.linker f old image hi)
  · intro hfits
    constructor
    · exact (load_inside_iff (headerSize_lt h _ _) _ _ _ _).mpr hfits.app
    · exact fun ph hph => (path_inside _ _).mpr (hfits.path ph hph)
    · exact fun f old image hi =>
        (load_inside_iff (headerSize_lt h _ _) _ _ _ _).mpr (hfits.linker f old image hi)

/-- The interpreter of a program that is started. -/
theorem launch_interpreter (l : Launch k h name) : ∃ f old,
    interpreter l.toOpened = some (f, old, l.image) ∧
    k.resolve (interpPath l.file l.buf h.interpPath) = some f ∧ h.interpHeader = some old := by
  have hlinked := l.loadedInterp
  unfold Heap.loadInterp at hlinked
  rw [if_neg l.interp] at hlinked
  unfold interpreter
  rw [if_neg l.interp, l.loaded]
  cases hfile : k.resolve (interpPath l.file l.buf h.interpPath) with
  | none =>
    rw [hfile] at hlinked
    exact nomatch hlinked
  | some f =>
    cases hold : h.interpHeader with
    | none =>
      rw [hfile, hold] at hlinked
      exact nomatch hlinked
    | some old =>
      rw [hfile, hold] at hlinked
      dsimp only at hlinked
      split_ifs at hlinked with hrefused
      rw [not_or, Nat.not_lt, Bool.not_eq_false] at hrefused
      have hacc : elfAccepts f old = true := by
        rw [elfAccepts, hrefused.2, decide_eq_true hrefused.1]
        rfl
      exact ⟨f, old, if_pos hacc, rfl, rfl⟩

/-- A file whose header table is behind the first 4096 bytes. -/
def farHeaders : File where
  size := 8224
  byte := fun i => ([0x7f, 0x45, 0x4c, 0x46, 1, 1, 1, 0, 0, 0, 0, 0, 0, 0, 0, 0,
    2, 0, 3, 0, 1, 0, 0, 0, 0, 0, 0, 0, 0, 32, 0, 0, 0, 0, 0, 0, 0, 0, 0, 0, 52, 0, 32, 0, 1, 0] :
    List UInt8).getD i 0
  size_lt := by decide

def farKernel : Kernel where
  resolve := fun _ => some farHeaders
  name := []
  space := some emptyProcess
  stack := fun i => some (4096*(i+1))

def farStart : Opened farKernel pieHeap [0x61] where
  file := farHeaders
  old := fun _ => 0
  space := { emptyProcess with executable := some farHeaders }
  resolved := rfl
  header := rfl
  accepted := by decide +kernel
  fresh := rfl

/-- The header is taken from behind the buffer. -/
theorem far_outside : ¬ StartInside farStart := by
  intro hinside
  have hnum : ePhnum (pieHeap.buffers farHeaders fun _ => 0).header = 1 := by decide +kernel
  have hheader := hinside.app.headers 0 (lt_of_lt_of_eq Nat.one_pos hnum.symm) 0 (by decide)
  have hbyte : ¬ u32 (ePhoff (pieHeap.buffers farHeaders fun _ => 0).header+(32*0+0)) <
      (pieHeap.buffers farHeaders fun _ => 0).headerSize := by
    decide +kernel
  exact hbyte hheader

end Starts

end Vlsmc.MetadataBounds
