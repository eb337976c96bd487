import Vlsmc.Fat16Chains

/-!
# Mounting

`init` reads the boot sector and loads the table, as many entries as the fixed
storage holds. `flush_fat` rewrites every sector of every copy, and fills with
zeros those whose entries were not loaded.
-/

set_option autoImplicit false

namespace Vlsmc.Fat16Mount
open Vlsmc.Fat16Layout Vlsmc.Fat16Volume Vlsmc.Fat16Chains Vlsmc.Fat16Geometry

/-- `bytes_per_sector`. -/
def bytesPerSector (s : Sector) : ℕ := (word16 s 11).toNat

/-- The other fields of `FAT16_BPB` that the driver uses. -/
def bpbOf (s : Sector) : Bpb where
  sectorsPerCluster := s 13
  reservedSectors := word16 s 14
  numFats := s 16
  rootEntryCount := word16 s 17
  fatSize16 := word16 s 22

/-- `fat_table_` and `entry_idx` while the table is loaded. -/
structure Loading where
  table : ℕ → UInt16
  entryIdx : ℕ

/-- One round of the inner loop; from `fatEntries` entries on it does nothing. -/
def loadEntry (fatEntries : ℕ) (s : Sector) (l : Loading) (i : ℕ) : Loading :=
  if l.entryIdx < fatEntries then
    ⟨fun j => if j = l.entryIdx then tableEntry s i else l.table j, l.entryIdx+1⟩
  else l

def loadSector (fatEntries : ℕ) (s : Sector) (l : Loading) : Loading :=
  (List.range 256).foldl (loadEntry fatEntries s) l

/-- The outer loop over `sectors` sectors: whether no read failed, and what was loaded. -/
def loadTable (d : Disk) (start fatEntries : ℕ) (l : Loading) : ℕ → Bool × Loading
  | 0 => (true, l)
  | sectors+1 =>
    match loadTable d start fatEntries l sectors with
    | (false, l) => (false, l)
    | (true, l) =>
      if l.entryIdx < fatEntries then
        match d.read (start+sectors) with
        | none => (false, l)
        | some s => (true, loadSector fatEntries s l)
      else (true, l)

/-- `Fat16::init`. `present` is the answer of `Disk::is_present`, `buffer` says whether
there is a transfer buffer. -/
def init (present buffer : Bool) (v : Volume) : Bool × Volume :=
  if present = false then (false, v)
  else if buffer = false then (false, v)
  else match v.disk.read 0 with
    | none => (false, v)
    | some s =>
      let b := bpbOf s
      if bytesPerSector s ≠ 512 then (false, { v with bpb := b })
      else
        let r := loadTable v.disk b.fatStartLba b.total ⟨v.fatTable, 0⟩ b.fatSectors
        if r.1 = false then (false, { v with bpb := b, fatTable := r.2.table })
        else (true, { v with bpb := b, fatTable := r.2.table, mounted := true })

theorem loadEntries_eq (fatEntries : ℕ) (s : Sector) (l : Loading) (n : ℕ)
    (h : l.entryIdx+n ≤ fatEntries) :
    (List.range n).foldl (loadEntry fatEntries s) l =
      ⟨fun j => if l.entryIdx ≤ j ∧ j < l.entryIdx+n then tableEntry s (j-l.entryIdx)
        else l.table j, l.entryIdx+n⟩ := by
  induction n with
  | zero =>
    cases l
    simp only [List.range_zero, List.foldl_nil, Nat.add_zero, Loading.mk.injEq, and_true]
    funext j
    rw [if_neg (by omega)]
  | succ n ih =>
    rw [List.range_succ, List.foldl_append, ih (by omega), List.foldl_cons, List.foldl_nil,
      loadEntry, if_pos (by dsimp only; omega)]
    simp only [Loading.mk.injEq]
    refine ⟨?_, by omega⟩
    funext j
    by_cases hj : j = l.entryIdx+n
    · rw [if_pos hj, if_pos (by omega), hj, Nat.add_sub_cancel_left]
    · rw [if_neg hj]
      by_cases hj' : l.entryIdx ≤ j ∧ j < l.entryIdx+n
      · rw [if_pos hj', if_pos (by omega)]
      · rw [if_neg hj', if_neg (by omega)]

/-- The table after loading: the entries of the sectors that fit into `fatEntries`,
which is a whole number of sectors. -/
theorem loadTable_spec (d : Disk) (start m : ℕ) (t : ℕ → UInt16) (sectors : ℕ)
    (hd : ∀ s < min sectors m, start+s < d.size) :
    ∃ table, loadTable d start (256*m) ⟨t, 0⟩ sectors = (true, ⟨table, 256*min sectors m⟩) ∧
      ∀ s < min sectors m, ∀ i < 256, table (s*256+i) = tableEntry (d.data (start+s)) i := by
  induction sectors with
  | zero => exact ⟨t, by simp [loadTable], fun s hs => by omega⟩
  | succ n ih =>
    obtain ⟨table, heq, htable⟩ := ih fun s hs => hd s (by omega)
    rw [loadTable, heq]
    by_cases hn : n < m
    · have hmin : min n m = n := by omega
      have hmin' : min (n+1) m = n+1 := by omega
      have hread : d.read (start+n) = some (d.data (start+n)) := by
        rw [Disk.read, if_pos (hd n (by omega))]
      dsimp only
      rw [hmin, if_pos (by omega), hread, hmin']
      dsimp only
      rw [loadSector, loadEntries_eq _ _ _ _ (by dsimp only; omega)]
      refine ⟨_, rfl, ?_⟩
      intro s hs i hi
      dsimp only
      by_cases hsn : s = n
      · rw [if_pos (by omega), hsn]
        exact congrArg _ (by omega)
      · rw [if_neg (by omega)]
        exact htable s (by omega) i hi
    · have hmin : min (n+1) m = min n m := by omega
      dsimp only
      rw [if_neg (by omega), hmin]
      exact ⟨table, rfl, htable⟩

/-- A FAT16 disk: sectors of 512 bytes, the copies of the table on the disk, at least one,
and every copy the same as the first. -/
structure Formatted (d : Disk) : Prop where
  boot : 0 < d.size
  fats : 0 < (bpbOf (d.data 0)).fats
  sectorSize : bytesPerSector (d.data 0) = 512
  onDisk : (bpbOf (d.data 0)).rootDirLba ≤ d.size
  copies : ∀ f < (bpbOf (d.data 0)).fats, ∀ s < (bpbOf (d.data 0)).fatSectors, ∀ k < 512,
    d.data ((bpbOf (d.data 0)).fatStartLba+f*(bpbOf (d.data 0)).fatSectors+s) k =
      d.data ((bpbOf (d.data 0)).fatStartLba+s) k

/-- Every sector of every copy of the table is on `d'` as it is on `d`. -/
def SameTables (b : Bpb) (d d' : Disk) : Prop :=
  ∀ f < b.fats, ∀ s < b.fatSectors, ∀ k < 512,
    d'.data (b.fatStartLba+f*b.fatSectors+s) k = d.data (b.fatStartLba+f*b.fatSectors+s) k

/-- The sectors of the table from the 129th on hold zeros only. -/
def ClearBeyond (b : Bpb) (d : Disk) : Prop :=
  ∀ f < b.fats, ∀ s < b.fatSectors, 128 ≤ s → ∀ k < 512,
    d.data (b.fatStartLba+f*b.fatSectors+s) k = 0

variable {v : Volume}

theorem Formatted.lba_lt (h : Formatted v.disk) {f s : ℕ} (hf : f < (bpbOf (v.disk.data 0)).fats)
    (hs : s < (bpbOf (v.disk.data 0)).fatSectors) :
    (bpbOf (v.disk.data 0)).fatStartLba+f*(bpbOf (v.disk.data 0)).fatSectors+s < v.disk.size :=
  lt_of_lt_of_le (copy_region hf hs).2 h.onDisk

theorem total_eq (b : Bpb) : b.total = 256*min b.fatSectors 128 := by
  unfold Bpb.total Bpb.maxFatEntries
  omega

/-- Mounting succeeds and loads the first 128 sectors of the table. -/
theorem init_spec (h : Formatted v.disk) :
    ∃ table, init true true v =
        (true, { v with bpb := bpbOf (v.disk.data 0), fatTable := table, mounted := true }) ∧
      ∀ s < (bpbOf (v.disk.data 0)).fatSectors, s < 128 → ∀ i < 256,
        table (s*256+i) =
          tableEntry (v.disk.data ((bpbOf (v.disk.data 0)).fatStartLba+s)) i := by
  have hread : v.disk.read 0 = some (v.disk.data 0) := if_pos h.boot
  obtain ⟨table, heq, htable⟩ := loadTable_spec v.disk (bpbOf (v.disk.data 0)).fatStartLba
    (min (bpbOf (v.disk.data 0)).fatSectors 128) v.fatTable (bpbOf (v.disk.data 0)).fatSectors
    (by
      intro s hs
      have := h.lba_lt (f := 0) (s := s) h.fats (by omega)
      omega)
  refine ⟨table, ?_, fun s hs h128 i hi => htable s (by omega) i hi⟩
  unfold init
  rw [if_neg (by simp), if_neg (by simp), hread]
  dsimp only
  rw [if_neg (not_not.mpr h.sectorSize), total_eq, heq]
  rfl

/-- What a flush after mounting leaves in a sector of a copy. -/
theorem flushed_byte (h : Formatted v.disk) {table : ℕ → UInt16}
    (ht : ∀ s < (bpbOf (v.disk.data 0)).fatSectors, s < 128 → ∀ i < 256,
      table (s*256+i) = tableEntry (v.disk.data ((bpbOf (v.disk.data 0)).fatStartLba+s)) i)
    {f s k : ℕ} (hf : f < (bpbOf (v.disk.data 0)).fats)
    (hs : s < (bpbOf (v.disk.data 0)).fatSectors) (hk : k < 512) :
    (Volume.flushFat { v with
        bpb := bpbOf (v.disk.data 0), fatTable := table, mounted := true }).disk.data
      ((bpbOf (v.disk.data 0)).fatStartLba+f*(bpbOf (v.disk.data 0)).fatSectors+s) k =
    if s < 128 then
      v.disk.data ((bpbOf (v.disk.data 0)).fatStartLba+f*(bpbOf (v.disk.data 0)).fatSectors+s) k
    else 0 := by
  rw [flushFat_sector { v with
    bpb := bpbOf (v.disk.data 0), fatTable := table, mounted := true } hf hs (h.lba_lt hf hs)]
  unfold Volume.flushSector Bpb.maxFatEntries
  by_cases h128 : s < 128
  · rw [if_pos h128, h.copies f hf s hs k hk,
      ← tableSector_tableEntry (v.disk.data ((bpbOf (v.disk.data 0)).fatStartLba+s)) k]
    unfold tableSector
    dsimp only
    rw [if_pos (by omega), ht s hs h128 (k/2) (by omega)]
  · rw [if_neg h128, ← tableSector_zero k]
    unfold tableSector
    dsimp only
    rw [if_neg (by omega)]

theorem sameTables_iff (h : Formatted v.disk) :
    SameTables (bpbOf (v.disk.data 0)) v.disk (init true true v).2.flushFat.disk ↔
      ClearBeyond (bpbOf (v.disk.data 0)) v.disk := by
  obtain ⟨table, heq, ht⟩ := init_spec h
  rw [heq]
  constructor
  · intro hsame f hf s hs h128 k hk
    have := hsame f hf s hs k hk
    rwa [flushed_byte h ht hf hs hk, if_neg (by omega), eq_comm] at this
  · intro hclear f hf s hs k hk
    rw [flushed_byte h ht hf hs hk]
    split
    · rfl
    · case isFalse h128 => exact (hclear f hf s hs (by omega) k hk).symm

/-- Mounting and flushing leaves the copies alone exactly when the sectors that were not
loaded are clear. -/
theorem flush_keeps_tables_iff (h : Formatted v.disk) :
    (init true true v).1 = true ∧
      (SameTables (bpbOf (v.disk.data 0)) v.disk (init true true v).2.flushFat.disk ↔
        ClearBeyond (bpbOf (v.disk.data 0)) v.disk) := by
  obtain ⟨table, heq, -⟩ := init_spec h
  exact ⟨by rw [heq], sameTables_iff h⟩

/-- A boot sector with one reserved sector, two copies and tables of `n` sectors. -/
def bootSector (n : UInt8) : Sector := fun k =>
  if k = 12 then 2 else if k = 13 then 1 else if k = 14 then 1 else if k = 16 then 2
  else if k = 22 then n else 0

/-- A disk with tables of `n` sectors, the last of each copy filled with ones. -/
def filledDisk (n : UInt8) : Disk :=
  ⟨1+2*n.toNat, fun l => if l = 0 then bootSector n
    else if l = n.toNat ∨ l = 2*n.toNat then fun _ => 1 else zeroSector⟩

def filledVolume (n : UInt8) : Volume := ⟨bpbOf zeroSector, false, fun _ => 0, filledDisk n⟩

theorem filledDisk_start (n : UInt8) : (bpbOf ((filledDisk n).data 0)).fatStartLba = 1 := rfl

theorem filledDisk_fats (n : UInt8) : (bpbOf ((filledDisk n).data 0)).fats = 2 := rfl

theorem filledDisk_sectors (n : UInt8) :
    (bpbOf ((filledDisk n).data 0)).fatSectors = n.toNat := by
  simp [bpbOf, filledDisk, bootSector, Bpb.fatSectors, word16]

theorem filledDisk_data (n : UInt8) {l : ℕ} (h : 0 < l) : (filledDisk n).data l =
    if l = n.toNat ∨ l = 2*n.toNat then fun _ => 1 else zeroSector := if_neg (by omega)

theorem filledDisk_formatted (n : UInt8) : Formatted (filledDisk n) := by
  have hsize : (filledDisk n).size = 1+2*n.toNat := rfl
  refine ⟨by omega, by rw [filledDisk_fats]; decide, ?_, ?_, ?_⟩
  · simp [bytesPerSector, filledDisk, bootSector, word16]
  · unfold Bpb.rootDirLba
    rw [filledDisk_start, filledDisk_fats, filledDisk_sectors]
    exact le_refl _
  · intro f hf s hs k hk
    rw [filledDisk_start, filledDisk_sectors] at *
    rw [filledDisk_fats] at hf
    interval_cases f
    · rw [Nat.zero_mul, Nat.add_zero]
    · rw [filledDisk_data n (by omega), filledDisk_data n (by omega)]
      by_cases hl : 1+s = n.toNat
      · rw [if_pos (by omega), if_pos (by omega)]
      · rw [if_neg (by omega), if_neg (by omega)]

theorem flush_keeps_tables_small :
    (init true true (filledVolume 128)).1 = true ∧
      (SameTables (bpbOf ((filledDisk 128).data 0)) (filledDisk 128)
          (init true true (filledVolume 128)).2.flushFat.disk ↔
        ClearBeyond (bpbOf ((filledDisk 128).data 0)) (filledDisk 128)) :=
  flush_keeps_tables_iff (v := filledVolume 128) (filledDisk_formatted 128)

/-- With tables of 129 sectors the last sector of each copy is lost. -/
theorem flush_clears_large_table :
    Formatted (filledDisk 129) ∧
      ¬ SameTables (bpbOf ((filledDisk 129).data 0)) (filledDisk 129)
        (init true true (filledVolume 129)).2.flushFat.disk := by
  refine ⟨filledDisk_formatted 129, ?_⟩
  intro hsame
  have hclear := (sameTables_iff (v := filledVolume 129) (filledDisk_formatted 129)).mp hsame
  have hsectors := filledDisk_sectors 129
  have h := hclear 0 (by decide) 128 (hsectors ▸ by decide) (by decide) 0 (by decide)
  rw [show (filledVolume 129).disk = filledDisk 129 from rfl, filledDisk_start,
    filledDisk_data 129 (by omega), if_pos (.inl (by simp))] at h
  cases h

end Vlsmc.Fat16Mount
