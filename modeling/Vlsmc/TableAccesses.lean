import Vlsmc.ChainTermination
import Vlsmc.FirstFit

/-!
# Where the table is accessed

The driver keeps 32768 table entries and follows cluster numbers up to 0xFFF7, and `init` divides
by a field that it has not checked. Below, `init` with that division, and the indices at which six
functions access the table.
-/

set_option autoImplicit false

namespace Vlsmc.TableAccesses
open Vlsmc.Fat16Layout Vlsmc.Fat16Names Vlsmc.Fat16Volume Vlsmc.Fat16Mount Vlsmc.Words
open Vlsmc.SuccessorChain Vlsmc.ChainLoops Vlsmc.ChainCalls Vlsmc.ChainListings
open Vlsmc.ChainTermination Vlsmc.DirectoryEdits Vlsmc.FirstFit
open Vlsmc.Fat16Files hiding readEntry fat16Read

section Mounting

/-- `total_sectors`. -/
def totalSectors (s : Sector) : ℕ :=
  if word16 s 19 ≠ 0 then (word16 s 19).toNat else (word32 s 32).toNat

/-- An unsigned division; `none` when it is by zero. -/
def divided (a b : ℕ) : Option ℕ := if b = 0 then none else some (a/b)

/-- `Fat16::init` with the computation at its end, whose result is discarded: `none` when it
divides by zero. -/
def mount (present buffer : Bool) (v : Volume) : Option (Bool × Volume) :=
  match init present buffer v with
  | (false, w) => some (false, w)
  | (true, w) =>
    let dataSectors := u32 (totalSectors (v.disk.data 0)+4294967296-w.bpb.dataStartLba)
    (divided dataSectors w.bpb.spc).map fun _totalClusters => (true, w)

/-- The boot sector and the sectors of the table that are loaded can be read, and the size of a
sector is 512 bytes. -/
def Loads (d : Disk) : Prop :=
  0 < d.size ∧ bytesPerSector (d.data 0) = 512 ∧
    ∀ s < min (bpbOf (d.data 0)).fatSectors 128, (bpbOf (d.data 0)).fatStartLba+s < d.size

theorem loadTable_reads (d : Disk) (start m : ℕ) (t : ℕ → UInt16) (sectors : ℕ)
    (h : (loadTable d start (256*m) ⟨t, 0⟩ sectors).1 = true) :
    ∀ s < min sectors m, start+s < d.size := by
  induction sectors with
  | zero => intro s hs; omega
  | succ n ih =>
    rw [loadTable] at h
    have hbefore : (loadTable d start (256*m) ⟨t, 0⟩ n).1 = true := by
      by_contra hfail
      cases hl : loadTable d start (256*m) ⟨t, 0⟩ n with
      | mk ok l =>
        rw [hl] at h hfail
        cases ok with
        | true => exact hfail rfl
        | false => cases h
    obtain ⟨table, heq, -⟩ := loadTable_spec d start m t n (ih hbefore)
    rw [heq] at h
    dsimp only at h
    intro s hs
    by_cases hsn : s < min n m
    · exact ih hbefore s hsn
    · obtain rfl : s = n := by omega
      rw [if_pos (by omega)] at h
      by_contra hout
      rw [Disk.read, if_neg hout] at h
      cases h

/-- `init` succeeds with a disk, a buffer and sectors that it can read. -/
theorem init_iff (present buffer : Bool) (v : Volume) :
    (init present buffer v).1 = true ↔ present = true ∧ buffer = true ∧ Loads v.disk := by
  by_cases hp : present = false
  · simp [init, hp]
  by_cases hb : buffer = false
  · simp [init, hp, hb]
  obtain rfl : present = true := by simpa using hp
  obtain rfl : buffer = true := by simpa using hb
  by_cases hsize : 0 < v.disk.size
  · rw [init, if_neg hp, if_neg hb, Disk.read, if_pos hsize]
    dsimp only
    by_cases hbytes : bytesPerSector (v.disk.data 0) = 512
    · rw [if_neg (not_not.mpr hbytes), total_eq]
      have hload : (loadTable v.disk (bpbOf (v.disk.data 0)).fatStartLba
          (256*min (bpbOf (v.disk.data 0)).fatSectors 128) ⟨v.fatTable, 0⟩
          (bpbOf (v.disk.data 0)).fatSectors).1 = true ↔
          ∀ s < min (bpbOf (v.disk.data 0)).fatSectors 128,
            (bpbOf (v.disk.data 0)).fatStartLba+s < v.disk.size := by
        constructor
        · intro h s hs
          exact loadTable_reads _ _ _ _ _ h s (by omega)
        · intro h
          obtain ⟨table, heq, -⟩ := loadTable_spec v.disk (bpbOf (v.disk.data 0)).fatStartLba
            (min (bpbOf (v.disk.data 0)).fatSectors 128) v.fatTable
            (bpbOf (v.disk.data 0)).fatSectors fun s hs => h s (by omega)
          rw [heq]
      simp only [Loads, hsize, hbytes, true_and, ← hload]
      split_ifs with hfail
      · simp [hfail]
      · simpa using hfail
    · simp [Loads, hbytes]
  · simp [init, Disk.read, hsize, Loads]

theorem init_volume {present buffer : Bool} {v : Volume} (h : (init present buffer v).1 = true) :
    (init present buffer v).2.bpb = bpbOf (v.disk.data 0) ∧
      (init present buffer v).2.mounted = true ∧ (init present buffer v).2.disk = v.disk := by
  obtain ⟨rfl, rfl, hsize, -⟩ := (init_iff present buffer v).mp h
  rw [init, if_neg (by decide), if_neg (by decide), Disk.read, if_pos hsize] at h ⊢
  dsimp only at h ⊢
  split_ifs at h ⊢
  exact ⟨rfl, rfl, rfl⟩

end Mounting

section Accesses

variable (fuel : ℕ) (v : Volume)

def findAccesses (dir : ℕ) (name : List UInt8) : List ℕ :=
  if v.mounted = false then []
  else if dir = 0 then []
  else walkVisits v.fat inChain (fun c => (v.bpb.clusterLbas c).findSome? (v.probeSector name))
    fuel (dir%65536)

/-- `alloc_cluster` looks at the entries up to the first free one. -/
def allocAccesses : List ℕ :=
  let entries := List.range' 2 (v.bpb.total-2)
  entries.take (entries.findIdx (fun i => v.fat i = 0)+1)

/-- `flush_fat` takes zeros for the entries that it does not have. -/
def flushAccesses : List ℕ :=
  (List.range (v.bpb.fatSectors*256)).filter fun i => i < Bpb.maxFatEntries

/-- `find_free_dir_entry`: the walk, and the link to a new cluster. -/
def findFreeAccesses (dir : ℕ) : List ℕ :=
  if v.mounted = false then []
  else if dir = 0 then []
  else
    let body := fun c => (v.bpb.clusterLbas c).findSome? v.freeInSector
    walkVisits v.fat inChain body fuel (dir%65536)++
      match walk v.fat inChain body fuel (dir%65536) (dir%65536) with
      | some (.inr prev) =>
        allocAccesses v++
          match v.allocCluster with
          | (0, _) => []
          | (_, v1) => prev::flushAccesses v1
      | _ => []

def readdirAccesses (dir maxEntries : ℕ) : List ℕ :=
  if v.mounted = false then []
  else if dir = 0 then []
  else (listLoop v maxEntries).visits fuel (dir%65536) []

/-- `fat16_read` after the entry has been found: the seek loop and the read loop. -/
def entryAccesses (e : DirEntry) (offset size : ℕ) : List ℕ :=
  if e.fileSize.toNat ≤ offset then []
  else
    let want := if e.fileSize.toNat < u32 (offset+size) then e.fileSize.toNat-offset else size
    (seeking v offset).visits fuel e.cluster 0++
      match seekLoop v offset fuel e.cluster 0 with
      | none => []
      | some (c, cur) =>
        if inChain c then (reading v offset want).visits fuel c ([], cur) else []

def readAccesses (vn : Vnode) (offset size : ℕ) : List ℕ :=
  if v.mounted = false then []
  else if vn.type ≠ .file then []
  else
    match vn.nodeData with
    | none => []
    | some (name, parent) =>
      findAccesses fuel v parent name++
        match findDirEntry fuel v parent name with
        | some (some p) => entryAccesses fuel v (v.loadEntry p) offset size
        | _ => []

/-- `write_file_in_dir` while it drops the old entry; `free_chain` accesses what it clears. -/
def dropAccesses (p : Slot) : List ℕ :=
  if (v.loadEntry p).attributes &&& attrProtectModify ≠ 0 then []
  else if 2 ≤ (v.loadEntry p).cluster then chainFrom chainFuel v (v.loadEntry p).cluster
  else []

/-- The cluster loop of `write_file_in_dir`. -/
def storeAccesses (data : List UInt8) : ℕ → Volume → ℕ → ℕ → ℕ → List ℕ
  | 0, _, _, _, _ => []
  | fuel+1, v, first, prev, written =>
    if written < data.length then
      allocAccesses v++
        match v.allocCluster with
        | (0, v1) => (if first = 0 then [] else chainFrom chainFuel v1 first)++flushAccesses v1
        | (c, v1) =>
          let v2 := if prev = 0 then v1 else v1.setFat prev c
          let r := fillSectors data (v.bpb.clusterToLba c) v.bpb.spc 0 v2.disk written
          (if prev = 0 then [] else [prev])++
            storeAccesses data fuel { v2 with disk := r.1 } (if first = 0 then c else first) c r.2
    else []

def writeAccesses (dir : ℕ) (name data : List UInt8) : List ℕ :=
  if v.mounted = false then []
  else
    findAccesses fuel v dir name++
      match findDirEntry fuel v dir name with
      | none => []
      | some found =>
        (found.elim [] fun p => dropAccesses v p)++
          match dropOld v dir name with
          | some (some v1) =>
            storeAccesses data storeFuel v1 0 0 0++
              match storeLoop data storeFuel v1 0 0 0 with
              | some (some _, v2) => flushAccesses v2++findFreeAccesses fuel v2.flushFat dir
              | _ => []
          | _ => []

end Accesses

/-- The calls that index the table. -/
inductive TableCall
  | findDirEntry (dir : ℕ) (name : List UInt8)
  | findFreeDirEntry (dir : ℕ)
  | read (vn : Vnode) (offset size : ℕ)
  | readdir (dir maxEntries : ℕ)
  | freeChain (start : ℕ)
  | writeFileInDir (dir : ℕ) (name data : List UInt8)

/-- The indices of a call, within that many rounds of its loops. -/
def TableCall.indices (fuel : ℕ) (v : Volume) : TableCall → List ℕ
  | .findDirEntry dir name => findAccesses fuel v dir name
  | .findFreeDirEntry dir => findFreeAccesses fuel v dir
  | .read vn offset size => readAccesses fuel v vn offset size
  | .readdir dir maxEntries => readdirAccesses fuel v dir maxEntries
  | .freeChain start => chainFrom fuel v start
  | .writeFileInDir dir name data => writeAccesses fuel v dir name data

/-- The call accesses the table at this index. -/
def TableCall.Accesses (v : Volume) (c : TableCall) (i : ℕ) : Prop := ∃ fuel, i ∈ c.indices fuel v

end Vlsmc.TableAccesses
