import Vlsmc.SuccessorChain
import Vlsmc.Words
import Vlsmc.Fat16Names

/-!
# The FAT16 driver

A volume is the mounted geometry, the in-memory allocation table and the disk
behind it. The shared transfer buffer is loaded immediately before each use,
so it is passed as a value. Loops over a cluster chain may run forever on a
cyclic table: a model function returns `none` exactly when its loop does not
end. Kernel heap requests and clock readings are arguments.
-/

set_option autoImplicit false

namespace Vlsmc.Fat16Volume
open Vlsmc.Fat16Layout Vlsmc.Fat16Names Vlsmc.SuccessorChain Vlsmc.Words

/-- A device that accepts the sectors below `size`. -/
structure Disk where
  size : ℕ
  data : ℕ → Sector

namespace Disk

/-- `Disk::read_sectors(lba, 1, buffer)`. -/
def read (d : Disk) (lba : ℕ) : Option Sector := if lba < d.size then some (d.data lba) else none

/-- A read whose result is not checked; it follows a successful access to the same sector. -/
def load (d : Disk) (lba : ℕ) : Sector := (d.read lba).getD zeroSector

/-- `Disk::write_sectors(lba, 1, buffer)`, whose result no caller checks. -/
def write (d : Disk) (lba : ℕ) (s : Sector) : Disk :=
  if lba < d.size then { d with data := fun l => if l = lba then s else d.data l } else d

def writeAll (d : Disk) : List (ℕ × Sector) → Disk
  | [] => d
  | w::ws => writeAll (d.write w.1 w.2) ws

end Disk

/-- The fields of the boot sector that the driver reads after mounting. -/
structure Bpb where
  sectorsPerCluster : UInt8
  reservedSectors : UInt16
  numFats : UInt8
  rootEntryCount : UInt16
  fatSize16 : UInt16
  deriving DecidableEq

namespace Bpb

def spc (b : Bpb) : ℕ := b.sectorsPerCluster.toNat
def fats (b : Bpb) : ℕ := b.numFats.toNat
def fatSectors (b : Bpb) : ℕ := b.fatSize16.toNat
def fatStartLba (b : Bpb) : ℕ := b.reservedSectors.toNat
def rootDirLba (b : Bpb) : ℕ := b.fatStartLba+b.fats*b.fatSectors
def rootDirSectors (b : Bpb) : ℕ := (b.rootEntryCount.toNat*32+511)/512
def dataStartLba (b : Bpb) : ℕ := b.rootDirLba+b.rootDirSectors

/-- `FAT16_MAX_FAT_ENTRIES`. -/
def maxFatEntries : ℕ := 32768

/-- The number of table entries `alloc_cluster` looks at. -/
def total (b : Bpb) : ℕ := min (b.fatSectors*512/2) maxFatEntries

def clusterToLba (b : Bpb) (cluster : ℕ) : ℕ :=
  u32 (b.dataStartLba+u32 (cluster+4294967294)*b.spc)

def clusterLbas (b : Bpb) (cluster : ℕ) : List ℕ :=
  (List.range b.spc).map fun s => u32 (b.clusterToLba cluster+s)

def rootLbas (b : Bpb) : List ℕ := (List.range b.rootDirSectors).map (b.rootDirLba+·)

end Bpb

structure Volume where
  bpb : Bpb
  mounted : Bool
  fatTable : ℕ → UInt16
  disk : Disk

/-- `RTC::fat_time()` and `RTC::fat_date()`. -/
structure Stamp where
  time : UInt16
  date : UInt16
  deriving DecidableEq

/-- A directory entry on disk: sector and index. -/
abbrev Slot := ℕ × ℕ

def entriesPerSector : ℕ := 16

/-- `cluster >= 2 && cluster < 0xFFF8`. -/
def inChain (c : ℕ) : Bool := 2 ≤ c && c < 0xFFF8

/-- Cluster numbers have 16 bits: a longer read-only walk has repeated a cluster. -/
def chainFuel : ℕ := 65537

namespace Volume

def fat (v : Volume) (c : ℕ) : ℕ := (v.fatTable c).toNat

def setFat (v : Volume) (c w : ℕ) : Volume :=
  { v with fatTable := fun i => if i = c then UInt16.ofNat w else v.fatTable i }

def entryAt (v : Volume) (p : Slot) : DirEntry := getEntry (v.disk.data p.1) p.2

/-- Read the sector of a slot, change the entry, write the sector back. -/
def updateEntry (v : Volume) (p : Slot) (f : DirEntry → DirEntry) : Volume :=
  let s := v.disk.load p.1
  { v with disk := v.disk.write p.1 (setEntry s p.2 (f (getEntry s p.2))) }

/-- The entry as the unchecked read before its use delivers it. -/
def loadEntry (v : Volume) (p : Slot) : DirEntry := getEntry (v.disk.load p.1) p.2

/-- `alloc_cluster`: the first free cluster, or zero. -/
def allocCluster (v : Volume) : ℕ × Volume :=
  match (List.range' 2 (v.bpb.total-2)).find? (fun i => v.fat i = 0) with
  | some i => (i, v.setFat i 0xFFFF)
  | none => (0, v)

/-- The loop of `free_chain`. -/
def freeLoop : ℕ → Volume → ℕ → Option Volume
  | 0, _, _ => none
  | fuel+1, v, c => if inChain c then freeLoop fuel (v.setFat c 0) (v.fat c) else some v

def freeChain (v : Volume) (start : ℕ) : Option Volume := freeLoop chainFuel v start

/-- One sector of the table as `flush_fat` fills it. -/
def flushSector (v : Volume) (s : ℕ) : Sector :=
  tableSector fun i => if s*256+i < Bpb.maxFatEntries then v.fatTable (s*256+i) else 0

def flushWrites (v : Volume) : List (ℕ × Sector) :=
  (List.range v.bpb.fatSectors).flatMap fun s =>
    (List.range v.bpb.fats).map fun f =>
      (v.bpb.fatStartLba+f*v.bpb.fatSectors+s, v.flushSector s)

def flushFat (v : Volume) : Volume := { v with disk := v.disk.writeAll v.flushWrites }

/-- One iteration of the entry loop of `find_dir_entry`: `some r` returns `r`,
`none` goes on with the next entry. -/
def probeEntry (name : List UInt8) (s : Sector) (lba i : ℕ) : Option (Option Slot) :=
  if (getEntry s i).isEnd then some none
  else if (getEntry s i).isDeleted then none
  else if (getEntry s i).attributes &&& attrHiddenMask ≠ 0 then none
  else if matchFilename (getEntry s i) name then some (some (lba,i)) else none

def probeSector (v : Volume) (name : List UInt8) (lba : ℕ) : Option (Option Slot) :=
  match v.disk.read lba with
  | none => none
  | some s => (List.range entriesPerSector).findSome? (probeEntry name s lba)

/-- `find_dir_entry`: `some none` is the return value -1. -/
def findDirEntry (v : Volume) (dir : ℕ) (name : List UInt8) : Option (Option Slot) :=
  if v.mounted = false then some none
  else if dir = 0 then some ((v.bpb.rootLbas.findSome? (v.probeSector name)).getD none)
  else
    match walk v.fat inChain (fun c => (v.bpb.clusterLbas c).findSome? (v.probeSector name))
        chainFuel 0 (dir%65536) with
    | none => none
    | some (.inl r) => some r
    | some (.inr _) => some none

/-- One iteration of the entry loop of `find_free_dir_entry`. -/
def freeEntry (s : Sector) (lba i : ℕ) : Option Slot :=
  if (getEntry s i).isEnd ∨ (getEntry s i).isDeleted then some (lba,i) else none

def freeInSector (v : Volume) (lba : ℕ) : Option Slot :=
  match v.disk.read lba with
  | none => none
  | some s => (List.range entriesPerSector).findSome? (freeEntry s lba)

/-- The writes that clear the sectors of a new directory cluster. -/
def clearWrites (b : Bpb) (cluster : ℕ) : List (ℕ × Sector) :=
  (b.clusterLbas cluster).map fun lba => (lba, zeroSector)

/-- The end of `find_free_dir_entry`: a full subdirectory gets a new cluster. -/
def extendDir (v : Volume) (prev : ℕ) : Option Slot × Volume :=
  match v.allocCluster with
  | (0, v1) => (none, v1)
  | (c, v1) =>
    let v2 := (v1.setFat prev c).flushFat
    (some (v.bpb.clusterToLba c, 0),
      { v2 with disk := v2.disk.writeAll (clearWrites v.bpb c) })

def findFreeDirEntry (v : Volume) (dir : ℕ) : Option (Option Slot × Volume) :=
  if v.mounted = false then some (none, v)
  else if dir = 0 then some (v.bpb.rootLbas.findSome? v.freeInSector, v)
  else
    match walk v.fat inChain (fun c => (v.bpb.clusterLbas c).findSome? v.freeInSector)
        chainFuel (dir%65536) (dir%65536) with
    | none => none
    | some (.inl p) => some (some p, v)
    | some (.inr prev) => some (v.extendDir prev)

end Volume

end Vlsmc.Fat16Volume
