import Vlsmc.Fat16Volume

/-!
# Files and directories of the FAT16 driver

The vnode operations of the driver. A directory is passed by the inode number
of its vnode: zero is the root directory, any other number is a first cluster.
Operations that return an `int` status are modelled with `true` for zero and
`false` for -1.
-/

set_option autoImplicit false

namespace Vlsmc.Fat16Files
open Vlsmc.Fat16Layout Vlsmc.Fat16Names Vlsmc.Fat16Volume
open Vlsmc.Words

/-- The transfer buffer of one data sector: `count` bytes, then zeros. -/
def block (data : List UInt8) (pos count : ℕ) : Sector :=
  fun b => if b < count then data.getD (pos+b) 0 else 0

/-- The sector loop of `write_file_in_dir` over one cluster. -/
def fillSectors (data : List UInt8) (lba : ℕ) : ℕ → ℕ → Disk → ℕ → Disk × ℕ
  | 0, _, d, written => (d, written)
  | n+1, s, d, written =>
    if written < data.length then
      let count := if data.length < u32 (written+512) then data.length-written else 512
      fillSectors data lba n (s+1) (d.write (u32 (lba+s)) (block data written count))
        (u32 (written+count))
    else (d, written)

/-- The cluster loop of `write_file_in_dir`. The result is the first cluster,
or `none` after the disk turned out to be full. -/
def storeLoop (data : List UInt8) :
    ℕ → Volume → ℕ → ℕ → ℕ → Option (Option ℕ × Volume)
  | 0, _, _, _, _ => none
  | fuel+1, v, first, prev, written =>
    if written < data.length then
      match v.allocCluster with
      | (0, v1) => do
        let v2 ← if first = 0 then some v1 else v1.freeChain first
        return (none, v2.flushFat)
      | (c, v1) =>
        let v2 := if prev = 0 then v1 else v1.setFat prev c
        let r := fillSectors data (v.bpb.clusterToLba c) v.bpb.spc 0 v2.disk written
        storeLoop data fuel { v2 with disk := r.1 } (if first = 0 then c else first) c r.2
    else some (some first, v)

/-- Every round takes a free cluster, so this many rounds are enough. -/
def storeFuel : ℕ := 32769

/-- Remove the entry that is being replaced: `some none` refuses because of
`FAT_ATTR_PROTECT_MODIFY`. -/
def dropOld (v : Volume) (dir : ℕ) (name : List UInt8) : Option (Option Volume) := do
  match ← v.findDirEntry dir name with
  | none => return some v
  | some p =>
    if (v.loadEntry p).attributes &&& attrProtectModify ≠ 0 then return none
    else
      let v1 ← if 2 ≤ (v.loadEntry p).cluster then v.freeChain (v.loadEntry p).cluster
        else some v
      return some (v1.updateEntry p DirEntry.markDeleted)

/-- The fields a new entry gets; nothing of the old slot survives. -/
def freshEntry (attributes : UInt8) (name : List UInt8) (first size : ℕ) (now : Stamp)
    (e : DirEntry) : DirEntry :=
  { format83Name name e with
    attributes := attributes
    reserved := fun _ => 0
    time := now.time
    date := now.date
    firstCluster := UInt16.ofNat first
    fileSize := UInt32.ofNat size }

/-- The end of `write_file_in_dir`: find a slot for the entry and fill it. -/
def linkFile (v : Volume) (dir : ℕ) (name : List UInt8) (first size : ℕ) (now : Stamp) :
    Option (Bool × Volume) := do
  match ← v.findFreeDirEntry dir with
  | (none, v1) => return (false, v1)
  | (some p, v1) => return (true, v1.updateEntry p (freshEntry attrArchive name first size now))

def writeFileInDir (v : Volume) (dir : ℕ) (name data : List UInt8) (now : Stamp) :
    Option (Bool × Volume) :=
  if v.mounted = false then some (false, v) else do
    match ← dropOld v dir name with
    | none => return (false, v)
    | some v1 =>
      match ← storeLoop data storeFuel v1 0 0 0 with
      | (none, v2) => return (false, v2)
      | (some first, v2) => linkFile v2.flushFat dir name first data.length now

def fat16Unlink (v : Volume) (dir : ℕ) (name : List UInt8) : Option (Bool × Volume) :=
  if v.mounted = false then some (false, v) else do
    match ← v.findDirEntry dir name with
    | none => return (false, v)
    | some p =>
      if (v.loadEntry p).attributes &&& attrProtectDelete ≠ 0 then return (false, v)
      else if 2 ≤ (v.loadEntry p).cluster then
        let v1 ← (v.updateEntry p DirEntry.markDeleted).freeChain (v.loadEntry p).cluster
        return (true, v1.flushFat)
      else return (true, v.updateEntry p DirEntry.markDeleted)

/-- An entry `.` or `..`: the given base name and spaces. -/
def dotEntry (base : List UInt8) (cluster : ℕ) : DirEntry where
  name := padded 8 base
  ext := padded 3 []
  attributes := attrDirectory
  reserved := fun _ => 0
  time := 0
  date := 0
  firstCluster := UInt16.ofNat cluster
  fileSize := 0

def dotSector (cluster parent : ℕ) : Sector :=
  setEntry (setEntry zeroSector 0 (dotEntry [dot] cluster)) 1 (dotEntry [dot, dot] parent)

/-- The writes that give a new directory its `.` and `..` and clear the rest. -/
def newDirWrites (b : Bpb) (cluster parent : ℕ) : List (ℕ × Sector) :=
  (b.clusterToLba cluster, dotSector cluster parent)::
    (List.range' 1 (b.spc-1)).map fun s => (u32 (b.clusterToLba cluster+s), zeroSector)

def fat16Mkdir (v : Volume) (dir : ℕ) (name : List UInt8) (now : Stamp) :
    Option (Bool × Volume) :=
  if v.mounted = false then some (false, v) else do
    match ← v.findDirEntry dir name with
    | some _ => return (false, v)
    | none =>
      match ← v.findFreeDirEntry dir with
      | (none, v1) => return (false, v1)
      | (some p, v1) =>
        match v1.allocCluster with
        | (0, v2) => return (false, v2)
        | (c, v2) =>
          let v3 := (v2.updateEntry p (freshEntry attrDirectory name c 0 now)).flushFat
          return (true, { v3 with disk := v3.disk.writeAll (newDirWrites v3.bpb c dir) })

/-- The two changes of `fat16_rename`, in one write when the sectors coincide. -/
def moveEntry (v : Volume) (old new : Slot) (moved : DirEntry) : Volume :=
  if old.1 = new.1 then
    let s := v.disk.load new.1
    let s1 := setEntry s old.2 (getEntry s old.2).markDeleted
    { v with disk := v.disk.write new.1 (setEntry s1 new.2 moved) }
  else (v.updateEntry old DirEntry.markDeleted).updateEntry new (fun _ => moved)

def fat16Rename (v : Volume) (oldDir : ℕ) (oldName : List UInt8) (newDir : ℕ)
    (newName : List UInt8) : Option (Bool × Volume) :=
  if v.mounted = false then some (false, v) else do
    match ← v.findDirEntry oldDir oldName with
    | none => return (false, v)
    | some old =>
      match ← v.findDirEntry newDir newName with
      | some _ => return (false, v)
      | none =>
        match ← v.findFreeDirEntry newDir with
        | (none, v1) => return (false, v1)
        | (some new, v1) =>
          return (true, (moveEntry v1 old new (format83Name newName (v1.loadEntry old))).flushFat)

inductive VnodeType
  | file
  | directory
  deriving DecidableEq, Repr

/-- The fields of a FAT16 vnode; `nodeData` holds the name and the parent's
inode number, and is missing for the root. -/
structure Vnode where
  type : VnodeType
  size : ℕ
  inodeNum : ℕ
  nodeData : Option (List UInt8 × ℕ)
  deriving DecidableEq

def entryType (e : DirEntry) : VnodeType := if e.isDirectory then .directory else .file

/-- `kmallocOk` says whether the kernel heap grants the vnode. -/
def fat16Lookup (kmallocOk : Bool) (v : Volume) (dir : ℕ) (name : List UInt8) :
    Option (Option Vnode) := do
  match ← v.findDirEntry dir name with
  | none => return none
  | some p =>
    if kmallocOk then
      return some {
        type := entryType (v.loadEntry p)
        size := (v.loadEntry p).fileSize.toNat
        inodeNum := (v.loadEntry p).cluster
        nodeData := some (name.take 12, dir) }
    else return none

/-- The sector loop of `fat16_read` over one cluster: the buffer and the file
offset of the next sector, or the buffer as it is when a disk read fails. -/
def readSectors (d : Disk) (lba offset want : ℕ) :
    ℕ → ℕ → List UInt8 → ℕ → Except (List UInt8) (List UInt8 × ℕ)
  | 0, _, buf, cur => .ok (buf, cur)
  | n+1, s, buf, cur =>
    if buf.length < want then
      match d.read (u32 (lba+s)) with
      | none => .error buf
      | some sec =>
        if cur < offset ∧ 512 ≤ offset-cur then
          readSectors d lba offset want n (s+1) buf (u32 (cur+512))
        else
          let start := if cur < offset then offset-cur else 0
          let count := if want < u32 (buf.length+(512-start)) then want-buf.length else 512-start
          readSectors d lba offset want n (s+1)
            (buf++(List.range count).map fun b => sec (start+b)) (u32 (cur+512))
    else .ok (buf, cur)

/-- The loops of `fat16_read` change a 16-bit cluster and two 32-bit counters. -/
def readFuel : ℕ := 2^80+1

def readLoop (v : Volume) (offset want : ℕ) :
    ℕ → ℕ → List UInt8 → ℕ → Option (ℤ × List UInt8)
  | 0, _, _, _ => none
  | fuel+1, c, buf, cur =>
    if buf.length < want ∧ inChain c then
      match readSectors v.disk (v.bpb.clusterToLba c) offset want v.bpb.spc 0 buf cur with
      | .error b => some (-1, b)
      | .ok (b, n) => readLoop v offset want fuel (v.fat c) b n
    else some (toInt32 buf.length, buf)

/-- The seek loop of `fat16_read`. -/
def seekLoop (v : Volume) (offset : ℕ) : ℕ → ℕ → ℕ → Option (ℕ × ℕ)
  | 0, _, _ => none
  | fuel+1, c, cur =>
    if inChain c ∧ u32 (cur+v.bpb.spc*512) ≤ offset then
      seekLoop v offset fuel (v.fat c) (u32 (cur+v.bpb.spc*512))
    else some (c, cur)

/-- The part of `fat16_read` after the entry has been found. -/
def readEntry (v : Volume) (e : DirEntry) (offset size : ℕ) : Option (ℤ × List UInt8) :=
  if e.fileSize.toNat ≤ offset then some (0, [])
  else
    let want := if e.fileSize.toNat < u32 (offset+size) then e.fileSize.toNat-offset else size
    match seekLoop v offset readFuel e.cluster 0 with
    | none => none
    | some (c, cur) =>
      if inChain c then readLoop v offset want readFuel c [] cur else some (0, [])

/-- `fat16_read`: the return value and the bytes stored in the buffer. -/
def fat16Read (v : Volume) (vn : Vnode) (offset size : ℕ) : Option (ℤ × List UInt8) :=
  if v.mounted = false then some (-1, [])
  else if vn.type ≠ .file then some (-1, [])
  else
    match vn.nodeData with
    | none => some (-1, [])
    | some (name, parent) =>
      match v.findDirEntry parent name with
      | none => none
      | some none => some (-1, [])
      | some (some p) => readEntry v (v.loadEntry p) offset size

/-- `fat16_write` ignores its offset and replaces the whole file. -/
def fat16Write (v : Volume) (vn : Vnode) (_offset : ℕ) (data : List UInt8) (now : Stamp) :
    Option (ℤ × Volume) :=
  if v.mounted = false then some (-1, v)
  else
    match vn.nodeData with
    | none => some (-1, v)
    | some (name, parent) => do
      match ← writeFileInDir v parent name data now with
      | (true, v1) => return (toInt32 data.length, v1)
      | (false, v1) => return (-1, v1)

def fat16Create (kmallocOk : Bool) (v : Volume) (dir : ℕ) (name : List UInt8) (now : Stamp) :
    Option (Option Vnode × Volume) := do
  match ← writeFileInDir v dir name [] now with
  | (false, v1) => return (none, v1)
  | (true, v1) => return (← fat16Lookup kmallocOk v1 dir name, v1)

end Vlsmc.Fat16Files
