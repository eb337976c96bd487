import Vlsmc.ByteMemory

/-!
# The boot loader

`bootloader.asm` and `stage2.asm` up to the jump to the kernel. Registers are numbers below 65536;
the boot sector with its parameter block is in memory at 0x7C00. A disk is its sectors; the
firmware reads one sector by cylinder, head and sector.
-/

set_option autoImplicit false

namespace Vlsmc.BootLoader
open Vlsmc.ByteMemory

section Firmware

/-- Service 2 of interrupt 0x13 on a disk of 80 cylinders, 2 heads and 18 sectors a track. -/
def int13 (disk : ℕ → Memory) (ch cl dh : ℕ) : Option Memory :=
  let cylinder := ch+256*(cl/64)
  let sector := cl%64
  if 1 ≤ sector ∧ sector ≤ 18 ∧ dh < 2 ∧ cylinder < 80 then
    some (disk ((cylinder*2+dh)*18+(sector-1)))
  else none

end Firmware

section Parameters

def sectorsPerCluster (m : Memory) : ℕ := (m 0x7C0D).toNat
def reservedSectors (m : Memory) : ℕ := read16 m 0x7C0E
def numberOfFATs (m : Memory) : ℕ := (m 0x7C10).toNat
def rootEntries (m : Memory) : ℕ := read16 m 0x7C11
def totalSectors (m : Memory) : ℕ := read16 m 0x7C13
def sectorsPerFAT (m : Memory) : ℕ := read16 m 0x7C16
def sectorsPerTrack (m : Memory) : ℕ := read16 m 0x7C18
def headsPerCylinder (m : Memory) : ℕ := read16 m 0x7C1A

end Parameters

section Routines

variable (disk : ℕ → Memory)

/-- One sector: the address in cylinder, head and sector, and the call of the firmware. -/
def readSector (m : Memory) (lba es bx : ℕ) : Option Memory :=
  let cl := (lba%sectorsPerTrack m+1)%256
  let track := lba/sectorsPerTrack m
  let ch := track/headsPerCylinder m%256
  let dh := track%headsPerCylinder m%256
  (int13 disk ch cl dh).map fun sector => place m (es*16+bx) 512 sector

/-- The loop of `read_sectors`, which stage 1 has as `rdsec`. -/
def readLoop : ℕ → ℕ → ℕ → Memory → Option Memory
  | 0, _, _, m => some m
  | cx+1, ax, bx, m =>
    (readSector disk m ax 0 bx).bind fun m => readLoop cx ((ax+1)%65536) ((bx+512)%65536) m

/-- A count of zero runs the loop 65536 times. -/
def rounds (cx : ℕ) : ℕ := if cx = 0 then 65536 else cx

def readSectors (ax cx bx : ℕ) (m : Memory) : Option Memory := readLoop disk (rounds cx) ax bx m

/-- Whether the 11 bytes at `di` are a name. -/
def sameName (m : Memory) (name : List ℕ) (di : ℕ) : Prop :=
  ∀ k < 11, (m (di+k)).toNat = name.getD k 0

instance (m : Memory) (name : List ℕ) (di : ℕ) : Decidable (sameName m name di) :=
  inferInstanceAs (Decidable (∀ k < 11, _))

/-- The search in the entries from `di` on. -/
def search (m : Memory) (name : List ℕ) : ℕ → ℕ → Option ℕ
  | 0, _ => none
  | cx+1, di => if sameName m name di then some di else search m name cx ((di+32)%65536)

end Routines

section Loader

variable (disk : ℕ → Memory)

def rootLba (m : Memory) : ℕ := (numberOfFATs m*sectorsPerFAT m+reservedSectors m)%65536

def rootSize (m : Memory) : ℕ := rootEntries m/16

/-- The error messages of the two stages. -/
inductive Failure
  | diskErr
  | noStage2
  | notFound
  | badCluster
  | lbaErr
  | chainErr
  | badMagic
deriving DecidableEq

/-- `STAGE2  BIN`. -/
def stage2Name : List ℕ := [83, 84, 65, 71, 69, 50, 32, 32, 66, 73, 78]

/-- `KERNEL  BIN`. -/
def kernelName : List ℕ := [75, 69, 82, 78, 69, 76, 32, 32, 66, 73, 78]

/-- Stage 1 up to its jump. -/
def stage1 (m : Memory) : Except Failure Memory :=
  match readSectors disk (rootLba m) (rootSize m) 0x7E00 m with
  | none => .error .diskErr
  | some m =>
    match search m stage2Name (rounds (rootEntries m)) 0x7E00 with
    | none => .error .noStage2
    | some di =>
      let ax := (read16 m (di+26)+65534+rootLba m+rootSize m)%65536
      match readSectors disk ax 8 0x8000 m with
      | none => .error .diskErr
      | some m => .ok m

def fatBuf : ℕ := 0x2000

def fat12Next (m : Memory) (ax : ℕ) : ℕ :=
  let word := read16 m (fatBuf+(ax/2+ax)%65536)
  if ax%2 = 1 then word/16 else word%4096

def dataLba (m : Memory) : ℕ := (rootLba m+rootSize m)%65536

/-- The loop that loads the kernel: the memory and the number of sectors. -/
def loadLoop : ℕ → ℕ → ℕ → ℕ → Memory → Option (Except Failure (Memory×ℕ))
  | 0, _, _, _, _ => none
  | n+1, cluster, es, bp, m =>
    if 0x0FF8 ≤ cluster then some (.ok (m, bp))
    else if cluster < 2 then some (.error .chainErr)
    else if 0x0FF0 ≤ cluster then some (.error .chainErr)
    else
      let ax := ((cluster-2)*sectorsPerCluster m+dataLba m)%65536
      if totalSectors m ≤ ax then some (.error .lbaErr)
      else
        match readSector disk m ax es 0 with
        | none => some (.error .diskErr)
        | some m => loadLoop n (fat12Next m cluster) ((es+0x20)%65536) ((bp+1)%65536) m

/-- Stage 2 up to its switch of the mode. -/
def stage2 (n : ℕ) (m : Memory) : Option (Except Failure (Memory×ℕ)) :=
  match readSectors disk (reservedSectors m) (sectorsPerFAT m) fatBuf m with
  | none => some (.error .diskErr)
  | some m =>
    match search m kernelName (rounds (rootEntries m)) 0x7E00 with
    | none => some (.error .notFound)
    | some di =>
      let cluster := read16 m (di+26)
      if cluster < 2 ∨ 0x0FF0 ≤ cluster then some (.error .badCluster)
      else (loadLoop disk n cluster 0x1000 0 m).map fun r =>
        r.bind fun x => if read16 x.1 0x7DFE = 0xAA55 then .ok x else .error .badMagic

def boot (n : ℕ) (m : Memory) : Option (Except Failure (Memory×ℕ)) :=
  match stage1 disk m with
  | .error e => some (.error e)
  | .ok m => stage2 disk n m

end Loader

end Vlsmc.BootLoader
