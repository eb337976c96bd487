import Vlsmc.ByteMemory
import Vlsmc.Fat16Volume

/-!
# The AHCI driver

The port of `ahci.cpp` against a controller that takes its commands from memory: a header in the
command list of the port, a table with the command and the list of memory regions for the data.
The controller is busy for any time and takes any time for a command: how often the registers say
so is an argument. After an error it does nothing more.
-/

set_option autoImplicit false

namespace Vlsmc.AhciDriver
open Vlsmc.ByteMemory Vlsmc.Fat16Volume

section Controller

structure Hba where
  disk : Disk
  clb : ℕ
  fb : ℕ
  interrupts : ℕ
  tfd : ℕ
  sact : ℕ
  ci : ℕ
  busy : ℕ
  left : ℕ
  stopped : Bool
  delays : ℕ → ℕ×ℕ

/-- The regions of a table: address and length. -/
def regions (m : Memory) (a : ℕ) : ℕ → List (ℕ×ℕ)
  | 0 => []
  | n+1 => (read32 m a, read32 m (a+12)%4194304+1)::regions m (a+16) n

/-- Data into the regions, as far as there are regions and data. -/
def scatter : List (ℕ×ℕ) → ℕ → (ℕ → UInt8) → Memory → Memory
  | [], _, _, m => m
  | r::rs, n, data, m => scatter rs (n-r.2) (fun k => data (r.2+k)) (place m r.1 (min r.2 n) data)

/-- Byte `k` of the regions. -/
def gather (m : Memory) : List (ℕ×ℕ) → ℕ → UInt8
  | [], _ => 0
  | r::rs, k => if k < r.2 then m (r.1+k) else gather m rs (k-r.2)

/-- A command as the controller finds it. -/
structure Command where
  length : ℕ
  write : Bool
  type : ℕ
  flags : ℕ
  code : ℕ
  device : ℕ
  lba : ℕ
  count : ℕ
  regions : List (ℕ×ℕ)

def fetch (m : Memory) (clb slot : ℕ) : Command :=
  let h := clb+32*slot
  let t := read32 m (h+8)
  let b (k : ℕ) : ℕ := (m (t+k)).toNat
  { length := (m h).toNat%32
    write := decide ((m h).toNat/64%2 = 1)
    type := b 0
    flags := b 1
    code := b 2
    device := b 7
    lba := b 4+256*b 5+65536*b 6+16777216*b 8+4294967296*b 9+1099511627776*b 10
    count := if b 12+256*b 13 = 0 then 65536 else b 12+256*b 13
    regions := regions m (t+128) (read16 m (h+2)) }

/-- Commands that the disk carries out: both in the mode with 48-bit addresses. -/
def Command.Legal (c : Command) (size : ℕ) : Prop :=
  c.length = 5 ∧ c.type = 0x27 ∧ c.flags = 0x80 ∧ c.device = 0x40 ∧
    c.code = (if c.write then 0x35 else 0x24) ∧ c.lba+c.count ≤ size

instance (c : Command) (size : ℕ) : Decidable (c.Legal size) := inferInstanceAs (Decidable (_ ∧ _))

def writeAll (disk : Disk) (lba count : ℕ) (data : ℕ → UInt8) : Disk :=
  (List.range count).foldl (fun disk s => disk.write (lba+s) fun k => data (512*s+k)) disk

/-- The command of a slot is carried out. -/
def execute (m : Memory) (d : Hba) (slot : ℕ) : Memory×Hba :=
  let c := fetch m d.clb slot
  if c.Legal d.disk.size then
    let d' := { d with ci := d.ci-2^slot, tfd := 0x50 }
    if c.write then (m, { d' with disk := writeAll d.disk c.lba c.count (gather m c.regions) })
    else (scatter c.regions (512*c.count) (fun k => d.disk.data (c.lba+k/512) (k%512)) m, d')
  else (m, { d with stopped := true, tfd := 0x41, interrupts := d.interrupts ||| 2^30 })

/-- Reading the register of issued commands; the driver has at most one at a time. -/
def readCi (m : Memory) (d : Hba) (slot : ℕ) : ℕ×Memory×Hba :=
  if d.ci = 0 ∨ d.stopped then (d.ci, m, d)
  else if 0 < d.left then (d.ci, m, { d with left := d.left-1 })
  else
    let x := execute m d slot
    (x.2.ci, x.1, x.2)

def readTfd (d : Hba) : ℕ×Hba :=
  if 0 < d.busy then (0x80, { d with busy := d.busy-1 }) else (d.tfd, d)

/-- Setting a bit in the register of issued commands. -/
def issue (d : Hba) (slot : ℕ) : Hba :=
  { d with
    ci := d.ci ||| 2^slot
    left := (d.delays 0).1
    busy := (d.delays 0).2
    delays := fun i => d.delays (i+1) }

end Controller

section Driver

/-- The loop of `find_cmdslot`. -/
def findSlot : ℕ → ℕ → ℕ → Option ℕ
  | 0, _, _ => none
  | n+1, i, slots => if slots%2 = 0 then some i else findSlot n (i+1) (slots/2)

def findCmdslot (d : Hba) : Option ℕ := findSlot 32 0 (d.sact ||| d.ci)

def zero256 (m : Memory) (a : ℕ) : Memory := zero m a 256

/-- The header of a command: five words of command, the direction, one region. -/
def writeHeader (m : Memory) (h : ℕ) (w : Bool) : Memory :=
  let flags := (m h).toNat/128*128+(if w then 64 else 0)+5
  write16 (write8 m h (UInt8.ofNat flags)) (h+2) 1

/-- The only region of a command. -/
def writeRegion (m : Memory) (t count buffer : ℕ) : Memory :=
  let m := write32 (write32 m (t+128) buffer) (t+132) 0
  write32 m (t+140) ((count*512+4294967295)%4194304+2147483648)

def writeCommand (m : Memory) (t code lba count : ℕ) : Memory :=
  let m := write8 (write8 (write8 m t 0x27) (t+1) 0x80) (t+2) (UInt8.ofNat code)
  let m := write8 (write8 m (t+4) (UInt8.ofNat lba)) (t+5) (UInt8.ofNat (lba/256))
  let m := write8 (write8 m (t+6) (UInt8.ofNat (lba/65536))) (t+7) 0x40
  let m := write8 (write8 m (t+8) (UInt8.ofNat (lba/16777216))) (t+9) (UInt8.ofNat (lba/4294967296))
  let m := write8 m (t+10) (UInt8.ofNat (lba/1099511627776))
  write8 (write8 m (t+12) (UInt8.ofNat count)) (t+13) (UInt8.ofNat (count/256))

/-- The wait for a port that is not busy: whether the spins were enough. -/
def spin : ℕ → Hba → Bool×Hba
  | 0, d => (false, (readTfd d).2)
  | n+1, d => if (readTfd d).1 &&& 0x88 ≠ 0 then spin n (readTfd d).2 else (true, (readTfd d).2)

def waitDone (slot : ℕ) : ℕ → Memory → Hba → Option (Bool×Memory×Hba)
  | 0, _, _ => none
  | n+1, m, d =>
    let r := readCi m d slot
    if r.1 &&& 2^slot = 0 then some (true, r.2)
    else if r.2.2.interrupts &&& 2^30 ≠ 0 then some (false, r.2)
    else waitDone slot n r.2.1 r.2.2

/-- `AHCIDriver::read` and `write`, which differ in the direction and the code of the command. -/
def transfer (n : ℕ) (w : Bool) (code lba count buffer : ℕ) (m : Memory) (d : Hba) :
    Option (Bool×Memory×Hba) :=
  -- writing ones clears the pending interrupts
  let d := { d with interrupts := 0 }
  match findCmdslot d with
  | none => some (false, m, d)
  | some slot =>
    let m := writeHeader m (d.clb+32*slot) w
    let t := read32 m (d.clb+32*slot+8)
    let m := writeCommand (writeRegion (zero256 m t) t count buffer) t code lba count
    let r := spin 1000000 d
    if r.1 = false then some (false, m, r.2)
    else (waitDone slot n m (issue r.2 slot)).map fun x =>
      if x.1 = false then x
      else (decide ((readTfd x.2.2).1%2 = 0), x.2.1, (readTfd x.2.2).2)

def read (n lba count buffer : ℕ) (m : Memory) (d : Hba) : Option (Bool×Memory×Hba) :=
  transfer n false 0x24 lba count buffer m d

def write (n lba count buffer : ℕ) (m : Memory) (d : Hba) : Option (Bool×Memory×Hba) :=
  transfer n true 0x35 lba count buffer m d

/-- The header of slot `i`, with its table in a frame of 16 tables. -/
def setHeader (m : Memory) (clb table i : ℕ) : Memory :=
  let h := clb+32*i
  write32 (write32 (write16 m (h+2) 8) (h+8) (table+i%16*256)) (h+12) 0

/-- `port_rebase` with the three frames it allocates. -/
def portRebase (frame first second : ℕ) (m : Memory) (d : Hba) : Memory×Hba :=
  let m := zero m frame 4096
  let m := (List.range 16).foldl (fun m i => setHeader m frame first i) (zero m first 4096)
  let m := (List.range 16).foldl (fun m i => setHeader m frame second (16+i)) (zero m second 4096)
  (m, { d with clb := frame, fb := frame+1024 })

end Driver

end Vlsmc.AhciDriver
