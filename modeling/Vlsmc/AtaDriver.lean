import Vlsmc.ByteMemory
import Vlsmc.Fat16Volume

/-!
# The ATA driver

`ata.cpp` against a drive that speaks the PIO protocol with 28-bit addresses. The drive
takes any time for its work: how often the status is read busy, and how often then not
ready, is an argument. Before it is ready it ignores its registers and its data port.
A buffer is the memory from its address on.
-/

set_option autoImplicit false

namespace Vlsmc.AtaDriver
open Vlsmc.ByteMemory Vlsmc.Fat16Volume

section Drive

/-- A sector in transfer with the sectors left, it included, and the next word of it. -/
inductive Transfer
  | idle
  | reading (lba left word : ℕ)
  | writing (lba left word : ℕ)
  | identifying (word : ℕ)
deriving DecidableEq

structure Drive where
  disk : Disk
  select : ℕ
  secCount : ℕ
  lbaLo : ℕ
  lbaMid : ℕ
  lbaHi : ℕ
  transfer : Transfer
  failed : Bool
  /-- The sector that is written. -/
  buffer : Memory
  busy : ℕ
  lag : ℕ
  delays : ℕ → ℕ×ℕ

def ataSrBsy : ℕ := 0x80
def ataSrDrq : ℕ := 0x08
def ataSrErr : ℕ := 0x01

namespace Drive

/-- The drive sets about its next piece of work. -/
def work (d : Drive) (t : Transfer) : Drive :=
  { d with
    transfer := t
    busy := (d.delays 0).1
    lag := (d.delays 0).2
    delays := fun i => d.delays (i+1) }

def nextRead (d : Drive) (lba left : ℕ) : Drive :=
  if left = 0 then { d with transfer := .idle }
  else if lba < d.disk.size then d.work (.reading lba left 0)
  else { d.work .idle with failed := true }

def nextWrite (d : Drive) (lba left : ℕ) : Drive :=
  if left = 0 then d.work .idle
  else if lba < d.disk.size then d.work (.writing lba left 0)
  else { d.work .idle with failed := true }

def lba (d : Drive) : ℕ := d.lbaLo+256*d.lbaMid+65536*d.lbaHi+16777216*(d.select%16)

/-- A count of zero stands for 256. -/
def count (d : Drive) : ℕ := if d.secCount = 0 then 256 else d.secCount

def command (d : Drive) (c : ℕ) : Drive :=
  let d := { d with failed := false }
  if c = 0x20 then d.nextRead d.lba d.count
  else if c = 0x30 then d.nextWrite d.lba d.count
  else if c = 0xEC then d.work (.identifying 0)
  else if c = 0xE7 then d.work .idle
  else { d with transfer := .idle, failed := true }

def outb (d : Drive) (reg v : ℕ) : Drive :=
  if 0 < d.busy then d
  else match reg with
    | 2 => { d with secCount := v }
    | 3 => { d with lbaLo := v }
    | 4 => { d with lbaMid := v }
    | 5 => { d with lbaHi := v }
    | 6 => { d with select := v }
    | 7 => d.command v
    | _ => d

/-- Reading the status register. -/
def status (d : Drive) : ℕ×Drive :=
  if 0 < d.busy then (0x80, { d with busy := d.busy-1 })
  else if d.failed then (0x41, d)
  else if d.transfer = .idle then (0x40, d)
  else if 0 < d.lag then (0x40, { d with lag := d.lag-1 })
  else (0x48, d)

def ready (d : Drive) : Bool := d.busy = 0 ∧ d.lag = 0 ∧ d.failed = false

/-- Reading the data port. -/
def inw (d : Drive) : ℕ×Drive :=
  if d.ready then
    match d.transfer with
    | .reading lba left word =>
      (read16 (d.disk.data lba) (2*word),
        if word = 255 then d.nextRead (lba+1) (left-1)
        else { d with transfer := .reading lba left (word+1) })
    | .identifying word =>
      (0, { d with transfer := if word = 255 then .idle else .identifying (word+1) })
    | _ => (0, d)
  else (0, d)

/-- Writing the data port. -/
def outw (d : Drive) (v : ℕ) : Drive :=
  if d.ready then
    match d.transfer with
    | .writing lba left word =>
      let d := { d with buffer := write16 d.buffer (2*word) v }
      if word = 255 then
        ({ d with disk := d.disk.write lba d.buffer } : Drive).nextWrite (lba+1) (left-1)
      else { d with transfer := .writing lba left (word+1) }
    | _ => d
  else d

end Drive

end Drive

section Driver

def waitBsy : ℕ → Drive → Option Drive
  | 0, _ => none
  | n+1, d => if d.status.1 &&& ataSrBsy ≠ 0 then waitBsy n d.status.2 else some d.status.2

def waitDrq : ℕ → Drive → Option Drive
  | 0, _ => none
  | n+1, d => if d.status.1 &&& ataSrDrq = 0 then waitDrq n d.status.2 else some d.status.2

/-- The loop of `init` that waits for the identification. -/
def waitIdentify : ℕ → Drive → Option (Bool×Drive)
  | 0, _ => none
  | n+1, d =>
    if d.status.1 &&& ataSrErr ≠ 0 then some (false, d.status.2)
    else if d.status.1 &&& ataSrDrq ≠ 0 then some (true, d.status.2)
    else waitIdentify n d.status.2

def skipWords (d : Drive) : Drive := (List.range 256).foldl (fun d _ => d.inw.2) d

def identify (d : Drive) : Drive :=
  let d := (((d.outb 6 0xA0).outb 2 0).outb 3 0).outb 4 0
  (d.outb 5 0).outb 7 0xEC

/-- `ATA::init`; the answer is what `present_` becomes. -/
def init (n : ℕ) (d : Drive) : Option (Bool×Drive) :=
  let d := identify d
  if d.status.1 = 0 then some (false, d.status.2)
  else (waitBsy n d.status.2).bind fun d =>
    if d.lbaMid ≠ 0 ∨ d.lbaHi ≠ 0 then some (false, d)
    else (waitIdentify n d).map fun r => (r.1, if r.1 then skipWords r.2 else r.2)

/-- The registers that a command needs, and the command. -/
def issue (d : Drive) (lba count c : ℕ) : Drive :=
  let d := (d.outb 6 (0xE0 ||| lba/16777216%16)).outb 2 count
  let d := ((d.outb 3 (lba%256)).outb 4 (lba/256%256)).outb 5 (lba/65536%256)
  d.outb 7 c

def readWords (s : ℕ) (st : Memory×Drive) : Memory×Drive :=
  (List.range 256).foldl (fun st i => (write16 st.1 (2*(s*256+i)) st.2.inw.1, st.2.inw.2)) st

/-- The loop of `read_sectors` from sector `s` on. -/
def readLoop (n : ℕ) : ℕ → ℕ → Memory×Drive → Option (Bool×Memory×Drive)
  | 0, _, st => some (true, st)
  | left+1, s, st => do
    let d ← waitBsy n st.2
    if d.status.1 &&& ataSrErr ≠ 0 then return (false, st.1, d.status.2)
    let d ← waitDrq n d.status.2
    readLoop n left (s+1) (readWords s (st.1, d))

def readSectors (n : ℕ) (isPresent : Bool) (lba count : ℕ) (buf : Memory) (d : Drive) :
    Option (Bool×Memory×Drive) := do
  if isPresent = false then return (false, buf, d)
  let d ← waitBsy n d
  readLoop n count 0 (buf, issue d lba count 0x20)

def writeWords (s : ℕ) (buf : Memory) (d : Drive) : Drive :=
  (List.range 256).foldl (fun d i => d.outw (read16 buf (2*(s*256+i)))) d

def writeLoop (n : ℕ) (buf : Memory) : ℕ → ℕ → Drive → Option Drive
  | 0, _, d => some d
  | left+1, s, d => do
    let d ← waitBsy n d
    let d ← waitDrq n d
    writeLoop n buf left (s+1) (writeWords s buf d)

def writeSectors (n : ℕ) (isPresent : Bool) (lba count : ℕ) (buf : Memory) (d : Drive) :
    Option (Bool×Drive) := do
  if isPresent = false then return (false, d)
  let d ← waitBsy n d
  let d ← writeLoop n buf count 0 (issue d lba count 0x30)
  let d ← waitBsy n d
  let d ← waitBsy n (d.outb 7 0xE7)
  return (true, d)

end Driver

end Vlsmc.AtaDriver
