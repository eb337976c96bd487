import Mathlib.Data.Nat.Bitwise

/-!
# The PCI bus

The host bridge holds an address and passes accesses to the data port on to the register it names.
A register has bits that can be written and bits that stay; where no function is, all bits read as
ones. The driver scans all functions into a table of 32.
-/

set_option autoImplicit false

namespace Vlsmc.PciBus

section Bridge

/-- The configuration space of a function. -/
structure Config where
  reg : ℕ → BitVec 32
  writable : ℕ → BitVec 32

abbrev Space := ℕ → ℕ → ℕ → Option Config

structure Pci where
  address : ℕ
  space : Space

def Config.write (c : Config) (r : ℕ) (v : BitVec 32) : Config :=
  { c with reg := fun k =>
      if k = r then v &&& c.writable r ||| c.reg r &&& ~~~c.writable r else c.reg k }

/-- Bus, slot, function and register of an address. -/
def target (a : ℕ) : ℕ×ℕ×ℕ×ℕ := (a/65536%256, a/2048%32, a/256%8, a/4%64)

def inData (p : Pci) : BitVec 32 :=
  let (b, s, f, r) := target p.address
  if p.address/2147483648 = 1 then ((p.space b s f).map fun c => c.reg r).getD (BitVec.allOnes 32)
  else BitVec.allOnes 32

def outData (p : Pci) (v : BitVec 32) : Pci :=
  let (b, s, f, r) := target p.address
  if p.address/2147483648 = 1 then
    { p with space := fun b' s' f' =>
        if b' = b ∧ s' = s ∧ f' = f then (p.space b s f).map fun c => c.write r v else p.space b' s' f' }
  else p

end Bridge

section Driver

def configAddress (bus slot func offset : ℕ) : ℕ :=
  (bus%256) <<< 16 ||| (slot%32) <<< 11 ||| (func%8) <<< 8 ||| offset%256/4*4 ||| 2147483648

def configReadDword (p : Pci) (bus slot func offset : ℕ) : BitVec 32×Pci :=
  let p := { p with address := configAddress bus slot func offset }
  (inData p, p)

def configReadWord (p : Pci) (bus slot func offset : ℕ) : ℕ×Pci :=
  let r := configReadDword p bus slot func offset
  (r.1.toNat >>> (offset/2%2*16)%65536, r.2)

def configReadByte (p : Pci) (bus slot func offset : ℕ) : ℕ×Pci :=
  let r := configReadDword p bus slot func offset
  (r.1.toNat >>> (offset%4*8)%256, r.2)

def configWriteDword (p : Pci) (bus slot func offset : ℕ) (v : BitVec 32) : Pci :=
  outData { p with address := configAddress bus slot func offset } v

def getBarSize (p : Pci) (bus slot func bar : ℕ) : BitVec 32×Pci :=
  let offset := 0x10+bar*4
  let orig := configReadDword p bus slot func offset
  let p := configWriteDword orig.2 bus slot func offset (BitVec.allOnes 32)
  let size := configReadDword p bus slot func offset
  let p := configWriteDword size.2 bus slot func offset orig.1
  if size.1 = 0 ∨ size.1 = BitVec.allOnes 32 then (0, p)
  else if orig.1 &&& 0x01 = 0x01 then (~~~(size.1 &&& 0xFFFFFFFC)+1, p)
  else (~~~(size.1 &&& 0xFFFFFFF0)+1, p)

structure Bar where
  isParamIo : Bool
  address : BitVec 32
  is64Bit : Bool
  isPrefetchable : Bool
  size : BitVec 32

structure Device where
  bus : ℕ
  slot : ℕ
  func : ℕ
  vendorId : ℕ
  deviceId : ℕ
  classId : ℕ
  subclass : ℕ
  progIf : ℕ
  irq : ℕ
  bar : ℕ → Bar

/-- A round of `parse_bars`: a register that is zero leaves all but the size as it was. -/
def parseBar (x : Device×Pci) (i : ℕ) : Device×Pci :=
  let dev := x.1
  let val := configReadDword x.2 dev.bus dev.slot dev.func (0x10+i*4)
  let set (b : Bar) : Device := { dev with bar := fun k => if k = i then b else dev.bar k }
  if val.1 = 0 then (set { dev.bar i with size := 0 }, val.2)
  else
    let size := getBarSize val.2 dev.bus dev.slot dev.func i
    if val.1 &&& 0x01 ≠ 0 then (set ⟨true, val.1 &&& 0xFFFFFFFC, false, false, size.1⟩, size.2)
    else (set ⟨false, val.1 &&& 0xFFFFFFF0, decide (val.1 >>> 1 &&& 0x03 = 0x02),
      decide (val.1 &&& 0x08 ≠ 0), size.1⟩, size.2)

def parseBars (dev : Device) (p : Pci) : Device×Pci := (List.range 6).foldl parseBar (dev, p)

structure Scan where
  count : ℕ
  devices : ℕ → Device
  pci : Pci

/-- A function that is there, into the table while there is room. -/
def record (s : Scan) (bus slot func vendor : ℕ) : Scan :=
  let device := configReadWord s.pci bus slot func 0x02
  let cls := configReadByte device.2 bus slot func 0x0B
  let sub := configReadByte cls.2 bus slot func 0x0A
  let prog := configReadByte sub.2 bus slot func 0x09
  let irq := configReadByte prog.2 bus slot func 0x3C
  if s.count < 32 then
    let r := parseBars ⟨bus, slot, func, vendor, device.1, cls.1, sub.1, prog.1, irq.1,
      (s.devices s.count).bar⟩ irq.2
    ⟨s.count+1, fun k => if k = s.count then r.1 else s.devices k, r.2⟩
  else { s with pci := irq.2 }

/-- The functions of a slot, from `func` on. -/
def scanFunctions (bus slot : ℕ) : ℕ → ℕ → Scan → Scan
  | 0, _, s => s
  | n+1, func, s =>
    let vendor := configReadWord s.pci bus slot func 0x00
    let s := { s with pci := vendor.2 }
    if vendor.1 = 0xFFFF then
      if func = 0 then s else scanFunctions bus slot n (func+1) s
    else
      let s := record s bus slot func vendor.1
      if func = 0 then
        let header := configReadByte s.pci bus slot func 0x0E
        let s := { s with pci := header.2 }
        if header.1 &&& 0x80 = 0 then s else scanFunctions bus slot n (func+1) s
      else scanFunctions bus slot n (func+1) s

def scanBus (devices : ℕ → Device) (p : Pci) : Scan :=
  (List.range 256).foldl (fun s bus =>
    (List.range 32).foldl (fun s slot => scanFunctions bus slot 8 0 s) s) ⟨0, devices, p⟩

/-- `find_ahci_controller`: the first entry of its class. -/
def findAhciController (s : Scan) : Option Device :=
  ((List.range s.count).map s.devices).find? fun d =>
    decide (d.classId = 0x01 ∧ d.subclass = 0x06 ∧ d.progIf = 0x01)

end Driver

end Vlsmc.PciBus
