import Vlsmc.ByteMemory
import Vlsmc.PmmRuns

/-!
# The heap of the kernel

`kmalloc` and `kfree` over physical memory. A block starts with a header of
twelve bytes: `size`, `is_free` and `next`. New memory comes from the frame
manager, which is kept here with its references; the frames that the heap took
are recorded.
-/

set_option autoImplicit false

namespace Vlsmc.Kmalloc
open Vlsmc.Words Vlsmc.ByteMemory Vlsmc.PhysicalMemory Vlsmc.PmmRuns

structure Kernel where
  mem : Memory
  heapStart : ℕ
  frames : Tracked
  obtained : ℕ → Bool

namespace Kernel

def size (k : Kernel) (block : ℕ) : ℕ := read32 k.mem block
def isFree (k : Kernel) (block : ℕ) : Bool := k.mem (block+4) != 0
def next (k : Kernel) (block : ℕ) : ℕ := read32 k.mem (block+8)

def setSize (k : Kernel) (block v : ℕ) : Kernel := { k with mem := write32 k.mem block v }
def setIsFree (k : Kernel) (block : ℕ) (v : Bool) : Kernel :=
  { k with mem := write8 k.mem (block+4) (if v then 1 else 0) }
def setNext (k : Kernel) (block v : ℕ) : Kernel := { k with mem := write32 k.mem (block+8) v }

/-- Frames for the heap; zero for `nullptr`. -/
def take (k : Kernel) (op : Op) (first count : ℕ) : Kernel :=
  { k with
    frames := step k.frames op
    obtained := fun f => if first ≠ 0 ∧ first ≤ f ∧ f < first+count then true else k.obtained f }

def kmallocInit (k : Kernel) : Kernel :=
  let frame := k.frames.pmm.allocFrame.1
  let k := k.take .allocFrame frame 1
  if frame = 0 then { k with heapStart := 0 }
  else
    let k := { k with heapStart := frame*4096 }
    ((k.setSize (frame*4096) 4096).setIsFree (frame*4096) true).setNext (frame*4096) 0

def splitBlock (k : Kernel) (block size : ℕ) : Kernel :=
  if k.size block ≤ u32 (u32 (size+12)+32) then k
  else
    let newBlock := u32 (block+size)
    let k := k.setSize newBlock (sub32 (k.size block) size)
    let k := k.setIsFree newBlock true
    let k := k.setNext newBlock (k.next block)
    let k := k.setSize block size
    k.setNext block newBlock

/-- The loop of `kmalloc`: the last block passed and the block found. -/
def search (k : Kernel) (totalSize : ℕ) : ℕ → ℕ → ℕ → Option (ℕ × ℕ)
  | 0, _, _ => none
  | steps+1, last, current =>
    if current = 0 then some (last, 0)
    else if k.isFree current ∧ totalSize ≤ k.size current then some (last, current)
    else search k totalSize steps current (k.next current)

def totalSize (size : ℕ) : ℕ :=
  let total := u32 (size+12)
  if total%8 ≠ 0 then u32 (total+(8-total%8)) else total

def pagesNeeded (total : ℕ) : ℕ :=
  if total%4096 ≠ 0 then u32 (total/4096+1) else total/4096

/-- The pointer and the kernel; `none` when the steps run out. -/
def kmalloc (k : Kernel) (size : ℕ) : Option (ℕ × Kernel) :=
  if size = 0 then some (0, k)
  else
    let total := totalSize size
    match k.search total 4294967296 0 k.heapStart with
    | none => none
    | some (last, current) =>
      if current ≠ 0 then
        some (u32 (current+12), (k.setIsFree current false).splitBlock current total)
      else
        let pages := pagesNeeded total
        let first := (k.frames.pmm.allocBlocks pages).1
        let k := k.take (.allocBlocks pages) first pages
        if first = 0 then some (0, k)
        else
          let newArea := u32 (first*4096)
          let k := k.setSize newArea (u32 (pages*4096))
          let k := k.setIsFree newArea false
          let k := k.setNext newArea 0
          let k := if last ≠ 0 then k.setNext last newArea else k
          some (u32 (newArea+12), k.splitBlock newArea total)

def kfree (k : Kernel) (ptr : ℕ) : Kernel :=
  if ptr = 0 then k
  else
    let block := sub32 ptr 12
    let k := k.setIsFree block true
    if k.next block ≠ 0 ∧ k.isFree (k.next block) then
      let k := k.setSize block (u32 (k.size block+k.size (k.next block)))
      k.setNext block (k.next (k.next block))
    else k

end Kernel

end Vlsmc.Kmalloc
