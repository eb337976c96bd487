import Vlsmc.Words
import Vlsmc.ByteMemory

/-!
# The allocator of the C library

`malloc`, `free`, `calloc` and `realloc` over the bytes of the process. A block
starts with a header of twenty bytes: `size`, `is_free`, `magic`, `next` and
`prev`. What `SYS_SBRK` answers is a parameter of each call.
-/

set_option autoImplicit false

namespace Vlsmc.Malloc
open Vlsmc.Words Vlsmc.ByteMemory

def magicNumber : ℕ := 0xDEADC0DE

/-- `sizeof(MemBlock)`. -/
def headerSize : ℕ := 20

structure Heap where
  mem : Memory
  head : ℕ
  tail : ℕ
  brk : ℕ

/-- Whether `SYS_SBRK` moves the break, and what the new memory then holds. -/
structure Reply where
  granted : Bool
  fresh : Memory

namespace Heap

def size (h : Heap) (block : ℕ) : ℕ := read32 h.mem block
def isFree (h : Heap) (block : ℕ) : Bool := h.mem (block+4) != 0
def magic (h : Heap) (block : ℕ) : ℕ := read32 h.mem (block+8)
def next (h : Heap) (block : ℕ) : ℕ := read32 h.mem (block+12)
def prev (h : Heap) (block : ℕ) : ℕ := read32 h.mem (block+16)

def setSize (h : Heap) (block v : ℕ) : Heap := { h with mem := write32 h.mem block v }
def setIsFree (h : Heap) (block : ℕ) (v : Bool) : Heap :=
  { h with mem := write8 h.mem (block+4) (if v then 1 else 0) }
def setMagic (h : Heap) (block v : ℕ) : Heap := { h with mem := write32 h.mem (block+8) v }
def setNext (h : Heap) (block v : ℕ) : Heap := { h with mem := write32 h.mem (block+12) v }
def setPrev (h : Heap) (block v : ℕ) : Heap := { h with mem := write32 h.mem (block+16) v }
def setHead (h : Heap) (v : ℕ) : Heap := { h with head := v }
def setTail (h : Heap) (v : ℕ) : Heap := { h with tail := v }

/-- `SYS_SBRK`: the old break, or `none` for -1. -/
def sbrk (h : Heap) (increment : ℤ) (reply : Reply) : Option ℕ × Heap :=
  let newEnd := (h.brk:ℤ)+increment
  if reply.granted ∧ 0 ≤ newEnd ∧ newEnd < 4294967296 then
    (some h.brk, { h with
      mem := fun k => if h.brk ≤ k ∧ (k:ℤ) < newEnd then reply.fresh k else h.mem k
      brk := newEnd.toNat })
  else (none, h)

/-- The new block, zero when there is no memory. -/
def requestSpace (h : Heap) (last size : ℕ) (reply : Reply) : ℕ × Heap :=
  match h.sbrk (toInt32 size) reply with
  | (none, h) => (0, h)
  | (some block, h) =>
    let h := h.setSize block size
    let h := h.setIsFree block false
    let h := h.setMagic block magicNumber
    let h := h.setNext block 0
    let h := h.setPrev block last
    (block, if last ≠ 0 then h.setNext last block else h)

/-- The last block passed and the block found; `none` when the steps run out. -/
def findFreeBlock (h : Heap) (size : ℕ) : ℕ → ℕ → ℕ → Option (ℕ × ℕ)
  | 0, _, _ => none
  | steps+1, last, current =>
    if current ≠ 0 ∧ ¬(h.isFree current ∧ size ≤ h.size current) then
      findFreeBlock h size steps current (h.next current)
    else some (last, current)

def splitBlock (h : Heap) (block size : ℕ) : Heap :=
  if u32 (u32 (size+headerSize)+8) < h.size block then
    let newBlock := u32 (block+size)
    let h := h.setSize newBlock (sub32 (h.size block) size)
    let h := h.setIsFree newBlock true
    let h := h.setMagic newBlock magicNumber
    let h := h.setNext newBlock (h.next block)
    let h := h.setPrev newBlock block
    let h := if h.next block ≠ 0 then h.setPrev (h.next block) newBlock else h.setTail newBlock
    let h := h.setNext block newBlock
    h.setSize block size
  else h

/-- `ALIGN`. -/
def align (size : ℕ) : ℕ := u32 (size+7)/8*8

/-- The pointer and the heap. -/
def malloc (h : Heap) (size : ℕ) (reply : Reply) : Option (ℕ × Heap) :=
  if size = 0 then some (0, h)
  else
    let totalSize := align (u32 (size+headerSize))
    if h.head = 0 then
      let (block, h) := h.requestSpace 0 totalSize reply
      if block = 0 then some (0, h)
      else some (u32 (block+headerSize), (h.setHead block).setTail block)
    else
      match h.findFreeBlock totalSize (h.brk+1) h.head h.head with
      | none => none
      | some (last, found) =>
        if found = 0 then
          let (block, h) := h.requestSpace last totalSize reply
          if block = 0 then some (0, h) else some (u32 (block+headerSize), h.setTail block)
        else
          let h := (h.setIsFree found false).splitBlock found totalSize
          some (u32 (found+headerSize), h)

/-- A free block takes in the free block behind it. -/
def coalesceNext (h : Heap) (block : ℕ) : Heap :=
  if h.next block ≠ 0 ∧ h.isFree (h.next block) then
    let h := h.setSize block (u32 (h.size block+h.size (h.next block)))
    let h := h.setNext block (h.next (h.next block))
    if h.next block ≠ 0 then h.setPrev (h.next block) block else h.setTail block
  else h

/-- The free block before it takes it in; the block that is left. -/
def coalescePrev (h : Heap) (block : ℕ) : ℕ × Heap :=
  if h.prev block ≠ 0 ∧ h.isFree (h.prev block) then
    let h := h.setSize (h.prev block) (u32 (h.size (h.prev block)+h.size block))
    let h := h.setNext (h.prev block) (h.next block)
    let h :=
      if h.next block ≠ 0 then h.setPrev (h.next block) (h.prev block)
      else h.setTail (h.prev block)
    (h.prev block, h)
  else (block, h)

/-- The last block is given back when it is free. -/
def releaseTail (h : Heap) (block : ℕ) (reply : Reply) : Heap :=
  if block = h.tail then
    let h :=
      if h.prev block ≠ 0 then (h.setNext (h.prev block) 0).setTail (h.prev block)
      else (h.setHead 0).setTail 0
    (h.sbrk (toInt32 (sub32 0 (h.size block))) reply).2
  else h

/-- `none` when the process is ended because of a wrong signature. -/
def free (h : Heap) (ptr : ℕ) (reply : Reply) : Option Heap :=
  if ptr = 0 then some h
  else
    let block := sub32 ptr headerSize
    if h.magic block ≠ magicNumber then none
    else
      let h := (h.setIsFree block true).coalesceNext block
      let (block, h) := h.coalescePrev block
      some (h.releaseTail block reply)

def calloc (h : Heap) (nmemb size : ℕ) (reply : Reply) : Option (ℕ × Heap) :=
  let total := u32 (nmemb*size)
  match h.malloc total reply with
  | none => none
  | some (ptr, h) =>
    if ptr ≠ 0 then some (ptr, { h with mem := zero h.mem ptr total }) else some (ptr, h)

def realloc (h : Heap) (ptr size : ℕ) (reply reply' : Reply) : Option (ℕ × Heap) :=
  if ptr = 0 then h.malloc size reply
  else if size = 0 then (h.free ptr reply').map fun h => (0, h)
  else
    let block := sub32 ptr headerSize
    if h.magic block ≠ magicNumber then some (0, h)
    else
      let userSize := sub32 (h.size block) headerSize
      if size ≤ userSize then some (ptr, h)
      else
        match h.malloc size reply with
        | none => none
        | some (newPtr, h) =>
          if newPtr = 0 then some (0, h)
          else
            let h := { h with mem := copy h.mem newPtr ptr userSize }
            (h.free ptr reply').map fun h => (newPtr, h)

end Heap

end Vlsmc.Malloc
