import Vlsmc.CreatingOpens
import Vlsmc.HolderCounts

/-!
# Open files

The descriptor tables of the threads, the `file` objects they hold and the vnodes under
these, with the reference counts as the system calls move them. What the file system finds
and the blocks that `kmalloc` has are arguments; a block in use is never handed out. Memory
mappings of files are not part of it.
-/

set_option autoImplicit false

namespace Vlsmc.OpenFiles
open Vlsmc.HolderCounts Vlsmc.CreatingOpens

def oRdwr : ℕ := 0x0002

def oCloexec : ℕ := 0x0800

/-- Ready, running, blocked and sleeping threads are alive. -/
inductive Phase
  | unused
  | alive
  | terminated
  | zombie
deriving DecidableEq

structure Vnode where
  isFile : Bool
  refcount : ℕ
deriving DecidableEq

structure File where
  vn : ℕ
  offset : ℕ
  flags : ℕ
  refcount : ℕ
deriving DecidableEq

structure Thread where
  phase : Phase
  parentTid : ℤ
  fdTable : ℕ → Option ℕ

/-- The objects of the kernel heap by their addresses. -/
structure Kernel where
  threads : ℕ → Thread
  files : ℕ → Option File
  vnodes : ℕ → Option Vnode
  root : ℕ

/-- What a lookup makes a vnode of. -/
structure Found where
  address : ℕ
  isFile : Bool
deriving DecidableEq

def up (n : ℕ) : ℕ := (n+1)%2^32

def down (n : ℕ) : ℕ := (n+(2^32-1))%2^32

namespace Kernel

/-- The state that `thread_init` and the mount of the volume leave. -/
def boot (root : ℕ) : Kernel where
  threads := fun t => ⟨if t = 0 then .alive else .unused, -1, fun _ => none⟩
  files := fun _ => none
  vnodes := put (fun _ => none) root (some ⟨false, 1⟩)
  root := root

def setThread (s : Kernel) (t : ℕ) (th : Thread) : Kernel :=
  { s with threads := fun i => if i = t then th else s.threads i }

def setPhase (s : Kernel) (t : ℕ) (phase : Phase) : Kernel :=
  s.setThread t { s.threads t with phase := phase }

def setSlot (s : Kernel) (t i : ℕ) (x : Option ℕ) : Kernel :=
  s.setThread t { s.threads t with fdTable := put (s.threads t).fdTable i x }

section Counts

def addVnode (s : Kernel) (v : ℕ) : Kernel :=
  match s.vnodes v with
  | none => s
  | some vn => { s with vnodes := put s.vnodes v (some { vn with refcount := up vn.refcount }) }

def addFile (s : Kernel) (a : ℕ) : Kernel :=
  match s.files a with
  | none => s
  | some f => { s with files := put s.files a (some { f with refcount := up f.refcount }) }

def vnodeRelease (s : Kernel) (v : ℕ) : Kernel :=
  match s.vnodes v with
  | none => s
  | some vn =>
    let left := if down vn.refcount = 0 then none else some { vn with refcount := down vn.refcount }
    { s with vnodes := put s.vnodes v left }

def fileRelease (s : Kernel) (a : ℕ) : Kernel :=
  match s.files a with
  | none => s
  | some f =>
    if down f.refcount = 0 then { s.vnodeRelease f.vn with files := put s.files a none }
    else { s with files := put s.files a (some { f with refcount := down f.refcount }) }

end Counts

section Paths

/-- A vnode from `fat16_lookup`, if it finds the name and has the memory. -/
def newVnode (s : Kernel) (l : Option Found) : Option (ℕ×Kernel) :=
  match l with
  | none => none
  | some l =>
    if s.vnodes l.address = none then
      some (l.address, { s with vnodes := put s.vnodes l.address (some ⟨l.isFile, 1⟩) })
    else none

def leave (s : Kernel) (v : ℕ) : Kernel := if v ≠ s.root then s.vnodeRelease v else s

/-- The loop of `vfs_resolve_path`, with what each lookup finds. -/
def resolveFrom : Kernel → ℕ → List (Option Found) → Option ℕ×Kernel
  | s, current, [] => (some current, if current = s.root then s.addVnode current else s)
  | s, current, l::trail =>
    match s.newVnode l with
    | none => (none, s.leave current)
    | some (next, s') => resolveFrom (s'.leave current) next trail

def vfsResolvePath (s : Kernel) (trail : List (Option Found)) : Option ℕ×Kernel :=
  s.resolveFrom s.root trail

/-- The calls that resolve a path and release what it names. -/
def visit (s : Kernel) (trail : List (Option Found)) : Kernel :=
  match s.vfsResolvePath trail with
  | (none, s) => s
  | (some v, s) => s.vnodeRelease v

/-- The vnode of `vfs_open`, before `ops->open` is asked. -/
def reach (s : Kernel) (trail : List (Option Found)) (creat : Bool) (created : Option Found) :
    Option ℕ×Kernel :=
  match s.vfsResolvePath trail with
  | (some v, s) => (some v, s)
  | (none, s) =>
    if creat then
      match s.newVnode created with
      | none => (none, s)
      | some (v, s) => (some v, s)
    else (none, s)

/-- `fat16_open` takes files only. -/
def vfsOpen (s : Kernel) (trail : List (Option Found)) (creat : Bool) (created : Option Found) :
    Option ℕ×Kernel :=
  match s.reach trail creat created with
  | (none, s) => (none, s)
  | (some v, s) => (if (s.vnodes v).any Vnode.isFile then some v else none, s)

end Paths

section Descriptors

def findFreeFd (s : Kernel) (t : ℕ) : Option ℕ :=
  (List.range 16).find? fun i => (s.threads t).fdTable i = none

def newFile (s : Kernel) (block : Option ℕ) (f : File) : Option (ℕ×Kernel) :=
  match block with
  | none => none
  | some a =>
    if a < 2^32 ∧ s.files a = none then some (a, { s with files := put s.files a (some f) })
    else none

/-- `none` is the return value -1. -/
def sysFopen (s : Kernel) (t : ℕ) (mode : ℤ) (trail : List (Option Found))
    (created : Option Found) (block : Option ℕ) : Option ℕ×Kernel :=
  match s.findFreeFd t with
  | none => (none, s)
  | some fd =>
    let flags := mapFlags mode
    match s.vfsOpen trail (flags &&& oCreat ≠ 0) created with
    | (none, s) => (none, s)
    | (some v, s) =>
      match s.newFile block ⟨v, 0, flags, 1⟩ with
      | none => (none, s)
      | some (a, s) => (some (fd+3), s.setSlot t fd (some a))

/-- The descriptor that a system call is given, in its register. -/
def descriptor (ebx : ℤ) : Option ℕ :=
  if ebx-3 < 0 ∨ 16 ≤ ebx-3 then none else some (ebx-3).toNat

/-- A round of the loops that close descriptors. -/
def closeSlot (s : Kernel) (t i : ℕ) : Kernel :=
  match (s.threads t).fdTable i with
  | none => s
  | some a => (s.fileRelease a).setSlot t i none

def closeAll (s : Kernel) (t : ℕ) : Kernel := (List.range 16).foldl (fun s i => s.closeSlot t i) s

def sysFclose (s : Kernel) (t : ℕ) (ebx : ℤ) : Option ℕ×Kernel :=
  match descriptor ebx with
  | none => (none, s)
  | some fd =>
    if (s.threads t).fdTable fd = none then (none, s) else (some 0, s.closeSlot t fd)

/-- The file position after a transfer of some bytes. -/
def advance (s : Kernel) (a : ℕ) (f : File) (moved : ℤ) : ℕ×Kernel :=
  if 0 < moved then
    (moved.toNat,
      { s with files := put s.files a (some { f with offset := (f.offset+moved.toNat)%2^32 }) })
  else (0, s)

/-- `sys_fread` with what `ops->read` returns. -/
def sysFread (s : Kernel) (t : ℕ) (ebx moved : ℤ) : ℕ×Kernel :=
  match descriptor ebx with
  | none => (0, s)
  | some fd =>
    match (s.threads t).fdTable fd with
    | none => (0, s)
    | some a =>
      match s.files a with
      | none => (0, s)
      | some f =>
        if f.flags &&& oWronly ≠ 0 ∧ f.flags &&& oRdwr = 0 then (0, s) else s.advance a f moved

/-- `sys_fwrite` does not look at the flags. -/
def sysFwrite (s : Kernel) (t : ℕ) (ebx moved : ℤ) : ℕ×Kernel :=
  match descriptor ebx with
  | none => (0, s)
  | some fd =>
    match (s.threads t).fdTable fd with
    | none => (0, s)
    | some a =>
      match s.files a with
      | none => (0, s)
      | some f => s.advance a f moved

end Descriptors

section Threads

def findUnused (s : Kernel) : Option ℕ :=
  (List.range' 1 31).find? fun i => (s.threads i).phase = .unused

def threadCreate (s : Kernel) : Kernel :=
  match s.findUnused with
  | none => s
  | some t => s.setThread t ⟨.alive, -1, fun _ => none⟩

/-- A round of the loop of `sys_fork` over the parent's descriptors. -/
def inheritSlot (parent child : ℕ) (s : Kernel) (i : ℕ) : Kernel :=
  match (s.threads parent).fdTable i with
  | none => s.setSlot child i none
  | some a =>
    let s := (s.setSlot child i (some a)).addFile a
    match s.files a with
    | none => s
    | some f => s.addVnode f.vn

/-- `cloned` says whether `clone_directory` has the memory it needs. -/
def sysFork (s : Kernel) (parent : ℕ) (cloned : Bool) : Option ℕ×Kernel :=
  match s.findUnused with
  | none => (none, s)
  | some child =>
    let s := s.setThread child { s.threads child with phase := .alive, parentTid := parent }
    let s := (List.range 16).foldl (inheritSlot parent child) s
    if cloned then (some child, s) else (none, (s.closeAll child).setPhase child .unused)

/-- A round of the loop of `sys_exec`. -/
def closeOnExec (t : ℕ) (s : Kernel) (i : ℕ) : Kernel :=
  if ((s.threads t).fdTable i).any fun a => (s.files a).any fun f => f.flags &&& oCloexec ≠ 0 then
    s.closeSlot t i
  else s

/-- `proceeds` says whether `sys_exec` gets as far as closing files. -/
def sysExec (s : Kernel) (t : ℕ) (trail : List (Option Found)) (proceeds : Bool) : Kernel :=
  let s := s.visit trail
  if proceeds then (List.range 16).foldl (closeOnExec t) s else s

def sysExit (s : Kernel) (t : ℕ) : Kernel :=
  let s := s.closeAll t
  let parent := (s.threads t).parentTid
  if 0 ≤ parent ∧ parent < 32 ∧ (s.threads parent.toNat).phase ≠ .unused then s.setPhase t .zombie
  else s.setPhase t .terminated

def threadCleanup (s : Kernel) (t : ℕ) : Kernel := (s.closeAll t).setPhase t .unused

/-- The child that `sys_wait` takes. -/
def zombieOf (s : Kernel) (t : ℕ) : Option ℕ :=
  (List.range' 1 31).find? fun i =>
    (s.threads i).parentTid = (t : ℤ) ∧ (s.threads i).phase = .zombie

def sysWait (s : Kernel) (t : ℕ) : Option ℕ×Kernel :=
  match s.zombieOf t with
  | none => (none, s)
  | some child => (some child, s.setPhase child .unused)

end Threads

end Kernel

/-- The steps; `t` is the thread that runs. `cleanup` is a terminated thread taken away by
`pick_next_thread`, `terminate` also the end of a thread that faults. -/
inductive Event
  | fopen (t : ℕ) (mode : ℤ) (trail : List (Option Found)) (created : Option Found)
      (block : Option ℕ)
  | fclose (t : ℕ) (ebx : ℤ)
  | fread (t : ℕ) (ebx moved : ℤ)
  | fwrite (t : ℕ) (ebx moved : ℤ)
  | visit (trail : List (Option Found))
  | fork (t : ℕ) (cloned : Bool)
  | exec (t : ℕ) (trail : List (Option Found)) (proceeds : Bool)
  | exit (t : ℕ)
  | wait (t : ℕ)
  | create
  | terminate (t : ℕ)
  | cleanup (t : ℕ)
deriving DecidableEq

/-- The thread that an event is a system call of. -/
def Event.caller : Event → Option ℕ
  | .fopen t _ _ _ _ => some t
  | .fclose t _ => some t
  | .fread t _ _ => some t
  | .fwrite t _ _ => some t
  | .fork t _ => some t
  | .exec t _ _ => some t
  | .exit t => some t
  | .wait t => some t
  | _ => none

namespace Kernel

def apply (s : Kernel) : Event → Kernel
  | .fopen t mode trail created block => (s.sysFopen t mode trail created block).2
  | .fclose t ebx => (s.sysFclose t ebx).2
  | .fread t ebx moved => (s.sysFread t ebx moved).2
  | .fwrite t ebx moved => (s.sysFwrite t ebx moved).2
  | .visit trail => s.visit trail
  | .fork t cloned => (s.sysFork t cloned).2
  | .exec t trail proceeds => s.sysExec t trail proceeds
  | .exit t => s.sysExit t
  | .wait t => (s.sysWait t).2
  | .create => s.threadCreate
  | .terminate t => if t < 32 then s.setPhase t .terminated else s
  | .cleanup t => if t < 32 ∧ (s.threads t).phase = .terminated then s.threadCleanup t else s

/-- Only a thread that is alive makes system calls. -/
def takes (s : Kernel) (e : Event) : Bool :=
  e.caller.all fun t => t < 32 ∧ (s.threads t).phase = .alive

def step (s : Kernel) (e : Event) : Kernel := if s.takes e then s.apply e else s

end Kernel

end Vlsmc.OpenFiles
