import Vlsmc.Fat16Runs

/-!
# The virtual file system

Paths, resolved component by component from the root of the one mounted volume, and
the calls that take them. The volume is reached through the four operations of the
driver; a session writes down each of them with the volume it was called on. Requests
to the kernel heap and clock readings are arguments, as in the driver.
-/

set_option autoImplicit false

namespace Vlsmc.Vfs
open Vlsmc.Fat16Names Vlsmc.Fat16Volume Vlsmc.Fat16Files Vlsmc.Fat16Runs

structure Session where
  volume : Volume
  issued : List (Volume × Call)

def Session.driver (s : Session) (c : Call) : Option (Bool × Session) :=
  (c.run s.volume).map fun r => (r.1, ⟨r.2, s.issued++[(s.volume, c)]⟩)

/-- The vnode that `fat16_mount` makes. -/
def rootVnode : Vnode := ⟨.directory, 0, 0, none⟩

/-- The position of the last slash. -/
def lastSlash (path : List UInt8) : Option ℕ :=
  (List.range path.length).reverse.find? fun i => path.getD i 0 == slash

/-- `split_parent_and_name` with buffers of 256 and 64 bytes, which the other calls repeat
in their own text. -/
def splitParentAndName (path : List UInt8) : List UInt8 × List UInt8 :=
  match lastSlash path with
  | none => ([slash], path.take 63)
  | some 0 => ([slash], (path.drop 1).take 63)
  | some i => ((path.take i).take 255, (path.drop (i+1)).take 63)

/-- The loop of `vfs_resolve_path`. `heap k` says whether the `k`th vnode can be allocated,
every vnode is looked into as if it were a directory. -/
def resolveLoop (heap : ℕ → Bool) (v : Volume) :
    ℕ → ℕ → List UInt8 → Vnode → Option (Option Vnode)
  | 0, _, _, _ => none
  | fuel+1, k, path, current =>
    let rest := path.dropWhile (· == slash)
    if rest = [] then some (some current)
    else
      let component := (rest.takeWhile (· != slash)).take 63
      match fat16Lookup (heap k) v current.inodeNum component with
      | none => none
      | some none => some none
      | some (some next) => resolveLoop heap v fuel (k+1) (rest.drop component.length) next

/-- `vfs_resolve_path`: every round takes at least one character. -/
def vfsResolvePath (heap : ℕ → Bool) (v : Volume) (path : List UInt8) : Option (Option Vnode) :=
  resolveLoop heap v (path.length+1) 0 path rootVnode

/-- `fat16_write` on an open vnode: the return value is the size or -1. -/
def vnodeWrite (s : Session) (vn : Vnode) (data : List UInt8) (now : Stamp) :
    Option (Bool × Session) :=
  match vn.nodeData with
  | none => some (false, s)
  | some (name, parent) => s.driver (.writeFileInDir parent name data now)

/-- `fat16_create`. -/
def vnodeCreate (createOk : Bool) (s : Session) (dir : ℕ) (name : List UInt8) (now : Stamp) :
    Option (Option Vnode × Session) := do
  match ← s.driver (.writeFileInDir dir name [] now) with
  | (false, s) => return (none, s)
  | (true, s) => return (← fat16Lookup createOk s.volume dir name, s)

/-- `vfs_open`: the vnode, or `none` for -1. -/
def vfsOpen (heap : ℕ → Bool) (createOk : Bool) (s : Session) (path : List UInt8) (creat : Bool)
    (now : Stamp) : Option (Option Vnode × Session) := do
  let r ← match ← vfsResolvePath heap s.volume path with
    | some vn => some (some vn, s)
    | none =>
      if creat = true then
        vnodeCreate createOk s 0 (if path.head? = some slash then path.drop 1 else path) now
      else some (none, s)
  match r with
  | (none, s) => return (none, s)
  | (some vn, s) => return (if vn.type = .file then some vn else none, s)

def vfsUnlink (heap : ℕ → Bool) (s : Session) (path : List UInt8) : Option (Bool × Session) := do
  if path = [slash] then return (false, s)
  match ← vfsResolvePath heap s.volume (splitParentAndName path).1 with
  | none => return (false, s)
  | some parent => s.driver (.fat16Unlink parent.inodeNum (splitParentAndName path).2)

def vfsMkdir (heap : ℕ → Bool) (s : Session) (path : List UInt8) (now : Stamp) :
    Option (Bool × Session) := do
  if path = [slash] then return (false, s)
  match ← vfsResolvePath heap s.volume (splitParentAndName path).1 with
  | none => return (false, s)
  | some parent => s.driver (.fat16Mkdir parent.inodeNum (splitParentAndName path).2 now)

def vfsRename (heap heap' : ℕ → Bool) (s : Session) (oldpath newpath : List UInt8) :
    Option (Bool × Session) := do
  if (splitParentAndName oldpath).2 = [] ∨ (splitParentAndName newpath).2 = [] then
    return (false, s)
  match ← vfsResolvePath heap s.volume (splitParentAndName oldpath).1 with
  | none => return (false, s)
  | some oldParent =>
    match ← vfsResolvePath heap' s.volume (splitParentAndName newpath).1 with
    | none => return (false, s)
    | some newParent =>
      s.driver (.fat16Rename oldParent.inodeNum (splitParentAndName oldpath).2
        newParent.inodeNum (splitParentAndName newpath).2)

/-- `vfs_write_file`. The lookup of the file may fail for want of memory, and then the file is
created although it exists. -/
def vfsWriteFile (heap : ℕ → Bool) (lookupOk createOk : Bool) (s : Session)
    (path data : List UInt8) (now : Stamp) : Option (Bool × Session) := do
  match ← vfsResolvePath heap s.volume (splitParentAndName path).1 with
  | none => return (false, s)
  | some parent =>
    match ← fat16Lookup lookupOk s.volume parent.inodeNum (splitParentAndName path).2 with
    | some vn => vnodeWrite s vn data now
    | none =>
      match ← vnodeCreate createOk s parent.inodeNum (splitParentAndName path).2 now with
      | (none, s) => return (false, s)
      | (some vn, s) => vnodeWrite s vn data now

inductive VfsCall
  | writeFile (heap : ℕ → Bool) (lookupOk createOk : Bool) (path data : List UInt8) (now : Stamp)
  | openFile (heap : ℕ → Bool) (createOk : Bool) (path : List UInt8) (creat : Bool) (now : Stamp)
  | fwrite (vn : Vnode) (data : List UInt8) (now : Stamp)
  | unlink (heap : ℕ → Bool) (path : List UInt8)
  | rename (heap heap' : ℕ → Bool) (oldpath newpath : List UInt8)
  | mkdir (heap : ℕ → Bool) (path : List UInt8) (now : Stamp)

/-- The session after the call. `fwrite` is what `sys_fwrite` does with the vnode of an open
file. -/
def VfsCall.run : VfsCall → Session → Option Session
  | .writeFile heap lookupOk createOk path data now, s =>
    (vfsWriteFile heap lookupOk createOk s path data now).map Prod.snd
  | .openFile heap createOk path creat now, s =>
    (vfsOpen heap createOk s path creat now).map Prod.snd
  | .fwrite vn data now, s => (vnodeWrite s vn data now).map Prod.snd
  | .unlink heap path, s => (vfsUnlink heap s path).map Prod.snd
  | .rename heap heap' oldpath newpath, s =>
    (vfsRename heap heap' s oldpath newpath).map Prod.snd
  | .mkdir heap path now, s => (vfsMkdir heap s path now).map Prod.snd

def runCalls : List VfsCall → Session → Option Session
  | [], s => some s
  | c::cs, s => (c.run s).bind (runCalls cs)

/-- An open that may create gives the vnode that the path resolves to, or else a new one in the
root. -/
theorem vfsOpen_cases {heap : ℕ → Bool} {createOk : Bool} {s t : Session} {path : List UInt8}
    {now : Stamp} {vn : Vnode} (h : vfsOpen heap createOk s path true now = some (some vn, t)) :
    vn.type = .file ∧
    ((vfsResolvePath heap s.volume path = some (some vn) ∧ t = s) ∨
    (vfsResolvePath heap s.volume path = some none ∧
      vnodeCreate createOk s 0 (if path.head? = some slash then path.drop 1 else path) now =
        some (some vn, t))) := by
  simp only [vfsOpen, Option.bind_eq_bind] at h
  obtain ⟨found, hfound, h⟩ := Option.bind_eq_some_iff.mp h
  cases found with
  | some vn' =>
    obtain ⟨hvn, rfl⟩ := Prod.mk.inj (Option.some.inj h)
    split_ifs at hvn with ht
    obtain rfl := Option.some.inj hvn
    exact ⟨ht, Or.inl ⟨hfound, rfl⟩⟩
  | none =>
    dsimp only at h
    rw [if_pos trivial] at h
    obtain ⟨⟨made, u⟩, hmade, h⟩ := Option.bind_eq_some_iff.mp h
    cases made with
    | none => exact absurd (Prod.mk.inj (Option.some.inj h)).1 (by simp)
    | some vn' =>
      obtain ⟨hvn, rfl⟩ := Prod.mk.inj (Option.some.inj h)
      split_ifs at hvn with ht
      obtain rfl := Option.some.inj hvn
      exact ⟨ht, Or.inr ⟨hfound, hmade⟩⟩

end Vlsmc.Vfs
