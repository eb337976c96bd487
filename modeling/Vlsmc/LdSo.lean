import Vlsmc.Elf

/-!
# The dynamic linker

`ld.so` from its start to the jump to the application: it reads the auxiliary
vector, registers the application, loads each `DT_NEEDED` library and walks the
relocation tables of all registered objects. Loops that run to a terminator in
memory take a bound on their steps and yield `none` when it is passed.
-/

set_option autoImplicit false

namespace Vlsmc.LdSo
open Vlsmc.ByteMemory Vlsmc.Words Vlsmc.Elf

/-- A `const char*`: into memory, or to the rest of a literal of the linker. -/
inductive CStr where
  | ptr (p : ℕ)
  | literal (s : List UInt8)

def CStr.byte (m : Memory) : CStr → UInt8
  | .ptr p => m p
  | .literal s => s.headD 0

def CStr.next : CStr → CStr
  | .ptr p => .ptr (p+1)
  | .literal s => .literal s.tail

def strEq (m : Memory) : ℕ → CStr → CStr → Option Bool
  | 0, _, _ => none
  | fuel+1, a, b =>
    if a.byte m ≠ 0 ∧ b.byte m ≠ 0 then
      if a.byte m ≠ b.byte m then some false else strEq m fuel a.next b.next
    else some (a.byte m == b.byte m)

structure LoadedObject where
  name : CStr
  loadBias : ℕ
  symtab : ℕ
  strtab : ℕ
  strtabSize : ℕ
  dynamic : ℕ
  nchain : ℕ

def maxObjects : ℕ := 8

/-- The linker's variables, the memory of the process, and the ranges that
`sys_mmap` has added to it. -/
structure State where
  mem : Memory
  mapped : List (ℕ × ℕ)
  objects : List LoadedObject
  nextLoadAddr : ℕ

/-- What the linker finds outside: the files under the paths it opens, the stack
below its buffers, and the kernel's choices when memory is mapped. -/
structure Env where
  fopen : List UInt8 → Option File
  stack : Memory
  findFreeVaddr : List (ℕ × ℕ) → ℕ → ℕ
  framesFor : List (ℕ × ℕ) → ℕ → Bool

/-- Pairs of words up to the first whose tag is 0: a dynamic table or the
auxiliary vector. -/
def entriesFrom (m : Memory) : ℕ → ℕ → Option (List (ℕ × ℕ))
  | 0, _ => none
  | fuel+1, d =>
    if read32 m d = 0 then some []
    else (entriesFrom m fuel (d+8)).map ((read32 m d, read32 m (d+4))::·)

/-- The value a loop over the entries is left with when it assigns at a tag. -/
def lastOf (tag : ℕ) (es : List (ℕ × ℕ)) : Option ℕ :=
  es.foldl (fun acc e => if e.1 = tag then some e.2 else acc) none

def valueOf (tag : ℕ) (es : List (ℕ × ℕ)) : ℕ := (lastOf tag es).getD 0

/-- A pointer of a dynamic table, null when the tag is absent. -/
def pointerOf (tag bias : ℕ) (es : List (ℕ × ℕ)) : ℕ :=
  match lastOf tag es with
  | none => 0
  | some v => u32 (v+bias)

def dtNeeded : ℕ := 1
def dtPltrelsz : ℕ := 2
def dtHash : ℕ := 4
def dtStrtab : ℕ := 5
def dtSymtab : ℕ := 6
def dtStrsz : ℕ := 10
def dtRel : ℕ := 17
def dtRelsz : ℕ := 18
def dtJmprel : ℕ := 23

/-- The object as `register_object` fills it in from its dynamic table. -/
def objectOf (m : Memory) (name : CStr) (bias dyn : ℕ) (es : List (ℕ × ℕ)) : LoadedObject where
  name := name
  loadBias := bias
  symtab := pointerOf dtSymtab bias es
  strtab := pointerOf dtStrtab bias es
  strtabSize := valueOf dtStrsz es
  dynamic := dyn
  nchain := if pointerOf dtHash bias es = 0 then 0 else read32 m (pointerOf dtHash bias es+4)

def State.push (st : State) (obj : LoadedObject) : State :=
  { st with objects := st.objects++[obj] }

/-- The object is absent from the result when the table is full. -/
def registerObject (fuel : ℕ) (st : State) (name : CStr) (bias dyn : ℕ) :
    Option (State × Option LoadedObject) :=
  if maxObjects ≤ st.objects.length then some (st, none)
  else if dyn = 0 then
    let obj : LoadedObject := ⟨name, bias, 0, 0, 0, 0, 0⟩
    some (st.push obj, some obj)
  else
    (entriesFrom st.mem fuel dyn).map fun es =>
      let obj := objectOf st.mem name bias dyn es
      (st.push obj, some obj)

structure Sym where
  stName : ℕ
  stValue : ℕ
  stInfo : ℕ
  stShndx : ℕ

def symAt (m : Memory) (a : ℕ) : Sym where
  stName := read32 m a
  stValue := read32 m (a+4)
  stInfo := (m (a+12)).toNat
  stShndx := read16 m (a+14)

/-- Defined, and of binding `STB_GLOBAL` or `STB_WEAK`. -/
def Sym.exported (s : Sym) : Bool := s.stShndx != 0 && (s.stInfo/16 == 1 || s.stInfo/16 == 2)

def LoadedObject.sym (m : Memory) (obj : LoadedObject) (i : ℕ) : Sym := symAt m (obj.symtab+16*i)

def LoadedObject.nameOf (m : Memory) (obj : LoadedObject) (i : ℕ) : CStr :=
  .ptr (obj.strtab+(obj.sym m i).stName)

/-- The loop of `lookup_symbol_in_object` over symbol indices. -/
def searchSymbols (fuel : ℕ) (m : Memory) (obj : LoadedObject) (name : CStr) :
    List ℕ → Option ℕ
  | [] => some 0
  | i::is =>
    if (obj.sym m i).exported then
      match strEq m fuel (obj.nameOf m i) name with
      | none => none
      | some true => some (u32 ((obj.sym m i).stValue+obj.loadBias))
      | some false => searchSymbols fuel m obj name is
    else searchSymbols fuel m obj name is

def lookupSymbolInObject (fuel : ℕ) (m : Memory) (obj : LoadedObject) (name : CStr) : Option ℕ :=
  if obj.symtab = 0 ∨ obj.strtab = 0 ∨ obj.nchain = 0 then some 0
  else searchSymbols fuel m obj name (List.range' 1 (obj.nchain-1))

def lookupSymbolGlobal (fuel : ℕ) (m : Memory) (name : CStr) : List LoadedObject → Option ℕ
  | [] => some 0
  | obj::objs =>
    match lookupSymbolInObject fuel m obj name with
    | none => none
    | some 0 => lookupSymbolGlobal fuel m name objs
    | some addr => some addr

structure Rel where
  rOffset : ℕ
  rInfo : ℕ

def Rel.type (r : Rel) : ℕ := r.rInfo%256
def Rel.symIdx (r : Rel) : ℕ := r.rInfo/256

def relAt (m : Memory) (a : ℕ) : Rel := ⟨read32 m a, read32 m (a+4)⟩

def r38632 : ℕ := 1
def r386GlobDat : ℕ := 6
def r386JmpSlot : ℕ := 7
def r386Relative : ℕ := 8

def LoadedObject.target (obj : LoadedObject) (r : Rel) : ℕ := u32 (r.rOffset+obj.loadBias)

def addBias (bias w : ℕ) : ℕ := u32 (w+bias)

/-- What one entry does to the word at its target, if it writes it. -/
def relocation (fuel : ℕ) (objects : List LoadedObject) (obj : LoadedObject) (m : Memory)
    (r : Rel) : Option (Option (ℕ → ℕ)) :=
  if r.type = r386Relative then some (some (addBias obj.loadBias))
  else if r.type = r386GlobDat ∨ r.type = r386JmpSlot then
    if obj.symtab = 0 ∨ obj.strtab = 0 then some none
    else (lookupSymbolGlobal fuel m (obj.nameOf m r.symIdx) objects).map fun addr =>
      some fun _ => addr
  else if r.type = r38632 then
    if obj.symtab = 0 ∨ obj.strtab = 0 then some none
    else (lookupSymbolGlobal fuel m (obj.nameOf m r.symIdx) objects).map fun addr =>
      if addr = 0 then none else some (addBias addr)
  else some none

/-- `*target = f(*target)`. -/
def update (m : Memory) (target : ℕ) (f : ℕ → ℕ) : Memory :=
  write32 m target (f (read32 m target))

def applyRel (fuel : ℕ) (objects : List LoadedObject) (obj : LoadedObject) (m : Memory)
    (r : Rel) : Option Memory :=
  match relocation fuel objects obj m r with
  | none => none
  | some none => some m
  | some (some f) => some (update m (obj.target r) f)

def doRels (fuel : ℕ) (objects : List LoadedObject) (obj : LoadedObject) (m : Memory)
    (rel sz : ℕ) : Option Memory :=
  if rel = 0 ∨ sz = 0 then some m
  else (List.range (sz/8)).foldlM (fun m i => applyRel fuel objects obj m (relAt m (rel+8*i))) m

def processRelocations (fuel : ℕ) (objects : List LoadedObject) (m : Memory)
    (obj : LoadedObject) : Option Memory :=
  if obj.dynamic = 0 then some m
  else (entriesFrom m fuel obj.dynamic).bind fun es =>
    (doRels fuel objects obj m (pointerOf dtRel obj.loadBias es) (valueOf dtRelsz es)).bind
      fun m => doRels fuel objects obj m (pointerOf dtJmprel obj.loadBias es)
        (valueOf dtPltrelsz es)

/-- One turn of the loop over relative entries in `load_shared_object`. -/
def applyRelative (obj : LoadedObject) (m : Memory) (r : Rel) : Memory :=
  if r.type = r386Relative then update m (obj.target r) (addBias obj.loadBias) else m

def relocateRelative (fuel : ℕ) (m : Memory) (obj : LoadedObject) : Option Memory :=
  if obj.dynamic = 0 then some m
  else (entriesFrom m fuel obj.dynamic).map fun es =>
    let rel := pointerOf dtRel obj.loadBias es
    let sz := valueOf dtRelsz es
    if rel = 0 ∨ sz = 0 then m
    else (List.range (sz/8)).foldl (fun m i => applyRelative obj m (relAt m (rel+8*i))) m

/-- At most `n` bytes of a string. -/
def bytesOf (m : Memory) : ℕ → ℕ → List UInt8
  | 0, _ => []
  | n+1, p => if m p = 0 then [] else m p::bytesOf m n (p+1)

/-- `/lib/` and the name, cut at 62 bytes. -/
def libPath (m : Memory) (soname : ℕ) : List UInt8 :=
  [0x2f, 0x6c, 0x69, 0x62, 0x2f]++bytesOf m 57 soname

def kernelSpaceEnd : ℕ := 0x02000000

/-- `sys_mmap` with `MAP_FIXED` and `MAP_ANONYMOUS`: zeroed pages. An address of 0
lets the kernel choose. -/
def sysMmap (env : Env) (st : State) (addr length : ℕ) : Option State :=
  if length = 0 then none
  else
    let len := pageUp length
    let vaddr := if addr = 0 then env.findFreeVaddr st.mapped len else pageDown addr
    if addr ≠ 0 ∧ addr < kernelSpaceEnd then none
    else if vaddr = 0 then none
    else if env.framesFor st.mapped len then
      some { st with mem := place st.mem vaddr len (fun _ => 0)
                     mapped := (vaddr, u32 (vaddr+len))::st.mapped }
    else none

/-- The end of the highest segment, rounded up to a page. -/
def totalSize (phs : List Phdr) : ℕ :=
  pageUp (phs.foldl (fun total ph =>
    if ph.pType = ptLoad then max total (u32 (ph.pVaddr+ph.pMemsz)) else total) 0)

/-- The file offset after skipping in reads of at most 512 bytes. -/
def skip (f : File) : ℕ → ℕ → ℕ → ℕ
  | 0, off, _ => off
  | fuel+1, off, remaining =>
    if remaining = 0 then off
    else
      let skipped := f.available off (min 512 remaining)
      if skipped = 0 then off else skip f fuel (off+skipped) (remaining-skipped)

def readInto (f : File) : ℕ → Memory → ℕ → ℕ → ℕ → Memory
  | 0, m, _, _, _ => m
  | fuel+1, m, dest, off, toRead =>
    if toRead = 0 then m
    else
      let n := f.available off toRead
      if n = 0 then m
      else readInto f fuel (place m dest n (fun i => f.byte (off+i))) (dest+n) (off+n) (toRead-n)

def copySegment (f : File) (bias : ℕ) (m : Memory) (ph : Phdr) : Memory :=
  if ph.pType ≠ ptLoad then m
  else if ph.pFilesz = 0 then m
  else readInto f ph.pFilesz m (u32 (ph.pVaddr+bias)) (skip f ph.pOffset 0 ph.pOffset) ph.pFilesz

def copySegments (f : File) (bias : ℕ) (m : Memory) (phs : List Phdr) : Memory :=
  phs.foldl (copySegment f bias) m

/-- The address of the `PT_DYNAMIC` segment. -/
def dynamicAt (phs : List Phdr) (bias : ℕ) : ℕ :=
  match phs.find? (·.pType == ptDynamic) with
  | none => 0
  | some ph => u32 (ph.pVaddr+bias)

/-- `hdr_buf` after the first read of the file. -/
def hdrBuf (env : Env) (f : File) : Memory := headerBuf f 512 env.stack

/-- The checks of `load_shared_object` on the header. -/
def File.loadable (env : Env) (f : File) : Bool :=
  decide (52 ≤ f.available 0 512) && validMagic (hdrBuf env f)

/-- `load_shared_object` up to the registration of the object. -/
def mapSharedObject (fuel : ℕ) (env : Env) (st : State) (soname : ℕ) :
    Option (State × Option LoadedObject) :=
  match env.fopen (libPath st.mem soname) with
  | none => some (st, none)
  | some f =>
    if File.loadable env f then
      let bias := st.nextLoadAddr
      let phs := phdrs (hdrBuf env f)
      match sysMmap env st bias (totalSize phs) with
      | none => some (st, none)
      | some st1 =>
        registerObject fuel
          { st1 with mem := copySegments f bias st1.mem phs
                     nextLoadAddr := u32 (pageUp (bias+totalSize phs)+4096) }
          (.ptr soname) bias (dynamicAt phs bias)
    else some (st, none)

def loadSharedObject (fuel : ℕ) (env : Env) (st : State) (soname : ℕ) : Option State :=
  match mapSharedObject fuel env st soname with
  | none => none
  | some (st1, none) => some st1
  | some (st1, some obj) =>
    (relocateRelative fuel st1.mem obj).map fun m => { st1 with mem := m }

/-- Whether an object of that name is registered. -/
def already (fuel : ℕ) (m : Memory) (soname : ℕ) : List LoadedObject → Option Bool
  | [] => some false
  | obj::objs =>
    match strEq m fuel obj.name (.ptr soname) with
    | none => none
    | some true => some true
    | some false => already fuel m soname objs

/-- The `DT_NEEDED` loop of `_ld_main`, for a function that loads one library. -/
def loadNeeded (load : State → ℕ → Option State) (names : ℕ) (strtab : ℕ) :
    ℕ → State → ℕ → Option State
  | 0, _, _ => none
  | fuel+1, st, d =>
    if read32 st.mem d = 0 then some st
    else if read32 st.mem d = dtNeeded ∧ strtab ≠ 0 then
      let soname := strtab+read32 st.mem (d+4)
      match already names st.mem soname st.objects with
      | none => none
      | some true => loadNeeded load names strtab fuel st (d+8)
      | some false => (load st soname).bind fun st1 => loadNeeded load names strtab fuel st1 (d+8)
    else loadNeeded load names strtab fuel st (d+8)

/-- `parse_dynamic_for_dyn_ptr`. -/
def parseDynamic (m : Memory) (phdr phnum phent bias : ℕ) : ℕ :=
  match (List.range phnum).find? (fun i => (phdrAt m (phdr+i*phent)).pType == ptDynamic) with
  | none => 0
  | some i => u32 ((phdrAt m (phdr+i*phent)).pVaddr+bias)

/-- The word after the next null word. -/
def skipWords (m : Memory) : ℕ → ℕ → Option ℕ
  | 0, _ => none
  | fuel+1, p => if read32 m p = 0 then some (p+4) else skipWords m fuel (p+4)

/-- The auxiliary vector behind the arguments and the environment. -/
def auxv (fuel : ℕ) (m : Memory) (stackPtr : ℕ) : Option (List (ℕ × ℕ)) :=
  (skipWords m fuel (stackPtr+4+4*(read32 m stackPtr+1))).bind (entriesFrom m fuel)

def atPhdr (aux : List (ℕ × ℕ)) : ℕ := valueOf 3 aux
def atPhent (aux : List (ℕ × ℕ)) : ℕ := valueOf 4 aux
def atPhnum (aux : List (ℕ × ℕ)) : ℕ := valueOf 5 aux
def atEntry (aux : List (ℕ × ℕ)) : ℕ := valueOf 9 aux

/-- The linker's variables at its start. -/
def start (m : Memory) : State := ⟨m, [], [], 0x60000000⟩

def appName : CStr := .literal [0x61, 0x70, 0x70]

/-- The first `DT_STRTAB`, where the loop for the names of libraries stops. -/
def appStrtab (es : List (ℕ × ℕ)) : ℕ :=
  match es.find? (·.1 == dtStrtab) with
  | none => 0
  | some e => e.2

/-- `_ld_main` up to the relocations, for a function that loads one library. -/
def loadObjects (load : State → ℕ → Option State) (fuel : ℕ) (m : Memory)
    (aux : List (ℕ × ℕ)) : Option State :=
  let dyn := parseDynamic m (atPhdr aux) (atPhnum aux) (atPhent aux) 0
  (registerObject fuel (start m) appName 0 dyn).bind fun r =>
    if dyn = 0 then some r.1
    else (entriesFrom m fuel dyn).bind fun es =>
      loadNeeded load fuel (appStrtab es) fuel r.1 dyn

/-- The entry point returned, 0 for an incomplete auxiliary vector, and the state
at the return. -/
def ldMain (fuel : ℕ) (env : Env) (m : Memory) (stackPtr : ℕ) : Option (ℕ × State) :=
  (auxv fuel m stackPtr).bind fun aux =>
    if atPhdr aux = 0 ∨ atEntry aux = 0 then some (0, start m)
    else (loadObjects (loadSharedObject fuel env) fuel m aux).bind fun st =>
      (st.objects.foldlM (processRelocations fuel st.objects) st.mem).map fun m' =>
        (atEntry aux, { st with mem := m' })

end Vlsmc.LdSo
