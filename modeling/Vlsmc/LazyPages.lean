import Vlsmc.RegionRuns
import Vlsmc.UserAccesses

/-!
# System calls and the absent pages of their buffers

The heap and the VMAs get their pages at the first access, but `handle_page_fault` gives a page
only if the error code has the user bit. A system call reads and writes the buffer of its caller
in ring 0, and there `isr_handler` stops the machine.
-/

set_option autoImplicit false

namespace Vlsmc.LazyPages
open Vlsmc.ByteMemory Vlsmc.Words Vlsmc.Elf Vlsmc.DemandPaging Vlsmc.ElfRelocations
open Vlsmc.Regions Vlsmc.RegionRuns Vlsmc.UserAccesses

/-- `handle_page_fault`; `cow` is what `cow_handle_fault` does. -/
def handleFault (cow : Process → ℕ → ℕ → Option Process) (p : Process)
    (faultAddr errorCode : ℕ) (cached : Option ℕ) (newFrame : ℕ) : Option Process :=
  let isPresent := errorCode.testBit 0
  let isWrite := errorCode.testBit 1
  let isUser := errorCode.testBit 2
  if isPresent && isWrite then cow p faultAddr errorCode
  else if !isPresent && isUser then handlePageFault p faultAddr cached newFrame
  else none

inductive Interrupt where
  | returned (p : Process)
  | terminated
  | panic

/-- `isr_handler` for a page fault of code with the selector `cs`. -/
def isrPageFault (cow : Process → ℕ → ℕ → Option Process) (p : Process)
    (faultAddr errorCode cs : ℕ) (cached : Option ℕ) (newFrame : ℕ) : Interrupt :=
  match handleFault cow p faultAddr errorCode cached newFrame with
  | some q => .returned q
  | none => if cs%4 = 3 then .terminated else .panic

def kernelCode : ℕ := 0x08
def userCode : ℕ := 0x1B

/-- The error code of an access to an absent page. -/
def absentCode (cs : ℕ) (isWrite : Bool) : ℕ :=
  (if isWrite then 2 else 0)+(if cs%4 = 3 then 4 else 0)

/-- What the kernel outside of the process does and has: copy-on-write, and for a fault at an
address the frame in the page cache and the one that `alloc_frame` returns. -/
structure Environment where
  cow : Process → ℕ → ℕ → Option Process
  cached : ℕ → Option ℕ
  newFrame : ℕ → ℕ

def storeByte (p : Process) (addr : ℕ) (byte : UInt8) : Process :=
  match p.table (addr/4096) with
  | none => p
  | some e => p.setFrame e.1 (write8 (p.frames e.1) (addr%4096) byte)

/-- The memory as ring 0 has it: `CR0.WP` is clear, so a present page takes every store. -/
def ringZero (env : Environment) : Pager Process where
  present p addr := (p.table (addr/4096)).isSome
  load p addr := (readByte p addr).getD 0
  store := storeByte
  fault p addr isWrite :=
    match isrPageFault env.cow p addr (absentCode kernelCode isWrite) kernelCode (env.cached addr)
      (env.newFrame addr) with
    | .returned q => some q
    | .terminated => none
    | .panic => none

/-- The operations of a vnode: offset, buffer and size, over the state `K` of the drivers. -/
structure VnodeOps (K : Type) where
  read : Option (K → ℕ → ℕ → ℕ → Code (ℤ×K))
  write : Option (K → ℕ → ℕ → ℕ → Code (ℤ×K))

structure OpenFile (K : Type) where
  vn : Option (VnodeOps K)
  offset : ℕ
  flags : ℕ

/-- The descriptors of the thread, the `file` records they point to, and the drivers. -/
structure Descriptors (K : Type) where
  fdTable : ℕ → Option ℕ
  files : ℕ → OpenFile K
  drivers : K

variable {K : Type}

def Descriptors.lookup (s : Descriptors K) (ebx : ℕ) : Option (ℕ×VnodeOps K) :=
  let fd := toInt32 ebx-3
  if fd < 0 ∨ 16 ≤ fd then none
  else (s.fdTable fd.toNat).bind fun f => (s.files f).vn.map fun vn => (f, vn)

/-- The end of both calls: the offset moves by what the driver returns. -/
def Descriptors.advance (s : Descriptors K) (f : ℕ) (r : ℤ×K) : ℕ×Descriptors K :=
  if 0 < r.1 then
    (r.1.toNat, { s with
      files := fun g => if g = f then
        { s.files f with offset := u32 ((s.files f).offset+r.1.toNat) } else s.files g
      drivers := r.2 })
  else (0, { s with drivers := r.2 })

def sysFread (s : Descriptors K) (ebx ecx edx : ℕ) : Code (ℕ×Descriptors K) :=
  match s.lookup ebx with
  | none => .done (0, s)
  | some (f, vn) =>
    if (s.files f).flags.testBit 0 && !(s.files f).flags.testBit 1 then .done (0, s)
    else match vn.read with
      | none => .done (0, s)
      | some read => (read s.drivers (s.files f).offset ecx edx).bind fun r => .done (s.advance f r)

def sysFwrite (s : Descriptors K) (ebx ecx edx : ℕ) : Code (ℕ×Descriptors K) :=
  match s.lookup ebx with
  | none => .done (0, s)
  | some (f, vn) =>
    match vn.write with
    | none => .done (0, s)
    | some write => (write s.drivers (s.files f).offset ecx edx).bind fun r => .done (s.advance f r)

/-- `buffer[i] = data[i]` in order. -/
def copyOut {α : Type} (buffer : ℕ) (next : Code α) : List UInt8 → Code α
  | [] => next
  | b::bs => .store (u32 buffer) b (copyOut (buffer+1) next bs)

/-- `data[i] = buffer[i]` in order. -/
def copyIn {α : Type} (buffer : ℕ) : ℕ → (List UInt8 → Code α) → Code α
  | 0, next => next []
  | n+1, next => .load (u32 buffer) fun b => copyIn (buffer+1) n fun bs => next (b::bs)

def InBuffer (buffer size x : ℕ) : Prop := buffer ≤ x ∧ x < buffer+size

/-- The buffer lies in the heap and the VMAs of the process. -/
def Valid (p : Process) (buffer size : ℕ) : Prop := ∀ x, InBuffer buffer size x →
  x < 4294967296 ∧ ((heap p).Has x ∨ ∃ v ∈ p.vmaList, (vmaRange v).Has x)

/-- No page of the process has one of the new frames. -/
def FreshFrames (p : Process) (as : List Access) : Prop :=
  ∀ a ∈ as, ∀ n e, p.table n = some e → e.1 ≠ a.newFrame

/-- The call ends, and with the same result and the same bytes in memory when the caller has
touched addresses of the buffer before. -/
def Transparent {α : Type} (env : Environment) (p : Process) (buffer size : ℕ) (c : Code α) :
    Prop :=
  ∃ r q, (ringZero env).run c p = some (r, q) ∧
    ∀ as p', (∀ a ∈ as, InBuffer buffer size a.addr) → FreshFrames p as →
      accesses p as = some p' →
      ∃ q', (ringZero env).run c p' = some (r, q') ∧
        ∀ x byte, readByte q x = some byte → readByte q' x = some byte

section Faults

variable {env : Environment} {p q : Process}

/-- In ring 0 no fault on an absent page is resolved. -/
theorem ringZero_fault (env : Environment) (p : Process) (addr : ℕ) (isWrite : Bool) :
    (ringZero env).fault p addr isWrite = none := by
  cases isWrite <;> rfl

theorem ringZero_panics (env : Environment) (p : Process) (addr : ℕ) (isWrite : Bool)
    (cached : Option ℕ) (newFrame : ℕ) :
    isrPageFault env.cow p addr (absentCode kernelCode isWrite) kernelCode cached newFrame =
      .panic := by
  cases isWrite <;> rfl

/-- The same access in user mode gets its page. -/
theorem user_fault_resolved (env : Environment) (isWrite : Bool) {addr : ℕ}
    (h : (heap p).Has addr ∨ ∃ v ∈ p.vmaList, (vmaRange v).Has addr) (cached : Option ℕ)
    (newFrame : ℕ) : ∃ q, isrPageFault env.cow p addr (absentCode userCode isWrite) userCode
      cached newFrame = .returned q ∧ (q.table (addr/4096)).isSome = true := by
  have hpage : pageDown addr/4096 = addr/4096 := Nat.mul_div_cancel _ (by decide)
  have hmap : ∀ (r : Process) (frame flags : ℕ),
      ((r.mapPage (pageDown addr) frame flags).table (addr/4096)).isSome = true := by
    intro r frame flags
    simp [Process.mapPage, hpage]
  have hq : ∃ q, handlePageFault p addr cached newFrame = some q ∧
      (q.table (addr/4096)).isSome = true := by
    unfold handlePageFault
    split_ifs with hh
    · exact ⟨_, rfl, hmap _ _ _⟩
    · obtain ⟨v, hv, hin⟩ := h.resolve_left hh
      have hsome : (p.vmaList.find? fun v =>
          decide (v.start ≤ addr) && decide (addr < v.finish)).isSome = true :=
        List.find?_isSome.mpr ⟨v, hv, by simpa [vmaRange, Range.Has] using hin⟩
      obtain ⟨w, hw⟩ := Option.isSome_iff_exists.mp hsome
      rw [hw]
      dsimp only
      split
      · exact ⟨_, rfl, hmap _ _ _⟩
      · exact ⟨_, rfl, hmap _ _ _⟩
  obtain ⟨q, hq, hpresent⟩ := hq
  refine ⟨q, ?_, hpresent⟩
  have hcode : handleFault env.cow p addr (absentCode userCode isWrite) cached newFrame =
      handlePageFault p addr cached newFrame := by
    cases isWrite <;> rfl
  rw [isrPageFault, hcode, hq]

/-- A fault changes the table at its page, and the frames at the new one. -/
theorem fault_changes {addr newFrame : ℕ} {cached : Option ℕ}
    (h : handlePageFault p addr cached newFrame = some q) :
    (∀ n, n ≠ addr/4096 → q.table n = p.table n) ∧ ∀ f, f ≠ newFrame → q.frames f = p.frames f := by
  have hpage : pageDown addr/4096 = addr/4096 := Nat.mul_div_cancel _ (by decide)
  have hmap : ∀ (r : Process) (frame flags n : ℕ), n ≠ addr/4096 →
      (r.mapPage (pageDown addr) frame flags).table n = r.table n := by
    intro r frame flags n hn
    simp [Process.mapPage, hpage, hn]
  unfold handlePageFault at h
  split_ifs at h
  · obtain rfl := Option.some.inj h
    exact ⟨hmap _ _ _, fun _ _ => rfl⟩
  · split at h
    · exact absurd h.symm (Option.some_ne_none _)
    · dsimp only at h
      split at h <;> obtain rfl := Option.some.inj h
      · exact ⟨hmap _ _ _, fun _ _ => rfl⟩
      · exact ⟨hmap _ _ _, fun f hf => if_neg hf⟩

end Faults

section Relation

variable {p q r : Process}

/-- All pages of `p` are in `q` with the same bytes. -/
structure Extends (p q : Process) : Prop where
  table : ∀ n e, p.table n = some e → q.table n = some e
  frames : ∀ n e, p.table n = some e → q.frames e.1 = p.frames e.1

theorem extends_refl (p : Process) : Extends p p := ⟨fun _ _ h => h, fun _ _ _ => rfl⟩

theorem extends_access (h : Extends p q) {a : Access}
    (hf : ∀ n e, p.table n = some e → e.1 ≠ a.newFrame) (hr : access q a = some r) :
    Extends p r := by
  unfold access at hr
  split_ifs at hr with hp
  · obtain rfl := Option.some.inj hr
    exact h
  · obtain ⟨htable, hframes⟩ := fault_changes hr
    refine ⟨fun n e he => ?_, fun n e he => ?_⟩
    · rw [htable n, h.table n e he]
      rintro rfl
      exact hp (by rw [h.table _ e he]; rfl)
    · rw [hframes e.1 (hf n e he), h.frames n e he]

theorem extends_accesses (h : Extends p q) (as : List Access) (hf : FreshFrames p as)
    (hr : accesses q as = some r) : Extends p r := by
  induction as generalizing q with
  | nil =>
    obtain rfl := Option.some.inj hr
    exact h
  | cons a as ih =>
    obtain ⟨q', ha, hr⟩ := Option.bind_eq_some_iff.mp hr
    exact ih (extends_access h (hf a List.mem_cons_self) ha)
      (fun b hb => hf b (List.mem_cons_of_mem a hb)) hr

theorem extends_readByte (h : Extends p q) {x : ℕ} {byte : UInt8}
    (hb : readByte p x = some byte) : readByte q x = some byte := by
  obtain ⟨e, he, hbyte⟩ := Option.map_eq_some_iff.mp hb
  rw [readByte, h.table _ e he, Option.map_some, h.frames _ e he, hbyte]

theorem storeByte_table (p : Process) (addr : ℕ) (byte : UInt8) :
    (storeByte p addr byte).table = p.table := by
  unfold storeByte
  split <;> rfl

theorem extends_storeByte (h : Extends p q) {addr : ℕ} (byte : UInt8)
    (hp : (p.table (addr/4096)).isSome = true) :
    Extends (storeByte p addr byte) (storeByte q addr byte) := by
  obtain ⟨e, he⟩ := Option.isSome_iff_exists.mp hp
  refine ⟨fun n e' he' => ?_, fun n e' he' => ?_⟩
  · rw [storeByte_table] at he' ⊢
    exact h.table n e' he'
  · rw [storeByte_table] at he'
    simp only [storeByte, he, h.table _ e he, Process.setFrame, h.frames _ e he]
    split
    · rfl
    · exact h.frames n e' he'

end Relation

section Calls

variable {α : Type} {env : Environment} {p : Process}

theorem ringZero_store (env : Environment) (p : Process) (addr : ℕ) (byte : UInt8) (x : ℕ) :
    (ringZero env).present ((ringZero env).store p addr byte) x = (ringZero env).present p x := by
  change ((storeByte p addr byte).table _).isSome = _
  rw [storeByte_table]
  rfl

theorem transparent_iff (env : Environment) (p : Process) (buffer size : ℕ) (c : Code α) :
    Transparent env p buffer size c ↔
      ∀ x ∈ (ringZero env).touched c p, (p.table (x/4096)).isSome = true := by
  constructor
  · rintro ⟨r, q, hrun, -⟩
    exact Pager.present_of_run (ringZero_fault env) (ringZero_store env) c hrun
  · intro h
    refine ⟨_, _, Pager.run_of_present (ringZero_store env) c h, fun as p' _ hf has => ?_⟩
    have hext := extends_accesses (extends_refl p) as hf has
    obtain ⟨hp', hresult, hrel⟩ := Pager.plain_related (M := ringZero env) (R := Extends)
      (fun s t addr hst hs => by
        obtain ⟨e, he⟩ := Option.isSome_iff_exists.mp hs
        exact Option.isSome_iff_exists.mpr ⟨e, hst.table _ e he⟩)
      (fun s t addr hst hs => by
        obtain ⟨e, he⟩ := Option.isSome_iff_exists.mp hs
        have hbyte : readByte s addr = some (s.frames e.1 (addr%4096)) := by
          rw [readByte, he, Option.map_some]
        change (readByte t addr).getD 0 = (readByte s addr).getD 0
        rw [hbyte, extends_readByte hst hbyte])
      (fun s t addr byte hst hs => extends_storeByte hst byte hs) (ringZero_store env) c hext h
    refine ⟨((ringZero env).plain c p').2, ?_, fun x byte => extends_readByte hrel⟩
    rw [Pager.run_of_present (ringZero_store env) c hp', ← hresult]

end Calls

/-- A call on a buffer in the heap and the VMAs is transparent exactly if the pages that it
touches are there. -/
theorem lazy_pages_transparent {α : Type} (env : Environment) (p : Process) (buffer size : ℕ)
    (c : Code α) :
    (Valid p buffer size → c.Within (InBuffer buffer size) → Transparent env p buffer size c) ↔
    (Valid p buffer size → c.Within (InBuffer buffer size) →
      ∀ x ∈ (ringZero env).touched c p, (p.table (x/4096)).isSome = true) := by
  rw [transparent_iff]

section Streams

variable {env : Environment} {p : Process} {s : Descriptors K} {ebx ecx edx f : ℕ}
  {vn : VnodeOps K}

theorem touched_copyOut {α : Type} (M : Pager Process) (a : α) (data : List UInt8) (buffer : ℕ)
    (p : Process) : M.touched (copyOut buffer (.done a) data) p =
      (List.range data.length).map fun i => u32 (buffer+i) := by
  induction data generalizing buffer p with
  | nil => rfl
  | cons b bs ih =>
    rw [copyOut, Pager.touched, ih, List.length_cons, List.range_succ_eq_map, List.map_cons,
      List.map_map]
    congr 1
    refine List.map_congr_left fun i _ => ?_
    change u32 (buffer+1+i) = u32 (buffer+(i+1))
    rw [Nat.add_assoc, Nat.add_comm 1 i]

theorem touched_copyIn {α : Type} (M : Pager Process) (n buffer : ℕ) (next : List UInt8 → α)
    (p : Process) : M.touched (copyIn buffer n fun bs => .done (next bs)) p =
      (List.range n).map fun i => u32 (buffer+i) := by
  induction n generalizing buffer next with
  | zero => rfl
  | succ n ih =>
    rw [copyIn, Pager.touched, ih (buffer+1) fun bs => next (_::bs), List.range_succ_eq_map,
      List.map_cons, List.map_map]
    congr 1
    refine List.map_congr_left fun i _ => ?_
    change u32 (buffer+1+i) = u32 (buffer+(i+1))
    rw [Nat.add_assoc, Nat.add_comm 1 i]

/-- The call touches no more than its driver. -/
theorem touched_advance (M : Pager Process) (c : Code (ℤ×K)) (s : Descriptors K) (f : ℕ)
    (p : Process) : M.touched (c.bind fun r => .done (s.advance f r)) p = M.touched c p := by
  rw [Pager.touched_bind]
  exact List.append_nil _

/-- A read of some bytes needs the pages of so many bytes of the buffer. -/
theorem fread_transparent (hfd : s.lookup ebx = some (f, vn))
    (hmode : ((s.files f).flags.testBit 0 && !(s.files f).flags.testBit 1) = false)
    {read : K → ℕ → ℕ → ℕ → Code (ℤ×K)} (hread : vn.read = some read) {data : List UInt8}
    {r : ℤ×K} (hdata : read s.drivers (s.files f).offset ecx edx = copyOut ecx (.done r) data) :
    Transparent env p ecx edx (sysFread s ebx ecx edx) ↔
      ∀ i < data.length, (p.table (u32 (ecx+i)/4096)).isSome = true := by
  have hcall : sysFread s ebx ecx edx =
      (copyOut ecx (.done r) data).bind fun r => .done (s.advance f r) := by
    rw [sysFread, hfd]
    dsimp only
    rw [hmode, hread]
    exact congrArg (Code.bind · _) hdata
  rw [transparent_iff, hcall, touched_advance, touched_copyOut]
  simp

/-- A write needs the pages of all bytes that the driver takes. -/
theorem fwrite_transparent (hfd : s.lookup ebx = some (f, vn))
    {write : K → ℕ → ℕ → ℕ → Code (ℤ×K)} (hwrite : vn.write = some write)
    {result : List UInt8 → ℤ×K}
    (hdata : write s.drivers (s.files f).offset ecx edx =
      copyIn ecx edx fun bs => .done (result bs)) :
    Transparent env p ecx edx (sysFwrite s ebx ecx edx) ↔
      ∀ i < edx, (p.table (u32 (ecx+i)/4096)).isSome = true := by
  have hcall : sysFwrite s ebx ecx edx =
      (copyIn ecx edx fun bs => .done (result bs)).bind fun r => .done (s.advance f r) := by
    rw [sysFwrite, hfd]
    dsimp only
    rw [hwrite]
    exact congrArg (Code.bind · _) hdata
  rw [transparent_iff, hcall, touched_advance, touched_copyIn]
  simp

end Streams

/-- A process with one page of heap that it has not touched. -/
def freshHeap : Process where
  heapStart := 0x10000000
  heapEnd := 0x10001000
  vmaList := []
  table := fun _ => none
  frames := fun _ _ => 0
  executable := none

/-- Descriptor 3 is a file of two bytes, open for reading. -/
def twoByteFile : Descriptors Unit where
  fdTable fd := if fd = 0 then some 0 else none
  files _ := ⟨some ⟨some fun k _ buffer _ => copyOut buffer (.done (2, k)) [79, 75], none⟩, 0, 0⟩
  drivers := ()

def frameAt (frame : ℕ) : Environment := ⟨fun _ _ _ => none, fun _ => none, fun _ => frame⟩

/-- The file is read into the fresh heap: the machine stops, where a store of the program itself
gets its page. -/
theorem fresh_buffer_panics : Valid freshHeap 0x10000000 2 ∧
    (sysFread twoByteFile 3 0x10000000 2).Within (InBuffer 0x10000000 2) ∧
    ¬ Transparent (frameAt 0x2100000) freshHeap 0x10000000 2 (sysFread twoByteFile 3 0x10000000 2) ∧
    (∀ isWrite, isrPageFault (frameAt 0x2100000).cow freshHeap 0x10000000
      (absentCode kernelCode isWrite) kernelCode none 0x2100000 = .panic) ∧
    ∀ isWrite, ∃ q, isrPageFault (frameAt 0x2100000).cow freshHeap 0x10000000
      (absentCode userCode isWrite) userCode none 0x2100000 = .returned q := by
  have hheap : ∀ x, InBuffer 0x10000000 2 x → (heap freshHeap).Has x := fun x hx =>
    ⟨hx.1, lt_trans hx.2 (by decide)⟩
  have hbuffer : InBuffer 0x10000000 2 0x10000000 ∧ InBuffer 0x10000000 2 0x10000001 := by
    unfold InBuffer
    decide
  refine ⟨fun x hx => ⟨lt_trans hx.2 (by decide), Or.inl (hheap x hx)⟩,
    ⟨hbuffer.1, hbuffer.2, trivial⟩, fun h => ?_,
    fun isWrite => ringZero_panics _ _ _ isWrite _ _, fun isWrite => ?_⟩
  · have hpage := (fread_transparent rfl rfl rfl rfl).mp h 0 (by decide)
    exact absurd hpage (by decide)
  · obtain ⟨q, hq, -⟩ := user_fault_resolved (frameAt 0x2100000) isWrite
      (Or.inl (hheap _ hbuffer.1)) none 0x2100000
    exact ⟨q, hq⟩

end Vlsmc.LazyPages
