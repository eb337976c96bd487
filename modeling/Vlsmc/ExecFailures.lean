import Vlsmc.ExecArguments

/-!
# An `exec` that fails

`sys_exec` returns -1 in several places. Those before the old program is taken apart only
leave the new name behind, under which the pages of the old program are looked up from then
on. The last two come after the descriptors, the address space and the VMAs are gone.
-/

set_option autoImplicit false

namespace Vlsmc.ExecFailures
open Vlsmc.ByteMemory Vlsmc.Words Vlsmc.Elf Vlsmc.DemandPaging Vlsmc.ElfImage
open Vlsmc.ExecArguments
open Vlsmc.ProgramStart (Path Heap Kernel execAccepts userStackTop)

/-- An open file in the table of descriptors, and its flags. -/
structure Descriptor where
  file : ℕ
  flags : ℕ

/-- `O_CLOEXEC`. -/
def closedByExec (d : Descriptor) : Bool := d.flags.testBit 11

/-- What `sys_exec` replaces of a thread. -/
structure Thread where
  name : Path
  pageDirectoryPhys : ℕ
  heapStart : ℕ
  heapEnd : ℕ
  heapLock : Bool
  vmaList : List Vma
  fdTable : List (Option Descriptor)

/-- The page directories in use, with the frame and the flags of each user page, the bytes
of the frames, and the thread that makes the call. -/
structure System where
  kernelDirectory : ℕ
  spaces : ℕ → Option (ℕ → Option (ℕ × ℕ))
  frames : ℕ → Memory
  thread : Thread

/-- What the rest of the kernel does for one call. `kmalloc` answers as `heap` says; the
frames for the directory and the stack are those that `alloc_frame` gives, which is never
the directory of the kernel; `table` is whether `map_page` has a page table. -/
structure Outcomes (kernelDirectory : ℕ) where
  resolve : Path → Option File
  heap : Heap
  directory : Option ℕ
  stack : ℕ → Option ℕ
  table : ℕ → Bool
  fresh : directory ≠ some kernelDirectory

namespace System

/-- The loop that copies the name; an empty one changes nothing. -/
def rename (s : System) (filename : Path) : System :=
  { s with thread := { s.thread with
      name := if filename = [] then s.thread.name else filename.take 31 } }

def destroyAddressSpace (s : System) (dir : ℕ) : System :=
  if dir = 0 ∨ dir = s.kernelDirectory then s
  else { s with spaces := fun d => if d = dir then none else s.spaces d }

def closeOnExec (fds : List (Option Descriptor)) : List (Option Descriptor) :=
  fds.map fun fd => fd.filter fun d => !closedByExec d

/-- Descriptors, address space and VMAs of the old program. -/
def tearDown (s : System) : System :=
  let s1 := s.destroyAddressSpace s.thread.pageDirectoryPhys
  { s1 with thread := { s.thread with fdTable := closeOnExec s.thread.fdTable, vmaList := [] } }

/-- The new directory has no user pages. -/
def enter (s : System) (dir : ℕ) : System :=
  { s with
    spaces := fun d => if d = dir then some fun _ => none else s.spaces d
    thread := { s.thread with pageDirectoryPhys := dir } }

/-- The VMAs and the empty heap of the new program. -/
def describe (s : System) (seg : ProgramStart.Segments) : System :=
  let heapBase := u32 (pageUp seg.maxVaddr+4096)
  { s with thread := { s.thread with
      vmaList := seg.vmaList, heapStart := heapBase, heapEnd := heapBase, heapLock := false } }

/-- A zeroed page. -/
def mapPage (s : System) (page frame : ℕ) : System :=
  { s with
    spaces := fun d => if d = s.thread.pageDirectoryPhys then
        (s.spaces d).map fun table n =>
          if n = page/4096 then some (frame, pagePresent+pageWritable+pageUser) else table n
      else s.spaces d
    frames := fun g => if g = frame then fun _ => 0 else s.frames g }

end System

variable {K : ℕ}

/-- The last `n` of the pages of the stack. Without a page table the store of the first zero
faults in the kernel. -/
def mapStack (o : Outcomes K) : ℕ → System → Option (Bool × System)
  | 0, s => some (true, s)
  | n+1, s =>
    match o.stack (userStackPages-(n+1)) with
    | none => some (false, s)
    | some frame =>
      if o.table (userStackPages-(n+1)) then
        mapStack o n (s.mapPage (userStackTop-(n+1)*4096) frame)
      else none

/-- From the closing of descriptors on. -/
def replaceProgram (o : Outcomes K) (buf : Memory) (s : System) :
    Option (Option ℕ × System) :=
  match o.directory with
  | none => some (none, s.tearDown)
  | some dir =>
    let seg := (phdrs buf).foldl o.heap.execSegment ⟨[], 0, false⟩
    (mapStack o userStackPages ((s.tearDown.enter dir).describe seg)).map fun r =>
      (if r.1 then some (eEntry buf) else none, r.2)

/-- `none` in the result is the return value -1, an address the first instruction of the new
program. `memory` is what the kernel reads at the addresses of the caller; a null `filename`
is `none`. -/
def sysExec (o : Outcomes K) (memory : Memory) (filename : Option Path) (argv envp : ℕ)
    (s : System) : Option (Option ℕ × System) :=
  match filename with
  | none => some (none, s)
  | some filename =>
    let s := s.rename filename
    match o.heap.header, o.resolve filename with
    | some old, some f =>
      if execAccepts f old = false then some (none, s)
      else
        (countStrings memory argv 0).bind fun args =>
          (countStrings memory envp args.2).bind fun envs =>
            if 0 < envs.2 ∧ o.heap.strings = false then some (none, s)
            else replaceProgram o (headerBuf f 4096 old) s
    | _, _ => some (none, s)

/-! ## What a failed call leaves -/

/-- The caller is as it was: its directory with all pages and their contents, its VMAs, heap,
descriptors and name. -/
structure Intact (s s' : System) : Prop where
  thread : s'.thread = s.thread
  space : s'.spaces s.thread.pageDirectoryPhys = s.spaces s.thread.pageDirectoryPhys
  contents : ∀ table n p, s.spaces s.thread.pageDirectoryPhys = some table → table n = some p →
    s'.frames p.1 = s.frames p.1

/-- The caller is a thread of the kernel, or has a byte that is not zero: the instruction that
makes the call. -/
def Running (s : System) : Prop :=
  s.thread.pageDirectoryPhys = s.kernelDirectory ∨ ∃ table n p k, s.spaces s.thread.pageDirectoryPhys = some table ∧ table n = some p ∧
    s.frames p.1 k ≠ 0

/-- The failures before anything but the name is replaced. -/
def Refused (o : Outcomes K) (memory : Memory) (filename : Path) (argv envp : ℕ) : Prop :=
  o.heap.header = none ∨ o.resolve filename = none ∨
  (∃ old f, o.heap.header = some old ∧ o.resolve filename = some f ∧ execAccepts f old = false) ∨
  ∃ args envs, countStrings memory argv 0 = some args ∧ countStrings memory envp args.2 = some envs ∧
    0 < envs.2 ∧ o.heap.strings = false

/-- A thread in the directory of the kernel, or in none, without VMAs and descriptors that
would be closed. -/
def NothingToReplace (s : System) : Prop :=
  (s.thread.pageDirectoryPhys = 0 ∨ s.thread.pageDirectoryPhys = s.kernelDirectory) ∧
  s.thread.vmaList = [] ∧ System.closeOnExec s.thread.fdTable = s.thread.fdTable

/-- Null, or the name the caller has already, and a failure that comes early enough. -/
def KeepsCaller (o : Outcomes K) (memory : Memory) (filename : Option Path) (argv envp : ℕ)
    (s : System) : Prop :=
  match filename with
  | none => True
  | some filename => (filename = [] ∨ filename.take 31 = s.thread.name) ∧
      (Refused o memory filename argv envp ∨ o.directory = none ∧ NothingToReplace s)

section Exits

variable {o : Outcomes K} {memory : Memory} {filename : Path} {argv envp : ℕ} {s s' : System}

theorem rename_same (h : filename = [] ∨ filename.take 31 = s.thread.name) :
    s.rename filename = s := by
  unfold System.rename
  rcases h with h | h
  · rw [if_pos h]
  · rw [h, ite_self]

theorem rename_of_name (h : (s.rename filename).thread.name = s.thread.name) :
    filename = [] ∨ filename.take 31 = s.thread.name := by
  by_cases hf : filename = []
  · exact Or.inl hf
  · exact Or.inr ((if_neg hf).symm.trans h)

/-- The early failures, and the rest of the call. -/
theorem sysExec_cases {r : Option ℕ × System}
    (h : sysExec o memory (some filename) argv envp s = some r) :
    (Refused o memory filename argv envp ∧ r = (none, s.rename filename)) ∨
    ¬ Refused o memory filename argv envp ∧ ∃ old f, o.heap.header = some old ∧
      o.resolve filename = some f ∧ execAccepts f old = true ∧
      replaceProgram o (headerBuf f 4096 old) (s.rename filename) = some r := by
  unfold sysExec at h
  dsimp only at h
  cases hh : o.heap.header with
  | none =>
    rw [hh] at h
    exact Or.inl ⟨Or.inl hh, (Option.some.inj h).symm⟩
  | some old =>
    cases hr : o.resolve filename with
    | none =>
      rw [hh, hr] at h
      exact Or.inl ⟨Or.inr (Or.inl hr), (Option.some.inj h).symm⟩
    | some f =>
      rw [hh, hr] at h
      dsimp only at h
      by_cases hacc : execAccepts f old = false
      · rw [if_pos hacc] at h
        exact Or.inl ⟨Or.inr (Or.inr (Or.inl ⟨old, f, hh, hr, hacc⟩)), (Option.some.inj h).symm⟩
      · rw [if_neg hacc] at h
        obtain ⟨args, hargs, h⟩ := Option.bind_eq_some_iff.mp h
        obtain ⟨envs, henvs, h⟩ := Option.bind_eq_some_iff.mp h
        by_cases hstr : 0 < envs.2 ∧ o.heap.strings = false
        · rw [if_pos hstr] at h
          exact Or.inl ⟨Or.inr (Or.inr (Or.inr ⟨args, envs, hargs, henvs, hstr⟩)),
            (Option.some.inj h).symm⟩
        · rw [if_neg hstr] at h
          refine Or.inr ⟨?_, old, f, rfl, rfl, eq_true_of_ne_false hacc, h⟩
          rintro (hc | hc | ⟨old', f', h1, h2, h3⟩ | ⟨args', envs', h1, h2, h3⟩)
          · exact absurd (hh.symm.trans hc) (by simp)
          · exact absurd (hr.symm.trans hc) (by simp)
          · obtain rfl := Option.some.inj (hh.symm.trans h1)
            obtain rfl := Option.some.inj (hr.symm.trans h2)
            exact hacc h3
          · obtain rfl := Option.some.inj (hargs.symm.trans h1)
            obtain rfl := Option.some.inj (henvs.symm.trans h2)
            exact hstr h3

/-- The loaded directory has only pages of zeros. -/
def Zeroed (s : System) (dir : ℕ) : Prop :=
  s.thread.pageDirectoryPhys = dir ∧ ∃ table, s.spaces dir = some table ∧
    ∀ n p, table n = some p → s.frames p.1 = fun _ => 0

theorem zeroed_mapPage {dir : ℕ} (h : Zeroed s dir) (page frame : ℕ) :
    Zeroed (s.mapPage page frame) dir := by
  obtain ⟨hdir, table, hspace, hzero⟩ := h
  refine ⟨hdir, fun n => if n = page/4096 then
    some (frame, pagePresent+pageWritable+pageUser) else table n, ?_, fun n p hp => ?_⟩
  · simp only [System.mapPage, hdir, if_true, hspace, Option.map_some]
  · show (if p.1 = frame then fun _ => 0 else s.frames p.1) = fun _ => 0
    by_cases hf : p.1 = frame
    · rw [if_pos hf]
    · rw [if_neg hf]
      dsimp only at hp
      by_cases hn : n = page/4096
      · rw [if_pos hn] at hp
        obtain rfl := Option.some.inj hp
        exact absurd rfl hf
      · rw [if_neg hn] at hp
        exact hzero n p hp

theorem zeroed_mapStack {dir n : ℕ} {r : Bool × System} (h : Zeroed s dir)
    (hr : mapStack o n s = some r) : Zeroed r.2 dir := by
  induction n generalizing s with
  | zero =>
    obtain rfl := Option.some.inj hr
    exact h
  | succ n ih =>
    rw [mapStack] at hr
    split at hr
    · obtain rfl := Option.some.inj hr
      exact h
    · split_ifs at hr
      exact ih (zeroed_mapPage h _ _) hr

/-- The two late failures. -/
theorem replaceProgram_fails {buf : Memory} (h : replaceProgram o buf s = some (none, s')) :
    o.directory = none ∧ s' = s.tearDown ∨ ∃ dir, o.directory = some dir ∧ Zeroed s' dir := by
  unfold replaceProgram at h
  cases hd : o.directory with
  | none =>
    rw [hd] at h
    exact Or.inl ⟨rfl, (Prod.mk.inj (Option.some.inj h)).2.symm⟩
  | some dir =>
    rw [hd] at h
    obtain ⟨r, hr, h⟩ := Option.map_eq_some_iff.mp h
    obtain ⟨-, rfl⟩ := Prod.mk.inj h
    refine Or.inr ⟨dir, rfl, zeroed_mapStack ⟨rfl, fun _ => none, if_pos rfl, fun n p hp => ?_⟩ hr⟩
    cases hp

/-- The new directory is not the kernel's, and the old program has bytes that are not zero. -/
theorem zeroed_not_intact {dir : ℕ} (hrun : Running s) (hfresh : dir ≠ s.kernelDirectory)
    (hz : Zeroed s' dir) : ¬ Intact s s' := by
  intro hi
  obtain ⟨hdir, table', hspace', hzero⟩ := hz
  rw [hi.thread] at hdir
  rcases hrun with hkernel | ⟨table, n, p, k, hspace, hp, hk⟩
  · exact hfresh (hdir.symm.trans hkernel)
  rw [← hdir, hi.space, hspace] at hspace'
  obtain rfl := Option.some.inj hspace'
  have hframe := hi.contents table n p hspace hp
  rw [hzero n p hp] at hframe
  exact hk (congrFun hframe k).symm

/-- Without a new directory the old one is gone, unless it is the kernel's. -/
theorem tearDown_intact (hrun : Running s) (hi : Intact s (s.rename filename).tearDown) :
    NothingToReplace s := by
  have hthread := hi.thread
  have hspace' := hi.space
  refine ⟨?_, (congrArg Thread.vmaList hthread).symm, congrArg Thread.fdTable hthread⟩
  rcases hrun with hkernel | ⟨table, n, p, k, hspace, hp, -⟩
  · exact Or.inr hkernel
  by_contra hdir
  have hdir' : ¬ (s.thread.pageDirectoryPhys = 0 ∨
      s.thread.pageDirectoryPhys = (s.rename filename).kernelDirectory) := hdir
  have hgone : (s.rename filename).tearDown.spaces s.thread.pageDirectoryPhys = none := by
    show (System.destroyAddressSpace (s.rename filename) s.thread.pageDirectoryPhys).spaces
      s.thread.pageDirectoryPhys = none
    rw [System.destroyAddressSpace, if_neg hdir']
    exact if_pos rfl
  rw [hgone, hspace] at hspace'
  cases hspace'

theorem tearDown_same (h : NothingToReplace s) : s.tearDown = s := by
  obtain ⟨hdir, hvma, hfd⟩ := h
  unfold System.tearDown
  rw [System.destroyAddressSpace, if_pos hdir, hfd, ← hvma]

end Exits

section Started

variable {o : Outcomes K} {memory : Memory} {filename : Path} {argv envp : ℕ} {s s' : System}

/-- The caller and the kernel as the starter of a program sees them. -/
def starter (o : Outcomes K) (s : System) : Kernel where
  resolve := o.resolve
  name := s.thread.name
  space := some ⟨0, 0, [], fun _ => none, s.frames, none⟩
  stack := o.stack

/-- The same loaded pages, and the same VMAs and heap. -/
structure SameProcess (s : System) (p : Process) : Prop where
  table : s.spaces s.thread.pageDirectoryPhys = some p.table
  frames : p.frames = s.frames
  vmaList : p.vmaList = s.thread.vmaList
  heapStart : p.heapStart = s.thread.heapStart
  heapEnd : p.heapEnd = s.thread.heapEnd

theorem sameProcess_mapPage {p : Process} (h : SameProcess s p) (page frame : ℕ) :
    SameProcess (s.mapPage page frame) ((p.setFrame frame fun _ => 0).mapPage page frame
      (pagePresent+pageWritable+pageUser)) := by
  refine ⟨?_, ?_, h.vmaList, h.heapStart, h.heapEnd⟩
  · simp only [System.mapPage, if_true, h.table, Option.map_some]
    rfl
  · simp only [System.mapPage, Process.mapPage, Process.setFrame, h.frames]

theorem mapStack_same {n : ℕ} (hn : n ≤ userStackPages) {p : Process} (h : SameProcess s p)
    (hr : mapStack o n s = some (true, s')) :
    ∃ p', (List.range' (userStackPages-n) n).foldlM (fun p i => (o.stack i).map fun frame =>
        (p.setFrame frame fun _ => 0).mapPage (userStackTop-(4-i)*4096) frame
          (pagePresent+pageWritable+pageUser)) p = some p' ∧ SameProcess s' p' := by
  induction n generalizing s p with
  | zero =>
    obtain rfl := (Prod.mk.inj (Option.some.inj hr)).2
    exact ⟨p, rfl, h⟩
  | succ n ih =>
    have hfour : userStackPages = 4 := rfl
    have hlast : 4-(userStackPages-(n+1)) = n+1 := by omega
    rw [mapStack] at hr
    cases hk : o.stack (userStackPages-(n+1)) with
    | none =>
      rw [hk] at hr
      cases hr
    | some frame =>
      rw [hk] at hr
      dsimp only at hr
      split_ifs at hr
      obtain ⟨p', hp', hsame⟩ := ih (by omega) (sameProcess_mapPage h _ frame) hr
      refine ⟨p', ?_, hsame⟩
      rw [List.range'_succ, List.foldlM_cons, hk, Option.map_some, hlast,
        show userStackPages-(n+1)+1 = userStackPages-n by omega]
      exact hp'

/-- A call that succeeds starts the program that the model of the two starters describes. -/
theorem started_sysExec {entry : ℕ} (hstr : o.heap.strings = true)
    (h : sysExec o memory (some filename) argv envp s = some (some entry, s')) :
    ∃ t, ProgramStart.sysExec (starter o s) o.heap filename = some t ∧ t.entry = entry ∧
      SameProcess s' t.process := by
  rcases sysExec_cases h with ⟨-, hr⟩ | ⟨-, old, f, hh, hf, hacc, hr⟩
  · cases hr
  · unfold replaceProgram at hr
    cases hd : o.directory with
    | none =>
      rw [hd] at hr
      cases hr
    | some dir =>
      rw [hd] at hr
      obtain ⟨⟨ok, s1⟩, hmap, hr⟩ := Option.map_eq_some_iff.mp hr
      obtain ⟨hentry, rfl⟩ := Prod.mk.inj hr
      cases ok with
      | false => cases hentry
      | true =>
        have hsame : SameProcess ((((s.rename filename).tearDown).enter dir).describe
            ((phdrs (headerBuf f 4096 old)).foldl o.heap.execSegment ⟨[], 0, false⟩))
            (Process.setHeap ⟨0, 0,
              ((phdrs (headerBuf f 4096 old)).foldl o.heap.execSegment ⟨[], 0, false⟩).vmaList,
              fun _ => none, s.frames, o.resolve ((starter o s).execName filename)⟩
              ((phdrs (headerBuf f 4096 old)).foldl o.heap.execSegment ⟨[], 0, false⟩).maxVaddr) := by
          refine ⟨if_pos rfl, ?_, rfl, rfl, rfl⟩
          unfold System.describe System.enter System.tearDown System.destroyAddressSpace
          dsimp only
          split_ifs <;> rfl
        obtain ⟨p', hp', hsame'⟩ := mapStack_same (Nat.le_refl _) hsame hmap
        refine ⟨⟨p', eEntry (headerBuf f 4096 old)⟩, ?_, Option.some.inj hentry, hsame'⟩
        have hres : (starter o s).resolve filename = some f := hf
        unfold ProgramStart.sysExec
        rw [hh, hres]
        dsimp only
        rw [if_neg (by simp [hacc, hstr])]
        unfold Kernel.freshSpace Kernel.mapStack
        rw [List.range_eq_range']
        show Option.map _ (List.foldlM _ _ (List.range' (userStackPages-userStackPages) userStackPages)) = _
        exact (congrArg _ hp').trans rfl

end Started

section Failed

variable {memory : Memory} {argv envp : ℕ} {s s' : System}

/-- A failed call leaves the caller as it was exactly if it fails early and under the name
that the caller has, or there was nothing to take apart. -/
theorem failed_exec_intact (o : Outcomes s.kernelDirectory) (filename : Option Path)
    (hrun : Running s) (h : sysExec o memory filename argv envp s = some (none, s')) :
    Intact s s' ↔ KeepsCaller o memory filename argv envp s := by
  have hsame : Intact s s := ⟨rfl, rfl, fun _ _ _ _ _ => rfl⟩
  cases filename with
  | none =>
    obtain rfl := (Prod.mk.inj (Option.some.inj h)).2
    exact iff_of_true hsame trivial
  | some filename =>
    rcases sysExec_cases h with ⟨href, hr⟩ | ⟨hpast, old, f, -, -, -, hr⟩
    · obtain rfl := (Prod.mk.inj hr).2
      constructor
      · intro hi
        exact ⟨rename_of_name (congrArg Thread.name hi.thread), Or.inl href⟩
      · rintro ⟨hname, -⟩
        rw [rename_same hname]
        exact hsame
    · rcases replaceProgram_fails hr with ⟨hdir, rfl⟩ | ⟨dir, hdir, hz⟩
      · constructor
        · intro hi
          have hname : (s.rename filename).tearDown.thread.name = s.thread.name :=
            congrArg Thread.name hi.thread
          exact ⟨rename_of_name hname, Or.inr ⟨hdir, tearDown_intact hrun hi⟩⟩
        · rintro ⟨hname, href | ⟨-, hnothing⟩⟩
          · exact absurd href hpast
          · rw [rename_same hname, tearDown_same hnothing]
            exact hsame
      · have hfresh : dir ≠ s.kernelDirectory := fun he => o.fresh (he ▸ hdir)
        refine iff_of_false (zeroed_not_intact hrun hfresh hz) ?_
        rintro ⟨-, href | ⟨hnone, -⟩⟩
        · exact hpast href
        · rw [hnone] at hdir
          cases hdir

end Failed

/-- The program `A` in directory 5, with one page in frame 6. -/
def shell : System where
  kernelDirectory := 1
  spaces := fun d => if d = 5 then
      some fun n => if n = 0x8048 then some (6, pagePresent+pageUser) else none
    else none
  frames := fun _ _ => 0xCD
  thread := ⟨[0x41], 5, 0x8050000, 0x8050000, false, [], []⟩

theorem shell_running : Running shell :=
  Or.inr ⟨fun n => if n = 0x8048 then some (6, pagePresent+pageUser) else none, 0x8048,
    (6, pagePresent+pageUser), 0, rfl, rfl, by decide⟩

/-- No frame is left, and every name leads to the given file. -/
def exhausted (f : Option File) : Outcomes 1 where
  resolve := fun _ => f
  heap := ProgramStart.smallHeap ⟨.anon, none⟩
  directory := none
  stack := fun _ => none
  table := fun _ => false
  fresh := by simp

/-- A missing file with the name of the caller. -/
theorem failed_exec_intact_missing :
    Intact shell shell ↔ KeepsCaller (exhausted none) (fun _ => 0) (some [0x41]) 0 0 shell :=
  failed_exec_intact (exhausted none) (some [0x41]) shell_running rfl

/-- After a missing file the caller is called `B`; after a file for which no directory is
left, its own directory is gone. -/
theorem failed_exec_replaces :
    (∃ s, sysExec (exhausted none) (fun _ => 0) (some [0x42]) 0 0 shell = some (none, s) ∧
      s.thread.name = [0x42] ∧ ¬ Intact shell s) ∧
    ∃ s, sysExec (exhausted (some (ProgramStart.smallProgram 2 3))) (fun _ => 0) (some [0x41]) 0 0
        shell = some (none, s) ∧
      s.thread.pageDirectoryPhys = 5 ∧ s.spaces 5 = none ∧ ¬ Intact shell s := by
  have hacc : execAccepts (ProgramStart.smallProgram 2 3) (fun _ => 0) = true := by decide +kernel
  constructor
  · refine ⟨shell.rename [0x42], rfl, rfl, fun hi => ?_⟩
    exact absurd (congrArg Thread.name hi.thread) (by decide)
  · refine ⟨(shell.rename [0x41]).tearDown, ?_, rfl, rfl, fun hi => ?_⟩
    · unfold sysExec exhausted ProgramStart.smallHeap
      simp only [hacc]
      rfl
    · exact absurd hi.space (by simp [shell, System.rename, System.tearDown, System.destroyAddressSpace])

end Vlsmc.ExecFailures
