import Vlsmc.LdSoLoading
import Vlsmc.ProgramStart

/-!
# The auxiliary vector

`elf_thread_entry` tells the dynamic linker through the stack where it has put a program. `_ld_main`
reads the values back and enters the program in its table, always with a load bias of zero.
-/

set_option autoImplicit false

namespace Vlsmc.AuxVectors
open Vlsmc.ByteMemory Vlsmc.Words Vlsmc.Elf Vlsmc.DemandPaging Vlsmc.ProgramStart
open Vlsmc.LdSo hiding kernelSpaceEnd Rel relAt r386Relative
open Vlsmc.LdSoTables Vlsmc.LdSoImage Vlsmc.LdSoLoading Vlsmc.ElfImage
open Vlsmc.ElfRelocations hiding loadElfSegments Rel relAt r386Relative present kernelSpaceEnd

def atNull : ℕ := 0
def atPagesz : ℕ := 6
def atBase : ℕ := 7

/-- The stack that is being built. -/
structure UserStack where
  mem : Memory
  esp : ℕ

def UserStack.push (s : UserStack) (val : ℕ) : UserStack := ⟨write32 s.mem (s.esp-4) val, s.esp-4⟩

def UserStack.pushAuxv (s : UserStack) (e : ℕ×ℕ) : UserStack := (s.push e.2).push e.1

/-- The values in the order in which they are pushed, `AT_BASE` only with an interpreter. -/
def auxValues (app : LoadedElf) (interpBase : Option ℕ) : List (ℕ×ℕ) :=
  [(atPagesz, 4096)]++(interpBase.map fun base => (atBase, base)).toList++
    [(9, app.entry), (5, app.phnum), (4, app.phent), (3, app.phdrVaddr)]

/-- Behind the values stand a null pointer for the environment, one for the arguments, and their
number, which is zero. -/
def buildStack (image : Memory) (app : LoadedElf) (interpBase : Option ℕ) : UserStack :=
  let s := (auxValues app interpBase).foldl UserStack.pushAuxv
    (UserStack.pushAuxv ⟨image, userStackTop⟩ (atNull, 0))
  ((s.push 0).push 0).push 0

section Stack

variable {s : UserStack} {es vals : List (ℕ×ℕ)} {fuel val : ℕ} {e : ℕ×ℕ}

theorem push_read (hv : val < 4294967296) : read32 (s.push val).mem (s.push val).esp = val :=
  read32_write32 s.mem (s.esp-4) hv

theorem push_esp (s : UserStack) (val : ℕ) (h : 4 ≤ s.esp) : (s.push val).esp+4 = s.esp :=
  Nat.sub_add_cancel h

theorem pushAuxv_esp (s : UserStack) (e : ℕ×ℕ) (h : 8 ≤ s.esp) : (s.pushAuxv e).esp+8 = s.esp := by
  have hval := push_esp s e.2 (by omega)
  have htag := push_esp (s.push e.2) e.1 (by omega)
  unfold UserStack.pushAuxv
  omega

/-- A push leaves the words above alone. -/
theorem push_keeps (s : UserStack) (val : ℕ) (h : 4 ≤ s.esp) :
    AgreeOn (s.esp ≤ ·) s.mem (s.push val).mem :=
  fun _ hk => write32_ne s.mem val (Or.inr (by omega))

theorem pushAuxv_entries (h : entriesFrom s.mem fuel s.esp = some es) (hroom : 8 ≤ s.esp)
    (htag : e.1 ≠ 0) (h1 : e.1 < 4294967296) (h2 : e.2 < 4294967296) :
    entriesFrom (s.pushAuxv e).mem (fuel+1) (s.pushAuxv e).esp = some (e::es) := by
  have hmid := push_esp s e.2 (by omega)
  have hesp := pushAuxv_esp s e hroom
  have htype : read32 (s.pushAuxv e).mem (s.pushAuxv e).esp = e.1 := push_read h1
  have hval : read32 (s.pushAuxv e).mem ((s.pushAuxv e).esp+4) = e.2 := by
    rw [show (s.pushAuxv e).esp+4 = (s.push e.2).esp by omega]
    exact ((push_keeps (s.push e.2) e.1 (by omega)).read32 fun _ hk _ => hk).trans (push_read h2)
  have hkept : AgreeOn (s.esp ≤ ·) s.mem (s.pushAuxv e).mem := fun k hk =>
    (push_keeps (s.push e.2) e.1 (by omega) k (by omega)).trans (push_keeps s e.2 (by omega) k hk)
  have hrest : entriesFrom (s.pushAuxv e).mem fuel s.esp = some es :=
    entriesFrom_congr hkept (fun _ hk _ => hk) h
  rw [entriesFrom_succ, htype, if_neg htag, hval, hesp, hrest]
  rfl

/-- What is pushed is decoded in the opposite order. -/
theorem pushes_entries (h : entriesFrom s.mem fuel s.esp = some es)
    (hroom : 8*vals.length ≤ s.esp)
    (hvals : ∀ e ∈ vals, e.1 ≠ 0 ∧ e.1 < 4294967296 ∧ e.2 < 4294967296) :
    entriesFrom (vals.foldl UserStack.pushAuxv s).mem (fuel+vals.length)
      (vals.foldl UserStack.pushAuxv s).esp = some (vals.reverse++es) ∧
    (vals.foldl UserStack.pushAuxv s).esp+8*vals.length = s.esp := by
  induction vals generalizing s fuel es with
  | nil => exact ⟨h, rfl⟩
  | cons e vals ih =>
    obtain ⟨htag, h1, h2⟩ := hvals e List.mem_cons_self
    rw [List.length_cons] at hroom
    have hesp := pushAuxv_esp s e (by omega)
    obtain ⟨hall, hend⟩ := ih (pushAuxv_entries h (by omega) htag h1 h2) (by omega)
      fun e he => hvals e (List.mem_cons_of_mem _ he)
    rw [List.foldl_cons, List.reverse_cons, List.append_assoc, List.length_cons]
    constructor
    · rw [show fuel+(vals.length+1) = fuel+1+vals.length by omega]
      exact hall
    · omega

/-- The words that `auxv` passes over are in front of the values. -/
theorem auxv_entries {m : Memory} {esp : ℕ} (hargc : read32 m esp = 0)
    (henv : read32 m (esp+8) = 0) (h : entriesFrom m (fuel+1) (esp+12) = some es) :
    auxv (fuel+1) m esp = some es := by
  unfold auxv skipWords
  rw [hargc, if_pos henv]
  exact h

theorem auxValues_tags (app : LoadedElf) (base : Option ℕ) :
    (auxValues app base).map Prod.fst =
      if base.isSome then [6, 7, 9, 5, 4, 3] else [6, 9, 5, 4, 3] := by
  cases base <;> rfl

theorem auxValues_length (app : LoadedElf) (base : Option ℕ) :
    (auxValues app base).length ≤ 6 := by
  rw [← List.length_map Prod.fst, auxValues_tags]
  split_ifs <;> decide

/-- What the linker reads is what the kernel pushed. -/
theorem buildStack_decoded (image : Memory) {app : LoadedElf} {base : Option ℕ}
    (hvals : ∀ e ∈ auxValues app base, e.2 < 4294967296) (fuel : ℕ) :
    auxv (fuel+1+(auxValues app base).length)
        (fun a => (buildStack image app base).mem (u32 a)) (buildStack image app base).esp =
      some (auxValues app base).reverse := by
  have hlen := auxValues_length app base
  have htags : ∀ t ∈ (auxValues app base).map Prod.fst, t ≠ 0 ∧ t < 4294967296 := by
    rw [auxValues_tags]
    split_ifs <;> decide
  generalize hs0 : UserStack.pushAuxv ⟨image, userStackTop⟩ (atNull, 0) = s0
  have hesp0 : s0.esp = 3221159928 := by
    rw [← hs0]
    rfl
  have hnull : entriesFrom s0.mem (fuel+1) s0.esp = some [] := by
    rw [← hs0]
    rw [entriesFrom_succ]
    exact if_pos (push_read (by decide))
  have hwords : ∀ e ∈ auxValues app base, e.1 ≠ 0 ∧ e.1 < 4294967296 ∧ e.2 < 4294967296 :=
    fun e he => ⟨(htags e.1 (List.mem_map_of_mem he)).1, (htags e.1 (List.mem_map_of_mem he)).2,
      hvals e he⟩
  obtain ⟨hentries, hend⟩ := pushes_entries hnull (by omega) hwords
  rw [List.append_nil] at hentries
  unfold buildStack
  dsimp only
  rw [hs0]
  generalize (auxValues app base).foldl UserStack.pushAuxv s0 = s at hentries hend ⊢
  have henvp := push_esp s 0 (by omega)
  have hargs := push_esp (s.push 0) 0 (by omega)
  obtain ⟨argv, hargv⟩ : ∃ t, t = (s.push 0).push 0 := ⟨_, rfl⟩
  rw [← hargv] at hargs ⊢
  have hesp := push_esp argv 0 (by omega)
  have hargc : read32 (argv.push 0).mem (argv.push 0).esp = 0 := push_read (by decide)
  have henv : read32 (argv.push 0).mem ((argv.push 0).esp+8) = 0 := by
    rw [show (argv.push 0).esp+8 = argv.esp+4 by omega]
    refine ((push_keeps argv 0 (by omega)).read32 fun _ hk _ => by omega).trans ?_
    rw [hargs, hargv]
    refine ((push_keeps (s.push 0) 0 (by omega)).read32 fun _ hk _ => hk).trans ?_
    exact push_read (by decide)
  have hkept : AgreeOn (s.esp ≤ ·) s.mem (argv.push 0).mem := fun k hk => by
    rw [push_keeps argv 0 (by omega) k (by omega), hargv,
      push_keeps (s.push 0) 0 (by omega) k (by omega),
      push_keeps s 0 (by omega) k hk]
  have hwrap : AgreeOn (· < 4294967296) (argv.push 0).mem fun a => (argv.push 0).mem (u32 a) :=
    fun k hk => congrArg (argv.push 0).mem (u32_of_lt hk)
  have hrest := entriesFrom_congr hwrap (fun k _ hk => by simp at hk; omega)
    (entriesFrom_congr hkept (fun _ hk _ => hk) hentries)
  rw [show fuel+1+(auxValues app base).length = fuel+(auxValues app base).length+1 by
    omega] at *
  apply auxv_entries
  · exact (hwrap.read32 fun k _ hk => by omega).trans hargc
  · exact (hwrap.read32 fun k _ hk => by omega).trans henv
  · rwa [show (argv.push 0).esp+12 = s.esp by omega]

end Stack

section Linker

variable {env : Env} {t t1 img : State} {names fuel soname strtab n d : ℕ}

/-- Loading a library only adds to the table. -/
theorem loadSharedObject_objects (h : loadSharedObject fuel env t soname = some t1) :
    t.objects <+: t1.objects := by
  have hmapped : ∀ {t1 : State} {r : Option LoadedObject},
      mapSharedObject fuel env t soname = some (t1, r) → t.objects <+: t1.objects := by
    intro t1 r hmap
    rcases mapSharedObject_cases hmap with ⟨-, rfl, -⟩ | ⟨f, st1, -, -, hsys, hreg⟩
    · exact List.prefix_refl t1.objects
    have hkept : (mappedState env f t st1).objects = t.objects := by
      obtain ⟨m, v, rfl⟩ := sysMmap_some hsys
      rfl
    rcases registerObject_some hreg with ⟨-, rfl⟩ | ⟨obj, -, rfl, -⟩
    · exact hkept ▸ List.prefix_refl t.objects
    · show t.objects <+: (mappedState env f t st1).objects++[obj]
      rw [hkept]
      exact List.prefix_append t.objects [obj]
  unfold loadSharedObject at h
  split at h
  · cases h
  next st hst =>
    cases h
    exact hmapped hst
  next st obj hst =>
    obtain ⟨m, -, rfl⟩ := Option.map_eq_some_iff.mp h
    have hhead := hmapped hst
    exact hhead

theorem loadNeeded_objects {load : State → ℕ → Option State}
    (hload : ∀ {t : State} {soname : ℕ} {t1 : State}, load t soname = some t1 →
      t.objects <+: t1.objects) (h : loadNeeded load names strtab n t d = some img) :
    t.objects <+: img.objects := by
  induction n generalizing t d with
  | zero => cases h
  | succ n ih =>
    rcases loadNeeded_cases h with ⟨-, rfl⟩ | ⟨-, h, -⟩ | ⟨-, -, -, t1, h1, h⟩
    · exact List.prefix_refl img.objects
    · exact ih h
    · exact (hload h1).trans (ih h)

/-- The application as `register_object` enters it, before it reads the dynamic table. -/
def entered (m : Memory) (aux : List (ℕ×ℕ)) : LoadedObject where
  name := appName
  loadBias := 0
  symtab := 0
  strtab := 0
  strtabSize := 0
  dynamic := parseDynamic m (atPhdr aux) (atPhnum aux) (atPhent aux) 0
  nchain := 0

theorem registerObject_start {m : Memory} {name : CStr} {bias dyn : ℕ} {r : Option LoadedObject}
    (h : registerObject fuel (start m) name bias dyn = some (t1, r)) :
    ∃ obj, t1.objects = [obj] ∧ obj.name = name ∧ obj.loadBias = bias ∧ obj.dynamic = dyn := by
  have hroom : ¬ maxObjects ≤ (start m).objects.length := by
    show ¬ 8 ≤ 0
    omega
  rcases registerObject_some h with ⟨rfl, -⟩ | ⟨obj, -, rfl, hbias, hdyn, hname⟩
  · unfold registerObject at h
    rw [if_neg hroom] at h
    split at h
    · cases h
    · obtain ⟨es, -, he⟩ := Option.map_eq_some_iff.mp h
      cases he
  · exact ⟨obj, rfl, hname, hbias, hdyn⟩

/-- The application stays at the head of the table. -/
theorem ldMain_entered {m : Memory} {esp entry : ℕ} {st : State} {aux : List (ℕ×ℕ)}
    (h : ldMain fuel env m esp = some (entry, st)) (haux : auxv fuel m esp = some aux)
    (hphdr : atPhdr aux ≠ 0) (hentry : atEntry aux ≠ 0) :
    ∃ obj rest, st.objects = obj::rest ∧ obj.name = (entered m aux).name ∧
      obj.loadBias = (entered m aux).loadBias ∧ obj.dynamic = (entered m aux).dynamic := by
  unfold ldMain at h
  rw [haux, Option.bind_some, if_neg (by tauto)] at h
  obtain ⟨st', hobjects, h⟩ := Option.bind_eq_some_iff.mp h
  obtain ⟨m', -, heq⟩ := Option.map_eq_some_iff.mp h
  have hst : st.objects = st'.objects := (congrArg (fun r => r.2.objects) heq).symm
  unfold loadObjects at hobjects
  obtain ⟨⟨st1, r⟩, hreg, hobjects⟩ := Option.bind_eq_some_iff.mp hobjects
  obtain ⟨obj, hobj, hname, hbias, hdyn⟩ := registerObject_start hreg
  have hhead : st1.objects <+: st'.objects := by
    dsimp only at hobjects
    split_ifs at hobjects
    · exact Option.some.inj hobjects ▸ List.prefix_refl st1.objects
    · obtain ⟨es, -, hneeded⟩ := Option.bind_eq_some_iff.mp hobjects
      exact loadNeeded_objects loadSharedObject_objects hneeded
  obtain ⟨rest, hrest⟩ := hhead
  rw [hobj] at hrest
  exact ⟨obj, rest, hst.trans hrest.symm, hname, hbias, hdyn⟩

end Linker

/-- What user code reads at an address; none if it faults. -/
def shown (p : Process) (addr : ℕ) : Option UInt8 :=
  match p.table (addr/4096) with
  | some e => if e.2.testBit 2 then some (p.frames e.1 (addr%4096)) else none
  | none => (p.vmaList.find? fun v => decide (v.start ≤ addr) && decide (addr < v.finish)).map
      fun v => p.fill v (pageDown addr) (addr%4096)

/-- It is what an access delivers: of a page that is there and the user's, or of a page of a VMA. -/
theorem shown_access {p q : Process} {a : Access} (hpage : ∀ e, p.table (a.addr/4096) = some e →
      e.2.testBit 2 = true) (hheap : p.heapEnd ≤ p.heapStart) (hcached : a.cached = none)
    (h : access p a = some q) : readByte q a.addr = shown p a.addr := by
  unfold access at h
  unfold shown
  cases htable : p.table (a.addr/4096) with
  | some e =>
    rw [htable, if_pos Option.isSome_some] at h
    dsimp only
    rw [← Option.some.inj h, if_pos (hpage e htable), readByte, htable]
    rfl
  | none =>
    rw [htable, if_neg (by simp)] at h
    unfold handlePageFault at h
    rw [if_neg (by omega), hcached] at h
    split at h
    · cases h
    next v hv =>
      dsimp only at h
      rw [ite_self] at h
      dsimp only at h ⊢
      rw [hv, ← Option.some.inj h]
      simp [readByte, Process.mapPage, Process.setFrame, pageDown]

/-- A program that `elf_thread_entry` goes on with: its file, the header buffer before it was
filled, and the new address space. -/
structure Opened (k : Kernel) (h : Heap) (name : Path) where
  file : File
  old : Memory
  space : Process
  resolved : k.resolve name = some file
  header : h.header = some old
  accepted : elfAccepts file old = true
  fresh : k.freshSpace name = some space

/-- The header buffer. -/
def Opened.buf {k : Kernel} {h : Heap} {name : Path} (o : Opened k h name) : Memory :=
  headerBuf o.file 4096 o.old

def Opened.bias {k : Kernel} {h : Heap} {name : Path} (o : Opened k h name) : ℕ :=
  if eType o.buf = etDyn then pieLoadBase else 0

/-- An application with an interpreter that is started. -/
structure Launch (k : Kernel) (h : Heap) (name : Path) extends Opened k h name where
  image : Process
  app : LoadedElf
  linked : Process×ℕ×ℕ
  process : Process
  loaded : h.load file old toOpened.bias h.supply space = some (image, app)
  interp : interpPath file toOpened.buf h.interpPath ≠ []
  loadedInterp : h.loadInterp k (interpPath file toOpened.buf h.interpPath) image app = some linked
  stack : k.mapStack (linked.1.setHeap linked.2.1) = some process

section Launches

variable {k : Kernel} {h : Heap} {name : Path}

/-- The pages of the stack are there when the values are pushed. -/
theorem mapStack_shown {p q : Process} {addr : ℕ} (hstack : k.mapStack p = some q)
    (hlow : userStackTop-4096 ≤ addr) (hhigh : addr < userStackTop) :
    (shown q addr).isSome = true := by
  unfold Kernel.mapStack at hstack
  rw [show List.range 4 = [0, 1, 2]++[3] from rfl, List.foldlM_append] at hstack
  obtain ⟨r, -, hlast⟩ := Option.bind_eq_some_iff.mp hstack
  rw [List.foldlM_cons] at hlast
  obtain ⟨r', hframe, hq⟩ := Option.bind_eq_some_iff.mp hlast
  obtain ⟨frame, -, rfl⟩ := Option.map_eq_some_iff.mp hframe
  have hpage : addr/4096 = (userStackTop-(4-3)*4096)/4096 := by
    unfold userStackTop at *
    omega
  rw [← Option.some.inj hq]
  unfold shown Process.mapPage
  dsimp only
  rw [if_pos hpage]
  dsimp only
  rw [if_pos (by decide)]
  rfl

def Launch.userStack (l : Launch k h name) : UserStack :=
  buildStack (fun a => (shown l.process a).getD 0) l.app (some interpLoadBase)

/-- The memory that the linker starts with. -/
def Launch.memory (l : Launch k h name) : Memory := fun a => l.userStack.mem (u32 a)

/-- Every start of a program with an interpreter. -/
theorem launch_of_started {s : Started} (hs : elfThreadEntry k h name = some s)
    (hinterp : ∀ f old, k.resolve name = some f → h.header = some old →
      interpPath f (headerBuf f 4096 old) h.interpPath ≠ []) :
    ∃ l : Launch k h name, l.process = s.process ∧ l.linked.2.2 = s.entry := by
  unfold elfThreadEntry at hs
  cases hold : h.header with
  | none =>
    rw [hold] at hs
    exact nomatch hs
  | some old =>
    cases hf : k.resolve name with
    | none =>
      rw [hold, hf] at hs
      exact nomatch hs
    | some f =>
      rw [hold, hf] at hs
      dsimp only at hs
      by_cases hacc : elfAccepts f old = false
      · rw [if_pos hacc] at hs
        exact nomatch hs
      rw [if_neg hacc] at hs
      obtain ⟨space, hspace, hs⟩ := Option.bind_eq_some_iff.mp hs
      obtain ⟨⟨image, app⟩, hload, hs⟩ := Option.bind_eq_some_iff.mp hs
      obtain ⟨linked, hlinked, hs⟩ := Option.bind_eq_some_iff.mp hs
      obtain ⟨process, hstack, rfl⟩ := Option.map_eq_some_iff.mp hs
      exact ⟨⟨⟨f, old, space, hf, hold, by simpa using hacc, hspace⟩, image, app, linked, process,
        hload, hinterp f old hf hold, hlinked, hstack⟩, rfl, rfl⟩

theorem loadElfSegments_fields {f : File} {buf : Memory} {bias : ℕ} {kmalloc : List Vma → Bool}
    {p : Process} {r : Process×LoadedElf} (hload : loadElfSegments f buf bias kmalloc p = some r) :
    r.2.entry = u32 (eEntry buf+bias) ∧ r.2.phdrVaddr = phdrVaddr buf bias ∧
    r.2.phnum = ePhnum buf ∧ r.2.phent = ePhentsize buf ∧ r.2.loadBias = bias := by
  obtain ⟨t, -, rfl⟩ := Option.map_eq_some_iff.mp hload
  exact ⟨rfl, rfl, rfl, rfl, rfl⟩

theorem Launch.app_eq (l : Launch k h name) :
    l.app.entry = u32 (eEntry l.buf+l.bias) ∧ l.app.phdrVaddr = phdrVaddr l.buf l.bias ∧
    l.app.phnum = ePhnum l.buf ∧ l.app.phent = ePhentsize l.buf ∧ l.app.loadBias = l.bias := by
  have hload := l.loaded
  unfold Heap.load ElfRelocations.loadElfSegments at hload
  split at hload
  · cases hload
  next s out hsegments =>
    obtain ⟨r, hr, hout⟩ := Option.map_eq_some_iff.mp hsegments
    split_ifs at hload
    have happ : out = l.app := congrArg Prod.snd (Option.some.inj hload)
    have hout : r.2 = out := congrArg Prod.snd hout
    rw [← happ, ← hout]
    exact loadElfSegments_fields hr

/-- The file is of one of two types. -/
theorem Launch.type (l : Launch k h name) : eType l.buf = etExec ∨ eType l.buf = etDyn := by
  have hacc := l.accepted
  unfold elfAccepts validateElf at hacc
  simp only [Bool.and_eq_true, Bool.or_eq_true, beq_iff_eq] at hacc
  exact hacc.2.1.2

theorem Launch.stack_shown (l : Launch k h name) {addr : ℕ} (hlow : l.userStack.esp ≤ addr)
    (hhigh : addr < userStackTop) : (shown l.process addr).isSome = true := by
  have hesp : l.userStack.esp = userStackTop-68 := rfl
  exact mapStack_shown l.stack (by unfold userStackTop at *; omega) hhigh

/-- The values in the order in which they stand in memory. -/
def Launch.aux (l : Launch k h name) : List (ℕ×ℕ) :=
  (auxValues l.app (some interpLoadBase)).reverse

/-- Where the linker looks for a header. -/
def Launch.headerAt (l : Launch k h name) (i : ℕ) : ℕ :=
  phdrVaddr l.buf l.bias+i*ePhentsize l.buf

def Launch.WordShown (l : Launch k h name) (addr : ℕ) : Prop :=
  ∀ j < 4, (shown l.process (u32 (addr+j))).isSome = true

/-- The words of the headers that `parse_dynamic_for_dyn_ptr` reads are there. -/
def Launch.HeadersShown (l : Launch k h name) : Prop :=
  ∀ i < ePhnum l.buf, (∀ j < i, read32 l.memory (l.headerAt j) ≠ ptDynamic) →
    l.WordShown (l.headerAt i) ∧
    (read32 l.memory (l.headerAt i) = ptDynamic → l.WordShown (l.headerAt i+8))

/-- The linker gets as far as the registration of the application: `AT_PHDR` and `AT_ENTRY` are
given, and the headers can be read. -/
def Launch.Registers (l : Launch k h name) : Prop :=
  phdrVaddr l.buf l.bias ≠ 0 ∧ u32 (eEntry l.buf+l.bias) ≠ 0 ∧ l.HeadersShown

/-- The address in the first `PT_DYNAMIC` of `n` headers that are `step` bytes apart, 0 without
one. -/
def firstDynamic (m : Memory) (a n step : ℕ) : ℕ :=
  (((List.range n).map fun i => phdrAt m (a+step*i)).find? (·.pType == ptDynamic)).elim 0
    Phdr.pVaddr

/-- The string table of the first `DT_STRTAB`, in an image loaded at `bias`. -/
def stringTable (bias : ℕ) (es : List (ℕ×ℕ)) : ℕ :=
  (es.find? (·.1 == dtStrtab)).elim 0 fun e => u32 (e.2+bias)

/-- The linker reads what the kernel pushed. The object that it enters for the application has the
kernel's bias and the biased address of `PT_DYNAMIC`, its tables are read with that bias, and a
relocation that the kernel has applied changes nothing. -/
structure Launch.Agrees (l : Launch k h name) : Prop where
  decoded : ∀ fuel, auxv (fuel+7) l.memory l.userStack.esp = some l.aux
  located : l.Registers → (entered l.memory l.aux).loadBias = l.bias ∧
    (entered l.memory l.aux).dynamic = dynamicAt (phdrs l.buf) l.bias
  tables : l.Registers → ∀ fuel es,
    entriesFrom l.memory fuel (entered l.memory l.aux).dynamic = some es →
    (entered l.memory l.aux).dynamic ≠ 0 →
    registerObject fuel (start l.memory) appName 0 (entered l.memory l.aux).dynamic =
      some ((start l.memory).push
          (objectOf l.memory appName l.bias (dynamicAt (phdrs l.buf) l.bias) es),
        some (objectOf l.memory appName l.bias (dynamicAt (phdrs l.buf) l.bias) es)) ∧
    appStrtab es = stringTable l.bias es
  once : l.Registers → ∀ r ∈ applied l.file (h.buffers l.file l.old) l.bias,
    ∀ fuel objects m, applyRel fuel objects (entered l.memory l.aux) m ⟨r.rOffset, r.rInfo⟩ =
      some m

theorem phdrVaddr_lt (buf : Memory) (bias : ℕ) : phdrVaddr buf bias < 4294967296 := by
  have hown : ∀ (phs : List Phdr) (v : ℕ), v < 4294967296 →
      phs.foldl (fun v ph => if ph.pType = ptPhdr then u32 (ph.pVaddr+bias) else v) v <
        4294967296 := by
    intro phs
    induction phs with
    | nil => exact fun v hv => hv
    | cons ph phs ih =>
      intro v hv
      rw [List.foldl_cons]
      apply ih
      split_ifs
      · exact u32_lt _
      · exact hv
  unfold phdrVaddr
  dsimp only
  split_ifs
  · exact hown _ 0 (by decide)
  · split
    · decide
    · exact u32_lt _

theorem read16_lt (m : Memory) (a : ℕ) : read16 m a < 65536 := by
  have h0 := (m a).toNat_lt
  have h1 := (m (a+1)).toNat_lt
  unfold read16
  omega

theorem Launch.aux_lt (l : Launch k h name) :
    ∀ e ∈ auxValues l.app (some interpLoadBase), e.2 < 4294967296 := by
  obtain ⟨hentry, hphdr, hnum, hent, -⟩ := l.app_eq
  have hphdr_lt := phdrVaddr_lt l.buf l.bias
  have hnum_lt : ePhnum l.buf < 65536 := read16_lt l.buf 44
  have hent_lt : ePhentsize l.buf < 65536 := read16_lt l.buf 42
  have hentry_lt := u32_lt (eEntry l.buf+l.bias)
  intro e he
  simp only [auxValues, Option.map, Option.toList, List.cons_append, List.nil_append,
    List.mem_cons, List.not_mem_nil, or_false] at he
  rcases he with rfl | rfl | rfl | rfl | rfl | rfl <;> dsimp only
  · decide
  · decide
  · omega
  · omega
  · omega
  · omega

theorem Launch.decoded (l : Launch k h name) (fuel : ℕ) :
    auxv (fuel+7) l.memory l.userStack.esp = some l.aux :=
  buildStack_decoded (fun a => (shown l.process a).getD 0) l.aux_lt fuel

theorem dynamicAt_eq (m : Memory) (a n step : ℕ) :
    dynamicAt ((List.range n).map fun i => phdrAt m (a+step*i)) 0 = firstDynamic m a n step := by
  unfold dynamicAt firstDynamic
  cases hfind : ((List.range n).map fun i => phdrAt m (a+step*i)).find? (·.pType == ptDynamic) with
  | none => rfl
  | some ph =>
    obtain ⟨i, -, rfl⟩ := List.mem_map.mp (List.mem_of_find?_eq_some hfind)
    exact u32_of_lt (read32_lt m (a+step*i+8))

theorem parseDynamic_eq (m : Memory) (phdr phnum phent : ℕ) :
    parseDynamic m phdr phnum phent 0 = firstDynamic m phdr phnum phent := by
  unfold parseDynamic firstDynamic
  rw [List.find?_map]
  simp only [Nat.mul_comm phent, Function.comp_def]
  cases (List.range phnum).find? fun i => (phdrAt m (phdr+i*phent)).pType == ptDynamic with
  | none => rfl
  | some i => exact u32_of_lt (read32_lt m (phdr+i*phent+8))

theorem Launch.dynamic_eq (l : Launch k h name) : (entered l.memory l.aux).dynamic =
    firstDynamic l.memory (phdrVaddr l.buf l.bias) (ePhnum l.buf) (ePhentsize l.buf) := by
  obtain ⟨-, hphdr, hnum, hent, -⟩ := l.app_eq
  have h := parseDynamic_eq l.memory l.app.phdrVaddr l.app.phnum l.app.phent
  rw [hphdr, hnum, hent] at h
  rw [← h, ← hphdr, ← hnum, ← hent]
  rfl

theorem Launch.bias_zero_iff (l : Launch k h name) : l.bias = 0 ↔ eType l.buf = etExec := by
  unfold Opened.bias
  constructor
  · intro hbias
    split_ifs at hbias with hdyn
    · exact absurd hbias (by decide)
    · exact l.type.resolve_right hdyn
  · intro hexec
    exact if_neg (by rw [hexec]; decide)

/-- With a bias of zero the linker's relocation of a word leaves it alone. -/
theorem applyRel_zero {obj : LoadedObject} (hbias : obj.loadBias = 0) {r : LdSo.Rel}
    (hr : r.type = LdSo.r386Relative) (fuel : ℕ) (objects : List LoadedObject) (m : Memory) :
    applyRel fuel objects obj m r = some m := by
  have hword : addBias 0 (read32 m (obj.target r)) = read32 m (obj.target r) :=
    u32_of_lt (read32_lt m (obj.target r))
  unfold applyRel relocation
  rw [if_pos hr, hbias]
  dsimp only
  unfold update
  rw [hword, write32_read32]

theorem entriesFrom_lt {m : Memory} {fuel d : ℕ} {es : List (ℕ×ℕ)}
    (h : entriesFrom m fuel d = some es) : ∀ e ∈ es, e.2 < 4294967296 := by
  induction fuel generalizing d es with
  | zero => cases h
  | succ fuel ih =>
    rw [entriesFrom_succ] at h
    split_ifs at h
    · cases h
      exact fun e he => by cases he
    · obtain ⟨rest, hrest, rfl⟩ := Option.map_eq_some_iff.mp h
      intro e he
      rcases List.mem_cons.mp he with rfl | he
      · exact read32_lt m (d+4)
      · exact ih hrest e he

theorem stringTable_zero {m : Memory} {fuel d : ℕ} {es : List (ℕ×ℕ)}
    (h : entriesFrom m fuel d = some es) : appStrtab es = stringTable 0 es := by
  unfold appStrtab stringTable
  cases hfind : es.find? (·.1 == dtStrtab) with
  | none => rfl
  | some e =>
    exact (u32_of_lt (entriesFrom_lt h e (List.mem_of_find?_eq_some hfind))).symm

/-- The kernel and the linker agree exactly on the programs at fixed addresses whose headers in
memory name the `PT_DYNAMIC` of the file. -/
theorem linker_agrees_iff (l : Launch k h name) :
    l.Agrees ↔ (l.Registers → eType l.buf = etExec ∧
      firstDynamic l.memory (phdrVaddr l.buf 0) (ePhnum l.buf) (ePhentsize l.buf) =
        firstDynamic l.buf (ePhoff l.buf) (ePhnum l.buf) 32) := by
  have hfile : dynamicAt (phdrs l.buf) 0 =
      firstDynamic l.buf (ePhoff l.buf) (ePhnum l.buf) 32 :=
    dynamicAt_eq l.buf (ePhoff l.buf) (ePhnum l.buf) 32
  constructor
  · intro hagrees hregisters
    obtain ⟨hbias, hdynamic⟩ := hagrees.located hregisters
    have hzero : l.bias = 0 := hbias.symm
    rw [l.dynamic_eq, hzero, hfile] at hdynamic
    exact ⟨l.bias_zero_iff.mp hzero, hdynamic⟩
  · intro hcond
    constructor
    · exact l.decoded
    · intro hregisters
      obtain ⟨hexec, hsame⟩ := hcond hregisters
      have hzero := l.bias_zero_iff.mpr hexec
      rw [l.dynamic_eq, hzero, hsame, hfile]
      exact ⟨rfl, rfl⟩
    · intro hregisters fuel es hes hdyn
      obtain ⟨hexec, hsame⟩ := hcond hregisters
      have hzero := l.bias_zero_iff.mpr hexec
      have hdynamic : dynamicAt (phdrs l.buf) l.bias = (entered l.memory l.aux).dynamic := by
        rw [l.dynamic_eq, hzero, hsame, hfile]
      rw [hdynamic, hzero]
      constructor
      · have hroom : ¬ maxObjects ≤ (start l.memory).objects.length := by
          show ¬ 8 ≤ 0
          omega
        have hread : entriesFrom (start l.memory).mem fuel (entered l.memory l.aux).dynamic =
            some es := hes
        unfold registerObject
        rw [if_neg hroom, if_neg hdyn, hread]
        rfl
      · exact stringTable_zero hes
    · intro hregisters r hr fuel objects m
      have hrelative : r.type = ElfRelocations.r386Relative := by
        unfold applied at hr
        split_ifs at hr
        · exact eq_of_beq (List.mem_filter.mp hr).2
        · exact nomatch hr
      exact @applyRel_zero (entered l.memory l.aux) rfl ⟨r.rOffset, r.rInfo⟩ hrelative fuel
        objects m

/-- It is enough that the table stands unchanged where the kernel says, in entries of 32 bytes. -/
theorem Launch.headers_loaded (l : Launch k h name) (hsize : ePhentsize l.buf = 32)
    (hbytes : ∀ j < 32*ePhnum l.buf, l.memory (phdrVaddr l.buf 0+j) = l.buf (ePhoff l.buf+j)) :
    firstDynamic l.memory (phdrVaddr l.buf 0) (ePhnum l.buf) (ePhentsize l.buf) =
      firstDynamic l.buf (ePhoff l.buf) (ePhnum l.buf) 32 := by
  have hword : ∀ j, j+4 ≤ 32*ePhnum l.buf →
      read32 l.memory (phdrVaddr l.buf 0+j) = read32 l.buf (ePhoff l.buf+j) := by
    intro j hj
    unfold read32
    simp only [Nat.add_assoc]
    rw [hbytes j (by omega), hbytes (j+1) (by omega), hbytes (j+2) (by omega),
      hbytes (j+3) (by omega)]
  have hheader : ∀ i < ePhnum l.buf,
      phdrAt l.memory (phdrVaddr l.buf 0+32*i) = phdrAt l.buf (ePhoff l.buf+32*i) := by
    intro i hi
    unfold phdrAt
    simp only [Nat.add_assoc]
    rw [hword (32*i) (by omega), hword (32*i+4) (by omega), hword (32*i+8) (by omega),
      hword (32*i+16) (by omega), hword (32*i+20) (by omega), hword (32*i+24) (by omega)]
  unfold firstDynamic
  rw [hsize, List.map_congr_left fun i hi => hheader i (List.mem_range.mp hi)]

/-- A position independent program with an interpreter and an empty dynamic table. -/
def pieFile : File where
  size := 160
  byte := fun i => ([0x7f, 0x45, 0x4c, 0x46, 1, 1, 1, 0, 0, 0, 0, 0, 0, 0, 0, 0,
    3, 0, 3, 0, 1, 0, 0, 0, 0, 0, 0, 0, 52, 0, 0, 0, 0, 0, 0, 0, 0, 0, 0, 0, 52, 0, 32, 0, 3, 0,
    0, 0, 0, 0, 0, 0,
    1, 0, 0, 0, 0, 0, 0, 0, 0, 0, 0, 0, 0, 0, 0, 0, 160, 0, 0, 0, 160, 0, 0, 0, 6, 0, 0, 0,
    0, 16, 0, 0,
    2, 0, 0, 0, 152, 0, 0, 0, 152, 0, 0, 0, 152, 0, 0, 0, 8, 0, 0, 0, 8, 0, 0, 0, 6, 0, 0, 0,
    4, 0, 0, 0,
    3, 0, 0, 0, 148, 0, 0, 0, 148, 0, 0, 0, 148, 0, 0, 0, 3, 0, 0, 0, 3, 0, 0, 0, 4, 0, 0, 0,
    1, 0, 0, 0,
    0x2f, 0x6c, 0, 0] : List UInt8).getD i 0
  size_lt := by decide

def pieKernel : Kernel where
  resolve := fun path => some (if path = [0x2f, 0x6c] then oneSegment else pieFile)
  name := []
  space := some emptyProcess
  stack := fun i => some (4096*(i+1))

def pieHeap : Heap where
  header := some fun _ => 0
  interpHeader := some fun _ => 0
  interpPath := fun _ => 0
  strings := true
  vmaRoom := fun _ => true
  vmaOld := fun _ => (.file, none)
  kmalloc := fun _ => none
  supply := fun _ => ⟨none, true⟩
  interpSupply := fun _ => ⟨none, true⟩

/-- The linker enters a position independent program with a bias of zero. -/
theorem pie_misplaced : ∃ l : Launch pieKernel pieHeap [0x61], ¬ l.Agrees := by
  have hstart : (elfThreadEntry pieKernel pieHeap [0x61]).map (fun s =>
      (List.range 96).all fun j => (shown s.process (0x40000034+j)).isSome) = some true := by
    decide +kernel
  obtain ⟨s, hs, hshown⟩ := Option.map_eq_some_iff.mp hstart
  have hinterp : interpPath pieFile (headerBuf pieFile 4096 fun _ => 0) (fun _ => 0) ≠ [] := by
    decide +kernel
  obtain ⟨l, hprocess, -⟩ := launch_of_started hs fun f old hf hold => by
    cases hf
    cases hold
    exact hinterp
  have hbuf : l.buf = headerBuf pieFile 4096 fun _ => 0 := by
    have hfile : pieFile = l.file := Option.some.inj l.resolved
    have hold : (fun _ => 0) = l.old := Option.some.inj l.header
    rw [Opened.buf, ← hfile, ← hold]
  have hbias : l.bias = pieLoadBase := by
    rw [Opened.bias, hbuf]
    exact if_pos (by decide +kernel)
  have hentry : u32 (eEntry l.buf+l.bias) ≠ 0 := by
    rw [hbias, hbuf]
    decide +kernel
  have hphdr : phdrVaddr l.buf l.bias = 0x40000034 := by
    rw [hbias, hbuf]
    decide +kernel
  have hnum : ePhnum l.buf = 3 := by
    rw [hbuf]
    decide +kernel
  have hent : ePhentsize l.buf = 32 := by
    rw [hbuf]
    decide +kernel
  have hword : ∀ j, j+4 ≤ 96 → l.WordShown (0x40000034+j) := by
    intro j hj i hi
    rw [hprocess, u32_of_lt (by omega), Nat.add_assoc]
    exact List.all_eq_true.mp hshown (j+i) (List.mem_range.mpr (by omega))
  refine ⟨l, fun hagrees => ?_⟩
  have hregisters : l.Registers := by
    refine ⟨by rw [hphdr]; decide, hentry, fun i hi _ => ?_⟩
    rw [hnum] at hi
    rw [Launch.headerAt, hphdr, hent]
    exact ⟨hword (i*32) (by omega), fun _ => hword (i*32+8) (by omega)⟩
  have hzero : 0 = l.bias := (hagrees.located hregisters).1
  rw [hbias] at hzero
  exact absurd hzero (by decide)

end Launches

end Vlsmc.AuxVectors
