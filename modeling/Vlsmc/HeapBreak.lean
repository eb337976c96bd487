import Vlsmc.FrameSupply
import Vlsmc.KernelMappings
import Mathlib.Logic.Function.Basic

/-!
# The break of the heap

`sys_sbrk` moves the end of the heap, and a heap page gets its frame at the first access.
When the heap shrinks, the pages above the new end give their frames back; the page tables
that came with them stay.
-/

set_option autoImplicit false

namespace Vlsmc.HeapBreak
open Vlsmc.Words Vlsmc.PhysicalMemory Vlsmc.FrameSupply Vlsmc.Elf Vlsmc.DemandPaging
open Vlsmc.Regions (Apart vmaRange minusOne sbrk_checks)
open Vlsmc.MmioGrants (kernelSpaceEnd)
open Vlsmc.KernelMappings (sbrkRefused)

/-- A process with its page tables: the frame of the page table of each directory entry, and
the frames in the page table entries. The last three fields record the frames that heap faults
took and `sys_sbrk` released, and those that became page tables. -/
structure Process where
  heapStart : ℕ
  heapEnd : ℕ
  vmaList : List Vma
  tables : ℕ → Option ℕ
  table : ℕ → Option ℕ
  pmm : Pmm
  taken : List ℕ
  released : List ℕ
  tableFrames : List ℕ

namespace Process

/-- The frame of a page that is present. -/
def entry (s : Process) (page : ℕ) : Option ℕ :=
  if (s.tables (page/1024)).isSome then s.table page else none

/-- `VMM::map_page`; `none` when there is no frame for the page table. -/
def mapPage (s : Process) (page frame : ℕ) : Option Process :=
  if (s.tables (page/1024)).isSome then
    some { s with table := Function.update s.table page (some frame) }
  else
    let a := s.pmm.allocFrame
    if a.1 = 0 then none
    else some { s with
      pmm := a.2
      tables := Function.update s.tables (page/1024) (some a.1)
      table := Function.update
        (fun q => if q/1024 = page/1024 then none else s.table q) page (some frame)
      tableFrames := a.1::s.tableFrames }

/-- `VMM::unmap_page`. -/
def unmapPage (s : Process) (page : ℕ) : Process :=
  if (s.tables (page/1024)).isSome then
    { s with table := Function.update s.table page none } else s

/-- The heap path of `handle_page_fault`; `none` when there is no frame, and the machine
stops. -/
def heapFault (s : Process) (faultAddr : ℕ) : Option Process :=
  let a := s.pmm.allocFrame
  if a.1 = 0 then none
  else mapPage { s with pmm := a.2, taken := a.1::s.taken } (faultAddr/4096) a.1

/-- An access of the process to its heap; `none` also for an address outside. -/
def access (s : Process) (addr : ℕ) : Option Process :=
  if s.heapStart ≤ addr ∧ addr < s.heapEnd then
    if (s.entry (addr/4096)).isSome then some s else s.heapFault addr
  else none

/-- The body of the loop of `sys_sbrk`. -/
def sbrkPage (s : Process) (page : ℕ) : Process :=
  match s.entry page with
  | none => s
  | some f =>
    if f = 0 then s
    else unmapPage { s with pmm := s.pmm.freeFrame f, released := f::s.released } page

def sbrkPages (s : Process) (addr : ℕ) : ℕ → Process
  | 0 => s
  | n+1 => (sbrkPages s addr n).sbrkPage (u32 (addr+4096*n)/4096)

def sysSbrk (s : Process) (ebx : ℕ) : ℕ × Process :=
  if toInt32 ebx = 0 then (s.heapEnd, s)
  else if sbrkRefused s.heapStart s.heapEnd ebx then (minusOne, s)
  else
    let newEnd := u32 (s.heapEnd+ebx)
    let shrunk := if toInt32 ebx < 0 then
      s.sbrkPages (pageUp newEnd) ((pageUp s.heapEnd-pageUp newEnd)/4096) else s
    (s.heapEnd, { shrunk with heapEnd := newEnd })

end Process

inductive Event
  | sbrk (increment : UInt32)
  | access (addr : UInt32)

def step (s : Process) : Event → Option Process
  | .sbrk increment => some (s.sysSbrk increment.toNat).2
  | .access addr => s.access addr.toNat

def run : Process → List Event → Option Process
  | s, [] => some s
  | s, e::es => (step s e).bind fun s => run s es

/-- A process before its first call. What is present from the start of the heap to the limit of
the breaks belongs to a VMA. -/
structure Starts (s : Process) : Prop where
  empty : s.heapEnd = s.heapStart
  limit : s.heapStart < 0x8FFFFFFF
  aligned : 4096 ∣ s.heapStart
  owned : ∀ page, (s.entry page).isSome → s.heapStart ≤ 4096*page → kernelSpaceEnd ≤ 4096*page →
    4096*page < 0x8FFFFFFF → ∃ v ∈ s.vmaList, (vmaRange v).Has (4096*page)
  taken : s.taken = []
  released : s.released = []
  tableFrames : s.tableFrames = []

/-- The VMAs do not overlap the heap. -/
def Clear (s : Process) : Prop := ∀ v ∈ s.vmaList, Apart ⟨s.heapStart, s.heapEnd⟩ (vmaRange v)

/-- The pages that heap faults have given frames. -/
def heapPages (s₀ s : Process) (page : ℕ) : Option ℕ :=
  if (s₀.entry page).isSome then none else s.entry page

/-- The frames `M` of the heap pages, the frames `tables` of the page tables, and what was taken
and released, for a memory manager that once had the bitmap `bits`. -/
structure Ledger (bits : ℕ → Bool) (M : ℕ → Option ℕ) (p : Pmm)
    (tables taken released : List ℕ) : Prop where
  used : ∀ page f, M page = some f →
    f ≠ 0 ∧ f < p.maxFrames ∧ p.refcounts f ≤ 1 ∧ bits f = false ∧ f ∉ tables
  once : ∀ page page' f, M page = some f → M page' = some f → page = page'
  marked : ∀ f, p.memoryBitmap f = true ↔ bits f = true ∨ f ∈ tables ∨ ∃ page, M page = some f
  held : ∀ page f, M page = some f → taken.count f = released.count f+1
  back : ∀ f, (∀ page, M page ≠ some f) → taken.count f = released.count f

section Ledger

variable {bits : ℕ → Bool} {M : ℕ → Option ℕ} {p : Pmm} {tables taken released : List ℕ}

/-- A frame that is marked free is in nobody's use. -/
theorem Ledger.fresh (h : Ledger bits M p tables taken released) {f : ℕ}
    (hf : p.memoryBitmap f = false) : bits f = false ∧ f ∉ tables ∧ ∀ page, M page ≠ some f := by
  have hnot : ¬ (bits f = true ∨ f ∈ tables ∨ ∃ page, M page = some f) := by
    rw [← h.marked f, hf]
    decide
  push Not at hnot
  exact ⟨Bool.eq_false_iff.mpr hnot.1, hnot.2⟩

theorem allocFrame_marked (h : p.allocFrame.1 ≠ 0) (f : ℕ) :
    p.allocFrame.2.memoryBitmap f = true ↔ f = p.allocFrame.1 ∨ p.memoryBitmap f = true := by
  obtain ⟨hfree, -, hset, -, hsame⟩ := alloc_takes h
  by_cases hf : f = p.allocFrame.1
  · rw [hf, hset]
    exact ⟨fun _ => .inl rfl, fun _ => rfl⟩
  · rw [(hsame f hf).1]
    exact ⟨.inr, fun h => h.resolve_left hf⟩

/-- A frame is taken for a page. -/
theorem Ledger.take (h : Ledger bits M p tables taken released) (h0 : p.allocFrame.1 ≠ 0)
    {page : ℕ} (hpage : M page = none) :
    Ledger bits (Function.update M page (some p.allocFrame.1)) p.allocFrame.2 tables
      (p.allocFrame.1::taken) released := by
  obtain ⟨⟨hbit, hlt⟩, hmax, -, hone, hsame⟩ := alloc_takes h0
  have hmarked := allocFrame_marked h0
  obtain ⟨hbits, htables, hpages⟩ := h.fresh hbit
  generalize p.allocFrame.1 = a, p.allocFrame.2 = q at *
  have hcases : ∀ page' f, Function.update M page (some a) page' = some f →
      page' = page ∧ f = a ∨ page' ≠ page ∧ f ≠ a ∧ M page' = some f := by
    intro page' f hf
    by_cases hp : page' = page
    · rw [hp, Function.update_self, Option.some.injEq] at hf
      exact .inl ⟨hp, hf.symm⟩
    · rw [Function.update_of_ne hp] at hf
      have hne : f ≠ a := by
        rintro rfl
        exact hpages page' hf
      exact .inr ⟨hp, hne, hf⟩
  constructor
  · intro page' f hf
    rcases hcases page' f hf with ⟨-, rfl⟩ | ⟨-, hne, hold⟩
    · exact ⟨h0, by rwa [hmax], hone.le, hbits, htables⟩
    · rw [hmax, (hsame f hne).2]
      exact h.used page' f hold
  · intro page' page'' f hf hf'
    rcases hcases page' f hf with ⟨rfl, rfl⟩ | ⟨-, hne, hold⟩
    · rcases hcases page'' f hf' with ⟨rfl, -⟩ | ⟨-, hne, -⟩
      · rfl
      · exact absurd rfl hne
    · rcases hcases page'' f hf' with ⟨-, rfl⟩ | ⟨-, -, hold'⟩
      · exact absurd rfl hne
      · exact h.once _ _ f hold hold'
  · intro f
    rw [hmarked f, h.marked f]
    constructor
    · rintro (rfl | hbit | htable | ⟨page', hf⟩)
      · exact .inr (.inr ⟨page, Function.update_self ..⟩)
      · exact .inl hbit
      · exact .inr (.inl htable)
      · have hp : page' ≠ page := by
          rintro rfl
          exact nomatch hpage.symm.trans hf
        exact .inr (.inr ⟨page', (Function.update_of_ne hp ..).trans hf⟩)
    · rintro (hbit | htable | ⟨page', hf⟩)
      · exact .inr (.inl hbit)
      · exact .inr (.inr (.inl htable))
      · rcases hcases page' f hf with ⟨-, rfl⟩ | ⟨-, -, hold⟩
        · exact .inl rfl
        · exact .inr (.inr (.inr ⟨page', hold⟩))
  · intro page' f hf
    rcases hcases page' f hf with ⟨-, rfl⟩ | ⟨-, hne, hold⟩
    · rw [List.count_cons_self, h.back f hpages]
    · rw [List.count_cons_of_ne hne.symm, h.held page' f hold]
  · intro f hf
    have hne : f ≠ a := by
      rintro rfl
      exact hf page (Function.update_self ..)
    rw [List.count_cons_of_ne hne.symm]
    refine h.back f fun page' hold => ?_
    have hp : page' ≠ page := by
      rintro rfl
      exact nomatch hpage.symm.trans hold
    exact hf page' ((Function.update_of_ne hp ..).trans hold)

/-- A frame becomes a page table. -/
theorem Ledger.addTable (h : Ledger bits M p tables taken released) (h0 : p.allocFrame.1 ≠ 0) :
    Ledger bits M p.allocFrame.2 (p.allocFrame.1::tables) taken released := by
  obtain ⟨⟨hbit, -⟩, hmax, -, -, hsame⟩ := alloc_takes h0
  have hmarked := allocFrame_marked h0
  obtain ⟨hbits, -, hpages⟩ := h.fresh hbit
  generalize p.allocFrame.1 = a, p.allocFrame.2 = q at *
  constructor
  · intro page f hf
    have hne : f ≠ a := by
      rintro rfl
      exact hpages page hf
    rw [hmax, (hsame f hne).2, List.mem_cons, not_or]
    obtain ⟨hzero, hlt, hone, hbits, htable⟩ := h.used page f hf
    exact ⟨hzero, hlt, hone, hbits, hne, htable⟩
  · exact h.once
  · intro f
    rw [hmarked f, h.marked f, List.mem_cons]
    tauto
  · exact h.held
  · exact h.back

/-- A page gives its frame back. -/
theorem Ledger.giveBack (h : Ledger bits M p tables taken released) {page f : ℕ}
    (hf : M page = some f) :
    Ledger bits (Function.update M page none) (p.freeFrame f) tables taken (f::released) := by
  obtain ⟨-, hlt, hone, hbits, htable⟩ := h.used page f hf
  have hcleared := (freeFrame_last p hlt hone).1
  have hcases : ∀ page' g, Function.update M page none page' = some g →
      page' ≠ page ∧ g ≠ f ∧ M page' = some g := by
    intro page' g hg
    have hp : page' ≠ page := by
      rintro rfl
      rw [Function.update_self] at hg
      cases hg
    rw [Function.update_of_ne hp] at hg
    refine ⟨hp, ?_, hg⟩
    rintro rfl
    exact hp (h.once page' page g hg hf)
  constructor
  · intro page' g hg
    obtain ⟨-, hne, hold⟩ := hcases page' g hg
    rw [freeFrame_maxFrames, (freeFrame_same p hne).2]
    exact h.used page' g hold
  · intro page' page'' g hg hg'
    exact h.once page' page'' g (hcases page' g hg).2.2 (hcases page'' g hg').2.2
  · intro g
    by_cases hg : g = f
    · rw [hg, hcleared]
      constructor
      · exact nofun
      · rintro (hbit | hmem | ⟨page', hfree⟩)
        · exact absurd hbit (by rw [hbits]; decide)
        · exact absurd hmem htable
        · exact absurd rfl (hcases page' f hfree).2.1
    · rw [(freeFrame_same p hg).1, h.marked g]
      have hpages : (∃ page', M page' = some g) ↔
          ∃ page', Function.update M page none page' = some g := by
        constructor
        · rintro ⟨page', hold⟩
          have hp : page' ≠ page := by
            rintro rfl
            exact hg (Option.some.inj (hold.symm.trans hf))
          exact ⟨page', (Function.update_of_ne hp ..).trans hold⟩
        · rintro ⟨page', hg⟩
          exact ⟨page', (hcases page' g hg).2.2⟩
      rw [hpages]
  · intro page' g hg
    obtain ⟨-, hne, hold⟩ := hcases page' g hg
    rw [List.count_cons_of_ne hne.symm, h.held page' g hold]
  · intro g hg
    by_cases hgf : g = f
    · rw [hgf, List.count_cons_self, h.held page f hf]
    · rw [List.count_cons_of_ne (Ne.symm hgf)]
      refine h.back g fun page' hold => ?_
      have hp : page' ≠ page := by
        rintro rfl
        exact hgf (Option.some.inj (hold.symm.trans hf))
      exact hg page' ((Function.update_of_ne hp ..).trans hold)

end Ledger

/-- What holds in every state of a run from `s₀`. -/
structure Kept (s₀ s : Process) : Prop where
  heapStart : s.heapStart = s₀.heapStart
  vmaList : s.vmaList = s₀.vmaList
  low : s.heapStart ≤ s.heapEnd
  limit : s.heapEnd < 0x8FFFFFFF
  foreign : ∀ page f, s₀.entry page = some f → s.entry page = some f
  inside : ∀ page f, heapPages s₀ s page = some f →
    s.heapStart ≤ 4096*page ∧ 4096*page < pageUp s.heapEnd
  ledger : Ledger s₀.pmm.memoryBitmap (heapPages s₀ s) s.pmm s.tableFrames s.taken s.released

section Steps

variable {s₀ s s' : Process} {page frame : ℕ}

theorem heapPages_of_none (h : s₀.entry page = none) : heapPages s₀ s page = s.entry page := by
  rw [heapPages, h]
  rfl

/-- A page that was absent at the start changes. -/
theorem heapPages_update (h : s₀.entry page = none) {x : Option ℕ}
    (hx : s'.entry = Function.update s.entry page x) :
    heapPages s₀ s' = Function.update (heapPages s₀ s) page x := by
  funext q
  by_cases hq : q = page
  · rw [hq, heapPages_of_none h, hx, Function.update_self, Function.update_self]
  · rw [heapPages, hx, Function.update_of_ne hq, Function.update_of_ne hq]
    rfl

theorem foreign_update (h : s₀.entry page = none) {x : Option ℕ}
    (hx : s'.entry = Function.update s.entry page x)
    (hs : ∀ q f, s₀.entry q = some f → s.entry q = some f) :
    ∀ q f, s₀.entry q = some f → s'.entry q = some f := by
  intro q f hq
  have hne : q ≠ page := by
    rintro rfl
    exact nomatch h.symm.trans hq
  rw [hx, Function.update_of_ne hne]
  exact hs q f hq

/-- `map_page` sets one entry, and may take a frame for the page table. -/
theorem mapPage_spec (h : s.mapPage page frame = some s') :
    s'.entry = Function.update s.entry page (some frame) ∧ s'.heapStart = s.heapStart ∧
    s'.heapEnd = s.heapEnd ∧ s'.vmaList = s.vmaList ∧ s'.taken = s.taken ∧
    s'.released = s.released ∧
    (s'.pmm = s.pmm ∧ s'.tableFrames = s.tableFrames ∨
      s.pmm.allocFrame.1 ≠ 0 ∧ s'.pmm = s.pmm.allocFrame.2 ∧
        s'.tableFrames = s.pmm.allocFrame.1::s.tableFrames) := by
  unfold Process.mapPage at h
  by_cases htable : (s.tables (page/1024)).isSome
  · rw [if_pos htable] at h
    cases h
    refine ⟨?_, rfl, rfl, rfl, rfl, rfl, .inl ⟨rfl, rfl⟩⟩
    funext q
    by_cases hq : q = page
    · rw [hq, Function.update_self, Process.entry, if_pos htable]
      exact Function.update_self ..
    · rw [Function.update_of_ne hq, Process.entry]
      dsimp only
      rw [Function.update_of_ne hq]
      rfl
  · rw [if_neg htable] at h
    dsimp only at h
    by_cases h0 : s.pmm.allocFrame.1 = 0
    · rw [if_pos h0] at h
      cases h
    · rw [if_neg h0] at h
      cases h
      refine ⟨?_, rfl, rfl, rfl, rfl, rfl, .inr ⟨h0, rfl, rfl⟩⟩
      funext q
      by_cases hdir : q/1024 = page/1024
      · have htaken : (Function.update s.tables (page/1024) (some s.pmm.allocFrame.1)
            (q/1024)).isSome := by
          rw [hdir, Function.update_self]
          rfl
        rw [Process.entry, if_pos htaken]
        dsimp only
        by_cases hq : q = page
        · rw [hq, Function.update_self, Function.update_self]
        · rw [Function.update_of_ne hq, Function.update_of_ne hq, if_pos hdir, Process.entry,
            hdir, if_neg htable]
      · have hq : q ≠ page := fun hq => hdir (congrArg (·/1024) hq)
        have hother : Function.update s.tables (page/1024) (some s.pmm.allocFrame.1) (q/1024) =
            s.tables (q/1024) := Function.update_of_ne hdir ..
        simp only [Process.entry, hother, Function.update_of_ne hq, if_neg hdir]

theorem unmapPage_entry (s : Process) (page : ℕ) :
    (s.unmapPage page).entry = Function.update s.entry page none := by
  funext q
  unfold Process.unmapPage
  by_cases htable : (s.tables (page/1024)).isSome
  · rw [if_pos htable, Process.entry]
    dsimp only
    by_cases hq : q = page
    · rw [hq, Function.update_self, Function.update_self, ite_self]
    · rw [Function.update_of_ne hq, Function.update_of_ne hq]
      rfl
  · rw [if_neg htable]
    by_cases hq : q = page
    · rw [hq, Function.update_self, Process.entry, if_neg htable]
    · rw [Function.update_of_ne hq]

theorem access_kept (hs : 4096 ∣ s₀.heapStart) (h : Kept s₀ s) {addr : ℕ}
    (hstep : s.access addr = some s') : Kept s₀ s' := by
  unfold Process.access at hstep
  by_cases hheap : s.heapStart ≤ addr ∧ addr < s.heapEnd
  · rw [if_pos hheap] at hstep
    by_cases hpresent : (s.entry (addr/4096)).isSome
    · rw [if_pos hpresent] at hstep
      cases hstep
      exact h
    · rw [if_neg hpresent, Process.heapFault] at hstep
      by_cases h0 : s.pmm.allocFrame.1 = 0
      · rw [if_pos h0] at hstep
        cases hstep
      · rw [if_neg h0] at hstep
        have habsent : s.entry (addr/4096) = none := Option.not_isSome_iff_eq_none.mp hpresent
        have hnew : s₀.entry (addr/4096) = none := by
          cases he : s₀.entry (addr/4096) with
          | none => rfl
          | some f => exact nomatch habsent.symm.trans (h.foreign _ f he)
        obtain ⟨hentry, hstart, hend, hvmas, htaken, hreleased, hpmm⟩ := mapPage_spec hstep
        have hpages := heapPages_update (s := s) hnew hentry
        have hledger := h.ledger.take h0 ((heapPages_of_none hnew).trans habsent)
        rw [← hpages] at hledger
        constructor
        · exact hstart.trans h.heapStart
        · exact hvmas.trans h.vmaList
        · rw [hstart, hend]
          exact h.low
        · rw [hend]
          exact h.limit
        · exact foreign_update (s := s) hnew hentry h.foreign
        · intro page f hf
          rw [hstart, hend]
          change s.heapStart ≤ _ ∧ _ < pageUp s.heapEnd
          rw [hpages] at hf
          by_cases hpage : page = addr/4096
          · have hup := le_pageUp (show s.heapEnd+4095 < 4294967296 by have := h.limit; omega)
            have haligned : 4096 ∣ s.heapStart := h.heapStart ▸ hs
            omega
          · rw [Function.update_of_ne hpage] at hf
            exact h.inside page f hf
        · rw [htaken, hreleased]
          rcases hpmm with ⟨hpmm, htables⟩ | ⟨hmore, hpmm, htables⟩
          · rw [hpmm, htables]
            exact hledger
          · rw [hpmm, htables]
            exact hledger.addTable hmore
  · rw [if_neg hheap] at hstep
    cases hstep

/-- A page of the heap is taken back. -/
theorem sbrkPage_kept (h : Kept s₀ s) (hnew : s₀.entry page = none) :
    Kept s₀ (s.sbrkPage page) ∧ (s.sbrkPage page).entry = Function.update s.entry page none ∧
    (s.sbrkPage page).heapEnd = s.heapEnd := by
  unfold Process.sbrkPage
  cases he : s.entry page with
  | none =>
    refine ⟨h, ?_, rfl⟩
    exact (he ▸ Function.update_eq_self page s.entry).symm
  | some f =>
    have hf : heapPages s₀ s page = some f := (heapPages_of_none hnew).trans he
    dsimp only
    rw [if_neg (h.ledger.used page f hf).1]
    generalize hfreed : ({ s with pmm := s.pmm.freeFrame f, released := f::s.released } : Process)
      = r
    have hentry : (r.unmapPage page).entry = Function.update s.entry page none := by
      rw [unmapPage_entry, ← hfreed]
      rfl
    have hfields : (r.unmapPage page).heapStart = s.heapStart ∧
        (r.unmapPage page).heapEnd = s.heapEnd ∧ (r.unmapPage page).vmaList = s.vmaList ∧
        (r.unmapPage page).pmm = s.pmm.freeFrame f ∧
        (r.unmapPage page).tableFrames = s.tableFrames ∧
        (r.unmapPage page).taken = s.taken ∧ (r.unmapPage page).released = f::s.released := by
      unfold Process.unmapPage
      rw [← hfreed]
      split_ifs <;> exact ⟨rfl, rfl, rfl, rfl, rfl, rfl, rfl⟩
    obtain ⟨hstart, hend, hvmas, hpmm, htables, htaken, hreleased⟩ := hfields
    have hpages := heapPages_update hnew hentry
    refine ⟨?_, hentry, hend⟩
    constructor
    · exact hstart.trans h.heapStart
    · exact hvmas.trans h.vmaList
    · rw [hstart, hend]
      exact h.low
    · rw [hend]
      exact h.limit
    · exact foreign_update hnew hentry h.foreign
    · intro q g hg
      have hne : q ≠ page := by
        rintro rfl
        rw [hpages, Function.update_self] at hg
        cases hg
      rw [hpages, Function.update_of_ne hne] at hg
      rw [hstart, hend]
      exact h.inside q g hg
    · rw [hpages, hpmm, htables, htaken, hreleased]
      exact h.ledger.giveBack hf

theorem sbrkPages_kept (h : Kept s₀ s) (addr n : ℕ)
    (hnew : ∀ k < n, s₀.entry (u32 (addr+4096*k)/4096) = none) :
    Kept s₀ (s.sbrkPages addr n) ∧ (s.sbrkPages addr n).heapEnd = s.heapEnd ∧
    ∀ k < n, (s.sbrkPages addr n).entry (u32 (addr+4096*k)/4096) = none := by
  induction n with
  | zero => exact ⟨h, rfl, fun k hk => absurd hk (by omega)⟩
  | succ n ih =>
    obtain ⟨hkept, hend, habsent⟩ := ih fun k hk => hnew k (by omega)
    obtain ⟨hkept', hentry, hend'⟩ := sbrkPage_kept hkept (hnew n (by omega))
    refine ⟨hkept', hend'.trans hend, fun k hk => ?_⟩
    rw [Process.sbrkPages, hentry]
    by_cases hlast : u32 (addr+4096*k)/4096 = u32 (addr+4096*n)/4096
    · rw [hlast, Function.update_self]
    · rw [Function.update_of_ne hlast]
      have hne : k ≠ n := fun hkn => hlast (by rw [hkn])
      exact habsent k (by omega)

theorem pageUp_eq {a : ℕ} (h : a < 0x8FFFFFFF) : pageUp a = (a+4095)/4096*4096 := by
  rw [pageUp, u32_of_lt (by omega), pageDown]

/-- The pages that a shrinking heap gives up belong to the heap only. -/
theorem shrunk_absent (hs : Starts s₀) (h : Kept s₀ s) (hclear : Clear s) {newEnd k : ℕ}
    (hlow : s.heapStart ≤ newEnd) (hkernel : kernelSpaceEnd ≤ newEnd) (hle : newEnd ≤ s.heapEnd)
    (hk : k < (pageUp s.heapEnd-pageUp newEnd)/4096) :
    s₀.entry (u32 (pageUp newEnd+4096*k)/4096) = none := by
  have hlimit := h.limit
  rw [pageUp_eq hlimit, pageUp_eq (hle.trans_lt hlimit)] at hk
  rw [pageUp_eq (hle.trans_lt hlimit), u32_of_lt (by omega)]
  generalize hpage : ((newEnd+4095)/4096*4096+4096*k)/4096 = page
  have hinside : newEnd ≤ 4096*page ∧ 4096*page < s.heapEnd := by omega
  by_contra hpresent
  obtain ⟨v, hv, hhas⟩ := hs.owned page (Option.isSome_iff_ne_none.mpr hpresent)
    (h.heapStart ▸ hlow.trans hinside.1) (hkernel.trans hinside.1) (hinside.2.trans hlimit)
  exact hclear v (h.vmaList ▸ hv) (4096*page) ⟨hlow.trans hinside.1, hinside.2⟩ hhas

/-- The break moves over pages that the heap does not have. -/
theorem Kept.moveBreak (h : Kept s₀ s) {newEnd : ℕ} (hlow : s.heapStart ≤ newEnd)
    (hlimit : newEnd < 0x8FFFFFFF)
    (hinside : ∀ page f, heapPages s₀ s page = some f → 4096*page < pageUp newEnd) :
    Kept s₀ { s with heapEnd := newEnd } where
  heapStart := h.heapStart
  vmaList := h.vmaList
  low := hlow
  limit := hlimit
  foreign := h.foreign
  inside page f hf := ⟨(h.inside page f hf).1, hinside page f hf⟩
  ledger := h.ledger

theorem sysSbrk_kept (hs : Starts s₀) (h : Kept s₀ s) (hclear : Clear s) (ebx : ℕ) :
    Kept s₀ (s.sysSbrk ebx).2 := by
  unfold Process.sysSbrk
  by_cases hzero : toInt32 ebx = 0
  · rw [if_pos hzero]
    exact h
  rw [if_neg hzero]
  by_cases hrefused : sbrkRefused s.heapStart s.heapEnd ebx = true
  · rw [if_pos hrefused]
    exact h
  rw [if_neg hrefused]
  obtain ⟨hlow, hkernel, hlimit, hgrow, hshrink⟩ := sbrk_checks (Bool.not_eq_true _ ▸ hrefused)
  generalize u32 (s.heapEnd+ebx) = newEnd at *
  dsimp only
  by_cases hneg : toInt32 ebx < 0
  · rw [if_pos hneg]
    have hle := hshrink hneg
    obtain ⟨hkept, hend, habsent⟩ := sbrkPages_kept h (pageUp newEnd)
      ((pageUp s.heapEnd-pageUp newEnd)/4096)
      fun k hk => shrunk_absent hs h hclear hlow hkernel hle hk
    have hstart := hkept.heapStart.trans h.heapStart.symm
    generalize s.sbrkPages (pageUp newEnd) ((pageUp s.heapEnd-pageUp newEnd)/4096) = r at *
    refine hkept.moveBreak (hstart ▸ hlow) hlimit fun page f hf => ?_
    have hold := (hkept.inside page f hf).2
    rw [hend, pageUp_eq h.limit] at hold
    by_contra habove
    have hk := habsent (page-pageUp newEnd/4096)
    rw [pageUp_eq h.limit, pageUp_eq hlimit] at hk
    rw [pageUp_eq hlimit] at habove
    have hpage : u32 ((newEnd+4095)/4096*4096+4096*(page-(newEnd+4095)/4096*4096/4096))/4096 =
        page := by
      have := h.limit
      rw [u32_of_lt (by omega)]
      omega
    rw [hpage] at hk
    rw [heapPages] at hf
    split_ifs at hf
    rw [hk (by omega)] at hf
    cases hf
  · rw [if_neg hneg]
    refine h.moveBreak hlow hlimit fun page f hf => ?_
    have hle := hgrow (by omega)
    have hold := (h.inside page f hf).2
    rw [pageUp_eq h.limit] at hold
    rw [pageUp_eq hlimit]
    have hround : (s.heapEnd+4095)/4096 ≤ (newEnd+4095)/4096 :=
      Nat.div_le_div_right (Nat.add_le_add_right hle 4095)
    exact hold.trans_le (Nat.mul_le_mul_right 4096 hround)

theorem step_kept (hs : Starts s₀) (h : Kept s₀ s) (hclear : Clear s) {e : Event}
    (hstep : step s e = some s') : Kept s₀ s' := by
  cases e with
  | sbrk increment =>
    cases hstep
    exact sysSbrk_kept hs h hclear _
  | access addr => exact access_kept hs.aligned h hstep

end Steps

section Runs

variable {s₀ s s' : Process}

theorem starts_kept (h : Starts s₀) : Kept s₀ s₀ := by
  have hpages : ∀ page, heapPages s₀ s₀ page = none := by
    intro page
    rw [heapPages]
    split_ifs with hpresent
    · rfl
    · exact Option.not_isSome_iff_eq_none.mp hpresent
  constructor
  · rfl
  · rfl
  · exact h.empty.ge
  · exact h.empty ▸ h.limit
  · exact fun page f hf => hf
  · exact fun page f hf => nomatch (hpages page).symm.trans hf
  · constructor
    · exact fun page f hf => nomatch (hpages page).symm.trans hf
    · exact fun page _ f hf => nomatch (hpages page).symm.trans hf
    · intro f
      rw [h.tableFrames]
      simp [hpages]
    · exact fun page f hf => nomatch (hpages page).symm.trans hf
    · intro f _
      rw [h.taken, h.released]

theorem run_kept (hs : Starts s₀) (h : Kept s₀ s) (es : List Event)
    (hclear : ∀ before, before <+: es → ∀ x, run s before = some x → Clear x)
    (hrun : run s es = some s') : Kept s₀ s' := by
  induction es generalizing s with
  | nil =>
    cases hrun
    exact h
  | cons e es ih =>
    obtain ⟨x, hstep, hrest⟩ := Option.bind_eq_some_iff.mp hrun
    refine ih (step_kept hs h (hclear [] List.nil_prefix s rfl) hstep) ?_ hrest
    intro before hb y hy
    refine hclear (e::before) ((List.prefix_cons_inj e).mpr hb) y ?_
    exact Option.bind_eq_some_iff.mpr ⟨x, hstep, hy⟩

/-- What `sys_sbrk` returns. -/
theorem sysSbrk_returns (s : Process) (ebx : ℕ) :
    s.sysSbrk ebx = (minusOne, s) ∨ (s.sysSbrk ebx).1 = s.heapEnd := by
  unfold Process.sysSbrk
  split_ifs
  · exact .inr rfl
  · exact .inl rfl
  · exact .inr rfl
  · exact .inr rfl

/-- With the break back at the start of the heap no frame is left. -/
theorem Kept.empty (h : Kept s₀ s) (hs : Starts s₀) (hempty : s.heapEnd = s.heapStart) :
    s.released.Perm s.taken ∧
    ∀ f, s.pmm.memoryBitmap f = true ↔ s₀.pmm.memoryBitmap f = true ∨ f ∈ s.tableFrames := by
  have hnone : ∀ page f, heapPages s₀ s page ≠ some f := by
    intro page f hf
    obtain ⟨hlow, hhigh⟩ := h.inside page f hf
    have haligned : 4096 ∣ s.heapEnd := by
      rw [hempty, h.heapStart]
      exact hs.aligned
    rw [pageUp_of_dvd haligned (by have := h.limit; omega), hempty] at hhigh
    omega
  constructor
  · rw [List.perm_iff_count]
    exact fun f => (h.ledger.back f fun page => hnone page f).symm
  · intro f
    rw [h.ledger.marked f]
    constructor
    · rintro (hbit | htable | ⟨page, hf⟩)
      · exact .inl hbit
      · exact .inr htable
      · exact absurd hf (hnone page f)
    · rintro (hbit | htable)
      · exact .inl hbit
      · exact .inr (.inl htable)

/-- Every run of calls and accesses keeps the break within its limits and the pages of the heap
below it; with the break back at the start every frame was released exactly once. -/
theorem heap_break (s₀ s : Process) (es : List Event) (hs : Starts s₀)
    (hrun : run s₀ es = some s)
    (hclear : ∀ before, before <+: es → ∀ x, run s₀ before = some x → Clear x) :
    (s.heapStart ≤ s.heapEnd ∧ s.heapEnd < 0x8FFFFFFF) ∧
    (∀ page f, s₀.entry page = none → s.entry page = some f →
      s.heapStart ≤ 4096*page ∧ 4096*page < pageUp s.heapEnd) ∧
    (∀ increment : UInt32, (s.sysSbrk increment.toNat).1 = minusOne →
      (s.sysSbrk increment.toNat).2 = s) ∧
    (∀ increment : UInt32, (s.sysSbrk increment.toNat).1 ≠ minusOne →
      (s.sysSbrk increment.toNat).1 = s.heapEnd) ∧
    (s.heapEnd = s.heapStart → s.released.Perm s.taken ∧
      ∀ f, s.pmm.memoryBitmap f = true ↔ s₀.pmm.memoryBitmap f = true ∨ f ∈ s.tableFrames) := by
  have hkept := run_kept hs (starts_kept hs) es hclear hrun
  refine ⟨⟨hkept.low, hkept.limit⟩, ?_, ?_, ?_, hkept.empty hs⟩
  · intro page f hnew hf
    exact hkept.inside page f ((heapPages_of_none hnew).trans hf)
  · intro increment hret
    rcases sysSbrk_returns s increment.toNat with heq | hold
    · rw [heq]
    · rw [hold] at hret
      exact absurd hret (hkept.limit.trans (by decide)).ne
  · intro increment hret
    rcases sysSbrk_returns s increment.toNat with heq | hold
    · rw [heq] at hret
      exact absurd rfl hret
    · exact hold

/-- A process with one page of code below its heap, and 64 frames. -/
def onePage : Process where
  heapStart := 0x08400000
  heapEnd := 0x08400000
  vmaList := [{
    start := 0x08048000, finish := 0x08049000, flags := 5, type := .anon, fileVnode := none,
    fileOffset := 0, fileSize := 0 }]
  tables := fun d => if d = 32 then some 1 else none
  table := fun page => if page = 0x8048 then some 2 else none
  pmm := ⟨fun f => decide (f < 3), 64, 3, fun f => if f < 3 then 1 else 0⟩
  taken := []
  released := []
  tableFrames := []

/-- The heap grows by two pages, both are used, and it shrinks again. -/
def growAndShrink : List Event :=
  [.sbrk 8192, .access 0x08401234, .access 0x08400000, .sbrk 0xFFFFE000]

theorem onePage_starts : Starts onePage := by
  constructor
  · rfl
  · decide
  · decide
  · intro page hpresent
    have hpage : page = 0x8048 := by
      by_contra hne
      rw [Process.entry] at hpresent
      simp [onePage, hne] at hpresent
    rw [hpage]
    exact fun hlow => absurd hlow (by decide)
  · rfl
  · rfl
  · rfl

/-- The heap of every state of the run is above the code. -/
theorem growAndShrink_clear : ∀ before, before <+: growAndShrink →
    ∀ x, run onePage before = some x → Clear x := by
  have hall : (growAndShrink.inits.all fun before => (run onePage before).all fun x =>
      x.vmaList.all fun v => decide (v.finish ≤ x.heapStart)) = true := by decide +kernel
  intro before hb x hx v hv addr hheap hvma
  have hbefore := List.all_eq_true.mp hall before ((List.mem_inits _ _).mpr hb)
  rw [hx, Option.all_some] at hbefore
  have hbelow := of_decide_eq_true (List.all_eq_true.mp hbefore v hv)
  exact absurd (hvma.2.trans_le hbelow) (Nat.not_lt.mpr hheap.1)

theorem growAndShrink_releases : ∃ s, run onePage growAndShrink = some s ∧
    s.taken = [5, 3] ∧ s.tableFrames = [4] ∧ s.released.Perm s.taken := by
  have hlogs : ((run onePage growAndShrink).map fun s =>
      (s.taken, s.tableFrames, s.heapEnd, s.heapStart)) =
      some ([5, 3], [4], 0x08400000, 0x08400000) := by decide +kernel
  obtain ⟨s, hrun, heq⟩ := Option.map_eq_some_iff.mp hlogs
  simp only [Prod.mk.injEq] at heq
  obtain ⟨htaken, htables, hend, hstart⟩ := heq
  have hbreak := heap_break onePage s growAndShrink onePage_starts hrun growAndShrink_clear
  exact ⟨s, hrun, htaken, htables, (hbreak.2.2.2.2 (hend.trans hstart.symm)).1⟩

end Runs

end Vlsmc.HeapBreak
