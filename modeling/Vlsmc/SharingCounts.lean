import Vlsmc.PageCacheFrames
import Vlsmc.StepConditions

/-!
# Counts of a shared frame

The mappings of a frame are counted in one byte, which stays at 255 when there are
more. Afterwards the frame is freed with 255 mappings taken back, while others are
left. A frame that the page cache names after it was freed is mapped without being
marked used again.
-/

set_option autoImplicit false

namespace Vlsmc.SharingCounts
open Vlsmc.ByteMemory Vlsmc.Words Vlsmc.Elf Vlsmc.DemandPaging Vlsmc.PageCache
open Vlsmc.PhysicalMemory Vlsmc.SharedFrames Vlsmc.FreshPages Vlsmc.FreshPagesRuns
open Vlsmc.StepConditions

/-- Every frame that a page maps is marked used. -/
def InUse (s : World) : Prop := ∀ x f, mapped s x = some f → s.pmm.memoryBitmap f = true

/-- The count of a frame says that dropping a reference leaves another one. -/
def Counted (p : Pmm) (f : ℕ) : Prop := f < p.maxFrames → 1 < p.refcounts f

/-- The condition on a step: where a page gives up its frame that others map too, the count
tells so, and the page cache does not answer with a frame that was freed. -/
def Keeps (s : World) : Event → Prop
  | .dropPage t page => ∀ e, (s.threads t).table page = some e →
    (∃ y, y ≠ (t, page) ∧ mapped s y = some e.1) → Counted s.pmm e.1
  | .store t addr _ => ∀ e, (s.threads t).table (addr/4096) = some e →
    e.2.testBit 1 = false → e.2.testBit 9 = true → s.pmm.getRefcount e.1 ≠ 1 →
    s.pmm.allocFrame.1 ≠ 0 →
    (∃ y, y ≠ (t, addr/4096) ∧ mapped s y = some e.1) → Counted s.pmm e.1
  | .fault t addr garbage => (s.threads t).table (addr/4096) = none → s.inHeap t addr = false →
    ∀ a, s.findArea t addr = some a → s.cached a garbage (pageDown addr) ≠ 0 →
      s.pmm.memoryBitmap (s.cached a garbage (pageDown addr)) = true
  | .kernelFree frame => (∃ y, mapped s y = some frame) → Counted s.pmm frame
  | _ => True

section Pages

variable {s : World} {t page : ℕ}

theorem allocFrame_bitmap (p : Pmm) (g : ℕ) :
    (p.memoryBitmap g = true → p.allocFrame.2.memoryBitmap g = true) ∧
    (p.allocFrame.1 ≠ 0 → p.allocFrame.2.memoryBitmap p.allocFrame.1 = true) := by
  rcases allocFrame_eq p with heq | ⟨f, -, hbit, heq⟩
  · rw [heq]
    exact ⟨id, fun h => absurd rfl h⟩
  · have hspec := occupy_spec p f (u32 (p.usedFrames+1))
    rw [heq]
    constructor
    · intro hg
      have hne : g ≠ f := by
        intro he
        rw [he, hbit] at hg
        cases hg
      exact (hspec.2.2.2 g hne).1.trans hg
    · exact fun _ => hspec.2.1

theorem inUse_allocated (h : InUse s) : InUse s.allocated :=
  fun x f hx => (allocFrame_bitmap s.pmm f).1 (h x f hx)

theorem inUse_setFrame (h : InUse s) (f : ℕ) (m : Memory) : InUse (s.setFrame f m) := h

/-- A page takes a frame. -/
theorem inUse_setPage (h : InUse s) (t page : ℕ) {e : Option (ℕ × ℕ)}
    (he : ∀ f flags, e = some (f, flags) → s.pmm.memoryBitmap f = true) :
    InUse (s.setPage t page e) := by
  intro x f hx
  rw [mapped_setPage] at hx
  by_cases hxt : x = (t, page)
  · rw [hxt, setSlot_same] at hx
    obtain ⟨⟨g, flags⟩, hg, rfl⟩ := Option.map_eq_some_iff.mp hx
    exact he g flags hg
  · rw [setSlot_ne _ _ hxt] at hx
    exact h x f hx

/-- A reference to `f` is dropped. The pages in `Q` map what they did, and every other page a
frame in use. -/
theorem inUse_freed (h : InUse s) {s' : World} {p : Pmm} {f : ℕ} {Q : ℕ × ℕ → Prop}
    (hpmm : s'.pmm = p.freeFrame f)
    (hbits : ∀ g, s.pmm.memoryBitmap g = true → p.memoryBitmap g = true)
    (hkeep : ∀ y g, Q y → mapped s y = some g → mapped s' y = some g)
    (hback : ∀ y g, mapped s' y = some g → Q y ∧ mapped s y = some g ∨
      s'.pmm.memoryBitmap g = true) :
    InUse s' ↔ ((∃ y, Q y ∧ mapped s y = some f) → Counted p f) := by
  constructor
  · rintro hin ⟨y, hy, hf⟩ hlt
    have hbit := hin y f (hkeep y f hy hf)
    rw [hpmm, freeFrame_bitmap] at hbit
    by_contra hlast
    rw [if_pos ⟨rfl, hlt, by omega⟩] at hbit
    cases hbit
  · intro hcount y g hy
    rcases hback y g hy with ⟨hq, hg⟩ | hbit
    · rw [hpmm, freeFrame_bitmap, if_neg]
      · exact hbits g (h y g hg)
      · rintro ⟨rfl, hlt, hlast⟩
        have hmore := hcount ⟨y, hq, hg⟩ hlt
        omega
    · exact hbit

theorem inUse_dropPage (h : InUse s) (t page : ℕ) :
    InUse (s.dropPage t page) ↔ Keeps s (.dropPage t page) := by
  unfold World.dropPage
  cases he : (s.threads t).table page with
  | none =>
    constructor
    · intro _ e he'
      cases he.symm.trans he'
    · exact fun _ => h
  | some e =>
    have hmapped : mapped ((s.setPage t page none).freeFrame e.1) =
        setSlot (mapped s) (t, page) none := mapped_setPage s t page none
    have hfreed : InUse ((s.setPage t page none).freeFrame e.1) ↔
        ((∃ y, y ≠ (t, page) ∧ mapped s y = some e.1) → Counted s.pmm e.1) := by
      apply inUse_freed h rfl fun g hg => hg
      · intro y g hy hg
        rw [hmapped, setSlot_ne _ _ hy]
        exact hg
      · intro y g hg
        rw [hmapped] at hg
        by_cases hy : y = (t, page)
        · rw [hy, setSlot_same] at hg
          cases hg
        · rw [setSlot_ne _ _ hy] at hg
          exact .inl ⟨hy, hg⟩
    constructor
    · intro hin e' he'
      cases he.symm.trans he'
      exact hfreed.mp hin
    · exact fun hk => hfreed.mpr (hk e he)

theorem inUse_kernelFree (h : InUse s) (f : ℕ) :
    InUse (s.freeFrame f) ↔ Keeps s (.kernelFree f) := by
  have hfreed : InUse (s.freeFrame f) ↔
      ((∃ y, True ∧ mapped s y = some f) → Counted s.pmm f) :=
    inUse_freed h rfl (fun g hg => hg) (fun y g _ hg => hg) fun y g hg => .inl ⟨trivial, hg⟩
  rw [hfreed]
  simp only [true_and, Keeps]

/-- The copy that a store makes of a shared page. -/
theorem inUse_copied (h : InUse s) (t addr : ℕ) (value : UInt8) {e : ℕ × ℕ}
    (he : (s.threads t).table (addr/4096) = some e) (h0 : s.pmm.allocFrame.1 ≠ 0) :
    InUse ((((s.allocated.setFrame s.pmm.allocFrame.1 (s.frames e.1)).freeFrame e.1).setPage t
        (addr/4096) (some (s.pmm.allocFrame.1, 7))).storeByte s.pmm.allocFrame.1 addr value) ↔
      ((∃ y, y ≠ (t, addr/4096) ∧ mapped s y = some e.1) → Counted s.pmm e.1) := by
  have hold : s.pmm.memoryBitmap e.1 = true :=
    h (t, addr/4096) e.1 (by rw [mapped, he, Option.map_some])
  have hcounted : Counted s.pmm.allocFrame.2 e.1 ↔ Counted s.pmm e.1 := by
    unfold Counted
    rcases allocFrame_eq s.pmm with heq | ⟨f, -, hbit, heq⟩
    · rw [heq]
    · have hne : e.1 ≠ f := by
        intro hf
        rw [hf, hbit] at hold
        cases hold
      have hspec := occupy_spec s.pmm f (u32 (s.pmm.usedFrames+1))
      rw [heq]
      dsimp only
      rw [hspec.1, (hspec.2.2.2 e.1 hne).2]
  have halloc := allocFrame_bitmap s.pmm
  have hbound : s.pmm.allocFrame.1 ≠ e.1 := by
    rcases allocFrame_eq s.pmm with heq | ⟨f, -, hbit, heq⟩
    · rw [heq] at h0
      exact absurd rfl h0
    · rw [heq]
      intro hf
      rw [← hf, hbit] at hold
      cases hold
  rw [← hcounted]
  have hmapped (w : World) (hw : mapped w = mapped s) :
      mapped (w.setPage t (addr/4096) (some (s.pmm.allocFrame.1, 7))) =
        setSlot (mapped s) (t, addr/4096) (some s.pmm.allocFrame.1) := by
    rw [mapped_setPage, hw]
    rfl
  apply inUse_freed h rfl fun g => (halloc g).1
  · intro y g hy hg
    refine (congrFun (hmapped _ rfl) y).trans ?_
    rw [setSlot_ne _ _ hy]
    exact hg
  · intro y g hg
    replace hg := (congrFun (hmapped _ rfl) y).symm.trans hg
    by_cases hy : y = (t, addr/4096)
    · rw [hy, setSlot_same] at hg
      cases hg
      apply Or.inr
      change (s.pmm.allocFrame.2.freeFrame e.1).memoryBitmap s.pmm.allocFrame.1 = true
      rw [freeFrame_bitmap, if_neg fun hf => hbound hf.1]
      exact (halloc 0).2 h0
    · rw [setSlot_ne _ _ hy] at hg
      exact .inl ⟨hy, hg⟩

theorem inUse_store (h : InUse s) (t addr : ℕ) (value : UInt8) :
    InUse (s.store t addr value) ↔ Keeps s (.store t addr value) := by
  unfold World.store
  cases he : (s.threads t).table (addr/4096) with
  | none =>
    constructor
    · intro _ e he'
      cases he.symm.trans he'
    · exact fun _ => h
  | some e =>
    have hold : s.pmm.memoryBitmap e.1 = true :=
      h (t, addr/4096) e.1 (by rw [mapped, he, Option.map_some])
    dsimp only
    split_ifs with hwritable hcow hone hnone
    · constructor
      · intro _ e' he' hw
        cases he.symm.trans he'
        rw [hwritable] at hw
        cases hw
      · exact fun _ => h
    · constructor
      · intro _ e' he' _ _ hne
        cases he.symm.trans he'
        exact absurd hone hne
      · intro _
        apply inUse_setPage h
        intro f flags hf
        cases hf
        exact hold
    · constructor
      · intro _ e' he' _ _ _ h0
        exact absurd hnone h0
      · exact fun _ => inUse_allocated h
    · rw [inUse_copied h t addr value he hnone]
      constructor
      · intro hc e' he' _ _ _ _
        cases he.symm.trans he'
        exact hc
      · exact fun hk => hk e he (Bool.eq_false_iff.mpr hwritable) hcow hone hnone
    · constructor
      · intro _ e' he' _ hc
        cases he.symm.trans he'
        exact absurd hc hcow
      · exact fun _ => h

theorem inUse_fault (h : InUse s) (t addr : ℕ) (g : Backing) :
    InUse (step s (.fault t addr g)) ↔ Keeps s (.fault t addr g) := by
  have halloc := allocFrame_bitmap s.pmm
  have hfresh (flags : ℕ) (h0 : s.pmm.allocFrame.1 ≠ 0) (w : World) (hw : InUse w)
      (hp : w.pmm = s.pmm.allocFrame.2) (page : ℕ) :
      InUse (w.setPage t page (some (s.pmm.allocFrame.1, flags))) := by
    apply inUse_setPage hw
    intro f flags' hf
    cases hf
    rw [hp]
    exact (halloc 0).2 h0
  rw [step]
  cases habsent : (s.threads t).table (addr/4096) with
  | some e =>
    rw [if_pos Option.isSome_some]
    constructor
    · intro _ hno
      cases habsent.symm.trans hno
    · exact fun _ => h
  | none =>
    rw [if_neg (by simp)]
    unfold World.handlePageFault
    dsimp only
    cases hheap : s.inHeap t addr with
    | true =>
      rw [if_pos rfl]
      constructor
      · intro _ _ hno
        rw [hheap] at hno
        cases hno
      · intro _
        split_ifs with h0
        · exact inUse_allocated h
        · exact hfresh 7 h0 _ (inUse_allocated h) rfl _
    | false =>
      rw [if_neg Bool.false_ne_true]
      cases harea : s.findArea t addr with
      | none =>
        constructor
        · intro _ _ _ a ha
          cases harea.symm.trans ha
        · exact fun _ => h
      | some a =>
        dsimp only
        split_ifs with hhit h0
        · constructor
          · intro hin _ _ a' ha' _
            cases harea.symm.trans ha'
            have hbit := hin (t, pageDown addr/4096) (s.cached a g (pageDown addr)) (by
              rw [mapped_setPage, setSlot_same]
              rfl)
            change (s.pmm.incRef _).memoryBitmap _ = true at hbit
            rwa [incRef_memoryBitmap] at hbit
          · intro hk
            have hbit := hk habsent hheap a harea hhit
            have hcounted : InUse (s.incRef (s.cached a g (pageDown addr))) := by
              intro x f hx
              change (s.pmm.incRef _).memoryBitmap f = true
              rw [incRef_memoryBitmap]
              exact h x f hx
            apply inUse_setPage hcounted
            intro f flags hf
            cases hf
            change (s.pmm.incRef _).memoryBitmap _ = true
            rw [incRef_memoryBitmap]
            exact hbit
        · constructor
          · intro _ _ _ a' ha' hne
            cases harea.symm.trans ha'
            exact absurd hne hhit
          · exact fun _ => inUse_allocated h
        · constructor
          · intro _ _ _ a' ha' hne
            cases harea.symm.trans ha'
            exact absurd hne hhit
          · intro _
            have hinsert (w : World) (hw : InUse w) (page frame : ℕ) :
                InUse (w.cacheInsert a g page frame) := by
              unfold World.cacheInsert
              split_ifs
              · exact hw
              · exact hw
            have hpmm (w : World) (page frame : ℕ) :
                (w.cacheInsert a g page frame).pmm = w.pmm := by
              unfold World.cacheInsert
              split_ifs <;> rfl
            apply hfresh a.flags h0
            · exact hinsert _ (inUse_setFrame (inUse_allocated h) _ _) _ _
            · rw [hpmm]
              rfl

theorem inUse_forkPage (h : InUse s) (t u page : ℕ) : InUse (s.forkPage t u page) := by
  unfold World.forkPage
  cases he : (s.threads t).table page with
  | none => exact inUse_setPage h u page nofun
  | some e =>
    have hold : s.pmm.memoryBitmap e.1 = true :=
      h (t, page) e.1 (by rw [mapped, he, Option.map_some])
    have hcount (w : World) (hw : InUse w) : InUse (w.incRef e.1) := by
      intro x f hx
      change (w.pmm.incRef _).memoryBitmap f = true
      rw [incRef_memoryBitmap]
      exact hw x f hx
    have hpage (w : World) (hw : InUse w) (hp : w.pmm = s.pmm) (v flags : ℕ) :
        InUse (w.setPage v page (some (e.1, flags))) := by
      apply inUse_setPage hw
      intro f flags' hf
      cases hf
      rw [hp]
      exact hold
    dsimp only
    split_ifs
    · exact hcount _ (hpage _ (hpage s h rfl t _) rfl u _)
    · exact hcount _ (hpage s h rfl u e.2)

theorem inUse_clearedPage (h : InUse s) (t page flags : ℕ) :
    InUse (s.clearedPage t page flags) := by
  unfold World.clearedPage
  dsimp only
  split_ifs with h0
  · exact inUse_allocated h
  · have hpage : InUse (s.allocated.setPage t page (some (s.pmm.allocFrame.1, flags))) := by
      apply inUse_setPage (inUse_allocated h)
      intro f flags' hf
      cases hf
      exact (allocFrame_bitmap s.pmm 0).2 h0
    exact hpage

theorem inUse_setThread (h : InUse s) (t : ℕ) (th : Thread)
    (ht : th.table = (s.threads t).table) : InUse (s.setThread t th) := by
  intro x f hx
  apply h x f
  unfold mapped World.setThread at hx
  dsimp only at hx
  by_cases hxt : x.1 = t
  · rw [if_pos hxt, ht, ← hxt] at hx
    exact hx
  · rw [if_neg hxt] at hx
    exact hx

/-- One step keeps every mapped frame in use exactly if it meets the condition. -/
theorem step_inUse_iff (s : World) (e : Event) (h : InUse s) : InUse (step s e) ↔ Keeps s e := by
  cases e with
  | store t addr value => exact inUse_store h t addr value
  | fault t addr g => exact inUse_fault h t addr g
  | dropPage t page => exact inUse_dropPage h t page
  | kernelFree f => exact inUse_kernelFree h f
  | clearedPage t page flags => exact ⟨fun _ => trivial, fun _ => inUse_clearedPage h t page flags⟩
  | forkPage t u page => exact ⟨fun _ => trivial, fun _ => inUse_forkPage h t u page⟩
  | forkVmas t u => exact ⟨fun _ => trivial, fun _ => inUse_setThread h u _ rfl⟩
  | addVma t a => exact ⟨fun _ => trivial, fun _ => inUse_setThread h t _ rfl⟩
  | munmapVmas t start finish => exact ⟨fun _ => trivial, fun _ => inUse_setThread h t _ rfl⟩
  | clearVmas t => exact ⟨fun _ => trivial, fun _ => inUse_setThread h t _ rfl⟩
  | setHeap t heapStart heapEnd => exact ⟨fun _ => trivial, fun _ => inUse_setThread h t _ rfl⟩
  | setName t name => exact ⟨fun _ => trivial, fun _ => inUse_setThread h t _ rfl⟩
  | setFile inode f => exact ⟨fun _ => trivial, fun _ => h⟩
  | kernelAlloc => exact ⟨fun _ => trivial, fun _ => inUse_allocated h⟩

/-- Two mappings are counted as two, as long as counts stay below their limit. -/
theorem sound_keeps (h : Sound s) {e : Event} (hc : Spared s e) : Keeps s e := by
  have htwo {x : ℕ × ℕ} {f : ℕ} (hx : mapped s x = some f)
      (hy : ∃ y, y ≠ x ∧ mapped s y = some f) : Counted s.pmm f := by
    obtain ⟨y, hne, hy⟩ := hy
    intro _
    have hcard : 1 < (holders (mapped s) f).ncard :=
      (Set.one_lt_ncard (h.finite f)).mpr ⟨y, hy, x, hx, hne⟩
    exact hcard.trans_le (h.counted f)
  have hpage {t page : ℕ} {e : ℕ × ℕ} (he : (s.threads t).table page = some e) :
      mapped s (t, page) = some e.1 := by
    rw [mapped, he, Option.map_some]
  cases e with
  | dropPage t page => exact fun e he hy => htwo (hpage he) hy
  | store t addr value => exact fun e he _ _ _ _ hy => htwo (hpage he) hy
  | fault t addr g =>
    intro _ _ a _ hhit
    have hnamed : Names s.cache (s.cached a g (pageDown addr)) := by
      unfold World.cached at hhit ⊢
      split_ifs at hhit ⊢
      · exact lookup_names hhit
      · exact absurd rfl hhit
    exact (h.named _ hnamed).2
  | kernelFree f =>
    rintro ⟨y, hy⟩
    have hnone : y ∈ holders (mapped s) f := hy
    rw [hc.1] at hnone
    exact hnone.elim
  | clearedPage t page flags => trivial
  | forkPage t u page => trivial
  | forkVmas t u => trivial
  | addVma t a => trivial
  | munmapVmas t start finish => trivial
  | clearVmas t => trivial
  | setHeap t heapStart heapEnd => trivial
  | setName t name => trivial
  | setFile inode f => trivial
  | kernelAlloc => trivial

/-- A run with fewer than 256 references to each frame, in which no page is the last to map a
frame of the cache when it goes, meets the condition. -/
theorem spared_meets (h : Sound s) {es : List Event} (hc : Meets step Spared s es) :
    Meets step Keeps s es := by
  induction es generalizing s with
  | nil => exact meets_nil
  | cons e es ih =>
    obtain ⟨he, hes⟩ := meets_cons.mp hc
    exact meets_cons.mpr ⟨sound_keeps h he, ih (sound_step h e he) hes⟩

end Pages

theorem boot_inUse (pmm : Pmm) (frames : ℕ → Memory) (files : ℕ → File) :
    InUse (boot pmm frames files) := by
  intro x f hx
  cases hx

/-- In all states of a run every mapped frame is marked used exactly if every step of the run
meets the condition. -/
theorem in_use_iff (pmm : Pmm) (frames : ℕ → Memory) (files : ℕ → File) (es : List Event) :
    Always step InUse (boot pmm frames files) es ↔ Meets step Keeps (boot pmm frames files) es :=
  always_iff_meets step_inUse_iff (boot_inUse pmm frames files) es

section Saturation

/-- The first page of the file with inode 3, mapped at page `k`. -/
def sharedPage (k : ℕ) : Area :=
  ⟨4096*k, 4096*k+4096, 5, 0, 4096, some (.file, some 3), readonly_flags⟩

/-- Process 1 maps the page at pages 1 to `n` and reads each of them. -/
def mapAgain : ℕ → List Event
  | 0 => []
  | n+1 => mapAgain n++[.addVma 1 (sharedPage (n+1)), .fault 1 (4096*(n+1)) (.anon, none)]

/-- It takes pages 1 to `n` back. -/
def takeBack (n : ℕ) : List Event := (List.range n).map fun k => .dropPage 1 (k+1)

/-- Pages above `j`, up to `n`, map frame 1, whose count is `c`. -/
structure Maps (j n c : ℕ) (s : World) : Prop where
  pages : ∀ q, (s.threads 1).table q = if j < q ∧ q ≤ n then some (1, 5) else none
  heap : (s.threads 1).heapEnd = 0
  cached : lookup s.cache 3 0 = 1
  count : s.pmm.refcounts 1 = c
  inside : 1 < s.pmm.maxFrames

def alone : World := boot smallPmm (fun _ _ => 0) fun _ => emptyFile

theorem maps_first : Maps 0 1 1 (step (step alone (.addVma 1 (sharedPage 1)))
    (.fault 1 4096 (.anon, none))) := by
  constructor
  · intro q
    have hq : ((step (step alone (.addVma 1 (sharedPage 1)))
      (.fault 1 4096 (.anon, none))).threads 1).table q = if q = 1 then some (1, 5) else none := rfl
    rw [hq]
    split_ifs <;> first | rfl | omega
  · decide +kernel
  · decide +kernel
  · decide +kernel
  · decide +kernel

/-- One more mapping, which the cache provides. -/
theorem maps_more {n c : ℕ} {s : World} (h : Maps 0 n c s) :
    Maps 0 (n+1) (if c < 255 then c+1 else c) (step (step s (.addVma 1 (sharedPage (n+1))))
      (.fault 1 (4096*(n+1)) (.anon, none))) := by
  obtain ⟨w, hw⟩ : ∃ w, w = step s (.addVma 1 (sharedPage (n+1))) := ⟨_, rfl⟩
  have hvmas : (w.threads 1).vmaList = sharedPage (n+1)::(s.threads 1).vmaList := by rw [hw]; rfl
  have htable : (w.threads 1).table = (s.threads 1).table := by rw [hw]; rfl
  have hheap : (w.threads 1).heapEnd = 0 := by
    rw [hw]
    exact h.heap
  have hpmm : w.pmm = s.pmm := by rw [hw]; rfl
  have hcache : w.cache = s.cache := by rw [hw]; rfl
  have hpage : 4096*(n+1)/4096 = n+1 := Nat.mul_div_cancel_left _ (by decide)
  have habsent : (w.threads 1).table (4096*(n+1)/4096) = none := by
    rw [htable, hpage, h.pages, if_neg (by omega)]
  have hout : w.inHeap 1 (4096*(n+1)) = false := by
    unfold World.inHeap
    rw [hheap, Bool.and_eq_false_iff]
    exact .inr (decide_eq_false (Nat.not_lt_zero _))
  have harea : w.findArea 1 (4096*(n+1)) = some (sharedPage (n+1)) := by
    unfold World.findArea
    rw [hvmas]
    apply List.find?_cons_of_pos
    simp [sharedPage]
  have hdown : pageDown (4096*(n+1)) = 4096*(n+1) := by
    unfold pageDown
    rw [hpage, Nat.mul_comm]
  have hhit : w.cached (sharedPage (n+1)) (.anon, none) (pageDown (4096*(n+1))) = 1 := by
    have hkey : World.cacheKey (sharedPage (n+1)) (.anon, none) (pageDown (4096*(n+1))) =
        (3, 0) := by
      rw [hdown]
      simp [World.cacheKey, sharedPage, u32]
    unfold World.cached
    have hfile : ((w.vma (sharedPage (n+1)) (.anon, none)).isReadonly &&
        (w.vma (sharedPage (n+1)) (.anon, none)).isFile) = true := by
      simp [World.vma, Vma.isReadonly, Vma.isFile, sharedPage]
      decide
    rw [hkey, hcache, if_pos hfile]
    exact h.cached
  have hfault : step w (.fault 1 (4096*(n+1)) (.anon, none)) =
      (w.incRef 1).setPage 1 (n+1) (some (1, 5)) := by
    rw [step, habsent, if_neg (by simp)]
    unfold World.handlePageFault
    dsimp only
    rw [hout, if_neg Bool.false_ne_true, harea]
    dsimp only
    rw [hhit, if_pos Nat.one_ne_zero, hdown, hpage]
    rfl
  rw [← hw, hfault]
  constructor
  · intro q
    rw [setPage_table]
    change (if 1 = 1 ∧ q = n+1 then some (1, 5) else (w.threads 1).table q) = _
    rw [htable, h.pages]
    split_ifs <;> first | rfl | omega
  · exact hheap
  · rw [← h.cached, ← hcache]
    rfl
  · change (w.pmm.incRef 1).refcounts 1 = _
    rw [hpmm]
    unfold Pmm.incRef
    rw [h.count]
    split_ifs with hboth hlt hlt
    · exact setRefcount_refcounts _ _ _
    · exact absurd hboth.2 hlt
    · exact absurd ⟨h.inside, hlt⟩ hboth
    · exact h.count
  · change 1 < (w.pmm.incRef 1).maxFrames
    rw [incRef_maxFrames, hpmm]
    exact h.inside

/-- The count after `n` mappings. -/
theorem maps_again (n : ℕ) : Maps 0 (n+1) (min (n+1) 255) ((mapAgain (n+1)).foldl step alone) := by
  induction n with
  | zero =>
    have hrun : (mapAgain (0+1)).foldl step alone =
        step (step alone (.addVma 1 (sharedPage 1))) (.fault 1 4096 (.anon, none)) := by
      simp only [mapAgain, List.nil_append, List.foldl_cons, List.foldl_nil]
    rw [hrun]
    exact maps_first
  | succ n ih =>
    have hmore := maps_more ih
    have hcount : (if min (n+1) 255 < 255 then min (n+1) 255+1 else min (n+1) 255) =
        min (n+1+1) 255 := by
      split_ifs <;> omega
    rw [hcount] at hmore
    rw [mapAgain, List.foldl_append]
    exact hmore

/-- One mapping less. -/
theorem maps_less {j n c : ℕ} {s : World} (h : Maps j n c s) (hj : j < n) :
    Maps (j+1) n (c-1) (step s (.dropPage 1 (j+1))) ∧
      (c ≤ 1 → (step s (.dropPage 1 (j+1))).pmm.memoryBitmap 1 = false) := by
  have hpage : (s.threads 1).table (j+1) = some (1, 5) := by
    rw [h.pages, if_pos (by omega)]
  have hdrop : step s (.dropPage 1 (j+1)) = (s.setPage 1 (j+1) none).freeFrame 1 := by
    rw [step, World.dropPage, hpage]
  have hpmm : (step s (.dropPage 1 (j+1))).pmm = s.pmm.freeFrame 1 := by
    rw [hdrop]
    rfl
  have hcases : (s.pmm.freeFrame 1).refcounts 1 = c-1 ∧
      (c ≤ 1 → (s.pmm.freeFrame 1).memoryBitmap 1 = false) := by
    by_cases hlast : s.pmm.refcounts 1 ≤ 1
    · have hfreed := freeFrame_last s.pmm h.inside hlast
      rw [h.count] at hlast
      exact ⟨by rw [hfreed.2]; omega, fun _ => hfreed.1⟩
    · have hkept := freeFrame_shared s.pmm h.inside (by omega)
      rw [h.count] at hlast hkept
      exact ⟨hkept.2, fun hle => absurd hle hlast⟩
  constructor
  · constructor
    · intro q
      rw [hdrop]
      change ((s.setPage 1 (j+1) none).threads 1).table q = _
      rw [setPage_table, h.pages]
      split_ifs <;> first | rfl | omega
    · rw [hdrop]
      exact h.heap
    · rw [hdrop]
      exact h.cached
    · rw [hpmm]
      exact hcases.1
    · rw [hpmm, freeFrame_maxFrames]
      exact h.inside
  · rw [hpmm]
    exact hcases.2

/-- With 255 of 256 mappings taken back the frame is free. -/
theorem maps_taken {s : World} (h : Maps 0 256 255 s) (j : ℕ) (hj : j ≤ 255) :
    Maps j 256 (255-j) ((takeBack j).foldl step s) ∧
      (j = 255 → ((takeBack j).foldl step s).pmm.memoryBitmap 1 = false) := by
  induction j with
  | zero => exact ⟨h, fun h0 => absurd h0 (by decide)⟩
  | succ j ih =>
    have hless := maps_less (ih (by omega)).1 (by omega)
    have hrun : (takeBack (j+1)).foldl step s =
        step ((takeBack j).foldl step s) (.dropPage 1 (j+1)) := by
      unfold takeBack
      rw [List.range_succ, List.map_append, List.foldl_append]
      rfl
    rw [hrun]
    constructor
    · have hcount : 255-(j+1) = 255-j-1 := by omega
      rw [hcount]
      exact hless.1
    · exact fun hlast => hless.2 (by omega)

theorem taken_back :
    Maps 255 256 0 ((takeBack 255).foldl step ((mapAgain 256).foldl step alone)) ∧
    ((takeBack 255).foldl step ((mapAgain 256).foldl step alone)).pmm.memoryBitmap 1 = false := by
  have hstart : Maps 0 256 255 ((mapAgain 256).foldl step alone) := maps_again 255
  have htaken := maps_taken hstart 255 (le_refl 255)
  exact ⟨htaken.1, htaken.2 rfl⟩

/-- The last of the pages still maps the frame. -/
theorem not_inUse {s : World} (h : Maps 255 256 0 s) (hfree : s.pmm.memoryBitmap 1 = false) :
    ¬ InUse s := by
  intro hin
  have hmapped : mapped s (1, 256) = some 1 := by
    rw [mapped, h.pages, if_pos (by decide)]
    rfl
  rw [hin (1, 256) 1 hmapped] at hfree
  cases hfree

/-- A process that maps one page 256 times and takes back 255 mappings still maps the frame, which
is free; and so does one that maps a page again after it took back its only mapping. -/
theorem shared_frame_freed :
    ¬Always step InUse alone (mapAgain 256++takeBack 255) ∧
    ¬Always step InUse alone [.addVma 1 (sharedPage 1), .fault 1 4096 (.anon, none),
      .dropPage 1 1, .fault 1 4096 (.anon, none)] := by
  constructor
  · intro h
    have hin := h _ List.prefix_rfl
    rw [List.foldl_append] at hin
    exact not_inUse taken_back.1 taken_back.2 hin
  · intro h
    have hin := h _ List.prefix_rfl (1, 1) 1 (by decide +kernel)
    exact absurd hin (by decide +kernel)

end Saturation

end Vlsmc.SharingCounts
