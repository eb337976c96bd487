import Vlsmc.FreshPagesRuns

/-!
# The frames that the page cache names

The cache takes no reference to a frame that it names, so the frame lives as long
as some page table maps it.
-/

set_option autoImplicit false

namespace Vlsmc.PageCacheFrames
open Vlsmc.ByteMemory Vlsmc.Words Vlsmc.Elf Vlsmc.DemandPaging Vlsmc.PageCache
open Vlsmc.PhysicalMemory Vlsmc.SharedFrames Vlsmc.FreshPages Vlsmc.FreshPagesRuns

/-- What the cache names is marked used and counted. -/
def Backed (s : World) : Prop := ∀ f, Names s.cache f →
  s.pmm.memoryBitmap f = true ∧ 1 ≤ s.pmm.refcounts f

/-- A page that goes is not the last one that maps a frame of the cache. -/
def Mapped (s : World) : Event → Prop
  | .dropPage t page => ∀ e, (s.threads t).table page = some e → Names s.cache e.1 →
    ∃ x, x ≠ (t, page) ∧ mapped s x = some e.1
  | e => Spared s e

def MappedRun (s : World) : List Event → Prop
  | [] => True
  | e::es => Mapped s e ∧ MappedRun (step s e) es

def run (s : World) (es : List Event) : World := es.foldl step s

variable {s : World} {t page f : ℕ}

/-- Two pages that map a frame are counted. -/
theorem spared_of_mapped (h : Sound s) (e : Event) (hm : Mapped s e) : Spared s e := by
  cases e with
  | dropPage t page =>
    intro e he hn
    obtain ⟨x, hne, hx⟩ := hm e he hn
    have hy : mapped s (t, page) = some e.1 := by
      rw [mapped, he, Option.map_some]
    have htwo : 1 < (holders (mapped s) e.1).ncard :=
      (Set.one_lt_ncard (h.finite e.1)).mpr ⟨x, hx, (t, page), hy, hne⟩
    exact lt_of_lt_of_le htwo (h.counted e.1)
  | store t addr v => exact hm
  | fault t addr g => exact hm
  | clearedPage t page flags => exact hm
  | forkPage t u page => exact hm
  | forkVmas t u => exact hm
  | addVma t a => exact hm
  | munmapVmas t start finish => exact hm
  | clearVmas t => exact hm
  | setHeap t heapStart heapEnd => exact hm
  | setName t name => exact hm
  | setFile inode f => exact hm
  | kernelAlloc => exact hm
  | kernelFree frame => exact hm

theorem backed_allocated (hb : Backed s) : Backed s.allocated := by
  intro f hn
  have hn' : Names s.cache f := hn
  obtain ⟨h1, h2⟩ := hb f hn'
  have hp : s.allocated.pmm = s.pmm.allocFrame.2 := rfl
  rw [hp]
  rcases allocFrame_eq s.pmm with heq | ⟨g, -, hbit, heq⟩
  · rw [heq]
    exact ⟨h1, h2⟩
  · have hne : f ≠ g := by
      rintro rfl
      rw [h1] at hbit
      exact absurd hbit (by simp)
    obtain ⟨-, -, -, hsame⟩ := occupy_spec s.pmm g (u32 (s.pmm.usedFrames+1))
    rw [heq]
    dsimp only
    rw [(hsame f hne).1, (hsame f hne).2]
    exact ⟨h1, h2⟩

theorem backed_incRef (hb : Backed s) (g : ℕ) : Backed (s.incRef g) := by
  intro f hn
  obtain ⟨h1, h2⟩ := hb f hn
  have hp : (s.incRef g).pmm = s.pmm.incRef g := rfl
  rw [hp, incRef_memoryBitmap]
  refine ⟨h1, ?_⟩
  by_cases hfg : f = g
  · subst hfg
    unfold Pmm.incRef
    split_ifs
    · rw [setRefcount_refcounts]
      omega
    · exact h2
  · rw [(incRef_same s.pmm hfg).2]
    exact h2

theorem backed_freeFrame (hb : Backed s) {g : ℕ} (hg : Names s.cache g → 1 < s.pmm.refcounts g) :
    Backed (s.freeFrame g) := by
  intro f hn
  obtain ⟨h1, h2⟩ := hb f hn
  have hp : (s.freeFrame g).pmm = s.pmm.freeFrame g := rfl
  rw [hp]
  by_cases hfg : f = g
  · subst hfg
    have hrc := hg hn
    by_cases hlt : f < s.pmm.maxFrames
    · obtain ⟨h3, h4⟩ := freeFrame_shared s.pmm hlt hrc
      rw [h3, h4]
      exact ⟨h1, by omega⟩
    · rw [Pmm.freeFrame, if_pos (by omega)]
      exact ⟨h1, h2⟩
  · rw [(freeFrame_same s.pmm hfg).1, (freeFrame_same s.pmm hfg).2]
    exact ⟨h1, h2⟩

theorem backed_cacheInsert (hb : Backed s) (a : Area) (g : Backing) (page : ℕ)
    (hin : s.pmm.memoryBitmap f = true ∧ 1 ≤ s.pmm.refcounts f) :
    Backed (s.cacheInsert a g page f) := by
  unfold World.cacheInsert
  split_ifs
  · intro x hx
    rcases insert_names hx with rfl | hx
    · exact hin
    · exact hb x hx
  · exact hb

theorem backed_handlePageFault (h : Sound s) (hb : Backed s) (addr : ℕ) (g : Backing) :
    Backed (s.handlePageFault t addr g) := by
  have hal := backed_allocated hb
  have hfresh := (sound_allocated h).2
  unfold World.handlePageFault
  dsimp only
  cases s.inHeap t addr with
  | true =>
    rw [if_pos rfl]
    split_ifs
    · exact hal
    · exact fun f hn => hal f hn
  | false =>
    rw [if_neg (by simp)]
    cases s.findArea t addr with
    | none => exact hb
    | some a =>
      dsimp only
      split_ifs with h3 h0
      · exact fun f hn => backed_incRef hb _ f hn
      · exact hal
      · have hf := hfresh h0
        have hset : Backed (s.allocated.setFrame s.pmm.allocFrame.1
          ((s.process t g).fill (s.vma a g) (pageDown addr))) := hal
        exact fun f hn => backed_cacheInsert hset a g _ ⟨hf.inside.2, hf.one.ge⟩ f hn

/-- A page that is copied before it is written is not in the cache. -/
theorem backed_store (h : Sound s) (hb : Backed s) (addr : ℕ) (v : UInt8) :
    Backed (s.store t addr v) := by
  have hal := backed_allocated hb
  unfold World.store
  cases he : (s.threads t).table (addr/4096) with
  | none => exact hb
  | some e =>
    dsimp only
    split_ifs with h1 h2 h3 h4
    · exact hb
    · exact hb
    · exact hal
    · have hun : Names s.cache e.1 → False := fun hn => by
        rw [(h.readonly t _ e he hn).2] at h2
        exact absurd h2 (by simp)
      have hset : Backed (s.allocated.setFrame s.pmm.allocFrame.1 (s.frames e.1)) := hal
      exact backed_freeFrame hset fun hn => (hun hn).elim
    · exact hb

theorem step_backed (h : Sound s) (hb : Backed s) (e : Event) (hc : Spared s e) :
    Backed (step s e) := by
  cases e with
  | store t addr v => exact backed_store h hb addr v
  | fault t addr g =>
    rw [step]
    split_ifs
    · exact hb
    · exact backed_handlePageFault h hb addr g
  | clearedPage t page flags =>
    have hal := backed_allocated hb
    rw [step, World.clearedPage]
    split_ifs
    · exact hal
    · exact fun f hn => hal f hn
  | dropPage t page =>
    rw [step, World.dropPage]
    cases he : (s.threads t).table page with
    | none => exact hb
    | some e => exact backed_freeFrame hb fun hn => hc e he hn
  | forkPage t u page =>
    rw [step, World.forkPage]
    cases he : (s.threads t).table page with
    | none => exact hb
    | some e =>
      dsimp only
      split_ifs
      · exact backed_incRef hb e.1
      · exact backed_incRef hb e.1
  | forkVmas t u => exact hb
  | addVma t a => exact hb
  | munmapVmas t start finish => exact hb
  | clearVmas t => exact hb
  | setHeap t heapStart heapEnd => exact hb
  | setName t name => exact hb
  | setFile inode f => exact hb
  | kernelAlloc => exact backed_allocated hb
  | kernelFree frame => exact backed_freeFrame hb fun hn => absurd hn hc.2

theorem run_backed (h : Sound s) (hb : Backed s) (es : List Event) (hm : MappedRun s es) :
    Backed (run s es) := by
  induction es generalizing s with
  | nil => exact hb
  | cons e es ih =>
    have hc := spared_of_mapped h e hm.1
    exact ih (sound_step h e hc) (step_backed h hb e hc) hm.2

/-- A frame of the cache is not one that `alloc_frame` hands out. -/
theorem lookup_allocated (hb : Backed s) (inode offset : ℕ) (h0 : lookup s.cache inode offset ≠ 0) :
    lookup s.cache inode offset ≠ s.pmm.allocFrame.1 := by
  intro he
  obtain ⟨h1, -⟩ := hb _ (lookup_names h0)
  rcases allocFrame_eq s.pmm with heq | ⟨g, -, hbit, heq⟩
  · rw [heq] at he
    exact h0 he
  · rw [heq] at he
    rw [he] at h1
    exact absurd (h1.symm.trans hbit) (by simp)

/-- As long as no step takes the last mapping of a frame in the cache, these
frames are in use. -/
theorem cached_frames_used (pmm : Pmm) (frames : ℕ → Memory) (files : ℕ → File)
    (es : List Event) (hm : MappedRun (boot pmm frames files) es) :
    Backed (run (boot pmm frames files) es) ∧
    ∀ inode offset, lookup (run (boot pmm frames files) es).cache inode offset ≠ 0 →
      lookup (run (boot pmm frames files) es).cache inode offset ≠
        (run (boot pmm frames files) es).pmm.allocFrame.1 := by
  have hb := run_backed (boot_sound pmm frames files)
    (fun f hn => absurd hn (not_names_init f)) es hm
  exact ⟨hb, fun inode offset => lookup_allocated hb inode offset⟩

/-- A read-only page of the file with inode 3. -/
def filePage : Area := ⟨4096, 8192, 5, 0, 4096, some (.file, some 3), readonly_flags⟩

theorem cached_frames_used_filePage :
    Backed (run (boot smallPmm (fun _ _ => 0) fun _ => emptyFile)
      [.addVma 1 filePage, .fault 1 4096 (.anon, none)]) :=
  (cached_frames_used _ _ _ [.addVma 1 filePage, .fault 1 4096 (.anon, none)]
    ⟨trivial, fun _ _ a _ => by
      rw [show (step (boot smallPmm (fun _ _ => 0) fun _ => emptyFile)
        (.addVma 1 filePage)).pmm.refcounts = fun _ => 0 from rfl]
      exact (by decide : 0 < 255), trivial⟩).1

/-- The only process that maps the page gives it back. -/
theorem cached_frame_freed : ¬∀ (pmm : Pmm) (frames : ℕ → Memory) (files : ℕ → File)
    (es : List Event), Backed (run (boot pmm frames files) es) := by
  intro hall
  have h := hall smallPmm (fun _ _ => 0) (fun _ => emptyFile)
    [.addVma 1 filePage, .fault 1 4096 (.anon, none), .dropPage 1 1]
  obtain ⟨hbit, -⟩ := h 1 ⟨hash 3 0, by decide +kernel, by decide +kernel⟩
  exact absurd hbit (by decide +kernel)

end Vlsmc.PageCacheFrames
