import Vlsmc.FreshPages

/-!
# What a process finds in the pages it obtains

Two runs that differ in the bytes of other processes are compared. A frame that
the page cache names is written by nobody, and every other page is cleared or
filled from a file, except in the heap.
-/

set_option autoImplicit false

namespace Vlsmc.FreshPagesRuns
open Vlsmc.ByteMemory Vlsmc.Words Vlsmc.Elf Vlsmc.DemandPaging Vlsmc.PageCache
open Vlsmc.PhysicalMemory Vlsmc.SharedFrames Vlsmc.FreshPages

/-- The frame behind a page of a thread. -/
def mapped (s : World) (x : ℕ × ℕ) : Option ℕ := ((s.threads x.1).table x.2).map Prod.fst

/-- Every mapping is counted, and what the cache names is allocated and cannot be
written by a user. -/
structure Sound (s : World) : Prop where
  allocated : ∀ x f, mapped s x = some f → f < s.pmm.maxFrames ∧ s.pmm.memoryBitmap f = true
  finite : ∀ f, (holders (mapped s) f).Finite
  counted : ∀ f, (holders (mapped s) f).ncard ≤ s.pmm.refcounts f
  named : ∀ f, Names s.cache f → f < s.pmm.maxFrames ∧ s.pmm.memoryBitmap f = true
  readonly : ∀ t page e, (s.threads t).table page = some e → Names s.cache e.1 →
    e.2.testBit 1 = false ∧ e.2.testBit 9 = false

variable {s s' : World} {t page : ℕ}

theorem mapped_setPage (s : World) (t page : ℕ) (e : Option (ℕ × ℕ)) :
    mapped (s.setPage t page e) = setSlot (mapped s) (t, page) (e.map Prod.fst) := by
  funext x
  obtain ⟨u, q⟩ := x
  unfold mapped World.setPage World.setThread setSlot
  dsimp only
  by_cases hu : u = t
  · subst hu
    rw [if_pos rfl]
    dsimp only
    by_cases hq : q = page
    · rw [if_pos hq, if_pos (by rw [hq])]
    · rw [if_neg hq, if_neg (by simp [hq])]
  · rw [if_neg hu, if_neg (by simp [hu])]

theorem setPage_table (s : World) (t page : ℕ) (e : Option (ℕ × ℕ)) (u q : ℕ) :
    ((s.setPage t page e).threads u).table q =
      if u = t ∧ q = page then e else (s.threads u).table q := by
  unfold World.setPage World.setThread
  dsimp only
  by_cases hu : u = t
  · subst hu
    rw [if_pos rfl]
    dsimp only
    by_cases hq : q = page
    · rw [if_pos hq, if_pos ⟨rfl, hq⟩]
    · rw [if_neg hq, if_neg (fun hh => hq hh.2)]
  · rw [if_neg hu, if_neg (fun hh => hu hh.1)]

/-- A slot that is overwritten leaves no more holders than before. -/
theorem holders_clear_subset (M : ℕ × ℕ → Option ℕ) (x : ℕ × ℕ) (f : ℕ) :
    holders (setSlot M x none) f ⊆ holders M f := by
  rw [holders_drop]
  exact Set.sdiff_subset

theorem setSlot_setSlot (M : ℕ × ℕ → Option ℕ) (x : ℕ × ℕ) (o o' : Option ℕ) :
    setSlot (setSlot M x o) x o' = setSlot M x o' := by
  funext y
  unfold setSlot
  split_ifs <;> rfl

/-- A page is removed, or taken by a frame that has a reference to spare. -/
theorem sound_setPage (h : Sound s) {e : Option (ℕ × ℕ)}
    (he : ∀ f flags, e = some (f, flags) → f < s.pmm.maxFrames ∧ s.pmm.memoryBitmap f = true ∧
      (holders (setSlot (mapped s) (t, page) none) f).ncard+1 ≤ s.pmm.refcounts f ∧
      (Names s.cache f → flags.testBit 1 = false ∧ flags.testBit 9 = false)) :
    Sound (s.setPage t page e) := by
  have hsub := holders_clear_subset (mapped s) (t, page)
  have hcount : ∀ f, (holders (mapped (s.setPage t page e)) f).Finite ∧
      (holders (mapped (s.setPage t page e)) f).ncard ≤ s.pmm.refcounts f := by
    intro f
    have hfin := (h.finite f).subset (hsub f)
    have hle := (Set.ncard_le_ncard (hsub f) (h.finite f)).trans (h.counted f)
    rw [mapped_setPage, ← setSlot_setSlot _ _ none]
    have hnone : setSlot (mapped s) (t, page) none (t, page) = none := setSlot_same _ _ _
    rcases e with _ | ⟨g, flags⟩
    · rw [Option.map_none, setSlot_setSlot]
      exact ⟨hfin, hle⟩
    · obtain ⟨-, -, h1, -⟩ := he g flags rfl
      rw [Option.map_some]
      by_cases hgf : f = g
      · subst hgf
        rw [ncard_take hnone hfin, holders_take]
        exact ⟨hfin.insert _, h1⟩
      · rw [holders_take_other hnone hgf]
        exact ⟨hfin, hle⟩
  refine ⟨fun x f hx => ?_, fun f => (hcount f).1, fun f => (hcount f).2, h.named,
    fun u q e' hu hn => ?_⟩
  · rw [mapped_setPage] at hx
    by_cases hxt : x = (t, page)
    · rw [hxt, setSlot_same] at hx
      obtain ⟨⟨g, flags⟩, hg, rfl⟩ := Option.map_eq_some_iff.mp hx
      exact ⟨(he g flags hg).1, (he g flags hg).2.1⟩
    · rw [setSlot_ne _ _ hxt] at hx
      exact h.allocated x f hx
  · rw [setPage_table] at hu
    split_ifs at hu with hh
    · exact (he e'.1 e'.2 hu).2.2.2 hn
    · exact h.readonly u q e' hu hn

/-- The frame that was allocated is mapped by nobody and not in the page cache. -/
structure Fresh (s : World) (f : ℕ) : Prop where
  inside : f < s.pmm.maxFrames ∧ s.pmm.memoryBitmap f = true
  one : s.pmm.refcounts f = 1
  unmapped : holders (mapped s) f = ∅
  unnamed : ¬Names s.cache f

theorem sound_allocated (h : Sound s) : Sound s.allocated ∧
    (s.pmm.allocFrame.1 ≠ 0 → Fresh s.allocated s.pmm.allocFrame.1) := by
  have hm : mapped s.allocated = mapped s := rfl
  have hc : s.allocated.cache = s.cache := rfl
  have hp : s.allocated.pmm = s.pmm.allocFrame.2 := rfl
  have ht : s.allocated.threads = s.threads := rfl
  generalize s.allocated = s' at *
  rcases allocFrame_eq s.pmm with heq | ⟨f, hlt, hbit, heq⟩
  · rw [heq] at hp ⊢
    refine ⟨⟨?_, ?_, ?_, ?_, ?_⟩, fun h0 => absurd rfl h0⟩
    · rw [hm, hp]
      exact h.allocated
    · rw [hm]
      exact h.finite
    · rw [hm, hp]
      exact h.counted
    · rw [hc, hp]
      exact h.named
    · rw [hc, ht]
      exact h.readonly
  · rw [heq] at hp ⊢
    dsimp only at hp ⊢
    obtain ⟨h1, h2, h3, h4⟩ := occupy_spec s.pmm f (u32 (s.pmm.usedFrames+1))
    rw [← hp] at h1 h2 h3 h4
    have hempty : holders (mapped s) f = ∅ := by
      apply Set.eq_empty_of_forall_notMem
      intro x hx
      rw [(h.allocated x f hx).2] at hbit
      exact absurd hbit (by simp)
    have hunnamed : ¬Names s.cache f := by
      intro hn
      rw [(h.named f hn).2] at hbit
      exact absurd hbit (by simp)
    refine ⟨⟨fun x g hx => ?_, fun g => ?_, fun g => ?_, fun g hg => ?_, ?_⟩,
      fun _ => ⟨⟨h1 ▸ hlt, h2⟩, h3, hm ▸ hempty, hc ▸ hunnamed⟩⟩
    · rw [hm] at hx
      have hne : g ≠ f := by
        rintro rfl
        have : x ∈ holders (mapped s) g := hx
        rw [hempty] at this
        exact this
      rw [h1, (h4 g hne).1]
      exact h.allocated x g hx
    · rw [hm]
      exact h.finite g
    · rw [hm]
      by_cases hg : g = f
      · rw [hg, hempty, Set.ncard_empty]
        exact Nat.zero_le _
      · rw [(h4 g hg).2]
        exact h.counted g
    · rw [hc] at hg
      have hne : g ≠ f := fun he => hunnamed (he ▸ hg)
      rw [h1, (h4 g hne).1]
      exact h.named g hg
    · rw [hc, ht]
      exact h.readonly

theorem sound_incRef (h : Sound s) (f : ℕ) : Sound (s.incRef f) := by
  have hp : (s.incRef f).pmm = s.pmm.incRef f := rfl
  have hm : mapped (s.incRef f) = mapped s := rfl
  refine ⟨?_, h.finite, fun g => ?_, ?_, h.readonly⟩
  · rw [hp, incRef_maxFrames, incRef_memoryBitmap]
    exact h.allocated
  · refine (h.counted g).trans ?_
    rw [hp]
    by_cases hg : g = f
    · subst hg
      unfold Pmm.incRef
      split_ifs
      · rw [setRefcount_refcounts]
        exact Nat.le_succ _
      · exact le_rfl
    · exact (incRef_same s.pmm hg).2.ge
  · rw [hp, incRef_maxFrames, incRef_memoryBitmap]
    exact h.named

/-- A reference is dropped that no mapping needs. -/
theorem sound_freeFrame (h : Sound s) {f : ℕ}
    (hf : (holders (mapped s) f).ncard+1 ≤ s.pmm.refcounts f ∨ holders (mapped s) f = ∅)
    (hn : Names s.cache f → 1 < s.pmm.refcounts f) : Sound (s.freeFrame f) := by
  have hp : (s.freeFrame f).pmm = s.pmm.freeFrame f := rfl
  have hm : mapped (s.freeFrame f) = mapped s := rfl
  have hmax := freeFrame_maxFrames s.pmm f
  have hkeep : ∀ g, g ≠ f ∨ 1 < s.pmm.refcounts f →
      (s.pmm.freeFrame f).memoryBitmap g = s.pmm.memoryBitmap g := by
    intro g hg
    by_cases hgf : g = f
    · subst hgf
      by_cases hlt : g < s.pmm.maxFrames
      · exact (freeFrame_shared s.pmm hlt (hg.resolve_left (fun hh => hh rfl))).1
      · rw [Pmm.freeFrame, if_pos (by omega)]
    · exact (freeFrame_same s.pmm hgf).1
  have hempty : s.pmm.refcounts f ≤ 1 → holders (mapped s) f = ∅ := by
    intro hle
    refine hf.elim (fun hh => ?_) id
    exact (Set.ncard_eq_zero (h.finite f)).mp (by omega)
  refine ⟨fun x g hx => ?_, h.finite, fun g => ?_, fun g hg => ?_, h.readonly⟩
  · rw [hp, hmax]
    rw [hm] at hx
    rw [hkeep g ?_]
    · exact h.allocated x g hx
    · by_contra hno
      rw [not_or, not_not] at hno
      have : x ∈ holders (mapped s) f := hno.1 ▸ hx
      rw [hempty (by omega)] at this
      exact this
  · rw [hp, hm]
    by_cases hgf : g = f
    · subst hgf
      by_cases hlt : g < s.pmm.maxFrames
      · by_cases hrc : 1 < s.pmm.refcounts g
        · rw [(freeFrame_shared s.pmm hlt hrc).2]
          rcases hf with hf | hf
          · omega
          · rw [hf, Set.ncard_empty]
            exact Nat.zero_le _
        · rw [hempty (by omega), Set.ncard_empty]
          exact Nat.zero_le _
      · rw [Pmm.freeFrame, if_pos (by omega)]
        exact h.counted g
    · rw [(freeFrame_same s.pmm hgf).2]
      exact h.counted g
  · rw [hp, hmax]
    rw [hkeep g ?_]
    · exact h.named g hg
    · by_contra hno
      rw [not_or, not_not] at hno
      exact hno.2 (hn (hno.1 ▸ hg))

theorem sound_setFrame (h : Sound s) (f : ℕ) (m : Memory) : Sound (s.setFrame f m) :=
  ⟨h.allocated, h.finite, h.counted, h.named, h.readonly⟩

theorem sound_vmas (h : Sound s) (t : ℕ) (th : Thread) (ht : th.table = (s.threads t).table) :
    Sound (s.setThread t th) := by
  have htable : ∀ u, ((s.setThread t th).threads u).table = (s.threads u).table := by
    intro u
    unfold World.setThread
    dsimp only
    by_cases hu : u = t
    · rw [if_pos hu, hu, ht]
    · rw [if_neg hu]
  have hm : mapped (s.setThread t th) = mapped s := by
    funext x
    unfold mapped
    rw [htable]
  refine ⟨?_, ?_, ?_, h.named, fun u q e hu hn => ?_⟩
  · rw [hm]
    exact h.allocated
  · rw [hm]
    exact h.finite
  · rw [hm]
    exact h.counted
  · rw [htable] at hu
    exact h.readonly u q e hu hn

theorem sound_insert (h : Sound s) {f : ℕ} (hin : f < s.pmm.maxFrames ∧ s.pmm.memoryBitmap f = true)
    (hun : holders (mapped s) f = ∅) (inode offset : ℕ) :
    Sound { s with cache := insert s.cache inode offset f } := by
  refine ⟨h.allocated, h.finite, h.counted, fun g hg => ?_, fun t q e he hn => ?_⟩
  · rcases insert_names hg with rfl | hg
    · exact hin
    · exact h.named g hg
  · rcases insert_names hn with hf | hn
    · have : (t, q) ∈ holders (mapped s) f := by
        dsimp only at he
        rw [holders, Set.mem_ofPred_eq, mapped, he, Option.map_some, hf]
      rw [hun] at this
      exact this.elim
    · exact h.readonly t q e he hn

/-- A page takes the frame that was allocated for it. -/
theorem sound_freshPage (h : Sound s) {f flags : ℕ} (hin : f < s.pmm.maxFrames ∧
    s.pmm.memoryBitmap f = true) (hone : s.pmm.refcounts f = 1) (hun : holders (mapped s) f = ∅)
    (hflags : Names s.cache f → flags.testBit 1 = false ∧ flags.testBit 9 = false) :
    Sound (s.setPage t page (some (f, flags))) := by
  refine sound_setPage h fun g flags' he => ?_
  cases he
  refine ⟨hin.1, hin.2, ?_, hflags⟩
  have : holders (setSlot (mapped s) (t, page) none) f = ∅ :=
    Set.subset_eq_empty (holders_clear_subset _ _ _) hun
  rw [this, Set.ncard_empty, hone]

theorem area_flags (a : Area) : a.flags.testBit 9 = false := by
  rcases a.flags_eq with h | h <;> rw [h] <;> decide

theorem vma_readonly {a : Area} {g : Backing} (h : (s.vma a g).isReadonly = true) :
    a.flags.testBit 1 = false := by
  simpa [Vma.isReadonly, World.vma] using h

theorem sound_cacheInsert (h : Sound s) (a : Area) (g : Backing) {f : ℕ} (hf : Fresh s f) :
    Sound ((s.cacheInsert a g page f).setPage t (page/4096) (some (f, a.flags))) := by
  unfold World.cacheInsert
  split_ifs with hc
  · exact sound_freshPage (sound_insert h hf.inside hf.unmapped _ _) hf.inside hf.one hf.unmapped
      fun _ => ⟨vma_readonly hc.2.1, area_flags a⟩
  · exact sound_freshPage h hf.inside hf.one hf.unmapped fun hn => absurd hn hf.unnamed

/-- A page that the cache holds gets one more reference before it is mapped. -/
theorem sound_hit (h : Sound s) {f flags : ℕ} (hn : Names s.cache f)
    (hrc : s.pmm.refcounts f < 255) (hflags : flags.testBit 1 = false ∧ flags.testBit 9 = false) :
    Sound ((s.incRef f).setPage t page (some (f, flags))) := by
  refine sound_setPage (sound_incRef h f) fun g flags' he => ?_
  cases he
  have hp : (s.incRef f).pmm = s.pmm.incRef f := rfl
  obtain ⟨h1, h2⟩ := h.named f hn
  rw [hp, incRef_maxFrames, incRef_memoryBitmap, incRef_refcounts _ h1 hrc]
  refine ⟨h1, h2, ?_, fun _ => hflags⟩
  have hle := (Set.ncard_le_ncard (holders_clear_subset (mapped s) (t, page) f) (h.finite f)).trans
    (h.counted f)
  exact Nat.succ_le_succ hle

/-- No count of references is at its limit when a reference is added, and no frame
is freed that is mapped or that the page cache names. -/
def Spared (s : World) : Event → Prop
  | .fault t addr garbage => (s.threads t).table (addr/4096) = none → s.inHeap t addr = false →
    ∀ a, s.findArea t addr = some a → s.pmm.refcounts (s.cached a garbage (pageDown addr)) < 255
  | .dropPage t page => ∀ e, (s.threads t).table page = some e → Names s.cache e.1 →
    1 < s.pmm.refcounts e.1
  | .forkPage t _ page => ∀ e, (s.threads t).table page = some e → s.pmm.refcounts e.1 < 255
  | .kernelFree frame => holders (mapped s) frame = ∅ ∧ ¬Names s.cache frame
  | _ => True

/-- `p` takes no page fault in its heap, and a VMA in which anybody faults has its
type and vnode stored. -/
def Defined (p : ℕ) (s : World) : Event → Prop
  | .fault t addr _ => (s.threads t).table (addr/4096) = none →
    (t = p → s.inHeap t addr = false) ∧ (s.inHeap t addr = false →
      ∀ a, s.findArea t addr = some a → a.backing.isSome)
  | _ => True

/-- The condition on an event of a run in which `p` obtains pages. -/
def Careful (p : ℕ) (s : World) (e : Event) : Prop := Spared s e ∧ Defined p s e

def CarefulRun (p : ℕ) (s : World) : List Event → Prop
  | [] => True
  | e::es => Careful p s e ∧ CarefulRun p (step s e) es

theorem sound_handlePageFault {addr : ℕ} {g : Backing} (h : Sound s)
    (habsent : (s.threads t).table (addr/4096) = none) (hc : Spared s (.fault t addr g)) :
    Sound (s.handlePageFault t addr g) := by
  obtain ⟨hal, hfresh⟩ := sound_allocated h
  unfold World.handlePageFault
  dsimp only
  cases hheap : s.inHeap t addr with
  | true =>
    rw [if_pos rfl]
    split_ifs with h0
    · exact hal
    · have hf := hfresh h0
      exact sound_freshPage hal hf.inside hf.one hf.unmapped fun hn => absurd hn hf.unnamed
  | false =>
    rw [if_neg (by simp)]
    cases ha : s.findArea t addr with
    | none => exact h
    | some a =>
      have hrc := hc habsent hheap a ha
      dsimp only
      split_ifs with hhit h0
      · have hro : (s.vma a g).isReadonly && (s.vma a g).isFile := by
          by_contra hno
          rw [World.cached, if_neg hno] at hhit
          exact hhit rfl
        have hn : Names s.cache (s.cached a g (pageDown addr)) := by
          rw [World.cached, if_pos hro] at hhit ⊢
          exact lookup_names hhit
        rw [Bool.and_eq_true] at hro
        exact sound_hit h hn hrc ⟨vma_readonly hro.1, area_flags a⟩
      · exact hal
      · have hf := hfresh h0
        exact sound_cacheInsert (sound_setFrame hal _ _) a g
          ⟨hf.inside, hf.one, hf.unmapped, hf.unnamed⟩

theorem sound_dropPage (h : Sound s) (hc : Spared s (.dropPage t page)) :
    Sound (s.dropPage t page) := by
  unfold World.dropPage
  cases he : (s.threads t).table page with
  | none => exact h
  | some e =>
    have hm : mapped s (t, page) = some e.1 := by
      rw [mapped, he, Option.map_some]
    have hdrop : mapped (s.setPage t page none) = setSlot (mapped s) (t, page) none :=
      mapped_setPage s t page none
    refine sound_freeFrame (sound_setPage h fun f flags hh => absurd hh (by simp)) (Or.inl ?_)
      fun hn => hc e he hn
    rw [hdrop, ncard_drop hm (h.finite e.1)]
    exact h.counted e.1

theorem sound_forkPage (h : Sound s) {u : ℕ} (hc : Spared s (.forkPage t u page)) :
    Sound (s.forkPage t u page) := by
  unfold World.forkPage
  cases he : (s.threads t).table page with
  | none => exact sound_setPage h fun f flags hh => absurd hh (by simp)
  | some e =>
    have hm : mapped s (t, page) = some e.1 := by
      rw [mapped, he, Option.map_some]
    have hrc := hc e he
    obtain ⟨h1, h2⟩ := h.allocated _ _ hm
    -- the reference is added first: the order does not matter
    have hp : (s.incRef e.1).pmm = s.pmm.incRef e.1 := rfl
    have hin : e.1 < (s.incRef e.1).pmm.maxFrames ∧ (s.incRef e.1).pmm.memoryBitmap e.1 = true ∧
        (s.incRef e.1).pmm.refcounts e.1 = s.pmm.refcounts e.1+1 := by
      rw [hp, incRef_maxFrames, incRef_memoryBitmap, incRef_refcounts _ h1 hrc]
      exact ⟨h1, h2, rfl⟩
    have hcount : ∀ x, (holders (setSlot (mapped s) x none) e.1).ncard+1 ≤
        s.pmm.refcounts e.1+1 := fun x => Nat.succ_le_succ
      ((Set.ncard_le_ncard (holders_clear_subset (mapped s) x e.1) (h.finite e.1)).trans
        (h.counted e.1))
    dsimp only
    split_ifs with hw
    · have hun : ¬Names s.cache e.1 := fun hn => by
        rw [(h.readonly t page e he hn).1] at hw
        exact absurd hw (by simp)
      have hfirst : Sound ((s.incRef e.1).setPage t page (some (e.1, 0x205))) := by
        refine sound_setPage (sound_incRef h e.1) fun f flags hh => ?_
        cases hh
        exact ⟨hin.1, hin.2.1, by rw [hin.2.2]; exact hcount _, fun hn => absurd hn hun⟩
      have hsame : mapped ((s.incRef e.1).setPage t page (some (e.1, 0x205))) = mapped s := by
        rw [mapped_setPage]
        funext x
        by_cases hx : x = (t, page)
        · rw [hx, setSlot_same, Option.map_some]
          exact hm.symm
        · rw [setSlot_ne _ _ hx]
          rfl
      have hsecond : Sound (((s.incRef e.1).setPage t page (some (e.1, 0x205))).setPage u page
          (some (e.1, 0x205))) := by
        refine sound_setPage hfirst fun f flags hh => ?_
        cases hh
        refine ⟨hin.1, hin.2.1, ?_, fun hn => absurd hn hun⟩
        rw [hsame]
        exact (hcount _).trans hin.2.2.ge
      exact hsecond
    · have hsecond : Sound ((s.incRef e.1).setPage u page (some e)) := by
        refine sound_setPage (sound_incRef h e.1) fun f flags hh => ?_
        cases hh
        exact ⟨hin.1, hin.2.1, by rw [hin.2.2]; exact hcount _, fun hn => h.readonly t page _ he hn⟩
      exact hsecond

theorem sound_storeByte (h : Sound s) (f addr : ℕ) (v : UInt8) : Sound (s.storeByte f addr v) :=
  sound_setFrame h f _

theorem sound_store (h : Sound s) (addr : ℕ) (v : UInt8) : Sound (s.store t addr v) := by
  unfold World.store
  cases he : (s.threads t).table (addr/4096) with
  | none => exact h
  | some e =>
    have hm : mapped s (t, addr/4096) = some e.1 := by
      rw [mapped, he, Option.map_some]
    obtain ⟨hal, hfresh⟩ := sound_allocated h
    dsimp only
    split_ifs with h1 h2 h3 h4
    · exact sound_storeByte h _ _ _
    · refine sound_storeByte (sound_setPage h fun f flags hh => ?_) _ _ _
      cases hh
      obtain ⟨h5, h6⟩ := h.allocated _ _ hm
      refine ⟨h5, h6, ?_, fun hn => ?_⟩
      · rw [ncard_drop hm (h.finite e.1)]
        exact h.counted e.1
      · rw [(h.readonly t _ e he hn).2] at h2
        exact absurd h2 (by simp)
    · exact hal
    · -- the page leaves the old frame, whose reference goes with it
      have hf := hfresh h4
      have hal' := sound_setFrame hal s.pmm.allocFrame.1 (s.frames e.1)
      have hf' : Fresh (s.allocated.setFrame s.pmm.allocFrame.1 (s.frames e.1))
        s.pmm.allocFrame.1 := ⟨hf.inside, hf.one, hf.unmapped, hf.unnamed⟩
      have hm' : mapped (s.allocated.setFrame s.pmm.allocFrame.1 (s.frames e.1)) (t, addr/4096) =
        some e.1 := hm
      have hcow : Names (s.allocated.setFrame s.pmm.allocFrame.1 (s.frames e.1)).cache e.1 →
          False := fun hn => by
        rw [(h.readonly t _ e he hn).2] at h2
        exact absurd h2 (by simp)
      generalize s.allocated.setFrame s.pmm.allocFrame.1 (s.frames e.1) = w at *
      generalize s.pmm.allocFrame.1 = frame at *
      have hne : frame ≠ e.1 := by
        rintro rfl
        have : (t, addr/4096) ∈ holders (mapped w) e.1 := hm'
        rw [hf'.unmapped] at this
        exact this
      have hcleared : Sound (w.setPage t (addr/4096) none) :=
        sound_setPage hal' fun f flags hh => absurd hh (by simp)
      have hdrop : mapped (w.setPage t (addr/4096) none) =
        setSlot (mapped w) (t, addr/4096) none := mapped_setPage _ _ _ _
      have hfreed : Sound ((w.setPage t (addr/4096) none).freeFrame e.1) := by
        refine sound_freeFrame hcleared (Or.inl ?_) fun hn => (hcow hn).elim
        rw [hdrop, ncard_drop hm' (hal'.finite e.1)]
        exact hal'.counted e.1
      have hgone : holders (mapped ((w.setPage t (addr/4096) none).freeFrame e.1)) frame = ∅ := by
        have : mapped ((w.setPage t (addr/4096) none).freeFrame e.1) =
          setSlot (mapped w) (t, addr/4096) none := hdrop
        rw [this]
        exact Set.subset_eq_empty (holders_clear_subset _ _ _) hf'.unmapped
      have hsame := freeFrame_same w.pmm hne
      have hpage : Sound (((w.setPage t (addr/4096) none).freeFrame e.1).setPage t (addr/4096)
          (some (frame, 7))) := by
        refine sound_freshPage hfreed ⟨?_, ?_⟩ ?_ hgone fun hn => absurd hn hf'.unnamed
        · exact (freeFrame_maxFrames w.pmm e.1).symm ▸ hf'.inside.1
        · exact hsame.1.trans hf'.inside.2
        · exact hsame.2.trans hf'.one
      have htwice : ((w.setPage t (addr/4096) none).freeFrame e.1).setPage t (addr/4096)
          (some (frame, 7)) = (w.freeFrame e.1).setPage t (addr/4096) (some (frame, 7)) := by
        unfold World.setPage World.setThread World.freeFrame
        congr 1
        funext u
        dsimp only
        by_cases hu : u = t
        · rw [if_pos hu, if_pos hu, if_pos rfl]
          congr 1
          funext q
          dsimp only
          split_ifs <;> rfl
        · rw [if_neg hu, if_neg hu, if_neg hu]
      rw [htwice] at hpage
      exact sound_storeByte hpage _ _ _
    · exact h

theorem sound_step (h : Sound s) (e : Event) (hc : Spared s e) : Sound (step s e) := by
  cases e with
  | store t addr v => exact sound_store h addr v
  | fault t addr g =>
    rw [step]
    cases habsent : (s.threads t).table (addr/4096) with
    | none =>
      rw [if_neg (by simp)]
      exact sound_handlePageFault h habsent hc
    | some e =>
      rw [if_pos (Option.isSome_some)]
      exact h
  | clearedPage t page flags =>
    rw [step, World.clearedPage]
    obtain ⟨hal, hfresh⟩ := sound_allocated h
    split_ifs with h0
    · exact hal
    · have hf := hfresh h0
      exact sound_setFrame (sound_freshPage hal hf.inside hf.one hf.unmapped
        fun hn => absurd hn hf.unnamed) _ _
  | dropPage t page => exact sound_dropPage h hc
  | forkPage t u page => exact sound_forkPage h hc
  | forkVmas t u => exact sound_vmas h u _ rfl
  | addVma t a => exact sound_vmas h t _ rfl
  | munmapVmas t start finish => exact sound_vmas h t _ rfl
  | clearVmas t => exact sound_vmas h t _ rfl
  | setHeap t heapStart heapEnd => exact sound_vmas h t _ rfl
  | setName t name => exact sound_vmas h t _ rfl
  | setFile inode f => exact ⟨h.allocated, h.finite, h.counted, h.named, h.readonly⟩
  | kernelAlloc => exact (sound_allocated h).1
  | kernelFree frame => exact sound_freeFrame h (Or.inr hc.1) fun hn => absurd hn hc.2

/-- The kernel's own data agree in two runs, and so do the pages in the cache. -/
structure Alike (s s' : World) : Prop where
  pmm : s'.pmm = s.pmm
  cache : s'.cache = s.cache
  files : s'.files = s.files
  threads : s'.threads = s.threads
  cached : ∀ f, Names s.cache f → s'.frames f = s.frames f

/-- Events of two runs: other processes may store other bytes, and what the
kernel's memory held before may differ. -/
inductive Twin (p : ℕ) : Event → Event → Prop where
  | same (e : Event) : Twin p e e
  | store (t addr : ℕ) (v v' : UInt8) (h : t ≠ p) : Twin p (.store t addr v) (.store t addr v')
  | fault (t addr : ℕ) (g g' : Backing) : Twin p (.fault t addr g) (.fault t addr g')

/-- The byte a thread finds at an address. -/
def readByte (s : World) (t addr : ℕ) : Option UInt8 :=
  ((s.threads t).table (addr/4096)).map fun e => s.frames e.1 (addr%4096)

/-- The page that a process obtains anew. -/
def obtains (p : ℕ) (s : World) : Event → Option ℕ
  | .fault t addr _ =>
    if t = p ∧ (s.threads t).table (addr/4096) = none then some (addr/4096) else none
  | .clearedPage t page _ => if t = p ∧ s.pmm.allocFrame.1 ≠ 0 then some page else none
  | _ => none

/-- In both runs `p` finds the same in each page when it obtains it. -/
def SameFresh (p : ℕ) (s s' : World) : List (Event × Event) → Prop
  | [] => True
  | (e, e')::es =>
    (∀ page ∈ obtains p s e, ∀ addr, addr/4096 = page →
      readByte (step s e) p addr = readByte (step s' e') p addr) ∧
    SameFresh p (step s e) (step s' e') es

section Twins

variable {p addr f : ℕ}

theorem alike_setThread (h : Alike s s') (t : ℕ) (th : Thread) :
    Alike (s.setThread t th) (s'.setThread t th) := by
  refine ⟨h.pmm, h.cache, h.files, ?_, h.cached⟩
  unfold World.setThread
  dsimp only
  rw [h.threads]

theorem alike_setPage (h : Alike s s') (t page : ℕ) (e : Option (ℕ × ℕ)) :
    Alike (s.setPage t page e) (s'.setPage t page e) := by
  unfold World.setPage
  rw [h.threads]
  exact alike_setThread h t _

theorem alike_allocated (h : Alike s s') : Alike s.allocated s'.allocated := by
  refine ⟨?_, h.cache, h.files, h.threads, h.cached⟩
  unfold World.allocated
  dsimp only
  rw [h.pmm]

theorem alike_incRef (h : Alike s s') (f : ℕ) : Alike (s.incRef f) (s'.incRef f) := by
  refine ⟨?_, h.cache, h.files, h.threads, h.cached⟩
  unfold World.incRef
  dsimp only
  rw [h.pmm]

theorem alike_freeFrame (h : Alike s s') (f : ℕ) : Alike (s.freeFrame f) (s'.freeFrame f) := by
  refine ⟨?_, h.cache, h.files, h.threads, h.cached⟩
  unfold World.freeFrame
  dsimp only
  rw [h.pmm]

theorem alike_setFrame (h : Alike s s') {m m' : Memory} (hm : Names s.cache f → m' = m) :
    Alike (s.setFrame f m) (s'.setFrame f m') := by
  refine ⟨h.pmm, h.cache, h.files, h.threads, fun g hg => ?_⟩
  unfold World.setFrame
  dsimp only
  split_ifs with hgf
  · exact hm (hgf ▸ hg)
  · exact h.cached g hg

theorem alike_storeByte (h : Alike s s') (hf : ¬Names s.cache f) (addr : ℕ) (v v' : UInt8) :
    Alike (s.storeByte f addr v) (s'.storeByte f addr v') :=
  alike_setFrame h fun hn => absurd hn hf

theorem alike_vma (h : Alike s s') (a : Area) (g : Backing) : s'.vma a g = s.vma a g := by
  unfold World.vma
  rw [h.files]

theorem alike_cached (h : Alike s s') (a : Area) (g : Backing) (page : ℕ) :
    s'.cached a g page = s.cached a g page := by
  unfold World.cached
  rw [alike_vma h, h.cache]

theorem alike_fill (h : Alike s s') (v : Vma) (g : Backing) (page : ℕ) :
    (s'.process t g).fill v page = (s.process t g).fill v page := by
  unfold Process.fill Process.source World.process
  dsimp only
  rw [h.files, h.threads]

theorem alike_cacheInsert (h : Alike s s') (a : Area) (g : Backing) (page : ℕ)
    (hf : s'.frames f = s.frames f) :
    Alike (s.cacheInsert a g page f) (s'.cacheInsert a g page f) := by
  unfold World.cacheInsert
  rw [alike_vma h]
  split_ifs
  · refine ⟨h.pmm, ?_, h.files, h.threads, fun x hx => ?_⟩
    · dsimp only
      rw [h.cache]
    · rcases insert_names hx with rfl | hx
      · exact hf
      · exact h.cached x hx
  · exact h

theorem cacheInsert_frames (s : World) (a : Area) (g : Backing) (page f : ℕ) :
    (s.cacheInsert a g page f).frames = s.frames := by
  unfold World.cacheInsert
  split_ifs <;> rfl

/-- Where type and vnode were stored, what the memory held before is not read. -/
theorem handlePageFault_garbage {g g' : Backing}
    (h : s.inHeap t addr = false → ∀ a, s.findArea t addr = some a → a.backing.isSome) :
    s.handlePageFault t addr g' = s.handlePageFault t addr g := by
  unfold World.handlePageFault
  dsimp only
  cases hheap : s.inHeap t addr with
  | true => rw [if_pos rfl, if_pos rfl]
  | false =>
    rw [if_neg (by simp), if_neg (by simp)]
    cases ha : s.findArea t addr with
    | none => rfl
    | some a =>
      obtain ⟨b, hb⟩ := Option.isSome_iff_exists.mp (h hheap a ha)
      have hv : ∀ w : World, w.vma a g' = w.vma a g := by
        intro w
        unfold World.vma
        rw [hb, Option.getD_some, Option.getD_some]
      have hk : World.cacheKey a g' (pageDown addr) = World.cacheKey a g (pageDown addr) := by
        unfold World.cacheKey
        rw [hb, Option.getD_some, Option.getD_some]
      have hc : s.cached a g' (pageDown addr) = s.cached a g (pageDown addr) := by
        unfold World.cached
        rw [hv, hk]
      have hi : ∀ w : World, ∀ f, w.cacheInsert a g' (pageDown addr) f =
          w.cacheInsert a g (pageDown addr) f := by
        intro w f
        unfold World.cacheInsert
        rw [hv, hk]
      have hfill : (s.process t g').fill (s.vma a g) (pageDown addr) =
          (s.process t g).fill (s.vma a g) (pageDown addr) := by
        unfold Process.fill Process.source World.process
        rfl
      dsimp only
      rw [hc, hv, hfill, hi]

theorem alike_handlePageFault {g : Backing} (h : Alike s s') (hs : Sound s) :
    Alike (s.handlePageFault t addr g) (s'.handlePageFault t addr g) := by
  obtain ⟨-, hfresh⟩ := sound_allocated hs
  have hheap : s'.inHeap t addr = s.inHeap t addr := by
    unfold World.inHeap
    rw [h.threads]
  have harea : s'.findArea t addr = s.findArea t addr := by
    unfold World.findArea
    rw [h.threads]
  unfold World.handlePageFault
  dsimp only
  rw [hheap, harea, h.pmm]
  cases s.inHeap t addr with
  | true =>
    rw [if_pos rfl, if_pos rfl]
    split_ifs
    · exact alike_allocated h
    · exact alike_setPage (alike_allocated h) _ _ _
  | false =>
    rw [if_neg (by simp), if_neg (by simp)]
    cases s.findArea t addr with
    | none => exact h
    | some a =>
      dsimp only
      rw [alike_cached h, alike_vma h, alike_fill h]
      split_ifs with h3 h4
      · exact alike_setPage (alike_incRef h _) _ _ _
      · exact alike_allocated h
      · refine alike_setPage (alike_cacheInsert (alike_setFrame (alike_allocated h) fun _ => rfl)
          a g _ ?_) _ _ _
        unfold World.setFrame
        dsimp only
        rw [if_pos rfl, if_pos rfl]

theorem alike_store (h : Alike s s') (hs : Sound s) (v v' : UInt8) :
    Alike (s.store t addr v) (s'.store t addr v') := by
  obtain ⟨-, hfresh⟩ := sound_allocated hs
  unfold World.store
  dsimp only
  rw [h.threads, h.pmm]
  cases he : (s.threads t).table (addr/4096) with
  | none => exact h
  | some e =>
    -- a page that the user may write, now or after a copy, is not in the cache
    have hun : e.2.testBit 1 = true ∨ e.2.testBit 9 = true → ¬Names s.cache e.1 := by
      intro hw hn
      have := hs.readonly t _ e he hn
      rw [this.1, this.2] at hw
      simp at hw
    dsimp only
    split_ifs with h1 h2 h3 h4
    · exact alike_storeByte h (hun (Or.inl h1)) addr v v'
    · exact alike_storeByte (alike_setPage h t (addr/4096) (some (e.1, 7))) (hun (Or.inr h2)) addr v v'
    · exact alike_allocated h
    · have hnew : ¬Names s.cache s.pmm.allocFrame.1 := (hfresh h4).unnamed
      have hcopy : Alike (s.allocated.setFrame s.pmm.allocFrame.1 (s.frames e.1))
          (s'.allocated.setFrame s.pmm.allocFrame.1 (s'.frames e.1)) :=
        alike_setFrame (alike_allocated h) fun hn => absurd hn hnew
      exact alike_storeByte (alike_setPage (alike_freeFrame hcopy e.1) t (addr/4096) _) hnew addr v v'
    · exact h

theorem alike_clearedPage (h : Alike s s') (page flags : ℕ) :
    Alike (s.clearedPage t page flags) (s'.clearedPage t page flags) := by
  unfold World.clearedPage
  dsimp only
  rw [h.pmm]
  split_ifs
  · exact alike_allocated h
  · exact alike_setFrame (alike_setPage (alike_allocated h) _ _ _) fun _ => rfl

theorem alike_dropPage (h : Alike s s') (page : ℕ) :
    Alike (s.dropPage t page) (s'.dropPage t page) := by
  unfold World.dropPage
  rw [h.threads]
  cases (s.threads t).table page with
  | none => exact h
  | some e => exact alike_freeFrame (alike_setPage h _ _ _) _

theorem alike_forkPage (h : Alike s s') (u page : ℕ) :
    Alike (s.forkPage t u page) (s'.forkPage t u page) := by
  unfold World.forkPage
  rw [h.threads]
  cases (s.threads t).table page with
  | none => exact alike_setPage h _ _ _
  | some e =>
    dsimp only
    split_ifs
    · exact alike_incRef (alike_setPage (alike_setPage h _ _ _) _ _ _) _
    · exact alike_incRef (alike_setPage h _ _ _) _

theorem alike_same (h : Alike s s') (hs : Sound s) (e : Event) :
    Alike (step s e) (step s' e) := by
  cases e with
  | store t addr v => exact alike_store h hs v v
  | fault t addr g =>
    rw [step, step, h.threads]
    split_ifs
    · exact h
    · exact alike_handlePageFault h hs
  | clearedPage t page flags => exact alike_clearedPage h page flags
  | dropPage t page => exact alike_dropPage h page
  | forkPage t u page => exact alike_forkPage h u page
  | forkVmas t u =>
    rw [step, step, h.threads]
    exact alike_setThread h u _
  | addVma t a =>
    rw [step, step, h.threads]
    exact alike_setThread h t _
  | munmapVmas t start finish =>
    rw [step, step, h.threads]
    exact alike_setThread h t _
  | clearVmas t =>
    rw [step, step, h.threads]
    exact alike_setThread h t _
  | setHeap t heapStart heapEnd =>
    rw [step, step, h.threads]
    exact alike_setThread h t _
  | setName t name =>
    rw [step, step, h.threads]
    exact alike_setThread h t _
  | setFile inode f =>
    refine ⟨h.pmm, h.cache, ?_, h.threads, h.cached⟩
    rw [step, step, h.files]
  | kernelAlloc => exact alike_allocated h
  | kernelFree frame => exact alike_freeFrame h frame

/-- Where the VMA is complete, twin events lead alike runs to alike states. -/
theorem alike_step (h : Alike s s') (hs : Sound s) {e e' : Event} (ht : Twin p e e')
    (hc : Careful p s e) : Alike (step s e) (step s' e') := by
  cases ht with
  | same => exact alike_same h hs e
  | store t addr v v' hne => exact alike_store h hs v v'
  | fault t addr g g' =>
    have halike := alike_same h hs (.fault t addr g)
    have hstep : step s' (.fault t addr g') = step s' (.fault t addr g) := by
      rw [step, step, h.threads]
      cases habsent : (s.threads t).table (addr/4096) with
      | some e => rw [if_pos (Option.isSome_some), if_pos (Option.isSome_some)]
      | none =>
        rw [if_neg (by simp), if_neg (by simp)]
        refine handlePageFault_garbage fun hheap a ha => (hc.2 habsent).2 ?_ a ?_
        · unfold World.inHeap at hheap ⊢
          rwa [h.threads] at hheap
        · unfold World.findArea at ha ⊢
          rwa [h.threads] at ha
    rw [hstep]
    exact halike

/-- The page is absent, or its frame holds the same in both runs. -/
def SamePage (s s' : World) (t page : ℕ) : Prop :=
  ∀ e, (s.threads t).table page = some e → s'.frames e.1 = s.frames e.1

theorem readByte_samePage (h : Alike s s') (hp : SamePage s s' p page) (ha : addr/4096 = page) :
    readByte s p addr = readByte s' p addr := by
  unfold readByte
  rw [h.threads, ha]
  cases he : (s.threads p).table page with
  | none => rfl
  | some e => rw [Option.map_some, Option.map_some, hp e he]

theorem setPage_samePage {e : ℕ × ℕ} (he : s'.frames e.1 = s.frames e.1) :
    SamePage (s.setPage t page (some e)) (s'.setPage t page (some e)) t page := by
  intro e' he'
  rw [setPage_table, if_pos ⟨rfl, rfl⟩] at he'
  cases he'
  exact he

theorem absent_samePage (h : (s.threads t).table page = none) : SamePage s s' t page := by
  intro e he
  rw [h] at he
  cases he

/-- The page that a fault fills: read from the cache, or from the file. -/
theorem fault_samePage {g : Backing} (h : Alike s s')
    (habsent : (s.threads t).table (addr/4096) = none) (hheap : s.inHeap t addr = false) :
    SamePage (s.handlePageFault t addr g) (s'.handlePageFault t addr g) t (addr/4096) := by
  have hheap' : s'.inHeap t addr = s.inHeap t addr := by
    unfold World.inHeap
    rw [h.threads]
  have harea : s'.findArea t addr = s.findArea t addr := by
    unfold World.findArea
    rw [h.threads]
  unfold World.handlePageFault
  dsimp only
  rw [hheap', harea, h.pmm, hheap, if_neg (by simp), if_neg (by simp),
    show pageDown addr/4096 = addr/4096 from Nat.mul_div_cancel _ (by decide)]
  cases s.findArea t addr with
  | none => exact absent_samePage habsent
  | some a =>
    dsimp only
    rw [alike_cached h, alike_vma h, alike_fill h]
    split_ifs with h3 h4
    · refine setPage_samePage (h.cached _ ?_)
      unfold World.cached at h3 ⊢
      split_ifs at h3 ⊢
      · exact lookup_names h3
      · exact absurd rfl h3
    · exact absent_samePage habsent
    · refine setPage_samePage ?_
      rw [cacheInsert_frames, cacheInsert_frames]
      unfold World.setFrame
      dsimp only
      rw [if_pos rfl, if_pos rfl]

theorem clearedPage_samePage (h : Alike s s') (flags : ℕ) (h0 : s.pmm.allocFrame.1 ≠ 0) :
    SamePage (s.clearedPage t page flags) (s'.clearedPage t page flags) t page := by
  have htable := setPage_table s.allocated t page (some (s.pmm.allocFrame.1, flags)) t page
  rw [if_pos ⟨rfl, rfl⟩] at htable
  unfold World.clearedPage
  dsimp only
  rw [h.pmm, if_neg h0, if_neg h0]
  intro e he
  cases htable.symm.trans he
  unfold World.setFrame
  dsimp only
  rw [if_pos rfl, if_pos rfl]

theorem obtains_cases {e : Event} (h : page ∈ obtains p s e) :
    (∃ a g, e = .fault p a g ∧ (s.threads p).table (a/4096) = none ∧ page = a/4096) ∨
    ∃ flags, e = .clearedPage p page flags ∧ s.pmm.allocFrame.1 ≠ 0 := by
  cases e with
  | fault t a g =>
    rw [obtains, Option.mem_def] at h
    split_ifs at h with hh
    obtain ⟨rfl, habsent⟩ := hh
    exact Or.inl ⟨a, g, rfl, habsent, (Option.some.inj h).symm⟩
  | clearedPage t q flags =>
    rw [obtains, Option.mem_def] at h
    split_ifs at h with hh
    obtain ⟨rfl, h0⟩ := hh
    exact Or.inr ⟨flags, by rw [Option.some.inj h], h0⟩
  | _ => exact absurd h (by simp [obtains])

theorem twin_fault {a : ℕ} {g : Backing} {e' : Event} (h : Twin p (.fault p a g) e') :
    ∃ g', e' = .fault p a g' := by
  cases h with
  | same => exact ⟨g, rfl⟩
  | fault t a g g' => exact ⟨g', rfl⟩

theorem twin_clearedPage {flags : ℕ} {e' : Event} (h : Twin p (.clearedPage p page flags) e') :
    e' = .clearedPage p page flags := by
  cases h
  rfl

/-- What a process obtains is the same in alike runs. -/
theorem obtained_same (h : Alike s s') (hs : Sound s) {e e' : Event} (ht : Twin p e e')
    (hc : Careful p s e) (hpage : page ∈ obtains p s e) (haddr : addr/4096 = page) :
    readByte (step s e) p addr = readByte (step s' e') p addr := by
  refine readByte_samePage (alike_step h hs ht hc) ?_ haddr
  rcases obtains_cases hpage with ⟨a, g, rfl, habsent, rfl⟩ | ⟨flags, rfl, h0⟩
  · obtain ⟨g', rfl⟩ := twin_fault ht
    obtain ⟨h1, h2⟩ := hc.2 habsent
    have hgarbage : s'.handlePageFault p a g' = s'.handlePageFault p a g := by
      refine handlePageFault_garbage fun _ b hb => h2 (h1 rfl) b ?_
      unfold World.findArea at hb ⊢
      rwa [h.threads] at hb
    rw [step, step, h.threads, habsent, if_neg (by simp), if_neg (by simp), hgarbage]
    exact fault_samePage h habsent (h1 rfl)
  · rw [twin_clearedPage ht]
    exact clearedPage_samePage h flags h0

theorem run_same (h : Alike s s') (hs : Sound s) (es : List (Event × Event))
    (ht : ∀ x ∈ es, Twin p x.1 x.2) (hc : CarefulRun p s (es.map Prod.fst)) :
    SameFresh p s s' es := by
  induction es generalizing s s' with
  | nil => trivial
  | cons x es ih =>
    obtain ⟨h1, h2⟩ := hc
    have htx := ht x List.mem_cons_self
    refine ⟨fun page hpage addr ha => obtained_same h hs htx h1 hpage ha, ?_⟩
    exact ih (alike_step h hs htx h1) (sound_step hs x.1 h1.1)
      (fun y hy => ht y (List.mem_cons_of_mem _ hy)) h2

end Twins

/-- No process runs yet. -/
def boot (pmm : Pmm) (frames : ℕ → Memory) (files : ℕ → File) : World where
  frames := frames
  pmm := pmm
  cache := PageCache.init
  files := files
  threads := fun _ => ⟨0, 0, [], fun _ => none, none⟩

theorem boot_sound (pmm : Pmm) (frames : ℕ → Memory) (files : ℕ → File) :
    Sound (boot pmm frames files) := by
  have hm : ∀ x, mapped (boot pmm frames files) x = none := fun _ => rfl
  have hempty : ∀ f, holders (mapped (boot pmm frames files)) f = ∅ := fun f =>
    Set.eq_empty_of_forall_notMem fun x (hx : mapped (boot pmm frames files) x = some f) => by
      rw [hm] at hx
      cases hx
  refine ⟨fun x f hx => ?_, fun f => ?_, fun f => ?_, fun f hn => absurd hn (not_names_init f),
    fun t q e he => absurd he (by simp [boot])⟩
  · rw [hm] at hx
    cases hx
  · rw [hempty]
    exact Set.finite_empty
  · rw [hempty, Set.ncard_empty]
    exact Nat.zero_le _

theorem alike_refl (s : World) : Alike s s := ⟨rfl, rfl, rfl, rfl, fun _ _ => rfl⟩

/-- 32 frames of which frame 0 is reserved. -/
def smallPmm : Pmm := ⟨fun f => f == 0, 32, 1, fun _ => 0⟩

def emptyFile : File := ⟨0, fun _ => 0, by decide⟩

/-- Process 1 writes to a page of its own and gives it back; process 2 gets it. -/
def recycled (get : ℕ → Event) : List (Event × Event) :=
  [(.setHeap 1 4096 8192, .setHeap 1 4096 8192), (get 1, get 1),
    (.store 1 4096 1, .store 1 4096 2), (.dropPage 1 1, .dropPage 1 1),
    (.setHeap 2 4096 8192, .setHeap 2 4096 8192), (get 2, get 2)]

theorem recycled_twin (get : ℕ → Event) : ∀ x ∈ recycled get, Twin 2 x.1 x.2 := by
  intro x hx
  simp only [recycled, List.mem_cons, List.not_mem_nil, or_false] at hx
  rcases hx with rfl | rfl | rfl | rfl | rfl | rfl
  · exact .same _
  · exact .same _
  · exact .store 1 4096 1 2 (by decide)
  · exact .same _
  · exact .same _
  · exact .same _

end Vlsmc.FreshPagesRuns
