import Vlsmc.KmallocRuns

/-!
# Memory that the kernel heap gives back

`kernel_main` starts the frame manager but not the heap: `heap_start` stays null,
no list of blocks is searched, and each request takes frames of its own.
-/

set_option autoImplicit false

namespace Vlsmc.KmallocReuse
open Vlsmc.Words Vlsmc.ByteMemory Vlsmc.PhysicalMemory Vlsmc.Kmalloc Vlsmc.KmallocLayout
open Vlsmc.PmmRuns hiding step run
open Vlsmc.KmallocRuns

/-- `kernel_main` behind `set_region_free`; no call of `kmalloc_init` follows. -/
def kernelMain (mem : Memory) (p₀ : Pmm) : Run :=
  ⟨⟨mem, 0, start p₀ (32*1024*1024) 0x100000 (31*1024*1024), fun _ => false⟩, []⟩

/-- `MemoryValidator` and everything after it. -/
def AfterMain (r : Run) : Prop :=
  ∃ mem p₀ calls, ValidRun (kernelMain mem p₀) calls ∧ run (kernelMain mem p₀) calls = some r

/-- The frames that the heap took, ever. -/
def framesTaken (r : Run) : ℕ := countSet 1048576 r.kernel.obtained

def freeFrames (r : Run) : ℕ := r.kernel.frames.pmm.getFreeMemory/4096

def liveBytes (live : List Allocation) : ℕ := (live.map fun a => a.size+12).sum

/-- A request of one frame at most, or a block that is given back. -/
def HeapCall (r : Run) : Call → Prop
  | .kmalloc size => size ≤ 4096
  | .kfree ptr => ptr = 0 ∨ ∃ a ∈ r.live, a.ptr = ptr
  | _ => False

/-- At no time are more than `bound` bytes live, headers included. -/
def Modest (bound : ℕ) (r : Run) : List Call → Prop
  | [] => liveBytes r.live ≤ bound
  | c::cs => liveBytes r.live ≤ bound ∧ HeapCall r c ∧ ∀ r' ∈ step r c, Modest bound r' cs

/-- There is no list of blocks. -/
structure NoHeap (r : Run) : Prop where
  start : r.kernel.heapStart = 0
  exact : Exact 256 7936 r.kernel.frames
  held : ∀ f, r.kernel.obtained f = true → 1 ≤ r.kernel.frames.refs f

variable {k k' : Kernel} {r r' : Run} {size bound n : ℕ}

theorem kfree_rest (k : Kernel) (ptr : ℕ) : (k.kfree ptr).heapStart = k.heapStart ∧
    (k.kfree ptr).frames = k.frames ∧ (k.kfree ptr).obtained = k.obtained := by
  unfold Kernel.kfree
  dsimp only
  split_ifs <;> exact ⟨rfl, rfl, rfl⟩

/-- What a request takes, when no block is known. -/
def Takes (k k' : Kernel) (pages p : ℕ) : Prop :=
  k'.heapStart = 0 ∧ k'.frames = PmmRuns.step k.frames (.allocBlocks pages) ∧
  k'.obtained = (k.take (.allocBlocks pages) (k.frames.pmm.allocBlocks pages).1 pages).obtained ∧
  (p = 0 ↔ (k.frames.pmm.allocBlocks pages).1 = 0)

theorem kmalloc_takes (hstart : k.heapStart = 0) (hexact : Exact 256 7936 k.frames)
    (hheld : ∀ f, k.obtained f = true → 1 ≤ k.frames.refs f) (h0 : size ≠ 0) :
    ∃ p k', k.kmalloc size = some (p, k') ∧
      Takes k k' (Kernel.pagesNeeded (Kernel.totalSize size)) p := by
  unfold Kernel.kmalloc
  rw [if_neg h0, hstart]
  dsimp only
  rw [search_nil]
  dsimp only
  rw [if_neg (fun hh => hh rfl)]
  generalize Kernel.totalSize size = total
  generalize Kernel.pagesNeeded total = pages
  by_cases hgot : (k.frames.pmm.allocBlocks pages).1 = 0
  · rw [if_pos hgot]
    exact ⟨0, _, rfl, hstart, rfl, rfl, iff_of_true rfl hgot⟩
  · rw [if_neg hgot, if_neg (fun hh => hh rfl)]
    obtain ⟨h1, h2, -⟩ := take_blocks hexact hheld hgot
    refine ⟨_, _, rfl, ?_, ?_, ?_, iff_of_false ?_ hgot⟩
    · rw [(splitBlock_rest _ _ _).1]
      exact hstart
    · rw [(splitBlock_rest _ _ _).2.1]
      rfl
    · rw [(splitBlock_rest _ _ _).2.2]
      rfl
    · rw [u32_of_lt (by omega : (k.frames.pmm.allocBlocks pages).1*4096 < 4294967296),
        u32_of_lt (by omega)]
      omega

theorem pages_lt (size : ℕ) :
    Kernel.pagesNeeded (Kernel.totalSize size) < 4294967296 := by
  have h1 : Kernel.totalSize size < 4294967296 := by
    unfold Kernel.totalSize
    dsimp only
    split_ifs <;> exact Nat.mod_lt _ (by decide)
  unfold Kernel.pagesNeeded
  split_ifs
  · exact Nat.mod_lt _ (by decide)
  · omega

theorem takes_noHeap (h : NoHeap r) {pages p : ℕ} (ht : Takes r.kernel k' pages p)
    (hp : pages < 4294967296) (live : List Allocation) : NoHeap ⟨k', live⟩ := by
  obtain ⟨h1, h2, h3, -⟩ := ht
  refine ⟨h1, ?_, fun f hf => ?_⟩
  · dsimp only
    rw [h2]
    exact step_exact h.exact (.allocBlocks pages) hp
  · dsimp only at hf ⊢
    rw [h3] at hf
    rw [h2]
    exact take_held h.held pages f hf

theorem step_noHeap (h : NoHeap r) (c : Call) (hv : Valid r c) (hs : step r c = some r') :
    NoHeap r' := by
  cases c with
  | kmalloc size =>
    by_cases h0 : size = 0
    · rw [step, Kernel.kmalloc, if_pos h0] at hs
      cases hs
      exact h
    · obtain ⟨p, k', heq, ht⟩ := kmalloc_takes h.start h.exact h.held h0
      rw [step, heq] at hs
      cases hs
      exact takes_noHeap h ht (pages_lt size) _
  | kfree ptr =>
    cases hs
    obtain ⟨h1, h2, h3⟩ := kfree_rest r.kernel ptr
    refine ⟨h1.trans h.start, ?_, ?_⟩
    · dsimp only
      rw [h2]
      exact h.exact
    · dsimp only
      rw [h2, h3]
      exact h.held
  | frames op =>
    cases hs
    refine ⟨h.start, step_exact h.exact op hv.1, fun f hf => refs_kept (h.held f hf) fun hd => ?_⟩
    have h1 := hv.2 f hd
    dsimp only at hf
    rw [hf] at h1
    exact absurd h1 (by simp)
  | store addr value =>
    cases hs
    exact ⟨h.start, h.exact, h.held⟩

theorem run_noHeap (h : NoHeap r) (cs : List Call) (hv : ValidRun r cs)
    (hr : run r cs = some r') : NoHeap r' := by
  induction cs generalizing r with
  | nil =>
    cases hr
    exact h
  | cons c cs ih =>
    rw [run] at hr
    obtain ⟨r₁, hs, hr⟩ := Option.bind_eq_some_iff.mp hr
    exact ih (step_noHeap h c hv.1 hs) (hv.2 r₁ hs) hr

theorem kernelMain_noHeap (mem : Memory) (p₀ : Pmm) : NoHeap (kernelMain mem p₀) :=
  ⟨rfl, start_exact p₀ (by decide : 32*1024*1024 < 4294967296) (by decide)
    (by decide : 4096 ≤ 0x100000) (by decide : 0x100000+31*1024*1024 ≤ 32*1024*1024),
    fun f hf => absurd hf (by simp [kernelMain])⟩

theorem afterMain_noHeap (h : AfterMain r) : NoHeap r := by
  obtain ⟨mem, p₀, calls, hv, hr⟩ := h
  exact run_noHeap (kernelMain_noHeap mem p₀) calls hv hr

theorem freeFrames_eq (h : NoHeap r) : freeFrames r = r.kernel.frames.pmm.maxFrames-
    countSet r.kernel.frames.pmm.maxFrames r.kernel.frames.pmm.memoryBitmap := by
  have h1 := countSet_le r.kernel.frames.pmm.maxFrames r.kernel.frames.pmm.memoryBitmap
  have h2 := h.exact.size.1
  unfold freeFrames Pmm.getFreeMemory
  rw [h.exact.used, sub32_of_le h1 (by omega), u32_of_lt (by omega)]
  omega

/-- Some frame is marked free, and the search finds one. -/
theorem getFirstFreeFrame_free (h : NoHeap r) (hf : 1 ≤ freeFrames r) :
    ∃ st, r.kernel.frames.pmm.getFirstFreeFrame = some st := by
  have h1 := h.exact.size.2
  rw [freeFrames_eq h] at hf
  unfold Pmm.getFirstFreeFrame
  generalize r.kernel.frames.pmm = p at *
  cases hfind : (List.range (p.maxFrames/32*32)).find? fun f => !p.memoryBitmap f with
  | some st => exact ⟨st, rfl⟩
  | none =>
    have hall : ∀ f < p.maxFrames, p.memoryBitmap f = true := by
      intro f hlt
      have := List.find?_eq_none.mp hfind f (List.mem_range.mpr (by omega))
      simpa using this
    have hfull : countSet p.maxFrames p.memoryBitmap = p.maxFrames := by
      rw [countSet, Finset.filter_true_of_mem fun f hf => hall f (Finset.mem_range.mp hf),
        Finset.card_range]
    omega

theorem allocBlocks_one (h : NoHeap r) (hf : 1 ≤ freeFrames r) :
    ∃ st, st < r.kernel.frames.pmm.maxFrames ∧ 1 ≤ st ∧
      r.kernel.frames.pmm.memoryBitmap st = false ∧ r.kernel.obtained st = false ∧
      r.kernel.frames.pmm.allocBlocks 1 = (st, r.kernel.frames.pmm.markUsed st) := by
  obtain ⟨st, hst⟩ := getFirstFreeFrame_free h hf
  obtain ⟨h1, h2⟩ := getFirstFreeFrame_some hst
  obtain ⟨h3, -, h5⟩ := exact_free h.exact h1 h2
  have hmem : ¬ r.kernel.frames.pmm.getFreeMemory < u32 (1*4096) := by
    have : u32 (1*4096) = 4096 := by decide
    unfold freeFrames at hf
    omega
  refine ⟨st, h1, by omega, h2, ?_, ?_⟩
  · by_contra hob
    have := h.held st (by simpa using hob)
    omega
  · unfold Pmm.allocBlocks
    rw [if_neg hmem, Pmm.getFreeBlocks, if_neg (by decide), if_pos rfl, hst]
    rfl

theorem takes_one (h : NoHeap r) {p : ℕ} (ht : Takes r.kernel k' 1 p) (hf : 1 ≤ freeFrames r)
    (live : List Allocation) : p ≠ 0 ∧ framesTaken ⟨k', live⟩ = framesTaken r+1 ∧
      freeFrames ⟨k', live⟩+1 = freeFrames r := by
  have hnew := takes_noHeap h ht (by decide) live
  obtain ⟨st, h1, h2, h3, h4, h5⟩ := allocBlocks_one h hf
  obtain ⟨-, h6, h7, h8⟩ := ht
  have hmax := h.exact.size.1
  rw [h5] at h7 h8
  refine ⟨fun hp => absurd (h8.mp hp) (by dsimp only; omega), ?_, ?_⟩
  · refine countSet_set (show st < 1048576 by omega) h4 ?_ fun g hg => ?_
    · rw [h7, take_obtained, if_pos ⟨by dsimp only; omega, le_rfl, by dsimp only; omega⟩]
    · rw [h7, take_obtained, if_neg (by dsimp only; omega)]
  · rw [freeFrames_eq hnew, freeFrames_eq h]
    have hpmm : k'.frames.pmm = r.kernel.frames.pmm.markUsed st := by
      rw [h6, PmmRuns.step, h5, if_neg (by dsimp only; omega)]
      rfl
    have hset : countSet r.kernel.frames.pmm.maxFrames
        (r.kernel.frames.pmm.markUsed st).memoryBitmap =
        countSet r.kernel.frames.pmm.maxFrames r.kernel.frames.pmm.memoryBitmap+1 :=
      countSet_set h1 h3 (if_pos rfl) fun g hg => if_neg hg
    have hlt := countSet_lt h1 h3
    dsimp only
    rw [hpmm, show (r.kernel.frames.pmm.markUsed st).maxFrames =
      r.kernel.frames.pmm.maxFrames from rfl, hset]
    omega

/-- The run allocates `n` more frames, with no more than `bound` bytes live. -/
def Wastes (bound n : ℕ) (r : Run) : Prop := ∃ calls r', Modest bound r calls ∧
  KmallocRuns.run r calls = some r' ∧ framesTaken r' = framesTaken r+n

theorem wastes_cons {c : Call} (hl : liveBytes r.live ≤ bound) (hc : HeapCall r c)
    (hs : KmallocRuns.step r c = some r') {m : ℕ} (hm : framesTaken r' = framesTaken r+m)
    (h : Wastes bound n r') : Wastes bound (m+n) r := by
  obtain ⟨calls, r'', h1, h2, h3⟩ := h
  refine ⟨c::calls, r'', ⟨hl, hc, fun r₁ h4 => ?_⟩, ?_, by omega⟩
  · cases hs.symm.trans h4
    exact h1
  · rw [KmallocRuns.run, hs, Option.bind_some]
    exact h2

theorem kfree_noHeap (h : NoHeap r) (ptr : ℕ) (live : List Allocation) :
    NoHeap ⟨r.kernel.kfree ptr, live⟩ ∧
    framesTaken ⟨r.kernel.kfree ptr, live⟩ = framesTaken r ∧
    freeFrames ⟨r.kernel.kfree ptr, live⟩ = freeFrames r := by
  obtain ⟨h1, h2, h3⟩ := kfree_rest r.kernel ptr
  refine ⟨⟨h1.trans h.start, ?_, ?_⟩, ?_, ?_⟩
  · dsimp only
    rw [h2]
    exact h.exact
  · dsimp only
    rw [h2, h3]
    exact h.held
  · unfold framesTaken
    rw [h3]
  · unfold freeFrames
    rw [h2]

/-- `kmalloc(1)` and `kfree`, again and again. -/
theorem wastes_rounds (hb : 13 ≤ bound) (h : NoHeap r) (hl : r.live = [])
    (hn : n ≤ freeFrames r) : Wastes bound n r := by
  induction n generalizing r with
  | zero =>
    refine ⟨[], r, ?_, rfl, (Nat.add_zero _).symm⟩
    rw [Modest, hl]
    exact Nat.zero_le _
  | succ n ih =>
    obtain ⟨p, k', heq, ht⟩ := kmalloc_takes h.start h.exact h.held (by decide : 1 ≠ 0)
    rw [show Kernel.pagesNeeded (Kernel.totalSize 1) = 1 by decide] at ht
    obtain ⟨hp, h1, h2⟩ := takes_one h ht (by omega) [⟨p, 1⟩]
    have h3 := takes_noHeap h ht (by decide) [⟨p, 1⟩]
    obtain ⟨h4, h5, h6⟩ := kfree_noHeap h3 p []
    have hmalloc : KmallocRuns.step r (.kmalloc 1) = some ⟨k', [⟨p, 1⟩]⟩ := by
      rw [KmallocRuns.step, heq, Option.map_some, if_neg hp, hl]
    have hfree : KmallocRuns.step ⟨k', [⟨p, 1⟩]⟩ (.kfree p) = some ⟨k'.kfree p, []⟩ := by
      rw [KmallocRuns.step]
      simp
    have hc1 : HeapCall r (.kmalloc 1) := (by decide : 1 ≤ 4096)
    have hc2 : HeapCall ⟨k', [⟨p, 1⟩]⟩ (.kfree p) :=
      Or.inr ⟨⟨p, 1⟩, List.mem_singleton.mpr rfl, rfl⟩
    have hl1 : liveBytes r.live ≤ bound := by
      rw [hl]
      exact Nat.zero_le _
    have hl2 : liveBytes [(⟨p, 1⟩ : Allocation)] ≤ bound := hb
    have hrest := ih h4 rfl (by rw [h6]; omega)
    have hround := wastes_cons hl2 hc2 hfree (h5.trans (Nat.add_zero _).symm) hrest
    rw [Nat.zero_add] at hround
    rw [Nat.add_comm]
    exact wastes_cons hl1 hc1 hmalloc h1 hround

theorem liveBytes_filter (live : List Allocation) (q : Allocation → Bool) :
    liveBytes (live.filter q) ≤ liveBytes live := by
  induction live with
  | nil => exact le_rfl
  | cons a as ih =>
    unfold liveBytes at ih ⊢
    rw [List.filter_cons]
    split_ifs
    · rw [List.map_cons, List.map_cons, List.sum_cons, List.sum_cons]
      omega
    · rw [List.map_cons, List.sum_cons]
      omega

/-- What is live at the start is given back first. -/
theorem wastes (hb : 13 ≤ bound) (h : NoHeap r) (hl : liveBytes r.live ≤ bound)
    (hn : n ≤ freeFrames r) : Wastes bound n r := by
  induction hlen : r.live.length using Nat.strong_induction_on generalizing r with
  | _ len ih =>
    cases hlive : r.live with
    | nil => exact wastes_rounds hb h hlive hn
    | cons a as =>
      obtain ⟨h1, h2, h3⟩ := kfree_noHeap h a.ptr (r.live.filter fun b => b.ptr ≠ a.ptr)
      have hshort : (r.live.filter fun b => b.ptr ≠ a.ptr).length < r.live.length := by
        rw [hlive, List.filter_cons_of_neg (by simp), List.length_cons]
        exact Nat.lt_succ_of_le (List.length_filter_le _ _)
      have hc : HeapCall r (.kfree a.ptr) := by
        refine Or.inr ⟨a, ?_, rfl⟩
        rw [hlive]
        exact List.mem_cons_self
      have hrest := ih _ (hlen ▸ hshort) h1 ((liveBytes_filter _ _).trans hl) (by rw [h3]; exact hn)
        rfl
      have := wastes_cons hl hc rfl (h2.trans (Nat.add_zero _).symm) hrest
      rwa [Nat.zero_add] at this

/-- Only free frames are taken, and none is given back. -/
structure Grew (r r' : Run) : Prop where
  max : r'.kernel.frames.pmm.maxFrames = r.kernel.frames.pmm.maxFrames
  taken : ∀ f, r'.kernel.obtained f = true → r.kernel.obtained f = true ∨
    (f < r.kernel.frames.pmm.maxFrames ∧ r.kernel.frames.pmm.memoryBitmap f = false)
  free : ∀ f, r'.kernel.frames.pmm.memoryBitmap f = false →
    r.kernel.frames.pmm.memoryBitmap f = false

theorem grew_same (hf : r'.kernel.frames = r.kernel.frames)
    (ho : r'.kernel.obtained = r.kernel.obtained) : Grew r r' :=
  ⟨by rw [hf], fun f h => Or.inl (ho ▸ h), fun f h => hf ▸ h⟩

theorem Grew.trans {r'' : Run} (h : Grew r r') (h' : Grew r' r'') : Grew r r'' := by
  refine ⟨h'.max.trans h.max, fun f hf => ?_, fun f hf => h.free f (h'.free f hf)⟩
  rcases h'.taken f hf with h1 | ⟨h1, h2⟩
  · exact h.taken f h1
  · exact Or.inr ⟨h.max ▸ h1, h.free f h2⟩

theorem takes_grew (h : NoHeap r) {pages p : ℕ} (ht : Takes r.kernel k' pages p)
    (live : List Allocation) : Grew r ⟨k', live⟩ := by
  obtain ⟨-, h1, h2, -⟩ := ht
  rcases allocBlocks_eq r.kernel.frames.pmm pages with heq | ⟨st, h3, h4, h5, heq⟩
  · refine grew_same (h1.trans ?_) (h2.trans ?_)
    · rw [PmmRuns.step, heq, if_pos rfl]
    · funext f
      rw [take_obtained, heq, if_neg (fun hh => hh.1 rfl)]
  · obtain ⟨h6, -, h8, -⟩ := markUsed_fold r.kernel.frames.pmm st h.exact.size.1 h.exact.used pages
      h4 h5 _ rfl
    have hsnd : (r.kernel.frames.pmm.allocBlocks pages).2 = (List.range pages).foldl
        (fun p i => p.markUsed (st+i)) r.kernel.frames.pmm := by rw [heq]
    rw [← hsnd] at h6 h8
    have h0 : (r.kernel.frames.pmm.allocBlocks pages).1 = st := by rw [heq]
    have hst : st ≠ 0 := by
      have := (exact_free h.exact (by omega) (h5 0 (by omega))).1
      omega
    have hpmm : k'.frames.pmm = (r.kernel.frames.pmm.allocBlocks pages).2 := by
      rw [h1, PmmRuns.step, h0, if_neg hst]
      rfl
    refine ⟨?_, fun f hf => ?_, fun f hf => ?_⟩
    · dsimp only
      rw [hpmm, h6]
    · dsimp only at hf
      rw [h2, take_obtained, h0] at hf
      split_ifs at hf with hin
      · have hbit := h5 (f-st) (by omega)
        rw [show st+(f-st) = f by omega] at hbit
        exact Or.inr ⟨by omega, hbit⟩
      · exact Or.inl hf
    · dsimp only at hf
      rw [hpmm, h8] at hf
      split_ifs at hf
      exact hf

theorem heapCall_valid {c : Call} (hc : HeapCall r c) : Valid r c := by
  cases c with
  | kmalloc size => exact lt_of_le_of_lt hc (by decide : 4096 < 2147483648)
  | kfree ptr => exact hc
  | frames op => exact hc.elim
  | store addr value => exact hc.elim

theorem step_grew (h : NoHeap r) {c : Call} (hc : HeapCall r c)
    (hs : KmallocRuns.step r c = some r') : Grew r r' := by
  cases c with
  | kmalloc size =>
    by_cases h0 : size = 0
    · rw [KmallocRuns.step, Kernel.kmalloc, if_pos h0] at hs
      cases hs
      exact grew_same rfl rfl
    · obtain ⟨p, k', heq, ht⟩ := kmalloc_takes h.start h.exact h.held h0
      rw [KmallocRuns.step, heq] at hs
      cases hs
      exact takes_grew h ht _
  | kfree ptr =>
    cases hs
    obtain ⟨-, h1, h2⟩ := kfree_rest r.kernel ptr
    exact grew_same h1 h2
  | frames op => exact hc.elim
  | store addr value => exact hc.elim

theorem run_grew (h : NoHeap r) {cs : List Call} (hm : Modest bound r cs)
    (hr : KmallocRuns.run r cs = some r') : Grew r r' := by
  induction cs generalizing r with
  | nil =>
    cases hr
    exact grew_same rfl rfl
  | cons c cs ih =>
    rw [KmallocRuns.run] at hr
    obtain ⟨r₁, hs, hr⟩ := Option.bind_eq_some_iff.mp hr
    obtain ⟨-, hc, hm⟩ := hm
    exact (step_grew h hc hs).trans (ih (step_noHeap h c (heapCall_valid hc) hs) (hm r₁ hs) hr)

theorem countSet_or_le (n : ℕ) {bits bits' more : ℕ → Bool}
    (h : ∀ f, bits' f = true → bits f = true ∨ more f = true) :
    countSet n bits' ≤ countSet n bits+countSet n more := by
  unfold countSet
  refine le_trans (Finset.card_le_card fun f hf => ?_) (Finset.card_union_le _ _)
  simp only [Finset.mem_union, Finset.mem_filter] at hf ⊢
  exact (h f hf.2).imp (fun h1 => ⟨hf.1, h1⟩) fun h1 => ⟨hf.1, h1⟩

/-- The frames that are free are those whose bit is clear. -/
theorem countSet_free (h : NoHeap r) : countSet 1048576 (fun f =>
    decide (f < r.kernel.frames.pmm.maxFrames) && !r.kernel.frames.pmm.memoryBitmap f) =
    freeFrames r := by
  rw [freeFrames_eq h]
  have hmax := h.exact.size.1
  generalize r.kernel.frames.pmm = p at *
  have hsplit := Finset.card_filter_add_card_filter_not (s := Finset.range p.maxFrames)
    fun f => p.memoryBitmap f = true
  rw [Finset.card_range] at hsplit
  have heq : (Finset.range 1048576).filter (fun f =>
      (decide (f < p.maxFrames) && !p.memoryBitmap f) = true) =
      (Finset.range p.maxFrames).filter fun f => ¬p.memoryBitmap f = true := by
    ext f
    simp only [Finset.mem_filter, Finset.mem_range, Bool.and_eq_true, decide_eq_true_eq,
      Bool.not_eq_true', Bool.not_eq_true]
    constructor
    · exact fun hh => hh.2
    · exact fun hh => ⟨by omega, hh⟩
  rw [countSet, heq, countSet]
  omega

theorem grew_framesTaken (h : NoHeap r) (hg : Grew r r') :
    framesTaken r' ≤ framesTaken r+freeFrames r := by
  rw [← countSet_free h]
  refine countSet_or_le _ fun f hf => (hg.taken f hf).imp id fun h1 => ?_
  rw [h1.2, decide_eq_true h1.1]
  rfl

theorem modest_live {cs : List Call} (h : Modest bound r cs) : liveBytes r.live ≤ bound := by
  cases cs with
  | nil => exact h
  | cons c cs => exact h.1

/-- Where no request fits, none succeeds. -/
theorem step_small (hb : bound < 13) (h : NoHeap r) {c : Call} (hc : HeapCall r c)
    (hs : KmallocRuns.step r c = some r') (hl : liveBytes r'.live ≤ bound) :
    r'.kernel.obtained = r.kernel.obtained := by
  cases c with
  | kmalloc size =>
    by_cases h0 : size = 0
    · rw [KmallocRuns.step, Kernel.kmalloc, if_pos h0] at hs
      cases hs
      rfl
    · obtain ⟨p, k', heq, ht⟩ := kmalloc_takes h.start h.exact h.held h0
      rw [KmallocRuns.step, heq] at hs
      cases hs
      dsimp only at hl ⊢
      by_cases hp : p = 0
      · rw [ht.2.2.1]
        funext f
        rw [take_obtained, if_neg (fun hh => hh.1 (ht.2.2.2.mp hp))]
      · rw [if_neg hp, liveBytes, List.map_cons, List.sum_cons] at hl
        dsimp only at hl
        omega
  | kfree ptr =>
    cases hs
    exact (kfree_rest r.kernel ptr).2.2
  | frames op => exact hc.elim
  | store addr value => exact hc.elim

theorem run_small (hb : bound < 13) (h : NoHeap r) {cs : List Call} (hm : Modest bound r cs)
    (hr : KmallocRuns.run r cs = some r') : r'.kernel.obtained = r.kernel.obtained := by
  induction cs generalizing r with
  | nil =>
    cases hr
    rfl
  | cons c cs ih =>
    rw [KmallocRuns.run] at hr
    obtain ⟨r₁, hs, hr⟩ := Option.bind_eq_some_iff.mp hr
    obtain ⟨-, hc, hm⟩ := hm
    have h1 := step_small hb h hc hs (modest_live (hm r₁ hs))
    exact (ih (step_noHeap h c (heapCall_valid hc) hs) (hm r₁ hs) hr).trans h1

/-- The frames taken in every run that keeps no more than `bound` bytes live. -/
def Bounded (bound frames : ℕ) (r : Run) : Prop := ∀ calls r', Modest bound r calls →
  KmallocRuns.run r calls = some r' → framesTaken r' ≤ framesTaken r+frames

theorem not_bounded {frames : ℕ} (h : NoHeap r) (hl : liveBytes r.live ≤ bound) (hb : 13 ≤ bound)
    (hf : frames < freeFrames r) : ¬Bounded bound frames r := by
  intro hall
  obtain ⟨calls, r', h1, h2, h3⟩ := wastes hb h hl (show frames+1 ≤ freeFrames r from hf)
  have := hall calls r' h1 h2
  omega

/-- A number bounds the frames of all runs only if no request fits or if it is the
number of all frames that are left. -/
theorem frames_bounded_iff (h : AfterMain r) (hl : liveBytes r.live ≤ bound) (frames : ℕ) :
    Bounded bound frames r ↔ bound < 13 ∨ freeFrames r ≤ frames := by
  have hn := afterMain_noHeap h
  constructor
  · intro hall
    by_contra hno
    rw [not_or] at hno
    exact not_bounded hn hl (by omega) (by omega) hall
  · rintro (hb | hf) calls r' hm hr
    · rw [framesTaken, run_small hb hn hm hr]
      exact Nat.le_add_right _ _
    · have := grew_framesTaken hn (run_grew hn hm hr)
      omega

theorem kernelMain_maxFrames (mem : Memory) (p₀ : Pmm) :
    (kernelMain mem p₀).kernel.frames.pmm.maxFrames = 8192 := by
  have hfold : ∀ (n : ℕ) (p : Pmm), ((List.range n).foldl (fun p i =>
      { p.clearFrame (0x100000/4096+i) with usedFrames := sub32 p.usedFrames 1 }) p).maxFrames =
      p.maxFrames := by
    intro n p
    induction n with
    | zero => rfl
    | succ n ih =>
      rw [List.range_succ, List.foldl_append]
      exact ih
  exact hfold _ _

/-- The whole region from one megabyte on. -/
theorem kernelMain_free (mem : Memory) (p₀ : Pmm) : freeFrames (kernelMain mem p₀) = 7936 := by
  have h := kernelMain_noHeap mem p₀
  have hmax := kernelMain_maxFrames mem p₀
  have hrefs : ∀ f, (kernelMain mem p₀).kernel.frames.refs f = 0 := fun _ => rfl
  have h1 := h.exact.inside
  have h2 := h.exact.outside
  rw [freeFrames_eq h]
  generalize (kernelMain mem p₀).kernel.frames = t at *
  rw [hmax] at h2 ⊢
  have hset : (Finset.range 8192).filter (fun f => t.pmm.memoryBitmap f = true) =
      Finset.range 256 := by
    ext f
    simp only [Finset.mem_filter, Finset.mem_range]
    constructor
    · intro hf
      by_contra hlt
      have := (h1 f (by omega) (by omega)).mp hf.2
      rw [hrefs] at this
      omega
    · intro hf
      exact ⟨by omega, h2 f (by omega) (by omega)⟩
  rw [countSet, hset, Finset.card_range]

theorem afterMain_start : AfterMain (kernelMain (fun _ => 0) zeroed) :=
  ⟨_, _, [], trivial, rfl⟩

theorem frames_bounded_iff_start :
    Bounded 13 7936 (kernelMain (fun _ => 0) zeroed) ↔
      13 < 13 ∨ freeFrames (kernelMain (fun _ => 0) zeroed) ≤ 7936 :=
  frames_bounded_iff afterMain_start (by decide) 7936

/-- One byte is allocated and given back until no frame is left. -/
theorem kmalloc_never_reuses : freeFrames (kernelMain (fun _ => 0) zeroed) = 7936 ∧
    ¬∃ frames < 7936, Bounded 13 frames (kernelMain (fun _ => 0) zeroed) := by
  have hfree := kernelMain_free (fun _ => 0) zeroed
  refine ⟨hfree, ?_⟩
  rintro ⟨frames, hlt, hb⟩
  exact not_bounded (kernelMain_noHeap _ _) (by decide) le_rfl (by rw [hfree]; exact hlt) hb

end Vlsmc.KmallocReuse
