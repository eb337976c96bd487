import Vlsmc.KmallocLayout

/-!
# The kernel heap over every sequence of calls

Calls of `kmalloc` and `kfree`, interleaved with other users of the frame
manager and with writes to memory that belongs to the writer.
-/

set_option autoImplicit false

namespace Vlsmc.KmallocRuns
open Vlsmc.Words Vlsmc.ByteMemory Vlsmc.BlockList Vlsmc.PhysicalMemory Vlsmc.PmmRuns
open Vlsmc.Kmalloc Vlsmc.KmallocLayout

/-- The heap of the kernel; the frames it took stay with it. -/
structure Heaps (first count : ℕ) (k : Kernel) (chains : List (List Block)) : Prop where
  lists : Chains k.mem k.obtained chains
  start : k.heapStart = 0 ∨ ∃ c, chains = [c] ∧ c ≠ [] ∧ k.heapStart = firstAddr c 0
  exact : Exact first count k.frames
  held : ∀ f, k.obtained f = true → 1 ≤ k.frames.refs f

variable {first count : ℕ} {k k' : Kernel} {chains chains' : List (List Block)}
variable {b : Block} {size : ℕ}

theorem totalSize_spec (h0 : 0 < size) (hlt : size+19 < 4294967296) :
    12 < Kernel.totalSize size ∧ Kernel.totalSize size < 4294967296 ∧
    size+12 ≤ Kernel.totalSize size := by
  unfold Kernel.totalSize
  dsimp only
  rw [u32_of_lt (by omega : size+12 < 4294967296)]
  split_ifs
  · rw [u32_of_lt (by omega)]
    omega
  · omega

theorem pagesNeeded_spec {total : ℕ} (h0 : 12 < total) (hlt : total < 4294967296) :
    1 ≤ Kernel.pagesNeeded total ∧ Kernel.pagesNeeded total ≤ 1048576 ∧
    total ≤ Kernel.pagesNeeded total*4096 := by
  unfold Kernel.pagesNeeded
  split_ifs
  · rw [u32_of_lt (by omega)]
    omega
  · omega

theorem take_obtained (k : Kernel) (op : Op) (st n f : ℕ) :
    (k.take op st n).obtained f = if st ≠ 0 ∧ st ≤ f ∧ f < st+n then true else k.obtained f := rfl

/-- What the frame manager hands out for the heap was not the heap's. -/
theorem take_blocks (hexact : Exact first count k.frames)
    (hheld : ∀ f, k.obtained f = true → 1 ≤ k.frames.refs f) {pages : ℕ}
    (h0 : (k.frames.pmm.allocBlocks pages).1 ≠ 0) :
    1 ≤ pages ∧ (k.frames.pmm.allocBlocks pages).1+pages < 1048576 ∧
    (∀ f, (k.frames.pmm.allocBlocks pages).1 ≤ f →
      f < (k.frames.pmm.allocBlocks pages).1+pages → k.obtained f = false) := by
  rcases allocBlocks_eq k.frames.pmm pages with heq | ⟨st, h1, h2, h3, heq⟩
  · rw [heq] at h0
    exact absurd rfl h0
  · have h4 := hexact.size.1
    rw [heq]
    refine ⟨h1, by dsimp only; omega, fun f h5 h6 => ?_⟩
    dsimp only at h5 h6
    have hbit := h3 (f-st) (by omega)
    rw [show st+(f-st) = f by omega] at hbit
    have hzero := (exact_free hexact (by omega) hbit).2.2
    by_contra hob
    have := hheld f (by simpa using hob)
    omega

theorem take_held (hheld : ∀ f, k.obtained f = true → 1 ≤ k.frames.refs f) (pages : ℕ) :
    ∀ f, (k.take (.allocBlocks pages) (k.frames.pmm.allocBlocks pages).1 pages).obtained f = true →
      1 ≤ (k.take (.allocBlocks pages) (k.frames.pmm.allocBlocks pages).1 pages).frames.refs f := by
  intro f hf
  unfold Kernel.take at hf ⊢
  dsimp only at hf ⊢
  rw [PmmRuns.step]
  by_cases h0 : (k.frames.pmm.allocBlocks pages).1 = 0
  · rw [if_neg (fun hh => hh.1 h0)] at hf
    rw [if_pos h0]
    exact hheld f hf
  · rw [if_neg h0]
    by_cases hin : (k.frames.pmm.allocBlocks pages).1 ≤ f ∧
        f < (k.frames.pmm.allocBlocks pages).1+pages
    · unfold handOut
      dsimp only
      rw [if_pos hin]
    · rw [if_neg (fun hh => hin hh.2)] at hf
      exact handOut_refs (hheld f hf)

/-- The heap gave out the block `b`. -/
structure Handed (first count : ℕ) (k' : Kernel) (chains chains' : List (List Block)) (b : Block)
    (size : ℕ) : Prop where
  heaps : Heaps first count k' chains'
  used : b.free = false
  enough : size+12 ≤ b.size
  mem : ∀ d : Block, d.free = false → (d ∈ chains'.flatten ↔ d = b ∨ d ∈ chains.flatten)
  new : ∀ d ∈ chains.flatten, d.free = false → d.addr ≠ b.addr

theorem addr_ne {c d : Block} (hs : ∀ b ∈ chains.flatten, Sized b)
    (ha : chains.flatten.Pairwise Apart) (hc : c ∈ chains.flatten) (hd : d ∈ chains.flatten)
    (hne : c ≠ d) : c.addr ≠ d.addr := by
  intro he
  have h1 := (hs c hc).header
  have h2 := (hs d hd).header
  have hap := ha.forall hc hd hne
  exact hap c.addr ⟨⟨le_rfl, by omega⟩, ⟨by omega, by omega⟩⟩

/-- A block of the list is handed out, cut if it is large enough. -/
theorem handed_found {c xs ys : List Block} {total : ℕ} (h : Heaps first count k [c])
    (hc : k.heapStart = firstAddr c 0) (hsplit : c = xs++b::ys) (hb : b.free = true)
    (ht : 12 < total) (hlt : total < 4294967200) (hfit : total ≤ b.size)
    (hsize : size+12 ≤ total) :
    Handed first count ((k.setIsFree b.addr false).splitBlock b.addr total) [c]
      [xs++(cut { b with free := false } total 44++ys)]
      ⟨b.addr, if total+44 < b.size then total else b.size, false⟩ size := by
  subst hsplit
  have h0 : Chains k.mem k.obtained ([]++(xs++(b::ys))::[]) := h.lists
  have h1 : Chains (k.setIsFree b.addr false).mem k.obtained
      ([]++(xs++({ b with free := false }::ys))::[]) := chains_setIsFree h0 false
  have hrest : (k.setIsFree b.addr false).heapStart = k.heapStart ∧
    (k.setIsFree b.addr false).frames = k.frames ∧
    (k.setIsFree b.addr false).obtained = k.obtained := ⟨rfl, rfl, rfl⟩
  generalize k.setIsFree b.addr false = g at *
  obtain ⟨h2, -⟩ := chains_splitBlock h1 rfl ht hlt
  obtain ⟨h3, h4, h5⟩ := splitBlock_rest g b.addr total
  dsimp only at h2
  have hcut : cut { b with free := false } total 44 = cut b total 44 := rfl
  have hflat : ∀ l : List Block, [l].flatten = l := fun l => by simp
  rw [hcut] at h2 ⊢
  refine ⟨⟨?_, Or.inr ⟨_, rfl, ?_, ?_⟩, ?_, ?_⟩, rfl, ?_, fun d hd => ?_, fun d hd hf => ?_⟩
  · rw [h5, hrest.2.2]
    exact h2
  · unfold cut
    split_ifs <;> simp
  · rw [h3, hrest.1, hc, firstAddr_append, firstAddr_append]
    unfold cut
    split_ifs <;> rfl
  · rw [h4, hrest.2.1]
    exact h.exact
  · rw [h4, h5, hrest.2.1, hrest.2.2]
    exact h.held
  · dsimp only
    split_ifs <;> omega
  · rw [hflat, hflat]
    exact mem_append_cut hb hd
  · have hne : d ≠ b := by
      rintro rfl
      exact absurd hb (by simp [hf])
    have hb' : b ∈ [xs++b::ys].flatten := by simp
    have := addr_ne h.lists.sized h.lists.apart hd hb' hne
    exact this

/-- The header of a new area. -/
def writeArea (k : Kernel) (area size : ℕ) (free : Bool) : Kernel :=
  ((k.setSize area size).setIsFree area free).setNext area 0

theorem writeArea_mem (k : Kernel) (area size : ℕ) (free : Bool) {x : ℕ}
    (hx : x < area ∨ area+12 ≤ x) : (writeArea k area size free).mem x = k.mem x := by
  unfold writeArea Kernel.setNext Kernel.setIsFree Kernel.setSize
  dsimp only
  rw [write32_ne _ _ (by omega), write8_ne _ _ (by omega), write32_ne _ _ (by omega)]

/-- The frames of a new area form a list of their own. -/
theorem chains_area (h : Heaps first count k chains) {pages : ℕ}
    (h0 : (k.frames.pmm.allocBlocks pages).1 ≠ 0) :
    Chains (writeArea (k.take (.allocBlocks pages) (k.frames.pmm.allocBlocks pages).1 pages)
        ((k.frames.pmm.allocBlocks pages).1*4096) (pages*4096) false).mem
      (k.take (.allocBlocks pages) (k.frames.pmm.allocBlocks pages).1 pages).obtained
      (chains++[[⟨(k.frames.pmm.allocBlocks pages).1*4096, pages*4096, false⟩]]) := by
  obtain ⟨h1, h2, h3⟩ := take_blocks h.exact h.held h0
  generalize (k.frames.pmm.allocBlocks pages).1 = st at *
  have hcover : ∀ x, Covers ⟨st*4096, pages*4096, false⟩ x ↔ st ≤ x/4096 ∧ x/4096 < st+pages := by
    intro x
    unfold Covers
    dsimp only
    omega
  refine chains_new h.lists ⟨by dsimp only; omega, by dsimp only; omega, by dsimp only; omega⟩
    ?_ (fun x hx => ?_) (fun x hx => ?_) (fun x hx => ?_) (fun f hf => ?_)
  · exact blockAt_new k.mem ⟨st*4096, pages*4096, false⟩ (by dsimp only; omega) (by omega)
  · apply writeArea_mem
    unfold Covers at hx
    dsimp only at hx
    omega
  · obtain ⟨h4, h5⟩ := (hcover x).mp hx
    exact h3 _ h4 h5
  · obtain ⟨h4, h5⟩ := (hcover x).mp hx
    rw [take_obtained, if_pos ⟨h0, h4, h5⟩]
  · rw [take_obtained]
    split_ifs
    · rfl
    · exact hf

/-- `kmalloc` behind the search, when nothing was found. -/
theorem handed_area (h : Heaps first count k chains) {pages total last : ℕ}
    (hlast : (last = 0 ∧ k.heapStart = 0) ∨
      ∃ c, chains = [c] ∧ c ≠ [] ∧ k.heapStart = firstAddr c 0 ∧ last = lastAddr 0 c)
    (h0 : (k.frames.pmm.allocBlocks pages).1 ≠ 0) (hp : total ≤ pages*4096)
    (ht : 12 < total) (hlt : total < 4294967200) (hsize : size+12 ≤ total) :
    ∃ chains' b, b.addr = (k.frames.pmm.allocBlocks pages).1*4096 ∧
      Handed first count ((if last ≠ 0 then (writeArea (k.take (.allocBlocks pages)
        (k.frames.pmm.allocBlocks pages).1 pages) ((k.frames.pmm.allocBlocks pages).1*4096)
        (pages*4096) false).setNext last ((k.frames.pmm.allocBlocks pages).1*4096)
        else writeArea (k.take (.allocBlocks pages) (k.frames.pmm.allocBlocks pages).1 pages)
          ((k.frames.pmm.allocBlocks pages).1*4096) (pages*4096) false).splitBlock
        ((k.frames.pmm.allocBlocks pages).1*4096) total) chains chains' b size := by
  obtain ⟨h1, h2, h3⟩ := take_blocks h.exact h.held h0
  have hheld := take_held h.held pages
  have harea := chains_area h h0
  have hexact : Exact first count (k.take (.allocBlocks pages)
      (k.frames.pmm.allocBlocks pages).1 pages).frames :=
    step_exact h.exact (.allocBlocks pages) (show pages < 4294967296 by omega)
  have hstart : (writeArea (k.take (.allocBlocks pages) (k.frames.pmm.allocBlocks pages).1 pages)
    ((k.frames.pmm.allocBlocks pages).1*4096) (pages*4096) false).heapStart = k.heapStart := rfl
  have hframes : (writeArea (k.take (.allocBlocks pages) (k.frames.pmm.allocBlocks pages).1 pages)
    ((k.frames.pmm.allocBlocks pages).1*4096) (pages*4096) false).frames = (k.take (.allocBlocks pages)
      (k.frames.pmm.allocBlocks pages).1 pages).frames := rfl
  have hobt : (writeArea (k.take (.allocBlocks pages) (k.frames.pmm.allocBlocks pages).1 pages)
    ((k.frames.pmm.allocBlocks pages).1*4096) (pages*4096) false).obtained = (k.take (.allocBlocks pages)
      (k.frames.pmm.allocBlocks pages).1 pages).obtained := rfl
  generalize writeArea (k.take (.allocBlocks pages) (k.frames.pmm.allocBlocks pages).1 pages)
    ((k.frames.pmm.allocBlocks pages).1*4096) (pages*4096) false = g at *
  rw [← hframes, ← hobt] at hheld
  rw [← hframes] at hexact
  rw [← hobt] at harea
  generalize (k.frames.pmm.allocBlocks pages).1 = st at *
  -- the area is linked to the list, if there is one
  obtain ⟨pre, xs, g', hg', hflat, hlist, hmem', hrest⟩ : ∃ pre xs g', (if last ≠ 0 then
      g.setNext last (st*4096) else g) = g' ∧ pre.flatten++xs = chains.flatten ∧
      Chains g'.mem g.obtained (pre++(xs++[⟨st*4096, pages*4096, false⟩])::[]) ∧
      (k.heapStart = 0 ∨ (pre = [] ∧ xs ≠ [] ∧ k.heapStart = firstAddr xs 0)) ∧
      g'.heapStart = g.heapStart ∧ g'.frames = g.frames ∧ g'.obtained = g.obtained := by
    rcases hlast with ⟨hl0, hstart0⟩ | ⟨c, rfl, hne, hc, hl⟩
    · refine ⟨chains, [], g, if_neg (fun hh => hh hl0), by simp, harea, Or.inl hstart0, rfl, rfl,
        rfl⟩
    · rcases List.eq_nil_or_concat' c with rfl | ⟨xs, a, rfl⟩
      · exact absurd rfl hne
      · have hla : last = a.addr := hl.trans (by rw [lastAddr_append]; rfl)
        have ha := (h.lists.sized a (by simp)).addr
        rw [hla, if_pos (by omega)]
        exact ⟨[], xs++[a], _, rfl, by simp, chains_link harea, Or.inr ⟨rfl, by simp, hc⟩, rfl, rfl,
          rfl⟩
  rw [hg']
  obtain ⟨hsplit, -⟩ := chains_splitBlock hlist rfl ht hlt
  obtain ⟨h4, h5, h6⟩ := splitBlock_rest g' (st*4096) total
  refine ⟨pre++(xs++(cut ⟨st*4096, pages*4096, false⟩ total 44++[]))::[],
    ⟨st*4096, if total+44 < pages*4096 then total else pages*4096, false⟩, rfl,
    ⟨?_, ?_, ?_, ?_⟩, rfl, ?_, fun d hd => ?_, fun d hd _ he => ?_⟩
  · rw [h6, hrest.2.2]
    exact hsplit
  · rw [h4, hrest.1, hstart]
    rcases hmem' with h7 | ⟨rfl, h7, h8⟩
    · exact Or.inl h7
    · refine Or.inr ⟨_, rfl, by simp [h7], ?_⟩
      rw [h8]
      cases xs with
      | nil => exact absurd rfl h7
      | cons a xs => rfl
  · rw [h5, hrest.2.1]
    exact hexact
  · rw [h5, h6, hrest.2.1, hrest.2.2]
    exact hheld
  · dsimp only
    split_ifs <;> omega
  · rw [List.flatten_append, List.flatten_singleton, List.append_nil, ← List.append_assoc, hflat,
      List.mem_append, mem_cut hd, or_comm]
  · have hsd := (h.lists.sized d hd).header
    have hob := h.lists.inside d hd d.addr ⟨le_rfl, by omega⟩
    dsimp only at he
    rw [h3 (d.addr/4096) (by omega) (by omega)] at hob
    exact absurd hob (by simp)

/-- The frame manager had nothing to give. -/
theorem heaps_refused (h : Heaps first count k chains) {pages : ℕ} (hp : pages ≤ 1048576)
    (h0 : (k.frames.pmm.allocBlocks pages).1 = 0) :
    Heaps first count (k.take (.allocBlocks pages) (k.frames.pmm.allocBlocks pages).1 pages)
      chains := by
  have hob : (k.take (.allocBlocks pages) (k.frames.pmm.allocBlocks pages).1 pages).obtained =
      k.obtained := by
    funext f
    rw [take_obtained, if_neg (fun hh => hh.1 h0)]
  refine ⟨?_, h.start, ?_, take_held h.held _⟩
  · rw [hob]
    exact h.lists
  · exact step_exact h.exact (.allocBlocks pages) (show pages < 4294967296 by omega)

theorem search_nil (k : Kernel) (total : ℕ) :
    k.search total 4294967296 0 0 = some (0, 0) := by
  have hl : Linked (BlockAt k.mem) 0 [] 0 := trivial
  obtain ⟨⟨last, current⟩, hr, hcases⟩ := search_spec hl (by simp) total 0
    (by decide : ([] : List Block).length < 4294967296)
  rcases hcases with ⟨h1, h2⟩ | ⟨ys, b, zs, h1, -⟩
  · dsimp only at h1 h2
    rw [h1, h2] at hr
    exact hr
  · exact absurd h1 (by simp)

/-- The search of `kmalloc` finds a block of the list, or its end. -/
theorem search_cases (h : Heaps first count k chains) (total : ℕ) :
    ∃ last current, k.search total 4294967296 0 k.heapStart = some (last, current) ∧
      ((current = 0 ∧ ((last = 0 ∧ k.heapStart = 0) ∨
        ∃ c, chains = [c] ∧ c ≠ [] ∧ k.heapStart = firstAddr c 0 ∧ last = lastAddr 0 c)) ∨
      ∃ c xs ys, ∃ b : Block, chains = [c] ∧ k.heapStart = firstAddr c 0 ∧ c = xs++b::ys ∧
        b.free = true ∧ total ≤ b.size ∧ current = b.addr ∧ current ≠ 0) := by
  rcases h.start with h0 | ⟨c, hc, hne, hstart⟩
  · rw [h0]
    exact ⟨0, 0, search_nil k total, Or.inl ⟨rfl, Or.inl ⟨rfl, rfl⟩⟩⟩
  · subst hc
    have hflat : [c].flatten = c := by simp
    have hsized : ∀ b ∈ c, Sized b := fun b hb => h.lists.sized b (by rwa [hflat])
    have hlen : c.length < 4294967296 := length_lt (by rw [← hflat]; exact h.lists.apart) hsized
    obtain ⟨⟨last, current⟩, hr, hcases⟩ := search_spec (h.lists.linked c (by simp)) hsized total 0
      hlen
    rw [hstart]
    refine ⟨last, current, hr, ?_⟩
    rcases hcases with ⟨h1, h2⟩ | ⟨ys, b, zs, rfl, h2, h3, h4⟩
    · exact Or.inl ⟨h1, Or.inr ⟨c, rfl, hne, rfl, h2⟩⟩
    · have h5 := (hsized b (by simp)).addr
      exact Or.inr ⟨_, ys, zs, b, rfl, rfl, rfl, h2, h3, h4, by dsimp only at h4; omega⟩

/-- Every block ends below the last frame of the address space. -/
theorem block_end (h : Heaps first count k chains) (hb : b ∈ chains.flatten) :
    b.addr+b.size ≤ 1048575*4096 := by
  have hheader := (h.lists.sized b hb).header
  have hlast := h.lists.inside b hb (b.addr+b.size-1) ⟨by omega, by omega⟩
  have hused := (exact_used h.exact (h.held _ hlast)).1
  have hmax := h.exact.size.1
  omega

theorem kmalloc_spec (h : Heaps first count k chains) (hlt : size+19 < 4294967296) :
    ∃ p k', k.kmalloc size = some (p, k') ∧ ((p = 0 ∧ Heaps first count k' chains) ∨
      ∃ chains', ∃ b : Block, p = b.addr+12 ∧ Handed first count k' chains chains' b size) := by
  by_cases h0 : size = 0
  · exact ⟨0, k, if_pos h0, Or.inl ⟨rfl, h⟩⟩
  obtain ⟨h1, h2, h3⟩ := totalSize_spec (Nat.pos_of_ne_zero h0) hlt
  obtain ⟨h4, h5, h6⟩ := pagesNeeded_spec h1 h2
  obtain ⟨last, current, hsearch, hcases⟩ := search_cases h (Kernel.totalSize size)
  unfold Kernel.kmalloc
  rw [if_neg h0]
  dsimp only
  rw [hsearch]
  dsimp only
  generalize Kernel.totalSize size = total at *
  rcases hcases with ⟨rfl, hlast⟩ | ⟨c, xs, ys, b, rfl, hc, hsplit, hb, hfit, rfl, hne⟩
  · rw [if_neg (fun hh => hh rfl)]
    by_cases hgot : (k.frames.pmm.allocBlocks (Kernel.pagesNeeded total)).1 = 0
    · rw [if_pos hgot]
      exact ⟨0, _, rfl, Or.inl ⟨rfl, heaps_refused h h5 hgot⟩⟩
    · rw [if_neg hgot]
      obtain ⟨-, h8, -⟩ := take_blocks h.exact h.held hgot
      have hsmall : total < 4294967200 := by omega
      obtain ⟨chains', b, haddr, hh⟩ := handed_area h hlast hgot h6 h1 hsmall h3
      generalize Kernel.pagesNeeded total = pages at *
      have hu1 : u32 ((k.frames.pmm.allocBlocks pages).1*4096) =
        (k.frames.pmm.allocBlocks pages).1*4096 := u32_of_lt (by omega)
      have hu2 : u32 (pages*4096) = pages*4096 := u32_of_lt (by omega)
      rw [hu1, hu2, u32_of_lt (by omega)]
      exact ⟨_, _, rfl, Or.inr ⟨chains', b, by rw [haddr], hh⟩⟩
  · rw [if_pos hne]
    have hsb := h.lists.sized b (by simp [hsplit])
    have h7 := hsb.header
    have h8 := block_end h (by simp [hsplit] : b ∈ [c].flatten)
    rw [u32_of_lt (by omega)]
    exact ⟨_, _, rfl, Or.inr ⟨_, ⟨b.addr, _, false⟩, rfl,
      handed_found h hc hsplit hb h1 (by omega) hfit h3⟩⟩

structure Allocation where
  ptr : ℕ
  size : ℕ
  deriving DecidableEq, Repr

structure Run where
  kernel : Kernel
  live : List Allocation

inductive Call where
  | kmalloc (size : ℕ)
  | kfree (ptr : ℕ)
  /-- Other code uses the frame manager. -/
  | frames (op : Op)
  /-- Somebody writes a byte. -/
  | store (addr : ℕ) (value : UInt8)

def step (r : Run) : Call → Option Run
  | .kmalloc size =>
    (r.kernel.kmalloc size).map fun x => ⟨x.2, if x.1 = 0 then r.live else ⟨x.1, size⟩::r.live⟩
  | .kfree ptr => some ⟨r.kernel.kfree ptr, r.live.filter fun a => a.ptr ≠ ptr⟩
  | .frames op => some ⟨{ r.kernel with frames := PmmRuns.step r.kernel.frames op }, r.live⟩
  | .store addr value =>
    some ⟨{ r.kernel with mem := write8 r.kernel.mem addr value }, r.live⟩

/-- The frame of which an operation drops a reference. -/
def dropped : Op → Option ℕ
  | .freeFrame f | .decRef f => some f
  | _ => none

/-- Requests are below 2^31 bytes, pointers are live, and other code drops
references and writes to bytes that are its own. -/
def Valid (r : Run) : Call → Prop
  | .kmalloc size => size < 2147483648
  | .kfree ptr => ptr = 0 ∨ ∃ a ∈ r.live, a.ptr = ptr
  | .frames op => Admissible r.kernel.frames op ∧ ∀ f ∈ dropped op, r.kernel.obtained f = false
  | .store addr _ => r.kernel.obtained (addr/4096) = false ∨
    ∃ a ∈ r.live, a.ptr ≤ addr ∧ addr < a.ptr+a.size

/-- If the next block of the list is free, it lies behind the block that is freed. -/
def Adjoining (r : Run) : Call → Prop
  | .kfree ptr => ptr ≠ 0 → r.kernel.next (ptr-12) ≠ 0 →
    r.kernel.isFree (r.kernel.next (ptr-12)) = true →
    r.kernel.next (ptr-12) = ptr-12+r.kernel.size (ptr-12)
  | _ => True

def run (r : Run) : List Call → Option Run
  | [] => some r
  | c::cs => (step r c).bind fun r' => run r' cs

def ValidRun (r : Run) : List Call → Prop
  | [] => True
  | c::cs => Valid r c ∧ ∀ r' ∈ step r c, ValidRun r' cs

def AdjoiningRun (r : Run) : List Call → Prop
  | [] => True
  | c::cs => Adjoining r c ∧ ∀ r' ∈ step r c, AdjoiningRun r' cs

/-- The live allocations are blocks in use. -/
structure Good (first count : ℕ) (r : Run) (chains : List (List Block)) : Prop where
  heaps : Heaps first count r.kernel chains
  owned : ∀ a ∈ r.live, ∃ b ∈ chains.flatten, b.free = false ∧ a.ptr = b.addr+12 ∧
    a.size+12 ≤ b.size
  nodup : (r.live.map Allocation.ptr).Nodup

variable {r : Run}

theorem good_kmalloc (hg : Good first count r chains) (hlt : size < 2147483648) :
    ∃ r' chains', step r (.kmalloc size) = some r' ∧ Good first count r' chains' := by
  obtain ⟨p, k', heq, hcases⟩ := kmalloc_spec hg.heaps (show size+19 < 4294967296 by omega)
  simp only [step, heq, Option.map_some]
  rcases hcases with ⟨rfl, hh⟩ | ⟨chains', b, rfl, hh⟩
  · exact ⟨_, chains, rfl, hh, hg.owned, hg.nodup⟩
  · rw [if_neg (by omega)]
    refine ⟨_, chains', rfl, hh.heaps, fun a ha => ?_, ?_⟩
    · rcases List.mem_cons.mp ha with rfl | ha
      · exact ⟨b, (hh.mem b hh.used).mpr (Or.inl rfl), hh.used, rfl, hh.enough⟩
      · obtain ⟨d, hd, h1, h2⟩ := hg.owned a ha
        exact ⟨d, (hh.mem d h1).mpr (Or.inr hd), h1, h2⟩
    · rw [List.map_cons, List.nodup_cons]
      refine ⟨fun hmem => ?_, hg.nodup⟩
      obtain ⟨a, ha, h1⟩ := List.mem_map.mp hmem
      obtain ⟨d, hd, h2, h3, -⟩ := hg.owned a ha
      dsimp only at h1
      exact hh.new d hd h2 (by omega)

theorem good_kfree (hg : Good first count r chains) {ptr : ℕ}
    (hv : ptr = 0 ∨ ∃ a ∈ r.live, a.ptr = ptr) (hadj : Adjoining r (.kfree ptr)) :
    ∃ r' chains', step r (.kfree ptr) = some r' ∧ Good first count r' chains' := by
  have hnodup : ((r.live.filter fun a => a.ptr ≠ ptr).map Allocation.ptr).Nodup :=
    hg.nodup.sublist (List.filter_sublist.map _)
  rcases hv with rfl | ⟨a, ha, rfl⟩
  · exact ⟨_, chains, rfl, hg.heaps, fun a ha => hg.owned a (List.mem_filter.mp ha).1, hnodup⟩
  · obtain ⟨b, hb, hf, hptr, -⟩ := hg.owned a ha
    obtain ⟨c, hc, hbc⟩ := List.mem_flatten.mp hb
    obtain ⟨xs, ys, rfl⟩ := List.append_of_mem hbc
    obtain ⟨pre, post, rfl⟩ := List.append_of_mem hc
    obtain ⟨hblock, hsb⟩ := chains_block hg.heaps.lists
    have hnext : r.kernel.next b.addr = firstAddr ys 0 := hblock.next
    have hsize : r.kernel.size b.addr = b.size := hblock.size
    have hadj' : ∀ c zs, ys = c::zs → c.free = true → c.addr = b.addr+b.size := by
      rintro c zs rfl hfree
      have hl : Chains r.kernel.mem r.kernel.obtained (pre++((xs++[b])++(c::zs))::post) := by
        rw [List.append_assoc xs]
        exact hg.heaps.lists
      obtain ⟨hcb, hsc⟩ := chains_block hl
      have h1 := hsc.addr
      have h2 : r.kernel.isFree c.addr = true := hcb.free.trans hfree
      rw [hptr] at hadj
      have h3 : b.addr+12 ≠ 0 → r.kernel.next (b.addr+12-12) ≠ 0 →
        r.kernel.isFree (r.kernel.next (b.addr+12-12)) = true →
        r.kernel.next (b.addr+12-12) = b.addr+12-12+r.kernel.size (b.addr+12-12) := hadj
      rw [Nat.add_sub_cancel, hnext, hsize, firstAddr] at h3
      exact h3 (by omega) (by omega) h2
    obtain ⟨h1, -, h3, h4, h5⟩ := kfree_spec hg.heaps.lists hadj'
    rw [hptr] at hnodup ⊢
    refine ⟨_, pre++(xs++((joinNext { b with free := true } ys).1::
      (joinNext { b with free := true } ys).2))::post, rfl, ⟨?_, ?_, ?_, ?_⟩, fun e he => ?_, hnodup⟩
    · dsimp only
      rw [h5]
      exact h1
    · dsimp only
      rw [h3]
      rcases hg.heaps.start with h6 | ⟨c, hc, -, h6⟩
      · exact Or.inl h6
      · obtain ⟨rfl, rfl, rfl⟩ : pre = [] ∧ post = [] ∧ c = xs++b::ys := by
          cases pre with
          | nil =>
            rw [List.nil_append, List.cons.injEq] at hc
            exact ⟨rfl, hc.2, hc.1.symm⟩
          | cons p ps => simp at hc
        refine Or.inr ⟨_, rfl, by simp, ?_⟩
        rw [h6, firstAddr_append, firstAddr_append, firstAddr, firstAddr, joinNext_addr]
    · dsimp only
      rw [h4]
      exact hg.heaps.exact
    · dsimp only
      rw [h4, h5]
      exact hg.heaps.held
    · obtain ⟨he1, he2⟩ := List.mem_filter.mp he
      rw [decide_eq_true_eq] at he2
      obtain ⟨d, hd, hdf, hdp, hds⟩ := hg.owned e he1
      have hne : d ≠ b := by
        rintro rfl
        exact he2 hdp
      refine ⟨d, ?_, hdf, hdp, hds⟩
      have hj : d ∈ (joinNext { b with free := true } ys).1::
          (joinNext { b with free := true } ys).2 ↔ d ∈ ys := mem_joinNext rfl hdf
      rw [List.flatten_append, List.flatten_cons, List.mem_append, List.mem_append,
        List.mem_append] at hd ⊢
      rw [hj]
      rwa [List.mem_cons, or_iff_right hne] at hd

/-- Other code's use of the frame manager leaves the heap's frames alone. -/
theorem refs_kept {t : Tracked} {op : Op} {f : ℕ} (h : 1 ≤ t.refs f) (hd : f ∉ dropped op) :
    1 ≤ (PmmRuns.step t op).refs f := by
  cases op with
  | allocFrame =>
    rw [PmmRuns.step]
    split_ifs
    · exact h
    · exact handOut_refs h
  | allocBlocks n =>
    rw [PmmRuns.step]
    split_ifs
    · exact h
    · exact handOut_refs h
  | incRef g =>
    simp only [PmmRuns.step, setRefs]
    split_ifs <;> omega
  | freeFrame g =>
    have hne : f ≠ g := fun he => hd (by rw [he]; rfl)
    simp only [PmmRuns.step, setRefs, if_neg hne]
    exact h
  | decRef g =>
    have hne : f ≠ g := fun he => hd (by rw [he]; rfl)
    simp only [PmmRuns.step, setRefs, if_neg hne]
    exact h

theorem good_frames (hg : Good first count r chains) {op : Op}
    (hv : Admissible r.kernel.frames op ∧ ∀ f ∈ dropped op, r.kernel.obtained f = false) :
    ∃ r' chains', step r (.frames op) = some r' ∧ Good first count r' chains' := by
  refine ⟨_, chains, rfl, ⟨hg.heaps.lists, hg.heaps.start, step_exact hg.heaps.exact op hv.1,
    fun f hf => refs_kept (hg.heaps.held f hf) fun hd => ?_⟩, hg.owned, hg.nodup⟩
  have h1 := hv.2 f hd
  dsimp only at hf
  rw [hf] at h1
  exact absurd h1 (by simp)

theorem good_store (hg : Good first count r chains) {addr : ℕ} (value : UInt8)
    (hv : r.kernel.obtained (addr/4096) = false ∨
      ∃ a ∈ r.live, a.ptr ≤ addr ∧ addr < a.ptr+a.size) :
    ∃ r' chains', step r (.store addr value) = some r' ∧ Good first count r' chains' := by
  -- no header holds the byte that is written
  have hout : ∀ d ∈ chains.flatten, addr < d.addr ∨ d.addr+12 ≤ addr := by
    intro d hd
    by_contra hin
    have hsd := (hg.heaps.lists.sized d hd).header
    have hcov : Covers d addr := ⟨by omega, by omega⟩
    rcases hv with hv | ⟨a, ha, h1, h2⟩
    · have := hg.heaps.lists.inside d hd addr hcov
      rw [hv] at this
      exact absurd this (by simp)
    · obtain ⟨b, hb, -, h3, h4⟩ := hg.owned a ha
      have hne : b ≠ d := by
        rintro rfl
        omega
      exact hg.heaps.lists.apart.forall hb hd hne addr ⟨⟨by omega, by omega⟩, hcov⟩
  refine ⟨_, chains, rfl, ⟨⟨fun c hc => ?_, hg.heaps.lists.apart, hg.heaps.lists.sized,
    hg.heaps.lists.inside⟩, hg.heaps.start, hg.heaps.exact, hg.heaps.held⟩, hg.owned, hg.nodup⟩
  refine linked_imp (fun d hd n p hh => blockAt_congr hh fun x h1 h2 => ?_)
    (hg.heaps.lists.linked c hc)
  have h3 := hout d (List.mem_flatten.mpr ⟨c, hc, hd⟩)
  exact write8_ne _ _ (by omega)

theorem step_good (hg : Good first count r chains) (c : Call) (hv : Valid r c)
    (ha : Adjoining r c) :
    ∃ r' chains', step r c = some r' ∧ Good first count r' chains' := by
  cases c with
  | kmalloc size => exact good_kmalloc hg hv
  | kfree ptr => exact good_kfree hg hv ha
  | frames op => exact good_frames hg hv
  | store addr value => exact good_store hg value hv

theorem run_good (hg : Good first count r chains) (cs : List Call) (hv : ValidRun r cs)
    (ha : AdjoiningRun r cs) :
    ∃ r' chains', run r cs = some r' ∧ Good first count r' chains' := by
  induction cs generalizing r chains with
  | nil => exact ⟨r, chains, rfl, hg⟩
  | cons c cs ih =>
    obtain ⟨r', chains', heq, hg'⟩ := step_good hg c hv.1 ha.1
    obtain ⟨r'', chains'', hrun, hg''⟩ := ih hg' (hv.2 r' heq) (ha.2 r' heq)
    refine ⟨r'', chains'', ?_, hg''⟩
    rw [run, heq, Option.bind_some]
    exact hrun

/-- `kmalloc_init`, with a frame manager in some state. -/
def boot (mem : Memory) (t : Tracked) : Run :=
  ⟨Kernel.kmallocInit ⟨mem, 0, t, fun _ => false⟩, []⟩

theorem chains_nil (mem : Memory) (obtained : ℕ → Bool) : Chains mem obtained [] :=
  ⟨by simp, by simp, by simp, by simp⟩

theorem boot_good {t : Tracked} (h : Exact first count t) (mem : Memory) :
    ∃ chains, Good first count (boot mem t) chains := by
  have hexact := step_exact h .allocFrame trivial
  unfold boot Kernel.kmallocInit
  dsimp only
  by_cases h0 : t.pmm.allocFrame.1 = 0
  · rw [if_pos h0]
    refine ⟨[], ⟨chains_nil _ _, Or.inl rfl, hexact, fun f hf => ?_⟩, by simp, by simp⟩
    dsimp only at hf
    rw [take_obtained, if_neg (fun hh => hh.1 h0)] at hf
    exact absurd hf (by simp)
  · rw [if_neg h0]
    have hrefs : (PmmRuns.step t .allocFrame).refs t.pmm.allocFrame.1 = 1 := by
      rw [PmmRuns.step, if_neg h0]
      exact if_pos ⟨le_rfl, by omega⟩
    have hlt : t.pmm.allocFrame.1 < 1048575 := by
      rcases allocFrame_eq t.pmm with heq | ⟨f, hf, hbit, heq⟩
      · rw [heq] at h0
        exact absurd rfl h0
      · have h1 := exact_free h hf hbit
        have h2 := h.region.2
        have h3 := h.size
        rw [heq]
        dsimp only
        omega
    have hob : ∀ f, ((⟨mem, 0, t, fun _ => false⟩ : Kernel).take .allocFrame t.pmm.allocFrame.1
        1).obtained f = true ↔ f = t.pmm.allocFrame.1 := by
      intro f
      rw [take_obtained]
      split_ifs with hh
      · exact ⟨fun _ => by omega, fun _ => rfl⟩
      · refine ⟨fun hn => absurd hn (by simp), fun hn => absurd ⟨h0, ?_⟩ hh⟩
        omega
    generalize t.pmm.allocFrame.1 = frame at *
    refine ⟨[]++[[⟨frame*4096, 4096, true⟩]], ⟨?_, Or.inr ⟨_, rfl, by simp, rfl⟩, hexact,
      fun f hf => ?_⟩, by simp, by simp⟩
    · refine chains_new (chains_nil mem fun _ => false)
        ⟨by dsimp only; omega, by dsimp only; omega, by dsimp only; omega⟩ ?_ (fun x hx => ?_)
        (fun x _ => rfl) (fun x hx => (hob _).mpr ?_) (fun f hf => absurd hf (by simp))
      · exact blockAt_new mem ⟨frame*4096, 4096, true⟩ (by dsimp only; omega) (by omega)
      · refine writeArea_mem _ (frame*4096) 4096 true ?_
        unfold Covers at hx
        dsimp only at hx
        omega
      · unfold Covers at hx
        dsimp only at hx
        omega
    · rw [(hob f).mp hf]
      exact le_of_eq hrefs.symm

/-- The bytes behind a pointer that belong to its block. -/
def usable (r : Run) (a : Allocation) : ℕ := r.kernel.size (a.ptr-12)-12

/-- The payloads of the live allocations are large enough and apart from each
other, and the blocks of the list lie in frames that the heap took. -/
structure Safe (r : Run) : Prop where
  enough : ∀ a ∈ r.live, a.size ≤ usable r a
  apart : r.live.Pairwise fun a c => a.ptr+usable r a ≤ c.ptr ∨ c.ptr+usable r c ≤ a.ptr
  inside : ∃ blocks, r.kernel.heapStart = firstAddr blocks 0 ∧
    Linked (BlockAt r.kernel.mem) 0 blocks 0 ∧
    ∀ b ∈ blocks, ∀ x, Covers b x → r.kernel.obtained (x/4096) = true

theorem good_safe (hg : Good first count r chains) : Safe r := by
  have hblock : ∀ a ∈ r.live, ∃ b ∈ chains.flatten, a.ptr = b.addr+12 ∧ usable r a = b.size-12 ∧
      a.size+12 ≤ b.size := by
    intro a ha
    obtain ⟨b, hb, -, h2, h3⟩ := hg.owned a ha
    obtain ⟨c, hc, hbc⟩ := List.mem_flatten.mp hb
    obtain ⟨xs, ys, rfl⟩ := List.append_of_mem hbc
    obtain ⟨pre, post, rfl⟩ := List.append_of_mem hc
    obtain ⟨hblock, -⟩ := chains_block hg.heaps.lists
    have hsize : r.kernel.size b.addr = b.size := hblock.size
    refine ⟨b, hb, h2, ?_, h3⟩
    unfold usable
    rw [h2, Nat.add_sub_cancel, hsize]
  refine ⟨fun a ha => ?_, ?_, ?_⟩
  · obtain ⟨b, -, h1, h2, h3⟩ := hblock a ha
    omega
  · refine (List.pairwise_map.mp hg.nodup).imp_of_mem fun {a c} ha hc hne => ?_
    obtain ⟨b, hb, h1, h2, h3⟩ := hblock a ha
    obtain ⟨d, hd, h4, h5, h6⟩ := hblock c hc
    have hbd : b ≠ d := by
      rintro rfl
      exact hne (by omega)
    have h7 := hg.heaps.lists.apart.forall hb hd hbd
    have h8 := h7 (max b.addr d.addr)
    unfold Covers at h8
    omega
  · rcases hg.heaps.start with h0 | ⟨c, rfl, -, hc⟩
    · exact ⟨[], h0, trivial, by simp⟩
    · exact ⟨c, hc, hg.heaps.lists.linked c (by simp),
        fun b hb => hg.heaps.lists.inside b (by simp [hb])⟩

/-- In every run in which `kfree` only finds free blocks next to it in memory,
the live allocations are apart and the heap stays in its frames. -/
theorem kernel_heap_safe (p₀ : Pmm) (memorySize base size : ℕ) (hmem : memorySize < 4294967296)
    (h128 : memorySize%131072 = 0) (hbase : 4096 ≤ base) (hin : base+size ≤ memorySize)
    (ops : List Op) (hops : AdmissibleRun (PmmRuns.start p₀ memorySize base size) ops)
    (mem : Memory) (cs : List Call)
    (hv : ValidRun (boot mem (PmmRuns.run (PmmRuns.start p₀ memorySize base size) ops)) cs)
    (ha : AdjoiningRun (boot mem (PmmRuns.run (PmmRuns.start p₀ memorySize base size) ops)) cs) :
    ∃ r, run (boot mem (PmmRuns.run (PmmRuns.start p₀ memorySize base size) ops)) cs = some r ∧
      Safe r := by
  have hexact := run_exact (start_exact p₀ hmem h128 hbase hin) ops hops
  obtain ⟨chains, hg⟩ := boot_good hexact mem
  obtain ⟨r, chains', hrun, hg'⟩ := run_good hg cs hv ha
  exact ⟨r, hrun, good_safe hg'⟩

/-- Frames 1 to 4 are free. -/
def fourFrames : Tracked := PmmRuns.run (PmmRuns.start zeroed 131072 4096 16384) []

theorem kernel_heap_safe_one :
    ∃ r, run (boot (fun _ => 0) fourFrames) [.kmalloc 16, .kmalloc 128, .kmalloc 4096] = some r ∧
      Safe r :=
  kernel_heap_safe zeroed 131072 4096 16384 (by decide) (by decide) (by decide) (by decide) []
    trivial _ _
    ⟨show 16 < 2147483648 by decide, fun _ _ => ⟨show 128 < 2147483648 by decide,
      fun _ _ => ⟨show 4096 < 2147483648 by decide, fun _ _ => trivial⟩⟩⟩
    ⟨trivial, fun _ _ => ⟨trivial, fun _ _ => ⟨trivial, fun _ _ => trivial⟩⟩⟩

/-- The heap has frames 1 and 3, and frame 2 was handed out in between; then both
blocks are freed, the second first. -/
def gapInside : List Call :=
  [.kmalloc 4084, .frames .allocFrame, .kmalloc 4084, .kfree 12300, .kfree 4108]

instance decidableAdmissible (t : Tracked) : ∀ op, Decidable (Admissible t op)
  | .allocFrame => .isTrue trivial
  | .allocBlocks _ => inferInstanceAs (Decidable (_ < _))
  | .incRef _ => inferInstanceAs (Decidable (_ ∧ _ ∧ _))
  | .freeFrame _ => inferInstanceAs (Decidable (_ ≤ _))
  | .decRef _ => inferInstanceAs (Decidable (_ ≤ _))

instance decidableValid (r : Run) : ∀ c, Decidable (Valid r c)
  | .kmalloc _ => inferInstanceAs (Decidable (_ < _))
  | .kfree _ => inferInstanceAs (Decidable (_ ∨ _))
  | .frames op => inferInstanceAs (Decidable (_ ∧ ∀ f ∈ dropped op, _))
  | .store _ _ => inferInstanceAs (Decidable (_ ∨ ∃ a ∈ _, _ ∧ _))

instance decidableValidRun : ∀ (r : Run) (cs : List Call), Decidable (ValidRun r cs)
  | _, [] => .isTrue trivial
  | r, c::cs =>
    have : DecidablePred fun r' : Run => ValidRun r' cs := fun r' => decidableValidRun r' cs
    inferInstanceAs (Decidable (Valid r c ∧ ∀ r' ∈ step r c, ValidRun r' cs))

/-- The block that the heap then has reaches over frame 2, which is not its own. -/
theorem kernel_heap_leaves_frames :
    ValidRun (boot (fun _ => 0) fourFrames) gapInside ∧
    ∃ r, run (boot (fun _ => 0) fourFrames) gapInside = some r ∧ ¬Safe r := by
  have hv : ValidRun (boot (fun _ => 0) fourFrames) gapInside := by decide +kernel
  have hrun : (run (boot (fun _ => 0) fourFrames) gapInside).map (fun r =>
      (r.kernel.heapStart, r.kernel.size 4096, r.kernel.obtained 2)) = some (4096, 8192, false) := by
    decide +kernel
  obtain ⟨r, hr, heq⟩ := Option.map_eq_some_iff.mp hrun
  have hstart : r.kernel.heapStart = 4096 := congrArg Prod.fst heq
  have hsize : r.kernel.size 4096 = 8192 := congrArg (fun x => x.2.1) heq
  have hob : r.kernel.obtained 2 = false := congrArg (fun x => x.2.2) heq
  refine ⟨hv, r, hr, fun hs => ?_⟩
  obtain ⟨blocks, hfirst, hlinked, hin⟩ := hs.inside
  cases blocks with
  | nil =>
    rw [hstart] at hfirst
    exact absurd hfirst (by decide)
  | cons b bs =>
    rw [hstart] at hfirst
    have haddr : b.addr = 4096 := hfirst.symm
    have hbsize : b.size = 8192 := by
      rw [← hlinked.1.size, haddr]
      exact hsize
    have hcov : Covers b 8192 := ⟨by omega, by omega⟩
    have h2 := hin b (by simp) 8192 hcov
    have h3 : r.kernel.obtained 2 = true := h2
    rw [hob] at h3
    exact absurd h3 (by simp)

end Vlsmc.KmallocRuns
