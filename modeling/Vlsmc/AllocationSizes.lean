import Vlsmc.KmallocRuns
import Vlsmc.MallocRuns

/-!
# Sizes near the end of the address space

`malloc`, `calloc`, `realloc` and `kmalloc` add the header, round up and multiply in 32 bits.
A sum that wraps asks for a small block, which is returned for the large one; and from 2^31 on
`SYS_SBRK` takes the size for a negative increment.
-/

set_option autoImplicit false

namespace Vlsmc.AllocationSizes
open Vlsmc.Words Vlsmc.ByteMemory Vlsmc.BlockList Vlsmc.Malloc Vlsmc.MallocLayout
open Vlsmc.Kmalloc
open Vlsmc.MallocRuns (represents_write size_of_block realloc_cases granting)
open Vlsmc.KmallocRuns (Heaps kmalloc_spec boot boot_good fourFrames totalSize_spec search_nil
  chains_nil take_blocks)

/-- The bytes behind a pointer that belong to its block and lie below the break. -/
def capacity (h : Heap) (ptr : ℕ) : ℕ :=
  min (h.size (sub32 ptr headerSize)-headerSize) (h.brk-ptr)

/-- The bytes behind a pointer of `kmalloc` that belong to its block. -/
def blockCapacity (k : Kernel) (ptr : ℕ) : ℕ := k.size (sub32 ptr 12)-12

/-- What `malloc` returns for the size is large enough. -/
def MallocFits (size : ℕ) : Prop :=
  ∀ base bs h reply ptr h', Represents h base bs → h.malloc size reply = some (ptr, h') →
    ptr ≠ 0 → size ≤ capacity h' ptr

def CallocFits (nmemb size : ℕ) : Prop :=
  ∀ base bs h reply ptr h', Represents h base bs → h.calloc nmemb size reply = some (ptr, h') →
    ptr ≠ 0 → nmemb*size ≤ capacity h' ptr

/-- The pointer is null or one of a block in use. -/
def UsedPtr (bs : List Block) (ptr : ℕ) : Prop :=
  ptr = 0 ∨ ∃ b ∈ bs, b.free = false ∧ ptr = b.addr+20

/-- The copy loop of `realloc`: where it writes, how many bytes, and the heap before it. -/
def copyLoop (h : Heap) (ptr size : ℕ) (reply : Reply) : Option (ℕ×ℕ×Heap) :=
  let block := sub32 ptr headerSize
  let userSize := sub32 (h.size block) headerSize
  if ptr = 0 ∨ size = 0 ∨ h.magic block ≠ magicNumber ∨ size ≤ userSize then none
  else
    match h.malloc size reply with
    | none => none
    | some (newPtr, h) => if newPtr = 0 then none else some (newPtr, userSize, h)

/-- What `realloc` returns is large enough, and it copies no more than fits. -/
def ReallocFits (size : ℕ) : Prop :=
  ∀ base bs h ptr reply reply', Represents h base bs → UsedPtr bs ptr →
    (∀ newPtr h', h.realloc ptr size reply reply' = some (newPtr, h') → newPtr ≠ 0 →
      size ≤ capacity h' newPtr) ∧
    (∀ newPtr n h', copyLoop h ptr size reply = some (newPtr, n, h') → n ≤ capacity h' newPtr)

/-- What `kmalloc` returns for the size, in the states with `P`, is large enough. -/
def KmallocFits (P : Kernel → Prop) (size : ℕ) : Prop :=
  ∀ first count k chains ptr k', Heaps first count k chains → P k →
    k.kmalloc size = some (ptr, k') → ptr ≠ 0 → size ≤ blockCapacity k' ptr

section Large

variable {h h' : Heap} {base ptr size : ℕ} {bs bs' : List Block} {b : Block} {reply reply' : Reply}

/-- The copy loop is the one that `realloc` runs. -/
theorem realloc_copyLoop {newPtr n : ℕ} (hcopy : copyLoop h ptr size reply = some (newPtr, n, h')) :
    h.realloc ptr size reply reply' =
      (({ h' with mem := copy h'.mem newPtr ptr n } : Heap).free ptr reply').map
        fun h => (newPtr, h) := by
  unfold copyLoop at hcopy
  dsimp only at hcopy
  split_ifs at hcopy with hskip
  push Not at hskip
  obtain ⟨hptr, hsize, hmagic, hgrow⟩ := hskip
  unfold Heap.realloc
  rw [if_neg hptr, if_neg hsize]
  dsimp only
  rw [if_neg (fun hne => hne hmagic), if_neg (by omega)]
  generalize h.malloc size reply = r at *
  cases r with
  | none => cases hcopy
  | some r =>
    dsimp only at hcopy ⊢
    split_ifs at hcopy with hnull
    cases hcopy
    rw [if_neg hnull]

theorem capacity_block (hr : Represents h base bs) (hb : b ∈ bs) :
    capacity h (b.addr+20) = b.size-20 := by
  obtain ⟨hblock, -, hsize, -⟩ := size_of_block hr hb
  obtain ⟨-, hend, -⟩ := ordered_mem hr.ordered hb
  have hroom : b.size-20 ≤ h.brk-(b.addr+20) := by omega
  rw [capacity, hblock, hsize]
  exact min_eq_left hroom

theorem handed_capacity (hh : Handed h h' base bs bs' b size) :
    size ≤ capacity h' (b.addr+20) := by
  have henough := hh.enough
  rw [capacity_block hh.represents ((hh.mem b hh.used).mpr (.inl rfl))]
  omega

/-- Bytes of the payload are written. -/
theorem capacity_write (hr : Represents h base bs) (hb : b ∈ bs) {m : Memory}
    (hm : ∀ k, k < b.addr+20 ∨ b.addr+b.size ≤ k → m k = h.mem k) :
    capacity { h with mem := m } (b.addr+20) = capacity h (b.addr+20) := by
  rw [capacity_block hr hb, capacity_block (represents_write hr hb hm) hb]

theorem mallocFits (hlt : size+27 < 2147483648) : MallocFits size := by
  intro base bs h reply ptr h' hr heq hptr
  rcases malloc_spec hr hlt reply with hnone | ⟨h1, bs', b, hsome, hh, -⟩
  · cases hnone.symm.trans heq
    exact absurd rfl hptr
  · cases hsome.symm.trans heq
    exact handed_capacity hh

theorem callocFits {nmemb : ℕ} (hlt : u32 (nmemb*size) = 0 ∨ nmemb*size+27 < 2147483648) :
    CallocFits nmemb size := by
  intro base bs h reply ptr h' hr heq hptr
  unfold Heap.calloc at heq
  dsimp only at heq
  rcases hlt with hzero | hlt
  · rw [hzero, Heap.malloc, if_pos rfl] at heq
    dsimp only at heq
    rw [if_neg (by simp)] at heq
    cases heq
    exact absurd rfl hptr
  · rw [u32_of_lt (by omega)] at heq
    rcases malloc_spec hr hlt reply with hnone | ⟨h1, bs', b, hsome, hh, -⟩
    · rw [hnone] at heq
      dsimp only at heq
      rw [if_neg (by simp)] at heq
      cases heq
      exact absurd rfl hptr
    · rw [hsome] at heq
      dsimp only at heq
      rw [if_pos (by omega)] at heq
      cases heq
      have henough := hh.enough
      rw [capacity_write hh.represents ((hh.mem b hh.used).mpr (.inl rfl))
        fun k hk => zero_ne _ _ _ (by omega)]
      exact handed_capacity hh

/-- The old block is freed, and the new one stays. -/
theorem moved_capacity (hb : b ∈ bs) (hf : b.free = false) {nb : Block}
    (hh : Handed h h' base bs bs' nb size) (hgrow : b.size-20 < size) {h'' : Heap}
    (hfree : ({ h' with mem := copy h'.mem (nb.addr+20) (b.addr+20) (b.size-20) } : Heap).free
      (b.addr+20) reply = some h'') : size ≤ capacity h'' (nb.addr+20) := by
  have hnb : nb ∈ bs' := (hh.mem nb hh.used).mpr (.inl rfl)
  have hb' : b ∈ bs' := (hh.mem b hf).mpr (.inr hb)
  have henough := hh.enough
  have hne : nb ≠ b := fun he => hh.new b hb hf (congrArg Block.addr he.symm)
  have houter : ∀ k, k < nb.addr+20 ∨ nb.addr+nb.size ≤ k →
      copy h'.mem (nb.addr+20) (b.addr+20) (b.size-20) k = h'.mem k :=
    fun k hk => copy_ne _ _ _ _ (by omega)
  have hcopied := represents_write hh.represents hnb houter
  obtain ⟨xs, ys, rfl⟩ := List.append_of_mem hb'
  obtain ⟨h₂, heq, hr, -⟩ := free_spec hcopied reply
  cases heq.symm.trans hfree
  have hleft : nb ∈ freed xs b ys := by
    rw [mem_freed hh.used]
    simp only [List.mem_append, List.mem_cons] at hnb ⊢
    tauto
  rw [capacity_block hr hleft]
  omega

theorem reallocFits (hlt : size+27 < 2147483648) : ReallocFits size := by
  intro base bs h ptr reply reply' hr hused
  rcases hused with rfl | ⟨b, hb, hf, rfl⟩
  · constructor
    · intro newPtr h' heq
      exact mallocFits hlt base bs h reply newPtr h' hr heq
    · intro newPtr n h' hcopy
      rw [copyLoop, if_pos (.inl rfl)] at hcopy
      cases hcopy
  by_cases hs : size = 0
  · constructor
    · exact fun newPtr h' _ _ => hs ▸ Nat.zero_le _
    · intro newPtr n h' hcopy
      rw [copyLoop, if_pos (.inr (.inl hs))] at hcopy
      cases hcopy
  have hlarge := (ordered_mem hr.ordered hb).2.2
  obtain ⟨hblock, hmagic, -, huser⟩ := size_of_block hr hb
  constructor
  · intro newPtr h' heq hptr
    rcases realloc_cases hr hb hs hlt reply reply' with ⟨hfit, hsame⟩ | hnone |
      ⟨h1, bs', nb, hgrow, hh, -, hmoved⟩
    · cases hsame.symm.trans heq
      rw [capacity_block hr hb]
      omega
    · cases hnone.symm.trans heq
      exact absurd rfl hptr
    · rw [hmoved] at heq
      obtain ⟨h'', hfree, hres⟩ := Option.map_eq_some_iff.mp heq
      cases hres
      exact moved_capacity hb hf hh hgrow hfree
  · intro newPtr n h' hcopy
    rw [copyLoop, hblock, huser] at hcopy
    by_cases hfit : size ≤ b.size-20
    · rw [if_pos (.inr (.inr (.inr hfit)))] at hcopy
      cases hcopy
    rw [if_neg (by simp [hs, hmagic, hfit])] at hcopy
    rcases malloc_spec hr hlt reply with hnone | ⟨h1, bs', nb, hsome, hh, -⟩
    · rw [hnone] at hcopy
      dsimp only at hcopy
      rw [if_pos rfl] at hcopy
      cases hcopy
    · rw [hsome] at hcopy
      dsimp only at hcopy
      rw [if_neg (by omega)] at hcopy
      cases hcopy
      exact (Nat.lt_of_not_le hfit).le.trans (handed_capacity hh)

end Large

section Wrapped

variable {brk size nmemb : ℕ}

/-- A heap without blocks. -/
def noBlocks (brk : ℕ) : Heap := ⟨fun _ => 0, 0, 0, brk⟩

theorem noBlocks_represents (h0 : 0 < brk) (hlt : brk < 4294967296) :
    Represents (noBlocks brk) brk [] :=
  ⟨trivial, rfl, rfl, le_refl brk, h0, hlt⟩

/-- What the first call of `malloc` asks `SYS_SBRK` for. -/
def increment (size : ℕ) : ℤ := toInt32 (Heap.align (u32 (size+headerSize)))

/-- `request_space` returns the old break, even if the new one lies below. -/
theorem requestSpace_granted (h : Heap) {total : ℕ} (hlow : 0 ≤ (h.brk:ℤ)+toInt32 total)
    (hhigh : (h.brk:ℤ)+toInt32 total < 4294967296) :
    ∃ h', h.requestSpace 0 total granting = (h.brk, h') ∧
      (h'.brk:ℤ) = h.brk+toInt32 total := by
  unfold Heap.requestSpace Heap.sbrk
  dsimp only
  rw [if_pos ⟨rfl, hlow, hhigh⟩]
  exact ⟨_, rfl, Int.toNat_of_nonneg hlow⟩

theorem malloc_noBlocks (hs : size ≠ 0) (hbrk : 0 < brk) (hlt : brk+20 < 4294967296)
    (hlow : 0 ≤ (brk:ℤ)+increment size) (hhigh : (brk:ℤ)+increment size < 4294967296) :
    ∃ h', (noBlocks brk).malloc size granting = some (brk+20, h') ∧
      (h'.brk:ℤ) = brk+increment size := by
  obtain ⟨h', heq, hmoved⟩ := requestSpace_granted (noBlocks brk) hlow hhigh
  unfold Heap.malloc
  rw [if_neg hs]
  dsimp only
  rw [if_pos (show (noBlocks brk).head = 0 from rfl), heq]
  dsimp only
  rw [if_neg (show (noBlocks brk).brk ≠ 0 from hbrk.ne')]
  rw [u32_of_lt (show (noBlocks brk).brk+headerSize < 4294967296 from hlt)]
  exact ⟨(h'.setHead brk).setTail brk, rfl, hmoved⟩

theorem capacity_le (h : Heap) (ptr : ℕ) : capacity h ptr ≤ h.brk-ptr := min_le_right _ _

/-- A request that wraps, or is negative for `SYS_SBRK`. -/
theorem increment_large (hlt : size < 4294967296) (hlarge : 2147483648 ≤ size+27) :
    -2147483648 ≤ increment size ∧ increment size ≤ 24 := by
  unfold increment toInt32 Heap.align u32 headerSize
  split_ifs <;> omega

theorem increment_small (hlt : size+27 < 2147483648) :
    0 ≤ increment size ∧ increment size ≤ size+27 := by
  unfold increment toInt32 Heap.align headerSize
  rw [u32_of_lt (by omega : size+20 < 4294967296), u32_of_lt (by omega)]
  split_ifs <;> omega

/-- A heap in which the first call gets no more than it asks for. -/
theorem malloc_short (hs : size ≠ 0) (hlt : size < 4294967296) :
    ∃ brk h', 0 < brk ∧ brk+20 < 4294967296 ∧
      (noBlocks brk).malloc size granting = some (brk+20, h') ∧
      h'.brk-(brk+20) ≤ if size+27 < 2147483648 then size+7 else 4 := by
  by_cases hsmall : size+27 < 2147483648
  · obtain ⟨hlow, hhigh⟩ := increment_small hsmall
    obtain ⟨h', heq, hbrk⟩ := malloc_noBlocks hs (by decide : 0 < 0x08000000) (by decide)
      (by omega) (by omega)
    refine ⟨_, h', by decide, by decide, heq, ?_⟩
    rw [if_pos hsmall]
    omega
  · obtain ⟨hlow, hhigh⟩ := increment_large hlt (by omega)
    obtain ⟨h', heq, hbrk⟩ := malloc_noBlocks hs (by decide : 0 < 0x88000000) (by decide)
      (by omega) (by omega)
    refine ⟨_, h', by decide, by decide, heq, ?_⟩
    rw [if_neg hsmall]
    omega

theorem mallocFits_iff (hlt : size < 4294967296) :
    MallocFits size ↔ size+27 < 2147483648 := by
  constructor
  · intro hfits
    by_contra hlarge
    obtain ⟨brk, h', hbrk, hend, heq, hshort⟩ := malloc_short (by omega) hlt
    have hcap := (hfits brk [] _ _ _ h' (noBlocks_represents hbrk (by omega)) heq
      (by omega)).trans (capacity_le h' _)
    rw [if_neg hlarge] at hshort
    omega
  · exact mallocFits

theorem reallocFits_iff (hlt : size < 4294967296) :
    ReallocFits size ↔ size+27 < 2147483648 := by
  constructor
  · intro hfits
    refine (mallocFits_iff hlt).mp fun base bs h reply ptr h' hr heq hptr => ?_
    exact (hfits base bs h 0 reply reply hr (.inl rfl)).1 ptr h' heq hptr
  · exact reallocFits

theorem callocFits_iff : CallocFits nmemb size ↔
    u32 (nmemb*size) = 0 ∨ nmemb*size+27 < 2147483648 := by
  constructor
  · intro hfits
    by_contra hwrong
    push Not at hwrong
    obtain ⟨hs, hlarge⟩ := hwrong
    have hlt : u32 (nmemb*size) < 4294967296 := Nat.mod_lt _ (by decide)
    have hsame : nmemb*size < 4294967296 → u32 (nmemb*size) = nmemb*size := u32_of_lt
    obtain ⟨brk, h', hbrk, hend, heq, hshort⟩ := malloc_short hs hlt
    have hcalloc : (noBlocks brk).calloc nmemb size granting =
        some (brk+20, { h' with mem := zero h'.mem (brk+20) (u32 (nmemb*size)) }) := by
      unfold Heap.calloc
      dsimp only
      rw [heq]
      exact if_pos (by omega)
    have hcap : nmemb*size ≤ h'.brk-(brk+20) :=
      (hfits brk [] _ _ _ _ (noBlocks_represents hbrk (by omega)) hcalloc (by omega)).trans
        (capacity_le _ _)
    split_ifs at hshort <;> omega
  · exact callocFits

end Wrapped

section Kernel

variable {k k' : Kernel} {size total block ptr : ℕ}

/-- `split_block` of a block that is much larger. -/
theorem splitBlock_size (h : total+44 < k.size block) (hlt : k.size block < 4294967296) :
    (k.splitBlock block total).size block = total := by
  have hbound : u32 (u32 (total+12)+32) = total+44 := by
    rw [u32_of_lt (by omega : total+12 < 4294967296), u32_of_lt (by omega)]
  unfold Kernel.splitBlock
  rw [hbound, if_neg (by omega)]
  unfold Kernel.size Kernel.setNext Kernel.setSize
  dsimp only
  rw [read32_write32_ne _ _ (by omega), read32_write32 _ _ (by omega)]

theorem kmallocFits (hlt : size+19 < 4294967296) (P : Kernel → Prop) : KmallocFits P size := by
  intro first count k chains ptr k' hheaps _ heq hptr
  obtain ⟨p, k₁, hsome, hnull | ⟨chains', b, rfl, hh⟩⟩ := kmalloc_spec hheaps hlt
  · cases hsome.symm.trans heq
    exact absurd hnull.1 hptr
  · cases hsome.symm.trans heq
    have hb : b ∈ chains'.flatten := (hh.mem b hh.used).mpr (.inl rfl)
    obtain ⟨c, hc, hbc⟩ := List.mem_flatten.mp hb
    obtain ⟨xs, ys, rfl⟩ := List.append_of_mem hbc
    obtain ⟨pre, post, rfl⟩ := List.append_of_mem hc
    obtain ⟨hblock, hsized⟩ := KmallocLayout.chains_block hh.heaps.lists
    have hlast := hsized.last
    have hheader := hsized.header
    have hsize : k'.size b.addr = b.size := hblock.size
    have henough := hh.enough
    rw [blockCapacity, sub32_of_le (by omega) (by omega), Nat.add_sub_cancel, hsize]
    omega

/-- The sums of `kmalloc` that wrap. -/
theorem totalSize_wrapped (hlt : size < 4294967296) (hlarge : 4294967296 ≤ size+19) :
    Kernel.totalSize size ≤ 16 ∧ (size+12 ≤ 4294967296 → Kernel.totalSize size = 0) ∧
    (4294967296 < size+12 → 0 < Kernel.totalSize size) := by
  unfold Kernel.totalSize u32
  dsimp only
  split_ifs <;> omega

/-- The kernel whose heap is one free block, and the one without a list of blocks. -/
def oneBlock : Kernel := (boot (fun _ => 0) fourFrames).kernel
def noList : Kernel := ⟨fun _ => 0, 0, fourFrames, fun _ => false⟩

theorem fourFrames_exact : PmmRuns.Exact 1 4 fourFrames :=
  PmmRuns.start_exact PmmRuns.zeroed (show 131072 < 4294967296 by decide) (by decide)
    (show 4096 ≤ 4096 by decide) (show 4096+16384 ≤ 131072 by decide)

theorem oneBlock_heaps : ∃ chains, Heaps 1 4 oneBlock chains := by
  obtain ⟨chains, hgood⟩ := boot_good fourFrames_exact fun _ => 0
  exact ⟨chains, hgood.heaps⟩

theorem noList_heaps : Heaps 1 4 noList [] :=
  ⟨chains_nil _ _, .inl rfl, fourFrames_exact, fun _ hf => absurd hf (by simp [noList])⟩

/-- The one free block, and the frame that a heap without a block gets first. -/
theorem short_found : (oneBlock.heapStart = 4096 ∧ oneBlock.isFree 4096 = true ∧
      oneBlock.size 4096 = 4096) ∧ (noList.frames.pmm.allocBlocks 1).1 = 1 := by
  decide +kernel

theorem oneBlock_short (h0 : size ≠ 0) (hsmall : Kernel.totalSize size ≤ 16) :
    ∃ k', oneBlock.kmalloc size = some (4108, k') ∧ blockCapacity k' 4108 ≤ 4 := by
  obtain ⟨hstart, hfree, hsize⟩ := short_found.1
  have hsearch : oneBlock.search (Kernel.totalSize size) (4294967295+1) 0 4096 =
      some (0, 4096) := by
    rw [Kernel.search, if_neg (by decide), if_pos ⟨hfree, by omega⟩]
  have hused : (oneBlock.setIsFree 4096 false).size 4096 = 4096 := by
    rw [← hsize]
    exact read32_write8_ne _ _ (by omega)
  refine ⟨(oneBlock.setIsFree 4096 false).splitBlock 4096 (Kernel.totalSize size), ?_, ?_⟩
  · unfold Kernel.kmalloc
    rw [if_neg h0, hstart]
    dsimp only
    rw [hsearch]
    rfl
  · rw [blockCapacity]
    change
      ((oneBlock.setIsFree 4096 false).splitBlock 4096 (Kernel.totalSize size)).size 4096-12 ≤ 4
    rw [splitBlock_size (by omega) (by omega)]
    omega

theorem noList_short (h0 : size ≠ 0) (hpos : 0 < Kernel.totalSize size)
    (hsmall : Kernel.totalSize size ≤ 16) :
    ∃ k', noList.kmalloc size = some (4108, k') ∧ blockCapacity k' 4108 ≤ 4 := by
  have hpages : Kernel.pagesNeeded (Kernel.totalSize size) = 1 := by
    unfold Kernel.pagesNeeded u32
    split_ifs <;> omega
  have hfirst : (noList.frames.pmm.allocBlocks 1).1 = 1 := short_found.2
  have hsearch : noList.search (Kernel.totalSize size) 4294967296 0 noList.heapStart =
      some (0, 0) := search_nil _ _
  unfold Kernel.kmalloc
  rw [if_neg h0]
  dsimp only
  rw [hsearch]
  dsimp only
  rw [if_neg (by simp), hpages, hfirst, if_neg (by decide), if_neg (by simp)]
  refine ⟨_, rfl, ?_⟩
  rw [blockCapacity]
  generalize hk : Kernel.setNext _ (u32 (1*4096)) 0 = g
  have hsize : g.size 4096 = 4096 := by
    rw [← hk]
    unfold Kernel.size Kernel.setNext Kernel.setIsFree Kernel.setSize
    dsimp only
    rw [read32_write32_ne _ _ (by decide), read32_write8_ne _ _ (by decide)]
    exact read32_write32 _ _ (by decide)
  change (g.splitBlock 4096 (Kernel.totalSize size)).size 4096-12 ≤ 4
  rw [splitBlock_size (by omega) (by omega)]
  omega

theorem kmallocFits_iff (hlt : size < 4294967296) :
    KmallocFits (fun _ => True) size ↔ size+19 < 4294967296 := by
  constructor
  · intro hfits
    by_contra hlarge
    obtain ⟨chains, hheaps⟩ := oneBlock_heaps
    obtain ⟨k', heq, hshort⟩ := oneBlock_short (by omega)
      (totalSize_wrapped hlt (Nat.le_of_not_lt hlarge)).1
    have hcap := hfits 1 4 _ _ _ k' hheaps trivial heq (by decide)
    omega
  · exact fun hsmall => kmallocFits hsmall _

/-- The kernel never calls `kmalloc_init`, and a wrapped size of zero finds no block. -/
theorem kmallocFits_noList_iff (hlt : size < 4294967296) :
    KmallocFits (fun k => k.heapStart = 0) size ↔ size+12 ≤ 4294967296 := by
  constructor
  · intro hfits
    by_contra hlarge
    obtain ⟨hsmall, -, hpos⟩ := totalSize_wrapped hlt (by omega)
    obtain ⟨k', heq, hshort⟩ := noList_short (by omega) (hpos (by omega)) hsmall
    have hcap := hfits 1 4 _ _ _ k' noList_heaps rfl heq (by decide)
    omega
  · intro hfit
    by_cases hsmall : size+19 < 4294967296
    · exact kmallocFits hsmall _
    · intro first count k chains ptr k' hheaps hstart heq hptr
      have hzero := (totalSize_wrapped hlt (Nat.le_of_not_lt hsmall)).2.1 hfit
      have hnone : (k.frames.pmm.allocBlocks 0).1 = 0 := by
        by_contra hsome
        exact absurd (take_blocks hheaps.exact hheaps.held hsome).1 (by decide)
      unfold Kernel.kmalloc at heq
      rw [if_neg (by omega), hzero, hstart] at heq
      dsimp only at heq
      rw [search_nil] at heq
      dsimp only at heq
      rw [if_neg (by simp), show Kernel.pagesNeeded 0 = 0 from rfl, hnone, if_pos rfl] at heq
      cases heq
      exact absurd rfl hptr

end Kernel

/-- The sizes for which each allocator returns enough, if it returns a block. -/
theorem sizes_fit_iff (nmemb size : UInt32) :
    (MallocFits size.toNat ↔ size.toNat+27 < 2147483648) ∧
    (CallocFits nmemb.toNat size.toNat ↔ u32 (nmemb.toNat*size.toNat) = 0 ∨
      nmemb.toNat*size.toNat+27 < 2147483648) ∧
    (ReallocFits size.toNat ↔ size.toNat+27 < 2147483648) ∧
    (KmallocFits (fun _ => True) size.toNat ↔ size.toNat+19 < 4294967296) ∧
    (KmallocFits (fun k => k.heapStart = 0) size.toNat ↔ size.toNat+12 ≤ 4294967296) := by
  have hsize : size.toNat < 4294967296 := size.toNat_lt
  constructor
  · exact mallocFits_iff hsize
  constructor
  · exact callocFits_iff
  constructor
  · exact reallocFits_iff hsize
  constructor
  · exact kmallocFits_iff hsize
  · exact kmallocFits_noList_iff hsize

/-- A block of 8 bytes is returned for 2^32-16 bytes and one of 4 bytes for 2^31+1 pairs, and
`realloc` copies 100 bytes into the block of 8. The kernel returns one without a byte for a table
of 2^32-8 bytes. -/
theorem sizes_wrap :
    ((noBlocks 0x08400000).malloc 0xFFFFFFF0 granting).map (fun r => (r.1, capacity r.2 r.1)) =
      some (0x08400014, 0) ∧
    ((noBlocks 0x08400000).calloc 0x80000001 2 granting).map (fun r => (r.1, capacity r.2 r.1)) =
      some (0x08400014, 4) ∧
    (((noBlocks 0x08400000).malloc 100 granting).bind fun r =>
      (copyLoop r.2 r.1 0xFFFFFFF0 granting).map fun c => (c.2.1, capacity c.2.2 c.1)) =
      some (100, 0) ∧
    (noList.kmalloc 0xFFFFFFF8).map (fun r => (r.1, blockCapacity r.2 r.1)) = some (4108, 0) ∧
    ¬MallocFits 0xFFFFFFF0 ∧ ¬CallocFits 0x80000001 2 ∧ ¬ReallocFits 0xFFFFFFF0 ∧
    ¬KmallocFits (fun k => k.heapStart = 0) 0xFFFFFFF8 := by
  constructor
  · decide +kernel
  constructor
  · decide +kernel
  constructor
  · decide +kernel
  constructor
  · decide +kernel
  rw [mallocFits_iff (by decide), callocFits_iff, reallocFits_iff (by decide),
    kmallocFits_noList_iff (by decide)]
  decide

end Vlsmc.AllocationSizes
