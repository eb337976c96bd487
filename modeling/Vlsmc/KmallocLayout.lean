import Mathlib.Data.Finset.Card
import Mathlib.Data.Finset.Range
import Vlsmc.BlockList
import Vlsmc.Kmalloc

/-!
# The blocks of the kernel heap

The lists of blocks that the headers in memory represent. Blocks of one list
come from different calls of the frame manager and need not be neighbours in
memory.
-/

set_option autoImplicit false

namespace Vlsmc.KmallocLayout
open Vlsmc.Words Vlsmc.ByteMemory Vlsmc.BlockList Vlsmc.Kmalloc

/-- The header of a block. It does not know the block before it. -/
structure BlockAt (m : Memory) (b : Block) (next prev : ℕ) : Prop where
  size : read32 m b.addr = b.size
  free : (m (b.addr+4) != 0) = b.free
  next : read32 m (b.addr+8) = next

theorem blockAt_congr {m m' : Memory} {b : Block} {next prev : ℕ} (h : BlockAt m b next prev)
    (hm : ∀ x, b.addr ≤ x → x < b.addr+12 → m' x = m x) : BlockAt m' b next prev := by
  refine ⟨?_, ?_, ?_⟩
  · rw [read32_congr fun x h1 h2 => hm x (by omega) (by omega), h.size]
  · rw [hm _ (by omega) (by omega), h.free]
  · rw [read32_congr fun x h1 h2 => hm x (by omega) (by omega), h.next]

def Covers (b : Block) (x : ℕ) : Prop := b.addr ≤ x ∧ x < b.addr+b.size

/-- No byte belongs to both blocks. -/
def Apart (b c : Block) : Prop := ∀ x, ¬(Covers b x ∧ Covers c x)

/-- A block with its header, at an address. -/
structure Sized (b : Block) : Prop where
  header : 12 < b.size
  addr : 0 < b.addr
  last : b.addr+b.size ≤ 4294967296

/-- The blocks in memory, by the lists that they form. -/
structure Chains (m : Memory) (obtained : ℕ → Bool) (chains : List (List Block)) : Prop where
  linked : ∀ c ∈ chains, Linked (BlockAt m) 0 c 0
  apart : chains.flatten.Pairwise Apart
  sized : ∀ b ∈ chains.flatten, Sized b
  inside : ∀ b ∈ chains.flatten, ∀ x, Covers b x → obtained (x/4096) = true

variable {m m' : Memory} {obtained : ℕ → Bool} {chains pre post : List (List Block)}
variable {b c : Block} {xs ys old new : List Block} {next prev v : ℕ}

theorem Apart.symm (h : Apart b c) : Apart c b := fun x hx => h x ⟨hx.2, hx.1⟩

instance : Std.Symm Apart := ⟨fun _ _ h => h.symm⟩

theorem linked_prev {p q : ℕ} {bs : List Block} (h : Linked (BlockAt m) p bs next) :
    Linked (BlockAt m) q bs next := by
  cases bs with
  | nil => trivial
  | cons b bs => exact ⟨⟨h.1.size, h.1.free, h.1.next⟩, h.2⟩

/-- A header is read from the bytes of its block. -/
theorem linked_keep {p : ℕ} {bs : List Block} (h : Linked (BlockAt m) p bs next)
    (hs : ∀ b ∈ bs, Sized b) (hm : ∀ b ∈ bs, ∀ x, Covers b x → m' x = m x) :
    Linked (BlockAt m') p bs next := by
  refine linked_imp (fun b hb n p hh => blockAt_congr hh fun x h1 h2 => ?_) h
  have := (hs b hb).header
  exact hm b hb x ⟨h1, by omega⟩

theorem flatten_perm (pre post : List (List Block)) (xs old ys : List Block) :
    (pre++(xs++(old++ys))::post).flatten.Perm
      (old++(pre.flatten++xs++ys++post.flatten)) := by
  rw [List.perm_iff_count]
  intro a
  simp only [List.flatten_append, List.flatten_cons, List.count_append]
  omega

theorem pairwise_replace (h : (pre++(xs++(old++ys))::post).flatten.Pairwise Apart)
    (hcover : ∀ b ∈ new, ∀ x, Covers b x → ∃ d ∈ old, Covers d x) (hnew : new.Pairwise Apart) :
    (pre++(xs++(new++ys))::post).flatten.Pairwise Apart := by
  rw [(flatten_perm pre post xs old ys).pairwise_iff Apart.symm] at h
  rw [(flatten_perm pre post xs new ys).pairwise_iff Apart.symm]
  obtain ⟨-, h2, h3⟩ := List.pairwise_append.mp h
  refine List.pairwise_append.mpr ⟨hnew, h2, fun b hb d hd x hx => ?_⟩
  obtain ⟨e, he, hex⟩ := hcover b hb x hx.1
  exact h3 e he d hd x ⟨hex, hx.2⟩

theorem mem_replace {d : Block} : d ∈ (pre++(xs++(old++ys))::post).flatten ↔
    d ∈ old ∨ d ∈ pre.flatten++xs++ys++post.flatten := by
  rw [(flatten_perm pre post xs old ys).mem_iff, List.mem_append]

/-- Some neighbouring blocks are replaced by others in the same place. -/
theorem chains_replace (old new : List Block)
    (h : Chains m obtained (pre++(xs++(old++ys))::post))
    (hlinked : Linked (BlockAt m') (lastAddr 0 xs) new (firstAddr ys 0))
    (hfirst : ∀ n, firstAddr new n = firstAddr old n)
    (hmem : ∀ x, (∀ d ∈ old, ¬Covers d x) → m' x = m x)
    (hcover : ∀ b ∈ new, ∀ x, Covers b x → ∃ d ∈ old, Covers d x)
    (hnew : new.Pairwise Apart) (hsized : ∀ b ∈ new, Sized b) :
    Chains m' obtained (pre++(xs++(new++ys))::post) := by
  have hperm := h.apart
  rw [(flatten_perm pre post xs old ys).pairwise_iff Apart.symm] at hperm
  obtain ⟨-, -, hcross⟩ := List.pairwise_append.mp hperm
  -- every other block keeps its bytes
  have hkeep : ∀ d ∈ pre.flatten++xs++ys++post.flatten, ∀ x, Covers d x → m' x = m x := by
    intro d hd x hx
    exact hmem x fun e he hex => hcross e he d hd x ⟨hex, hx⟩
  have hsize : ∀ d ∈ pre.flatten++xs++ys++post.flatten, Sized d :=
    fun d hd => h.sized d (mem_replace.mpr (Or.inr hd))
  refine ⟨fun c hc => ?_, pairwise_replace h.apart hcover hnew, fun b hb => ?_,
    fun b hb x hx => ?_⟩
  · rcases List.mem_append.mp hc with hpre | hc
    · have hin : ∀ d ∈ c, d ∈ pre.flatten++xs++ys++post.flatten := fun d hd => by
        simp only [List.mem_append, List.mem_flatten]
        exact Or.inl (Or.inl (Or.inl ⟨c, hpre, hd⟩))
      exact linked_keep (h.linked c (List.mem_append_left _ hpre)) (fun d hd => hsize d (hin d hd))
        fun d hd => hkeep d (hin d hd)
    · rcases List.mem_cons.mp hc with rfl | hpost
      · obtain ⟨h1, h2⟩ := linked_append.mp (h.linked _ (List.mem_append_right _
          List.mem_cons_self))
        obtain ⟨-, h4⟩ := linked_append.mp h2
        have hxs : ∀ d ∈ xs, d ∈ pre.flatten++xs++ys++post.flatten := fun d hd => by simp [hd]
        have hys : ∀ d ∈ ys, d ∈ pre.flatten++xs++ys++post.flatten := fun d hd => by simp [hd]
        refine linked_append.mpr ⟨?_, linked_append.mpr ⟨hlinked, ?_⟩⟩
        · rw [firstAddr_append, hfirst, ← firstAddr_append]
          exact linked_keep h1 (fun d hd => hsize d (hxs d hd)) fun d hd => hkeep d (hxs d hd)
        · exact linked_prev (linked_keep h4 (fun d hd => hsize d (hys d hd))
            fun d hd => hkeep d (hys d hd))
      · have hin : ∀ d ∈ c, d ∈ pre.flatten++xs++ys++post.flatten := fun d hd => by
          simp only [List.mem_append, List.mem_flatten]
          exact Or.inr ⟨c, hpost, hd⟩
        exact linked_keep (h.linked c (List.mem_append_right _ (List.mem_cons_of_mem _ hpost)))
          (fun d hd => hsize d (hin d hd)) fun d hd => hkeep d (hin d hd)
  · rcases mem_replace.mp hb with hb | hb
    · exact hsized b hb
    · exact hsize b hb
  · rcases mem_replace.mp hb with hb | hb
    · obtain ⟨d, hd, hdx⟩ := hcover b hb x hx
      exact h.inside d (mem_replace.mpr (Or.inl hd)) x hdx
    · exact h.inside b (mem_replace.mpr (Or.inr hb)) x hx

theorem blockAt_setSize (h : BlockAt m b next prev) (hv : v < 4294967296) :
    BlockAt (write32 m b.addr v) { b with size := v } next prev := by
  refine ⟨read32_write32 _ _ hv, ?_, ?_⟩ <;> dsimp only
  · rw [write32_ne _ _ (by omega), h.free]
  · rw [read32_write32_ne _ _ (by omega), h.next]

theorem blockAt_setIsFree (h : BlockAt m b next prev) (f : Bool) :
    BlockAt (write8 m (b.addr+4) (if f then 1 else 0)) { b with free := f } next prev := by
  refine ⟨?_, ?_, ?_⟩ <;> dsimp only
  · rw [read32_write8_ne _ _ (by omega), h.size]
  · rw [write8_same]
    cases f <;> rfl
  · rw [read32_write8_ne _ _ (by omega), h.next]

theorem blockAt_setNext (h : BlockAt m b next prev) (hv : v < 4294967296) :
    BlockAt (write32 m (b.addr+8) v) b v prev := by
  refine ⟨?_, ?_, read32_write32 _ _ hv⟩
  · rw [read32_write32_ne _ _ (by omega), h.size]
  · rw [write32_ne _ _ (by omega), h.free]

theorem blockAt_new (m : Memory) (b : Block) (hs : b.size < 4294967296)
    (hn : next < 4294967296) :
    BlockAt (write32 (write8 (write32 m b.addr b.size) (b.addr+4) (if b.free then 1 else 0))
      (b.addr+8) next) b next prev := by
  refine ⟨?_, ?_, read32_write32 _ _ hn⟩
  · rw [read32_write32_ne _ _ (by omega), read32_write8_ne _ _ (by omega), read32_write32 _ _ hs]
  · rw [write32_ne _ _ (by omega), write8_same]
    cases b.free <;> rfl

/-- The block of a list, in the middle of it. -/
theorem chains_block (h : Chains m obtained (pre++(xs++(b::ys))::post)) :
    BlockAt m b (firstAddr ys 0) (lastAddr 0 xs) ∧ Sized b := by
  have hmem : xs++(b::ys) ∈ pre++(xs++(b::ys))::post :=
    List.mem_append_right _ List.mem_cons_self
  obtain ⟨-, h2⟩ := linked_append.mp (h.linked _ hmem)
  refine ⟨h2.1, h.sized b (List.mem_flatten.mpr ⟨_, hmem, by simp⟩)⟩

/-- Following blocks have addresses. -/
theorem firstAddr_bounds (h : Chains m obtained (pre++(xs++ys)::post)) :
    firstAddr ys 0 < 4294967296 ∧ (ys ≠ [] → firstAddr ys 0 ≠ 0) := by
  cases ys with
  | nil => exact ⟨Nat.zero_lt_succ _, fun hn => absurd rfl hn⟩
  | cons c zs =>
    obtain ⟨-, hs⟩ := chains_block h
    have h1 := hs.header
    have h2 := hs.addr
    have h3 := hs.last
    simp only [firstAddr]
    exact ⟨by omega, fun _ => by omega⟩

theorem chains_setIsFree (h : Chains m obtained (pre++(xs++(b::ys))::post)) (f : Bool) :
    Chains (write8 m (b.addr+4) (if f then 1 else 0)) obtained
      (pre++(xs++({ b with free := f }::ys))::post) := by
  obtain ⟨hb, hs⟩ := chains_block h
  have h1 := hs.header
  refine chains_replace [b] [{ b with free := f }] h
    ⟨blockAt_setIsFree hb f, trivial⟩ (fun _ => rfl) (fun x hx => ?_) (fun d hd x hx => ?_)
    (List.pairwise_singleton _ _) (fun d hd => ?_)
  · have hx' := hx b (by simp)
    apply write8_ne
    rintro rfl
    exact hx' ⟨by omega, by omega⟩
  · rw [List.mem_singleton] at hd
    subst hd
    exact ⟨b, by simp, hx⟩
  · rw [List.mem_singleton] at hd
    subst hd
    exact ⟨hs.header, hs.addr, hs.last⟩

variable {k : Kernel} {total : ℕ}

/-- `split_block` where it cuts. -/
theorem splitBlock_mem (h : Chains k.mem obtained (pre++(xs++(b::ys))::post))
    (ht : 12 < total) (hcut : total+44 < b.size) :
    (k.splitBlock b.addr total).mem =
      write32 (write32 (write32 (write8 (write32 k.mem (b.addr+total) (b.size-total))
        (b.addr+total+4) 1) (b.addr+total+8) (firstAddr ys 0)) b.addr total) (b.addr+8)
        (b.addr+total) := by
  obtain ⟨hb, hs⟩ := chains_block h
  have h1 := hs.addr
  have h2 := hs.last
  have hsize : k.size b.addr = b.size := hb.size
  have hbound : u32 (u32 (total+12)+32) = total+44 := by
    rw [u32_of_lt (by omega : total+12 < 4294967296), u32_of_lt (by omega)]
  unfold Kernel.splitBlock
  rw [hsize, hbound, if_neg (by omega), u32_of_lt (by omega : b.addr+total < 4294967296)]
  dsimp only
  rw [sub32_of_le (by omega) (by omega)]
  have hnext : ((k.setSize (b.addr+total) (b.size-total)).setIsFree (b.addr+total) true).next
      b.addr = firstAddr ys 0 := by
    unfold Kernel.next Kernel.setSize Kernel.setIsFree
    dsimp only
    rw [read32_write8_ne _ _ (by omega), read32_write32_ne _ _ (by omega)]
    exact hb.next
  rw [hnext]
  rfl

theorem splitBlock_rest (k : Kernel) (block size : ℕ) :
    (k.splitBlock block size).heapStart = k.heapStart ∧
    (k.splitBlock block size).frames = k.frames ∧
    (k.splitBlock block size).obtained = k.obtained := by
  unfold Kernel.splitBlock
  split_ifs <;> exact ⟨rfl, rfl, rfl⟩

theorem chains_splitBlock (h : Chains k.mem obtained (pre++(xs++(b::ys))::post))
    (hb : b.free = false) (ht : 12 < total) (hlt : total < 4294967200) :
    Chains (k.splitBlock b.addr total).mem obtained (pre++(xs++(cut b total 44++ys))::post) ∧
    ∀ x, ¬Covers b x → (k.splitBlock b.addr total).mem x = k.mem x := by
  obtain ⟨hblock, hs⟩ := chains_block h
  have h1 := hs.header
  have h2 := hs.last
  have h3 := hs.addr
  have hfirst : firstAddr ys 0 < 4294967296 := by
    have h4 : Chains k.mem obtained (pre++((xs++[b])++ys)::post) := by
      rw [List.append_assoc xs]
      exact h
    exact (firstAddr_bounds h4).1
  unfold cut
  by_cases hcut : total+44 < b.size
  · rw [if_pos hcut, splitBlock_mem h ht hcut]
    have hout : ∀ x, ¬Covers b x → write32 (write32 (write32 (write8 (write32 k.mem (b.addr+total)
        (b.size-total)) (b.addr+total+4) 1) (b.addr+total+8) (firstAddr ys 0)) b.addr total)
        (b.addr+8) (b.addr+total) x = k.mem x := by
      intro x hx
      have hx' : x < b.addr ∨ b.addr+b.size ≤ x := by
        unfold Covers at hx
        omega
      rw [write32_ne _ _ (by omega), write32_ne _ _ (by omega), write32_ne _ _ (by omega),
        write8_ne _ _ (by omega), write32_ne _ _ (by omega)]
    refine ⟨?_, hout⟩
    have hnew : BlockAt (write32 (write8 (write32 k.mem (b.addr+total) (b.size-total))
        (b.addr+total+4) 1) (b.addr+total+8) (firstAddr ys 0)) ⟨b.addr+total, b.size-total, true⟩
        (firstAddr ys 0) b.addr :=
      blockAt_new k.mem ⟨b.addr+total, b.size-total, true⟩ (by dsimp only; omega) hfirst
    have hold : BlockAt (write32 (write8 (write32 k.mem (b.addr+total) (b.size-total))
        (b.addr+total+4) 1) (b.addr+total+8) (firstAddr ys 0)) b (firstAddr ys 0)
        (lastAddr 0 xs) := by
      refine blockAt_congr hblock fun x h4 h5 => ?_
      rw [write32_ne _ _ (by omega), write8_ne _ _ (by omega), write32_ne _ _ (by omega)]
    refine chains_replace [b] [⟨b.addr, total, false⟩, ⟨b.addr+total, b.size-total, true⟩] h
      ⟨?_, ?_, trivial⟩ (fun _ => rfl) (fun x hx => hout x (hx b (by simp))) (fun d hd x hx => ?_)
      ?_ (fun d hd => ?_)
    · have h4 := blockAt_setNext (blockAt_setSize hold (by omega : total < 4294967296))
        (by omega : b.addr+total < 4294967296)
      rw [hb] at h4
      exact h4
    · refine blockAt_congr hnew fun x h4 h5 => ?_
      dsimp only at h4 h5
      rw [write32_ne _ _ (by omega), write32_ne _ _ (by omega)]
    · refine ⟨b, by simp, ?_⟩
      simp only [List.mem_cons, List.not_mem_nil, or_false] at hd
      unfold Covers at hx ⊢
      rcases hd with rfl | rfl <;> dsimp only at hx <;> omega
    · refine List.pairwise_cons.mpr ⟨fun d hd x hx => ?_, List.pairwise_singleton _ _⟩
      rw [List.mem_singleton] at hd
      subst hd
      unfold Covers at hx
      dsimp only at hx
      omega
    · simp only [List.mem_cons, List.not_mem_nil, or_false] at hd
      rcases hd with rfl | rfl
      · exact ⟨ht, h3, by dsimp only; omega⟩
      · exact ⟨by dsimp only; omega, by dsimp only; omega, by dsimp only; omega⟩
  · have hsize : k.size b.addr = b.size := hblock.size
    have hsame : k.splitBlock b.addr total = k := by
      unfold Kernel.splitBlock
      rw [hsize, u32_of_lt (by omega : total+12 < 4294967296), u32_of_lt (by omega)]
      exact if_pos (by omega)
    have hbeq : { b with free := false } = b := by rw [← hb]
    rw [if_neg hcut, hsame, hbeq]
    exact ⟨h, fun _ _ => rfl⟩

/-- A new area gets a list of its own. -/
theorem chains_new (h : Chains m obtained chains) {obtained' : ℕ → Bool} (hs : Sized b)
    (hblock : BlockAt m' b 0 0) (hmem : ∀ x, ¬Covers b x → m' x = m x)
    (hfresh : ∀ x, Covers b x → obtained (x/4096) = false)
    (hob : ∀ x, Covers b x → obtained' (x/4096) = true)
    (hmono : ∀ f, obtained f = true → obtained' f = true) :
    Chains m' obtained' (chains++[[b]]) := by
  have hflat : (chains++[[b]]).flatten = chains.flatten++[b] := by simp
  have hapart : ∀ d ∈ chains.flatten, Apart d b := by
    intro d hd x hx
    have h1 := h.inside d hd x hx.1
    rw [hfresh x hx.2] at h1
    exact absurd h1 (by simp)
  refine ⟨fun c hc => ?_, ?_, fun d hd => ?_, fun d hd x hx => ?_⟩
  · rcases List.mem_append.mp hc with hc | hc
    · have hin : ∀ d ∈ c, d ∈ chains.flatten := fun d hd => List.mem_flatten.mpr ⟨c, hc, hd⟩
      exact linked_keep (h.linked c hc) (fun d hd => h.sized d (hin d hd))
        fun d hd x hx => hmem x fun hbx => hapart d (hin d hd) x ⟨hx, hbx⟩
    · rw [List.mem_singleton] at hc
      rw [hc]
      exact ⟨hblock, trivial⟩
  · rw [hflat]
    refine List.pairwise_append.mpr ⟨h.apart, List.pairwise_singleton _ _, fun d hd e he => ?_⟩
    rw [List.mem_singleton] at he
    rw [he]
    exact hapart d hd
  · rw [hflat, List.mem_append, List.mem_singleton] at hd
    rcases hd with hd | rfl
    · exact h.sized d hd
    · exact hs
  · rw [hflat, List.mem_append, List.mem_singleton] at hd
    rcases hd with hd | rfl
    · exact hmono _ (h.inside d hd x hx)
    · exact hob x hx

/-- The last block of a list is linked to another list. -/
theorem chains_link {a : Block} (h : Chains m obtained [xs++[a], b::ys]) :
    Chains (write32 m (a.addr+8) b.addr) obtained [(xs++[a])++(b::ys)] := by
  have hflat : [xs++[a], b::ys].flatten = [(xs++[a])++(b::ys)].flatten := by simp
  have ha : a ∈ [xs++[a], b::ys].flatten := by simp
  have hsa := h.sized a ha
  have hsb := h.sized b (by simp)
  have h1 := hsa.header
  have h2 := hsb.last
  have h3 := hsb.header
  have hperm := h.apart
  refine ⟨fun c hc => ?_, hflat ▸ h.apart, fun d hd => h.sized d (hflat ▸ hd),
    fun d hd => h.inside d (hflat ▸ hd)⟩
  rw [List.mem_singleton] at hc
  subst hc
  obtain ⟨h4, h5⟩ := linked_append.mp (h.linked (xs++[a]) (by simp))
  have h6 := h.linked (b::ys) (by simp)
  -- the other blocks do not share a byte with the header that is written
  have hkeep : ∀ d ∈ xs++(b::ys), ∀ x, Covers d x → write32 m (a.addr+8) b.addr x = m x := by
    intro d hd x hx
    have hap : Apart a d := by
      have hp : (a::(xs++(b::ys))).Pairwise Apart := by
        have : ([xs++[a], b::ys].flatten).Perm (a::(xs++(b::ys))) := by
          simp only [List.flatten_cons, List.flatten_nil, List.append_nil, List.append_assoc]
          exact List.perm_middle
        exact (this.pairwise_iff Apart.symm).mp hperm
      exact (List.pairwise_cons.mp hp).1 d hd
    apply write32_ne
    have := hap x
    unfold Covers at this hx
    omega
  refine linked_append.mpr ⟨linked_append.mpr ⟨?_, ?_, trivial⟩, ?_⟩
  · exact linked_keep h4 (fun d hd => h.sized d (by simp [hd]))
      fun d hd => hkeep d (by simp [hd])
  · exact blockAt_setNext h5.1 (by omega)
  · refine linked_prev (linked_keep h6 (fun d hd => h.sized d ?_) fun d hd => hkeep d ?_)
    · simp only [List.mem_cons] at hd
      simp only [List.flatten_cons, List.flatten_nil, List.append_nil, List.mem_append,
        List.mem_cons]
      tauto
    · exact List.mem_append_right _ hd

/-- The search ends at a block that fits, or behind the last one. -/
theorem search_spec {bs : List Block} (hl : Linked (BlockAt k.mem) prev bs 0)
    (hs : ∀ b ∈ bs, Sized b) (total last : ℕ) {steps : ℕ} (hlen : bs.length < steps) :
    ∃ r, k.search total steps last (firstAddr bs 0) = some r ∧
      ((r.2 = 0 ∧ r.1 = lastAddr last bs) ∨
        ∃ ys b zs, bs = ys++b::zs ∧ b.free = true ∧ total ≤ b.size ∧ r.2 = b.addr) := by
  induction bs generalizing prev last steps with
  | nil =>
    obtain ⟨n, rfl⟩ : ∃ n, steps = n+1 := ⟨steps-1, by omega⟩
    exact ⟨(last, 0), if_pos rfl, Or.inl ⟨rfl, rfl⟩⟩
  | cons b bs ih =>
    obtain ⟨n, rfl⟩ : ∃ n, steps = n+1 := ⟨steps-1, by omega⟩
    have h1 := (hs b (by simp)).addr
    have hfree : k.isFree b.addr = b.free := hl.1.free
    have hsize : k.size b.addr = b.size := hl.1.size
    have hnext : k.next b.addr = firstAddr bs 0 := hl.1.next
    rw [firstAddr, Kernel.search, if_neg (by omega), hfree, hsize, hnext]
    by_cases hfit : b.free = true ∧ total ≤ b.size
    · rw [if_pos hfit]
      exact ⟨_, rfl, Or.inr ⟨[], b, bs, rfl, hfit.1, hfit.2, rfl⟩⟩
    · rw [if_neg hfit]
      have hlen' : bs.length < n := by
        rw [List.length_cons] at hlen
        omega
      obtain ⟨r, hr, hcases⟩ := ih hl.2 (fun c hc => hs c (by simp [hc])) b.addr hlen'
      refine ⟨r, hr, ?_⟩
      rcases hcases with hend | ⟨ys, c, zs, rfl, h3, h4, h5⟩
      · exact Or.inl hend
      · exact Or.inr ⟨b::ys, c, zs, rfl, h3, h4, h5⟩

/-- There are fewer blocks than addresses. -/
theorem length_lt {bs : List Block} (ha : bs.Pairwise Apart) (hs : ∀ b ∈ bs, Sized b) :
    bs.length < 4294967296 := by
  have hnodup : (bs.map Block.addr).Nodup := by
    rw [List.Nodup, List.pairwise_map]
    refine ha.imp_of_mem fun {b c} hb hc h he => ?_
    have h1 := (hs b hb).header
    have h2 := (hs c hc).header
    exact h b.addr ⟨⟨le_rfl, by omega⟩, ⟨by omega, by omega⟩⟩
  have hsub : (bs.map Block.addr).toFinset ⊆ (Finset.range 4294967296).erase 0 := by
    intro x hx
    rw [List.mem_toFinset, List.mem_map] at hx
    obtain ⟨b, hb, rfl⟩ := hx
    have h1 := (hs b hb).header
    have h2 := (hs b hb).addr
    have h3 := (hs b hb).last
    rw [Finset.mem_erase, Finset.mem_range]
    omega
  have hcard := Finset.card_le_card hsub
  rw [List.toFinset_card_of_nodup hnodup, List.length_map,
    Finset.card_erase_of_mem (Finset.mem_range.mpr (by omega)), Finset.card_range] at hcard
  omega

theorem kfree_spec (h : Chains k.mem obtained (pre++(xs++(b::ys))::post))
    (hadj : ∀ c zs, ys = c::zs → c.free = true → c.addr = b.addr+b.size) :
    Chains (k.kfree (b.addr+12)).mem obtained
      (pre++(xs++((joinNext { b with free := true } ys).1::
        (joinNext { b with free := true } ys).2))::post) ∧
    (∀ x, x < b.addr ∨ b.addr+12 ≤ x → (k.kfree (b.addr+12)).mem x = k.mem x) ∧
    (k.kfree (b.addr+12)).heapStart = k.heapStart ∧ (k.kfree (b.addr+12)).frames = k.frames ∧
    (k.kfree (b.addr+12)).obtained = k.obtained := by
  obtain ⟨-, hs⟩ := chains_block h
  have h1 := hs.header
  have h2 := hs.addr
  have h3 := hs.last
  have hf := chains_setIsFree h true
  have hblock : sub32 (b.addr+12) 12 = b.addr := by
    rw [sub32_of_le (by omega) (by omega), Nat.add_sub_cancel]
  have hmem1 : ∀ x, x < b.addr ∨ b.addr+12 ≤ x →
      (k.setIsFree b.addr true).mem x = k.mem x := fun x hx => write8_ne _ _ (by omega)
  unfold Kernel.kfree
  rw [if_neg (by omega)]
  dsimp only
  rw [hblock]
  have hrest : (k.setIsFree b.addr true).heapStart = k.heapStart ∧
    (k.setIsFree b.addr true).frames = k.frames ∧
    (k.setIsFree b.addr true).obtained = k.obtained := ⟨rfl, rfl, rfl⟩
  change Chains (k.setIsFree b.addr true).mem obtained _ at hf
  generalize k.setIsFree b.addr true = g at *
  obtain ⟨hgb, -⟩ := chains_block hf
  have hnext : g.next b.addr = firstAddr ys 0 := hgb.next
  have hsize : g.size b.addr = b.size := hgb.size
  rw [hnext]
  cases ys with
  | nil =>
    rw [if_neg (fun hh => hh.1 rfl)]
    exact ⟨hf, hmem1, hrest⟩
  | cons c zs =>
    have hf' : Chains g.mem obtained (pre++((xs++[{ b with free := true }])++(c::zs))::post) := by
      rw [List.append_assoc xs]
      exact hf
    obtain ⟨hgc, hsc⟩ := chains_block hf'
    have hcfree : g.isFree c.addr = c.free := hgc.free
    have h4 := hsc.addr
    have h5 := hsc.last
    have h6 := hsc.header
    rw [joinNext_cons]
    by_cases hc : c.free = true
    · have hadj' := hadj c zs rfl hc
      have hcsize : g.size c.addr = c.size := hgc.size
      have hlast : firstAddr zs 0 < 4294967296 := by
        have h7 : Chains g.mem obtained
            (pre++((xs++[{ b with free := true }, c])++zs)::post) := by
          rw [List.append_assoc xs]
          exact hf
        exact (firstAddr_bounds h7).1
      have hcnext : (g.setSize b.addr (b.size+c.size)).next c.addr = firstAddr zs 0 := by
        unfold Kernel.next Kernel.setSize
        rw [read32_write32_ne _ _ (by omega)]
        exact hgc.next
      have hbnext : (g.setSize b.addr (b.size+c.size)).next b.addr = c.addr := by
        unfold Kernel.next Kernel.setSize
        rw [read32_write32_ne _ _ (by omega)]
        exact hgb.next
      have hnonzero : firstAddr (c::zs) 0 ≠ 0 ∧ g.isFree (firstAddr (c::zs) 0) = true :=
        ⟨by simp only [firstAddr]; omega, hcfree.trans hc⟩
      rw [if_pos hc, if_pos hnonzero, hsize, firstAddr, hcsize,
        u32_of_lt (by omega : b.size+c.size < 4294967296), hbnext, hcnext]
      have hmem2 : ∀ x, x < b.addr ∨ b.addr+12 ≤ x → ((g.setSize b.addr (b.size+c.size)).setNext
          b.addr (firstAddr zs 0)).mem x = g.mem x := by
        intro x hx
        unfold Kernel.setSize Kernel.setNext
        dsimp only
        rw [write32_ne _ _ (by omega), write32_ne _ _ (by omega)]
      refine ⟨?_, fun x hx => (hmem2 x hx).trans (hmem1 x hx), hrest⟩
      refine chains_replace [{ b with free := true }, c]
        [{ b with free := true, size := b.size+c.size }] hf ⟨?_, trivial⟩ (fun _ => rfl)
        (fun x hx => hmem2 x ?_) (fun d hd x hx => ?_) (List.pairwise_singleton _ _)
        (fun d hd => ?_)
      · exact blockAt_setNext (b := { b with free := true, size := b.size+c.size })
          (blockAt_setSize hgb (by omega)) hlast
      · have hx' := hx { b with free := true } (by simp)
        unfold Covers at hx'
        dsimp only at hx'
        omega
      · rw [List.mem_singleton] at hd
        subst hd
        unfold Covers at hx
        dsimp only at hx
        by_cases hxb : x < b.addr+b.size
        · exact ⟨{ b with free := true }, by simp, hx.1, hxb⟩
        · refine ⟨c, by simp, ?_⟩
          unfold Covers
          omega
      · rw [List.mem_singleton] at hd
        subst hd
        exact ⟨by dsimp only; omega, hs.addr, by dsimp only; omega⟩
    · have hno : ¬(firstAddr (c::zs) 0 ≠ 0 ∧ g.isFree (firstAddr (c::zs) 0) = true) := by
        rintro ⟨-, h7⟩
        exact hc (hcfree.symm.trans h7)
      rw [if_neg hc, if_neg hno]
      exact ⟨hf, hmem1, hrest⟩

end Vlsmc.KmallocLayout
