import Vlsmc.BlockList
import Vlsmc.Malloc

/-!
# The blocks of the heap

The list of blocks that the headers in memory represent, and what each part of
`malloc` and `free` does to it.
-/

set_option autoImplicit false

namespace Vlsmc.MallocLayout
open Vlsmc.Words Vlsmc.ByteMemory Vlsmc.BlockList Vlsmc.Malloc

/-- The header of a block. -/
structure HeaderAt (m : Memory) (b : Block) (next prev : ℕ) : Prop where
  size : read32 m b.addr = b.size
  free : (m (b.addr+4) != 0) = b.free
  magic : read32 m (b.addr+8) = magicNumber
  next : read32 m (b.addr+12) = next
  prev : read32 m (b.addr+16) = prev

/-- A header depends on its twenty bytes only. -/
theorem headerAt_congr {m m' : Memory} {b : Block} {next prev : ℕ} (h : HeaderAt m b next prev)
    (hm : ∀ k, b.addr ≤ k → k < b.addr+20 → m' k = m k) : HeaderAt m' b next prev := by
  refine ⟨?_, ?_, ?_, ?_, ?_⟩
  · rw [read32_congr fun k h1 h2 => hm k (by omega) (by omega), h.size]
  · rw [hm _ (by omega) (by omega), h.free]
  · rw [read32_congr fun k h1 h2 => hm k (by omega) (by omega), h.magic]
  · rw [read32_congr fun k h1 h2 => hm k (by omega) (by omega), h.next]
  · rw [read32_congr fun k h1 h2 => hm k (by omega) (by omega), h.prev]

variable {m m' : Memory} {b c : Block} {xs ys bs : List Block} {next prev lo hi a v : ℕ}

theorem headerAt_setSize (h : HeaderAt m b next prev) (hv : v < 4294967296) :
    HeaderAt (write32 m b.addr v) { b with size := v } next prev := by
  refine ⟨read32_write32 _ _ hv, ?_, ?_, ?_, ?_⟩ <;> dsimp only
  · rw [write32_ne _ _ (by omega), h.free]
  · rw [read32_write32_ne _ _ (by omega), h.magic]
  · rw [read32_write32_ne _ _ (by omega), h.next]
  · rw [read32_write32_ne _ _ (by omega), h.prev]

theorem headerAt_setIsFree (h : HeaderAt m b next prev) (f : Bool) :
    HeaderAt (write8 m (b.addr+4) (if f then 1 else 0)) { b with free := f } next prev := by
  refine ⟨?_, ?_, ?_, ?_, ?_⟩ <;> dsimp only
  · rw [read32_write8_ne _ _ (by omega), h.size]
  · rw [write8_same]
    cases f <;> rfl
  · rw [read32_write8_ne _ _ (by omega), h.magic]
  · rw [read32_write8_ne _ _ (by omega), h.next]
  · rw [read32_write8_ne _ _ (by omega), h.prev]

theorem headerAt_setNext (h : HeaderAt m b next prev) (hv : v < 4294967296) :
    HeaderAt (write32 m (b.addr+12) v) b v prev := by
  refine ⟨?_, ?_, ?_, read32_write32 _ _ hv, ?_⟩
  · rw [read32_write32_ne _ _ (by omega), h.size]
  · rw [write32_ne _ _ (by omega), h.free]
  · rw [read32_write32_ne _ _ (by omega), h.magic]
  · rw [read32_write32_ne _ _ (by omega), h.prev]

theorem headerAt_setPrev (h : HeaderAt m b next prev) (hv : v < 4294967296) :
    HeaderAt (write32 m (b.addr+16) v) b next v := by
  refine ⟨?_, ?_, ?_, ?_, read32_write32 _ _ hv⟩
  · rw [read32_write32_ne _ _ (by omega), h.size]
  · rw [write32_ne _ _ (by omega), h.free]
  · rw [read32_write32_ne _ _ (by omega), h.magic]
  · rw [read32_write32_ne _ _ (by omega), h.next]

/-- The five fields of a new header. -/
theorem headerAt_new (m : Memory) (b : Block) (hs : b.size < 4294967296)
    (hn : next < 4294967296) (hp : prev < 4294967296) :
    HeaderAt (write32 (write32 (write32 (write8 (write32 m b.addr b.size) (b.addr+4)
      (if b.free then 1 else 0)) (b.addr+8) magicNumber) (b.addr+12) next) (b.addr+16) prev)
      b next prev := by
  refine ⟨?_, ?_, ?_, ?_, read32_write32 _ _ hp⟩
  · rw [read32_write32_ne _ _ (by omega), read32_write32_ne _ _ (by omega),
      read32_write32_ne _ _ (by omega), read32_write8_ne _ _ (by omega), read32_write32 _ _ hs]
  · rw [write32_ne _ _ (by omega), write32_ne _ _ (by omega), write32_ne _ _ (by omega), write8_same]
    cases b.free <;> rfl
  · rw [read32_write32_ne _ _ (by omega), read32_write32_ne _ _ (by omega),
      read32_write32 _ _ (by decide)]
  · rw [read32_write32_ne _ _ (by omega), read32_write32 _ _ hn]

/-- The headers of a list lie in its region. -/
theorem linked_congr (h : Linked (HeaderAt m) prev bs next) (ho : Ordered 20 lo bs hi)
    (hm : ∀ k, lo ≤ k → k < hi → m' k = m k) : Linked (HeaderAt m') prev bs next := by
  refine linked_imp (fun b hb n p hh => headerAt_congr hh fun k h1 h2 => ?_) h
  obtain ⟨h3, h4, h5⟩ := ordered_mem ho hb
  exact hm k (by omega) (by omega)

/-- Writing the `prev` of the first block. -/
theorem linked_setPrev (h : Linked (HeaderAt m) prev (c::ys) next)
    (ho : Ordered 20 lo (c::ys) hi) (hv : v < 4294967296) :
    Linked (HeaderAt (write32 m (c.addr+16) v)) v (c::ys) next := by
  refine ⟨headerAt_setPrev h.1 hv, linked_congr h.2 ho.2.2 fun k h1 h2 => ?_⟩
  have h3 := ho.2.1
  exact write32_ne _ _ (by omega)

/-- Writing the `next` of the last block. -/
theorem linked_setNext (h : Linked (HeaderAt m) prev (xs++[c]) next)
    (ho : Ordered 20 lo (xs++[c]) hi) (hv : v < 4294967296) :
    Linked (HeaderAt (write32 m (c.addr+12) v)) prev (xs++[c]) v := by
  obtain ⟨mid, ho1, ho2⟩ := ordered_append.mp ho
  obtain ⟨h1, h2⟩ := linked_append.mp h
  have h3 := ho2.1
  refine linked_append.mpr ⟨linked_congr h1 ho1 fun k _ hk => ?_, headerAt_setNext h2.1 hv, trivial⟩
  exact write32_ne _ _ (by omega)

/-- The heap represents a list of blocks between its base and the break. -/
structure Represents (h : Heap) (base : ℕ) (bs : List Block) : Prop where
  linked : Linked (HeaderAt h.mem) 0 bs 0
  head : h.head = firstAddr bs 0
  tail : h.tail = lastAddr 0 bs
  ordered : Ordered 20 base bs h.brk
  base : 0 < base
  brk : h.brk < 4294967296

variable {h : Heap} {base mid : ℕ}

theorem firstAddr_lt (ho : Ordered 20 lo bs hi) (hhi : hi < 4294967296) :
    firstAddr bs 0 < 4294967296 := by
  cases bs with
  | nil => exact Nat.zero_lt_succ _
  | cons b bs =>
    have h1 := ordered_le ho.2.2
    simp only [firstAddr]
    omega

theorem lastAddr_lt (ho : Ordered 20 lo bs hi) (hhi : hi < 4294967296)
    (hp : prev < 4294967296) : lastAddr prev bs < 4294967296 := by
  induction bs generalizing lo prev with
  | nil => exact hp
  | cons b bs ih =>
    have h1 := ordered_le ho.2.2
    exact ih ho.2.2 (by omega)

theorem lastAddr_concat (prev : ℕ) (xs : List Block) (a : Block) :
    lastAddr prev (xs++[a]) = a.addr := by
  rw [lastAddr_append]
  rfl

theorem lastAddr_mid (prev : ℕ) (xs : List Block) (b : Block) (ys : List Block) :
    lastAddr prev (xs++b::ys) = lastAddr b.addr ys := by
  rw [lastAddr_append]
  rfl

theorem firstAddr_mid (xs : List Block) (b : Block) (ys : List Block) (next : ℕ) :
    firstAddr (xs++b::ys) next = firstAddr xs b.addr := by
  rw [firstAddr_append]
  rfl

/-- A represented list around one of its blocks. -/
structure Around (h : Heap) (base mid : ℕ) (xs : List Block) (b : Block) (ys : List Block) :
    Prop where
  before : Linked (HeaderAt h.mem) 0 xs b.addr
  header : HeaderAt h.mem b (firstAddr ys 0) (lastAddr 0 xs)
  behind : Linked (HeaderAt h.mem) b.addr ys 0
  head : h.head = firstAddr xs b.addr
  tail : h.tail = lastAddr b.addr ys
  orderedBefore : Ordered 20 base xs mid
  orderedBehind : Ordered 20 mid (b::ys) h.brk
  base : 0 < base
  brk : h.brk < 4294967296

theorem represents_around (hr : Represents h base (xs++b::ys)) :
    ∃ mid, Around h base mid xs b ys := by
  obtain ⟨h1, h2, h3⟩ := linked_append.mp hr.linked
  obtain ⟨mid, h4, h5⟩ := ordered_append.mp hr.ordered
  exact ⟨mid, h1, h2, h3, hr.head.trans (firstAddr_mid _ _ _ _),
    hr.tail.trans (lastAddr_mid _ _ _ _), h4, h5, hr.base, hr.brk⟩

theorem around_represents (ha : Around h base mid xs b ys) : Represents h base (xs++b::ys) :=
  ⟨linked_append.mpr ⟨ha.before, ha.header, ha.behind⟩,
    ha.head.trans (firstAddr_mid _ _ _ _).symm, ha.tail.trans (lastAddr_mid _ _ _ _).symm,
    ordered_append.mpr ⟨mid, ha.orderedBefore, ha.orderedBehind⟩, ha.base, ha.brk⟩

theorem Around.le (ha : Around h base mid xs b ys) :
    0 < b.addr ∧ base ≤ mid ∧ mid ≤ b.addr ∧ 20 < b.size ∧ b.addr+b.size ≤ h.brk := by
  have h1 := ordered_le ha.orderedBefore
  have h2 := ha.orderedBehind.1
  have h3 := ha.orderedBehind.2.1
  have h4 := ordered_le ha.orderedBehind.2.2
  have h5 := ha.base
  exact ⟨by omega, h1, h2, h3, h4⟩

/-- The first part is left alone by writes from `mid` on. -/
theorem Around.keep_before (ha : Around h base mid xs b ys)
    (hm : ∀ k, k < mid → m' k = h.mem k) : Linked (HeaderAt m') 0 xs b.addr :=
  linked_congr ha.before ha.orderedBefore fun k _ hk => hm k hk

/-- The last part is left alone by writes in the block. -/
theorem Around.keep_behind (ha : Around h base mid xs b ys)
    (hm : ∀ k, b.addr+b.size ≤ k → m' k = h.mem k) : Linked (HeaderAt m') b.addr ys 0 :=
  linked_congr ha.behind ha.orderedBehind.2.2 fun k hk _ => hm k hk

/-- The bytes of the blocks in use stay as they are. -/
def Spares (m m' : Memory) (bs : List Block) : Prop :=
  ∀ d ∈ bs, d.free = false → ∀ k, d.addr+20 ≤ k → k < d.addr+d.size → m' k = m k

theorem around_setIsFree (ha : Around h base mid xs b ys) (f : Bool) :
    Around (h.setIsFree b.addr f) base mid xs { b with free := f } ys := by
  obtain ⟨h1, h2, h3, h4, h5⟩ := ha.le
  refine ⟨ha.keep_before fun k hk => write8_ne _ _ (by omega), headerAt_setIsFree ha.header f,
    ha.keep_behind fun k hk => write8_ne _ _ (by omega), ha.head, ha.tail, ha.orderedBefore,
    ha.orderedBehind, ha.base, ha.brk⟩

/-- A write into a header spares every payload. -/
theorem spares_header (ho : Ordered 20 lo bs hi) (hb : b ∈ bs)
    (hm : ∀ k, k < b.addr ∨ b.addr+20 ≤ k → m' k = m k) : Spares m m' bs := by
  intro d hd _ k h1 h2
  apply hm
  by_cases hne : d = b
  · rw [hne] at h1
    omega
  · have h3 := ordered_apart ho hd hb hne
    have h4 := (ordered_mem ho hb).2.2
    omega

theorem spares_trans {m'' : Memory} (h1 : Spares m m' bs) (h2 : Spares m' m'' bs) :
    Spares m m'' bs := by
  intro d hd hf k hk hk'
  rw [h2 d hd hf k hk hk', h1 d hd hf k hk hk']

/-- Linking a block to the rest of the list, or making it the last. -/
def relink (h : Heap) (block next : ℕ) : Heap :=
  if next ≠ 0 then h.setPrev next block else h.setTail block

theorem relink_brk (h : Heap) (block next : ℕ) : (relink h block next).brk = h.brk := by
  unfold relink
  split_ifs <;> rfl

theorem relink_head (h : Heap) (block next : ℕ) : (relink h block next).head = h.head := by
  unfold relink
  split_ifs <;> rfl

theorem relink_mem (h : Heap) {block next k : ℕ} (hk : k < next+16 ∨ next+20 ≤ k) :
    (relink h block next).mem k = h.mem k := by
  unfold relink
  split_ifs
  · exact write32_ne _ _ (by omega)
  · rfl

/-- The blocks behind follow the block that was linked to them. -/
theorem relink_behind {prev block : ℕ} (hl : Linked (HeaderAt h.mem) prev ys 0)
    (ho : Ordered 20 lo ys hi) (hlo : 0 < lo) (hb : block < 4294967296)
    (ht : ys ≠ [] → h.tail = lastAddr block ys) :
    Linked (HeaderAt (relink h block (firstAddr ys 0)).mem) block ys 0 ∧
    (relink h block (firstAddr ys 0)).tail = lastAddr block ys := by
  cases ys with
  | nil => exact ⟨trivial, rfl⟩
  | cons c zs =>
    have h1 := ho.1
    have hne : c.addr ≠ 0 := by omega
    have hre : relink h block (firstAddr (c::zs) 0) = h.setPrev c.addr block := if_pos hne
    rw [hre]
    exact ⟨linked_setPrev hl ho hb, ht (by simp)⟩

/-- A list whose part behind `b` still has to be linked to it. -/
theorem around_relink {prev : ℕ} (hbefore : Linked (HeaderAt h.mem) 0 xs b.addr)
    (hheader : HeaderAt h.mem b (firstAddr ys 0) (lastAddr 0 xs))
    (hbehind : Linked (HeaderAt h.mem) prev ys 0) (hhead : h.head = firstAddr xs b.addr)
    (htail : ys ≠ [] → h.tail = lastAddr b.addr ys) (ho1 : Ordered 20 base xs mid)
    (ho2 : Ordered 20 mid (b::ys) h.brk) (hbase : 0 < base) (hbrk : h.brk < 4294967296) :
    Around (relink h b.addr (firstAddr ys 0)) base mid xs b ys := by
  have h1 := ordered_le ho1
  have h2 := ho2.1
  have h3 := ho2.2.1
  have h4 := ordered_le ho2.2.2
  obtain ⟨h5, h6⟩ := relink_behind hbehind ho2.2.2 (by omega) (by omega : b.addr < 4294967296) htail
  have hmem : ∀ k, k < b.addr+b.size → (relink h b.addr (firstAddr ys 0)).mem k = h.mem k := by
    intro k hk
    cases ys with
    | nil => rfl
    | cons c zs =>
      have h7 := ho2.2.2.1
      exact relink_mem h (Or.inl (by simp only [firstAddr]; omega))
  refine ⟨linked_congr hbefore ho1 fun k _ hk => hmem k (by omega),
    headerAt_congr hheader fun k _ hk => hmem k (by omega), h5,
    (relink_head _ _ _).trans hhead, h6, ho1, ?_, hbase, ?_⟩
  · rw [relink_brk]
    exact ho2
  · rw [relink_brk]
    exact hbrk

/-- Linking spares the payloads of the whole list. -/
theorem spares_relink {block : ℕ} (ho : Ordered 20 lo bs hi) (hy : ∀ c ∈ ys, c ∈ bs) :
    Spares h.mem (relink h block (firstAddr ys 0)).mem bs := by
  cases ys with
  | nil => exact fun _ _ _ _ _ _ => rfl
  | cons c zs =>
    apply spares_header ho (hy c (by simp))
    intro k hk
    exact relink_mem h (by simp only [firstAddr]; omega)

/-- A block that takes in the one behind it, whichever of the two was freed. -/
def absorb (h : Heap) (block size next : ℕ) : Heap :=
  relink ((h.setSize block size).setNext block next) block next

theorem around_absorb (ha : Around h base mid xs b (c::ys)) :
    Around (absorb h b.addr (b.size+c.size) (firstAddr ys 0)) base mid xs
      { b with size := b.size+c.size } ys ∧
    Spares h.mem (absorb h b.addr (b.size+c.size) (firstAddr ys 0)).mem (xs++b::c::ys) ∧
    (absorb h b.addr (b.size+c.size) (firstAddr ys 0)).brk = h.brk := by
  obtain ⟨h1, h2, h3, h4, h5⟩ := ha.le
  obtain ⟨h6, h7, h8⟩ := ha.orderedBehind.2.2
  have h9 := ordered_le h8
  have h10 := ha.brk
  have h11 := firstAddr_lt h8 h10
  -- the header of the block holds the new size and the new successor
  have hheader : HeaderAt ((h.setSize b.addr (b.size+c.size)).setNext b.addr
      (firstAddr ys 0)).mem { b with size := b.size+c.size } (firstAddr ys 0) (lastAddr 0 xs) :=
    headerAt_setNext (b := { b with size := b.size+c.size })
      (headerAt_setSize ha.header (by omega)) h11
  have hmem : ∀ k, k < b.addr ∨ b.addr+16 ≤ k → ((h.setSize b.addr (b.size+c.size)).setNext
      b.addr (firstAddr ys 0)).mem k = h.mem k := by
    intro k hk
    unfold Heap.setSize Heap.setNext
    dsimp only
    rw [write32_ne _ _ (by omega), write32_ne _ _ (by omega)]
  have htail : ((h.setSize b.addr (b.size+c.size)).setNext b.addr (firstAddr ys 0)).tail =
    h.tail := rfl
  have hhead : ((h.setSize b.addr (b.size+c.size)).setNext b.addr (firstAddr ys 0)).head =
    h.head := rfl
  have hbrk : ((h.setSize b.addr (b.size+c.size)).setNext b.addr (firstAddr ys 0)).brk =
    h.brk := rfl
  unfold absorb
  generalize (h.setSize b.addr (b.size+c.size)).setNext b.addr (firstAddr ys 0) = h' at *
  have ho := (around_represents ha).ordered
  refine ⟨?_, ?_, ?_⟩
  · refine around_relink (b := { b with size := b.size+c.size })
      (ha.keep_before fun k hk => hmem k (by omega)) hheader
      (linked_congr ha.behind.2 h8 fun k hk _ => hmem k (by omega)) (hhead.trans ha.head)
      (fun hne => ?_) ha.orderedBefore ?_ ha.base (by omega)
    · rw [htail, ha.tail]
      cases ys with
      | nil => exact absurd rfl hne
      | cons d zs => rfl
    · rw [hbrk]
      exact ⟨h3, by dsimp only; omega, ordered_mono h8 (by dsimp only; omega) le_rfl⟩
  · have hs : Spares h.mem h'.mem (xs++b::c::ys) :=
      spares_header ho (b := b) (by simp) fun k hk => hmem k (by omega)
    exact spares_trans hs (spares_relink ho fun d hd => by simp [hd])
  · rw [relink_brk, hbrk]

theorem coalesceNext_free (ha : Around h base mid xs b (c::ys)) (hc : c.free = true) :
    h.coalesceNext b.addr = absorb h b.addr (b.size+c.size) (firstAddr ys 0) := by
  obtain ⟨h1, h2, h3, h4, h5⟩ := ha.le
  obtain ⟨h6, h7, h8⟩ := ha.orderedBehind.2.2
  have h9 := ordered_le h8
  have h10 := ha.brk
  have hnext : h.next b.addr = c.addr := ha.header.next
  have hfree : h.isFree c.addr = true := ha.behind.1.free.trans hc
  have hsize : u32 (h.size b.addr+h.size c.addr) = b.size+c.size := by
    unfold Heap.size
    rw [ha.header.size, ha.behind.1.size, u32_of_lt (by omega)]
  unfold Heap.coalesceNext
  rw [hnext, if_pos ⟨by omega, hfree⟩]
  dsimp only
  rw [hsize]
  have hheader := headerAt_setSize ha.header (v := b.size+c.size) (by omega)
  have hnext1 : (h.setSize b.addr (b.size+c.size)).next b.addr = c.addr := hheader.next
  have hnext2 : (h.setSize b.addr (b.size+c.size)).next c.addr = firstAddr ys 0 := by
    unfold Heap.next Heap.setSize
    rw [read32_write32_ne _ _ (by omega)]
    exact ha.behind.1.next
  rw [hnext1, hnext2]
  have hnext3 : ((h.setSize b.addr (b.size+c.size)).setNext b.addr (firstAddr ys 0)).next b.addr =
      firstAddr ys 0 := read32_write32 _ _ (firstAddr_lt h8 h10)
  rw [hnext3]
  rfl

theorem around_coalesceNext (ha : Around h base mid xs b ys) :
    Around (h.coalesceNext b.addr) base mid xs (joinNext b ys).1 (joinNext b ys).2 ∧
    Spares h.mem (h.coalesceNext b.addr).mem (xs++b::ys) ∧
    (h.coalesceNext b.addr).brk = h.brk := by
  have hnext : h.next b.addr = firstAddr ys 0 := ha.header.next
  cases ys with
  | nil =>
    have heq : h.coalesceNext b.addr = h := by
      unfold Heap.coalesceNext
      rw [hnext]
      exact if_neg fun hh => hh.1 rfl
    rw [heq]
    exact ⟨ha, fun _ _ _ _ _ _ => rfl, rfl⟩
  | cons c zs =>
    rw [joinNext_cons]
    by_cases hc : c.free = true
    · rw [if_pos hc, coalesceNext_free ha hc]
      exact around_absorb ha
    · rw [if_neg hc]
      have heq : h.coalesceNext b.addr = h := by
        unfold Heap.coalesceNext
        rw [hnext]
        exact if_neg fun hh => hc (ha.behind.1.free ▸ hh.2)
      rw [heq]
      exact ⟨ha, fun _ _ _ _ _ _ => rfl, rfl⟩

theorem around_last (ha : Around h base mid (xs++[c]) b ys) :
    ∃ mid', Around h base mid' xs c (b::ys) := by
  have hr := around_represents ha
  rw [List.append_assoc, List.singleton_append] at hr
  exact represents_around hr

theorem coalescePrev_free (ha : Around h base mid (xs++[c]) b ys) (hc : c.free = true) :
    h.coalescePrev b.addr = (c.addr, absorb h c.addr (c.size+b.size) (firstAddr ys 0)) := by
  obtain ⟨mid', hc'⟩ := around_last ha
  obtain ⟨h1, h2, h3, h4, h5⟩ := hc'.le
  obtain ⟨h6, h7, h8⟩ := hc'.orderedBehind.2.2
  have h9 := ordered_le h8
  have h10 := ha.brk
  have hprev : h.prev b.addr = c.addr := ha.header.prev.trans (lastAddr_concat _ _ _)
  have hfree : h.isFree c.addr = true := hc'.header.free.trans hc
  have hsize : u32 (h.size c.addr+h.size b.addr) = c.size+b.size := by
    unfold Heap.size
    rw [hc'.header.size, ha.header.size, u32_of_lt (by omega)]
  unfold Heap.coalescePrev
  rw [hprev, if_pos ⟨by omega, hfree⟩]
  dsimp only
  rw [hsize]
  -- the header of the block itself is not written before the end
  have hsame : ∀ k, b.addr ≤ k → (h.setSize c.addr (c.size+b.size)).mem k = h.mem k :=
    fun k hk => write32_ne _ _ (by omega)
  have hnext1 : (h.setSize c.addr (c.size+b.size)).next b.addr = firstAddr ys 0 :=
    (headerAt_congr ha.header fun k hk _ => hsame k hk).next
  have hprev1 : (h.setSize c.addr (c.size+b.size)).prev b.addr = c.addr :=
    (headerAt_congr ha.header fun k hk _ => hsame k hk).prev.trans (lastAddr_concat _ _ _)
  rw [hprev1, hnext1]
  have hheader : HeaderAt ((h.setSize c.addr (c.size+b.size)).setNext c.addr (firstAddr ys 0)).mem
      b (firstAddr ys 0) c.addr := by
    have hb := ha.header
    rw [lastAddr_concat] at hb
    refine headerAt_congr hb fun k hk _ => ?_
    unfold Heap.setNext
    dsimp only
    rw [write32_ne _ _ (by omega), hsame k hk]
  unfold absorb
  generalize (h.setSize c.addr (c.size+b.size)).setNext c.addr (firstAddr ys 0) = h' at *
  have hnext2 : h'.next b.addr = firstAddr ys 0 := hheader.next
  have hprev2 : h'.prev b.addr = c.addr := hheader.prev
  rw [hnext2, hprev2]
  have hprev3 : (relink h' c.addr (firstAddr ys 0)).prev b.addr = c.addr := by
    refine (headerAt_congr hheader fun k _ hk => ?_).prev
    cases ys with
    | nil => rfl
    | cons d zs =>
      have h11 := h8.1
      exact relink_mem h' (Or.inl (by simp only [firstAddr]; omega))
  exact Prod.ext hprev3 rfl

theorem around_coalescePrev (ha : Around h base mid xs b ys) :
    (∃ mid', Around (h.coalescePrev b.addr).2 base mid' (joinPrev xs b).1 (joinPrev xs b).2 ys) ∧
    (h.coalescePrev b.addr).1 = (joinPrev xs b).2.addr ∧
    Spares h.mem (h.coalescePrev b.addr).2.mem (xs++b::ys) ∧
    (h.coalescePrev b.addr).2.brk = h.brk := by
  rcases List.eq_nil_or_concat' xs with rfl | ⟨xs, c, rfl⟩
  · have heq : h.coalescePrev b.addr = (b.addr, h) := by
      have hprev : h.prev b.addr = 0 := ha.header.prev
      unfold Heap.coalescePrev
      rw [hprev]
      exact if_neg fun hh => hh.1 rfl
    rw [heq]
    exact ⟨⟨mid, ha⟩, rfl, fun _ _ _ _ _ _ => rfl, rfl⟩
  · obtain ⟨mid', hc'⟩ := around_last ha
    rw [joinPrev_concat]
    by_cases hc : c.free = true
    · rw [if_pos hc, coalescePrev_free ha hc]
      obtain ⟨h1, h2, h3⟩ := around_absorb hc'
      rw [List.append_assoc]
      exact ⟨⟨mid', h1⟩, rfl, h2, h3⟩
    · rw [if_neg hc]
      have heq : h.coalescePrev b.addr = (b.addr, h) := by
        have hprev : h.prev b.addr = c.addr := ha.header.prev.trans (lastAddr_concat _ _ _)
        unfold Heap.coalescePrev
        rw [hprev]
        exact if_neg fun hh => hc (hc'.header.free ▸ hh.2)
      rw [heq]
      exact ⟨⟨mid, ha⟩, rfl, fun _ _ _ _ _ _ => rfl, rfl⟩

theorem toInt32_neg {n : ℕ} (hn : 0 < n) (hn' : n ≤ 2147483648) :
    toInt32 (sub32 0 n) = -(n:ℤ) := by
  have hsub : sub32 0 n = 4294967296-n := by
    unfold sub32
    omega
  unfold toInt32
  rw [hsub, if_neg (by omega)]
  omega

/-- Beyond half of the address space the sign is lost. -/
theorem toInt32_neg_large {n : ℕ} (hn : 2147483648 < n) (hn' : n < 4294967296) :
    toInt32 (sub32 0 n) = 4294967296-(n:ℤ) := by
  have hsub : sub32 0 n = 4294967296-n := by
    unfold sub32
    omega
  unfold toInt32
  rw [hsub, if_pos (by omega)]
  omega

/-- Giving memory back; too large a request is refused. -/
theorem sbrk_shrink (h : Heap) {n : ℕ} (hn : 0 < n) (hb : n ≤ h.brk) (hbrk : h.brk < 4294967296)
    (reply : Reply) : (h.sbrk (toInt32 (sub32 0 n)) reply).2 =
      if reply.granted ∧ n ≤ 2147483648 then { h with brk := h.brk-n } else h := by
  unfold Heap.sbrk
  dsimp only
  by_cases hlarge : n ≤ 2147483648
  · rw [toInt32_neg hn hlarge]
    by_cases hg : reply.granted = true
    · rw [if_pos ⟨hg, by omega, by omega⟩, if_pos ⟨hg, hlarge⟩]
      dsimp only
      congr 1
      · funext k
        rw [if_neg (by omega)]
      · omega
    · rw [if_neg (fun hh => hg hh.1), if_neg (fun hh => hg hh.1)]
  · rw [toInt32_neg_large (by omega) (by omega), if_neg (by omega), if_neg (fun hh => hlarge hh.2)]

theorem lastAddr_ne (ho : Ordered 20 lo (c::ys) hi) (hb : b.addr < lo) :
    lastAddr b.addr (c::ys) ≠ b.addr := by
  induction ys generalizing c lo with
  | nil =>
    have h1 := ho.1
    simp only [lastAddr]
    omega
  | cons d zs ih =>
    have h1 := ho.1
    have h2 := ho.2.2
    exact ih h2 (by omega)

/-- The block is not the last one. -/
theorem releaseTail_mid (ha : Around h base mid xs b ys) (hy : ys ≠ []) (reply : Reply) :
    h.releaseTail b.addr reply = h := by
  obtain ⟨c, zs, rfl⟩ := List.exists_cons_of_ne_nil hy
  have h1 := ha.le
  unfold Heap.releaseTail
  rw [if_neg]
  rw [ha.tail]
  exact Ne.symm (lastAddr_ne ha.orderedBehind.2.2 (by omega))

/-- The list without its last block. -/
def unlink (h : Heap) (prev : ℕ) : Heap :=
  if prev ≠ 0 then (h.setNext prev 0).setTail prev else (h.setHead 0).setTail 0

theorem unlink_brk (h : Heap) (prev : ℕ) : (unlink h prev).brk = h.brk := by
  unfold unlink
  split_ifs <;> rfl

theorem represents_unlink (ha : Around h base mid xs b []) :
    Represents (unlink h (lastAddr 0 xs)) base xs ∧
    Spares h.mem (unlink h (lastAddr 0 xs)).mem xs ∧
    ∀ k, mid ≤ k → (unlink h (lastAddr 0 xs)).mem k = h.mem k := by
  obtain ⟨h1, h2, h3, h4, h5⟩ := ha.le
  rcases List.eq_nil_or_concat' xs with rfl | ⟨xs, a, rfl⟩
  · have hle : base ≤ h.brk := by omega
    exact ⟨⟨trivial, rfl, rfl, hle, ha.base, ha.brk⟩, fun _ hd => by simp at hd, fun _ _ => rfl⟩
  · obtain ⟨h6, h7, h8⟩ := ordered_mem ha.orderedBefore (b := a) (by simp)
    have h9 := ha.base
    have heq : unlink h a.addr = (h.setNext a.addr 0).setTail a.addr :=
      if_pos (show a.addr ≠ 0 by omega)
    have hhead : h.head = firstAddr (xs++[a]) 0 := by
      rw [ha.head, firstAddr_append, firstAddr_append]
      rfl
    rw [lastAddr_concat, heq]
    refine ⟨⟨?_, hhead, (lastAddr_concat _ _ _).symm, ?_, ha.base, ha.brk⟩, ?_, fun k hk => ?_⟩
    · exact linked_setNext ha.before ha.orderedBefore (by omega)
    · exact ordered_mono ha.orderedBefore le_rfl (h3.trans ((Nat.le_add_right _ _).trans h5))
    · exact spares_header ha.orderedBefore (b := a) (by simp) fun k hk => write32_ne _ _ (by omega)
    · exact write32_ne _ _ (by omega)

/-- The last block is given back. -/
theorem releaseTail_last (ha : Around h base mid xs b []) (reply : Reply) :
    h.releaseTail b.addr reply =
      if reply.granted ∧ b.size ≤ 2147483648 then
        { unlink h (lastAddr 0 xs) with brk := h.brk-b.size }
      else unlink h (lastAddr 0 xs) := by
  obtain ⟨h1, h2, h3, h4, h5⟩ := ha.le
  have h6 := ha.brk
  have hprev : h.prev b.addr = lastAddr 0 xs := ha.header.prev
  have hsize : (unlink h (lastAddr 0 xs)).size b.addr = b.size :=
    (headerAt_congr ha.header fun k hk _ => (represents_unlink ha).2.2 k (by omega)).size
  have hbrk := unlink_brk h (lastAddr 0 xs)
  have htail : b.addr = h.tail := ha.tail.symm
  unfold Heap.releaseTail
  rw [if_pos htail, hprev]
  change ((unlink h (lastAddr 0 xs)).sbrk (toInt32 (sub32 0 ((unlink h (lastAddr 0 xs)).size
    b.addr))) reply).2 = _
  rw [hsize, sbrk_shrink _ (by omega) (by omega) (by omega), hbrk]

theorem free_eq (h : Heap) {ptr : ℕ} (hp : ptr ≠ 0)
    (hm : h.magic (sub32 ptr headerSize) = magicNumber) (reply : Reply) :
    h.free ptr reply = some ((((h.setIsFree (sub32 ptr headerSize) true).coalesceNext
      (sub32 ptr headerSize)).coalescePrev (sub32 ptr headerSize)).2.releaseTail
      (((h.setIsFree (sub32 ptr headerSize) true).coalesceNext
      (sub32 ptr headerSize)).coalescePrev (sub32 ptr headerSize)).1 reply) := by
  unfold Heap.free
  rw [if_neg hp]
  dsimp only
  rw [if_neg (fun hh => hh hm)]

/-- The last step of `free`. -/
theorem represents_releaseTail (ha : Around h base mid xs b ys) (reply : Reply) :
    Represents (h.releaseTail b.addr reply) base (if ys = [] then xs else xs++b::ys) ∧
    Spares h.mem (h.releaseTail b.addr reply).mem xs ∧
    (ys ≠ [] → h.releaseTail b.addr reply = h) ∧
    (h.releaseTail b.addr reply).brk =
      if reply.granted ∧ (if ys = [] then b.size else 0) ≤ 2147483648 then
        h.brk-(if ys = [] then b.size else 0)
      else h.brk := by
  by_cases hy : ys = []
  · subst hy
    rw [if_pos rfl, if_pos rfl, releaseTail_last ha]
    obtain ⟨h1, h2, -⟩ := represents_unlink ha
    obtain ⟨-, -, h5, -, h7⟩ := ha.le
    have h8 := ha.brk
    split_ifs with hg
    · refine ⟨⟨h1.linked, h1.head, h1.tail, ?_, ha.base, ?_⟩, h2, fun hn => absurd rfl hn, rfl⟩
      · exact ordered_mono ha.orderedBefore le_rfl (by dsimp only; omega)
      · dsimp only
        omega
    · exact ⟨h1, h2, fun hn => absurd rfl hn, unlink_brk _ _⟩
  · rw [if_neg hy, if_neg hy, releaseTail_mid ha hy]
    refine ⟨around_represents ha, fun _ _ _ _ _ _ => rfl, fun _ => rfl, ?_⟩
    split_ifs <;> rfl

theorem free_spec (hr : Represents h base (xs++b::ys)) (reply : Reply) :
    ∃ h', h.free (b.addr+headerSize) reply = some h' ∧ Represents h' base (freed xs b ys) ∧
      Spares h.mem h'.mem (xs++ys) ∧
      h'.brk = if reply.granted ∧ released xs b ys ≤ 2147483648 then h.brk-released xs b ys
        else h.brk := by
  obtain ⟨mid, ha⟩ := represents_around hr
  obtain ⟨h1, h2, h3, h4, h5⟩ := ha.le
  have h6 := ha.brk
  have hblock : sub32 (b.addr+headerSize) headerSize = b.addr := by
    unfold headerSize
    rw [sub32_of_le (by omega) (by omega), Nat.add_sub_cancel]
  have hmagic : h.magic (sub32 (b.addr+headerSize) headerSize) = magicNumber := by
    rw [hblock]
    exact ha.header.magic
  have hs1 : Spares h.mem (h.setIsFree b.addr true).mem (xs++b::ys) :=
    spares_header hr.ordered (b := b) (by simp) fun k hk => write8_ne _ _ (by omega)
  have hbrk1 : (h.setIsFree b.addr true).brk = h.brk := rfl
  have ha1 := around_setIsFree ha true
  rw [free_eq h (by unfold headerSize; omega) hmagic, hblock]
  refine ⟨_, rfl, ?_⟩
  generalize h.setIsFree b.addr true = g1 at *
  obtain ⟨ha2, hs2, hbrk2⟩ := around_coalesceNext ha1
  dsimp only at ha2 hs2 hbrk2
  generalize g1.coalesceNext b.addr = g2 at *
  obtain ⟨⟨mid', ha3⟩, haddr, hs3, hbrk3⟩ := around_coalescePrev ha2
  rw [joinNext_addr] at haddr hs3 hbrk3 ha3
  dsimp only at haddr hs3 hbrk3 ha3
  generalize g2.coalescePrev b.addr = g3 at *
  rw [haddr]
  obtain ⟨hr4, hs4, hsame4, hbrk4⟩ := represents_releaseTail ha3 reply
  generalize g3.2.releaseTail _ reply = g4 at *
  refine ⟨hr4, ?_, ?_⟩
  · intro d hd hf k hk hk'
    have hd1 : d ∈ xs++{ b with free := true }::ys := by
      simp only [List.mem_append, List.mem_cons] at hd ⊢
      tauto
    have hd0 : d ∈ xs++b::ys := by
      simp only [List.mem_append, List.mem_cons] at hd ⊢
      tauto
    have hd2 : d ∈ xs++(joinNext { b with free := true } ys).1::
        (joinNext { b with free := true } ys).2 := by
      rw [List.mem_append, mem_joinNext rfl hf]
      exact List.mem_append.mp hd
    have h43 : g4.mem k = g3.2.mem k := by
      by_cases hy : (joinNext { b with free := true } ys).2 = []
      · refine hs4 d ?_ hf k hk hk'
        rw [mem_joinPrev hf]
        rw [hy, List.mem_append, List.mem_singleton] at hd2
        rcases hd2 with hd2 | rfl
        · exact hd2
        · rw [joinNext_free] at hf
          exact absurd hf (by simp)
      · rw [hsame4 hy]
    rw [h43, hs3 d hd2 hf k hk hk', hs2 d hd1 hf k hk hk', hs1 d hd0 hf k hk hk']
  · rw [hbrk4, hbrk3, hbrk2, hbrk1]
    rfl

/-- The search ends at a block that fits, or behind the last one. -/
theorem findFreeBlock_spec (hl : Linked (HeaderAt h.mem) prev bs 0) (ho : Ordered 20 lo bs hi)
    (hlo : 0 < lo) (size last : ℕ) {steps : ℕ} (hs : bs.length < steps) :
    ∃ r, h.findFreeBlock size steps last (firstAddr bs 0) = some r ∧
      ((r.2 = 0 ∧ r.1 = lastAddr last bs) ∨
        ∃ ys b zs, bs = ys++b::zs ∧ b.free = true ∧ size ≤ b.size ∧ r.2 = b.addr) := by
  induction bs generalizing prev lo last steps with
  | nil =>
    obtain ⟨n, rfl⟩ := Nat.exists_eq_add_of_lt hs
    exact ⟨(last, 0), rfl, Or.inl ⟨rfl, rfl⟩⟩
  | cons b bs ih =>
    obtain ⟨n, rfl⟩ : ∃ n, steps = n+1 := ⟨steps-1, by omega⟩
    have h1 := ho.1
    have hfree : h.isFree b.addr = b.free := hl.1.free
    have hsize : h.size b.addr = b.size := hl.1.size
    have hnext : h.next b.addr = firstAddr bs 0 := hl.1.next
    rw [firstAddr, Heap.findFreeBlock, hfree, hsize, hnext]
    by_cases hfit : b.free = true ∧ size ≤ b.size
    · rw [if_neg (fun hh => hh.2 hfit)]
      exact ⟨_, rfl, Or.inr ⟨[], b, bs, rfl, hfit.1, hfit.2, rfl⟩⟩
    · rw [if_pos ⟨by omega, hfit⟩]
      have hlen : bs.length < n := by
        rw [List.length_cons] at hs
        omega
      obtain ⟨r, hr, hcases⟩ := ih hl.2 ho.2.2 (by omega) b.addr hlen
      refine ⟨r, hr, ?_⟩
      rcases hcases with hend | ⟨ys, c, zs, rfl, h3, h4, h5⟩
      · exact Or.inl hend
      · exact Or.inr ⟨b::ys, c, zs, rfl, h3, h4, h5⟩

/-- The header that `split_block` writes behind the block. -/
def writeHeader (h : Heap) (b : Block) (next prev : ℕ) : Heap :=
  ((((h.setSize b.addr b.size).setIsFree b.addr b.free).setMagic b.addr magicNumber).setNext
    b.addr next).setPrev b.addr prev

theorem writeHeader_mem (h : Heap) (b : Block) (next prev : ℕ) {k : ℕ}
    (hk : k < b.addr ∨ b.addr+20 ≤ k) : (writeHeader h b next prev).mem k = h.mem k := by
  unfold writeHeader Heap.setSize Heap.setIsFree Heap.setMagic Heap.setNext Heap.setPrev
  dsimp only
  rw [write32_ne _ _ (by omega), write32_ne _ _ (by omega), write32_ne _ _ (by omega),
    write8_ne _ _ (by omega), write32_ne _ _ (by omega)]

/-- `split_block` where it cuts. -/
theorem splitBlock_eq (ha : Around h base mid xs b ys) {size : ℕ} (hs : 20 < size)
    (hcut : size+28 < b.size) :
    h.splitBlock b.addr size =
      ((relink (writeHeader h ⟨b.addr+size, b.size-size, true⟩ (firstAddr ys 0) b.addr)
        (b.addr+size) (firstAddr ys 0)).setNext b.addr (b.addr+size)).setSize b.addr size := by
  obtain ⟨h1, h2, h3, h4, h5⟩ := ha.le
  have h6 := ha.brk
  have hsize : h.size b.addr = b.size := ha.header.size
  have hbound : u32 (u32 (size+headerSize)+8) = size+28 := by
    unfold headerSize
    rw [u32_of_lt (by omega : size+20 < 4294967296), u32_of_lt (by omega)]
  have hsub : sub32 b.size size = b.size-size := sub32_of_le (by omega) (by omega)
  unfold Heap.splitBlock
  rw [hsize, hbound, if_pos hcut, u32_of_lt (by omega : b.addr+size < 4294967296)]
  dsimp only
  rw [hsub]
  have hmem : ∀ k, k < b.addr+size → (((h.setSize (b.addr+size) (b.size-size)).setIsFree
      (b.addr+size) true).setMagic (b.addr+size) magicNumber).mem k = h.mem k := by
    intro k hk
    unfold Heap.setSize Heap.setIsFree Heap.setMagic
    dsimp only
    rw [write32_ne _ _ (by omega), write8_ne _ _ (by omega), write32_ne _ _ (by omega)]
  have hnext1 : (((h.setSize (b.addr+size) (b.size-size)).setIsFree
      (b.addr+size) true).setMagic (b.addr+size) magicNumber).next b.addr = firstAddr ys 0 :=
    (headerAt_congr ha.header fun k _ hk => hmem k (by omega)).next
  rw [hnext1]
  have hnext2 : (writeHeader h ⟨b.addr+size, b.size-size, true⟩ (firstAddr ys 0) b.addr).next
      b.addr = firstAddr ys 0 :=
    (headerAt_congr ha.header fun k _ hk => writeHeader_mem _ _ _ _ (Or.inl (by
      dsimp only
      omega))).next
  unfold writeHeader at hnext2 ⊢
  dsimp only at hnext2 ⊢
  rw [hnext2]
  rfl

theorem represents_splitBlock (ha : Around h base mid xs b ys) {size : ℕ} (hs : 20 < size)
    (hlt : size < 2147483648) (hb : b.free = false) :
    Represents (h.splitBlock b.addr size) base (xs++(cut b size 28++ys)) ∧
    Spares h.mem (h.splitBlock b.addr size).mem (xs++ys) ∧
    (h.splitBlock b.addr size).brk = h.brk := by
  obtain ⟨h1, h2, h3, h4, h5⟩ := ha.le
  have h6 := ha.brk
  have hbehind := ha.orderedBehind.2.2
  unfold cut
  by_cases hcut : size+28 < b.size
  · rw [if_pos hcut, splitBlock_eq ha hs hcut]
    -- the new block gets its header
    have hn : HeaderAt (writeHeader h ⟨b.addr+size, b.size-size, true⟩ (firstAddr ys 0)
        b.addr).mem ⟨b.addr+size, b.size-size, true⟩ (firstAddr ys 0) b.addr :=
      headerAt_new h.mem ⟨b.addr+size, b.size-size, true⟩ (by dsimp only; omega)
        (firstAddr_lt hbehind h6) (by omega)
    have hmem := fun k => writeHeader_mem h ⟨b.addr+size, b.size-size, true⟩ (firstAddr ys 0)
      b.addr (k := k)
    have hbrk : (writeHeader h ⟨b.addr+size, b.size-size, true⟩ (firstAddr ys 0) b.addr).brk =
      h.brk := rfl
    have hhead : (writeHeader h ⟨b.addr+size, b.size-size, true⟩ (firstAddr ys 0) b.addr).head =
      h.head := rfl
    have htail : (writeHeader h ⟨b.addr+size, b.size-size, true⟩ (firstAddr ys 0) b.addr).tail =
      h.tail := rfl
    generalize writeHeader h ⟨b.addr+size, b.size-size, true⟩ (firstAddr ys 0) b.addr = g at *
    dsimp only at hmem
    have hgbehind : Linked (HeaderAt g.mem) b.addr ys 0 :=
      ha.keep_behind fun k hk => hmem k (by omega)
    obtain ⟨hys, htail'⟩ := relink_behind hgbehind hbehind (by omega)
      (by omega : b.addr+size < 4294967296) (fun hne => by
        rw [htail, ha.tail]
        cases ys with
        | nil => exact absurd rfl hne
        | cons d zs => rfl)
    have hrmem : ∀ k, k < b.addr+b.size →
        (relink g (b.addr+size) (firstAddr ys 0)).mem k = g.mem k := by
      intro k hk
      cases ys with
      | nil => rfl
      | cons c zs =>
        have h7 := hbehind.1
        exact relink_mem g (Or.inl (by simp only [firstAddr]; omega))
    have hrhead := relink_head g (b.addr+size) (firstAddr ys 0)
    have hrbrk := relink_brk g (b.addr+size) (firstAddr ys 0)
    have hrspares : Spares g.mem (relink g (b.addr+size) (firstAddr ys 0)).mem (xs++b::ys) :=
      spares_relink (around_represents ha).ordered fun d hd => by simp [hd]
    generalize relink g (b.addr+size) (firstAddr ys 0) = g' at *
    -- and the block its new size and successor
    have hfmem : ∀ k, k < b.addr ∨ b.addr+16 ≤ k →
        ((g'.setNext b.addr (b.addr+size)).setSize b.addr size).mem k = g'.mem k := by
      intro k hk
      unfold Heap.setSize Heap.setNext
      dsimp only
      rw [write32_ne _ _ (by omega), write32_ne _ _ (by omega)]
    have hheader : HeaderAt ((g'.setNext b.addr (b.addr+size)).setSize b.addr size).mem
        ⟨b.addr, size, false⟩ (b.addr+size) (lastAddr 0 xs) := by
      have h7 : HeaderAt g'.mem b (firstAddr ys 0) (lastAddr 0 xs) :=
        headerAt_congr ha.header fun k _ hk => by rw [hrmem k (by omega), hmem k (by omega)]
      have h8 := headerAt_setSize (headerAt_setNext h7 (by omega : b.addr+size < 4294967296))
        (by omega : size < 4294967296)
      rw [hb] at h8
      exact h8
    refine ⟨⟨linked_append.mpr ⟨?_, hheader, ?_, ?_⟩, ?_, ?_, ?_, ha.base, ?_⟩, ?_, ?_⟩
    · refine ha.keep_before fun k hk => ?_
      rw [hfmem k (by omega), hrmem k (by omega), hmem k (by omega)]
    · refine headerAt_congr hn fun k hk hk' => ?_
      dsimp only at hk hk'
      rw [hfmem k (by omega), hrmem k (by omega)]
    · exact linked_congr hys hbehind fun k hk _ => hfmem k (by omega)
    · refine hrhead.trans (hhead.trans (ha.head.trans ?_))
      rw [firstAddr_append]
      rfl
    · refine htail'.trans ?_
      rw [lastAddr_append]
      rfl
    · change Ordered 20 base _ g'.brk
      rw [hrbrk, hbrk]
      refine ordered_append.mpr ⟨mid, ha.orderedBefore, h3, hs, le_rfl, ?_, ?_⟩
      · dsimp only
        omega
      · exact ordered_mono hbehind (by dsimp only; omega) le_rfl
    · change g'.brk < 4294967296
      omega
    · intro d hd hf k hk hk'
      have hd' : d ∈ xs++b::ys := by
        simp only [List.mem_append, List.mem_cons] at hd ⊢
        tauto
      have hout : k < b.addr ∨ b.addr+b.size ≤ k := by
        rcases List.mem_append.mp hd with hdx | hdy
        · have := ordered_mem ha.orderedBefore hdx
          omega
        · have := ordered_mem hbehind hdy
          omega
      rw [hfmem k (by omega), hrspares d hd' hf k hk hk', hmem k (by omega)]
    · exact hrbrk.trans hbrk
  · rw [if_neg hcut]
    have hsize : h.size b.addr = b.size := ha.header.size
    have hsame : h.splitBlock b.addr size = h := by
      unfold Heap.splitBlock headerSize
      rw [hsize, u32_of_lt (by omega : size+20 < 4294967296), u32_of_lt (by omega)]
      exact if_neg hcut
    have hbeq : { b with free := false } = b := by rw [← hb]
    rw [hsame, hbeq]
    exact ⟨around_represents ha, fun _ _ _ _ _ _ => rfl, rfl⟩

/-- The block before the new one is linked to it. -/
def linkLast (h : Heap) (last block : ℕ) : Heap :=
  if last ≠ 0 then h.setNext last block else h

theorem linkLast_brk (h : Heap) (last block : ℕ) : (linkLast h last block).brk = h.brk := by
  unfold linkLast
  split_ifs <;> rfl

/-- `request_space`, by what `SYS_SBRK` answers. -/
theorem requestSpace_cases (h : Heap) (last : ℕ) {size : ℕ} (hlt : size < 2147483648)
    (reply : Reply) :
    h.requestSpace last size reply = (0, h) ∨
    ∃ m, h.brk+size < 4294967296 ∧ (∀ k, k < h.brk → m k = h.mem k) ∧
      h.requestSpace last size reply =
        (h.brk, linkLast (writeHeader { h with mem := m, brk := h.brk+size }
          ⟨h.brk, size, false⟩ 0 last) last h.brk) := by
  have hint : toInt32 size = size := if_pos hlt
  unfold Heap.requestSpace Heap.sbrk
  rw [hint]
  dsimp only
  by_cases hg : reply.granted = true ∧ 0 ≤ (h.brk:ℤ)+size ∧ (h.brk:ℤ)+size < 4294967296
  · right
    have hbrk : ((h.brk:ℤ)+size).toNat = h.brk+size := by omega
    rw [if_pos hg, hbrk]
    refine ⟨_, by omega, fun k hk => ?_, rfl⟩
    exact if_neg (by omega)
  · left
    rw [if_neg hg]

/-- A new block at the end of the heap. -/
theorem requestSpace_spec (hr : Represents h base bs) {size : ℕ} (hs : 20 < size)
    (hlt : size < 2147483648) (reply : Reply) :
    h.requestSpace (lastAddr 0 bs) size reply = (0, h) ∨
    ∃ h', h.requestSpace (lastAddr 0 bs) size reply = (h.brk, h') ∧
      Represents ((if bs = [] then h'.setHead h.brk else h').setTail h.brk) base
        (bs++[⟨h.brk, size, false⟩]) ∧
      Spares h.mem h'.mem bs ∧ h'.brk = h.brk+size := by
  rcases requestSpace_cases h (lastAddr 0 bs) hlt reply with hnone | ⟨m, hend, hm, heq⟩
  · exact Or.inl hnone
  right
  have hle := ordered_le hr.ordered
  have hbase := hr.base
  have hlast := lastAddr_lt hr.ordered hr.brk (by omega : 0 < 4294967296)
  have hn : HeaderAt (writeHeader { h with mem := m, brk := h.brk+size } ⟨h.brk, size, false⟩ 0
      (lastAddr 0 bs)).mem ⟨h.brk, size, false⟩ 0 (lastAddr 0 bs) :=
    headerAt_new m ⟨h.brk, size, false⟩ (by dsimp only; omega) (by omega : 0 < 4294967296) hlast
  have hgmem : ∀ k, k < h.brk → (writeHeader { h with mem := m, brk := h.brk+size }
      ⟨h.brk, size, false⟩ 0 (lastAddr 0 bs)).mem k = h.mem k :=
    fun k hk => (writeHeader_mem _ _ _ _ (Or.inl hk)).trans (hm k hk)
  have hghead : (writeHeader { h with mem := m, brk := h.brk+size } ⟨h.brk, size, false⟩ 0
    (lastAddr 0 bs)).head = h.head := rfl
  have hgbrk : (writeHeader { h with mem := m, brk := h.brk+size } ⟨h.brk, size, false⟩ 0
    (lastAddr 0 bs)).brk = h.brk+size := rfl
  refine ⟨_, heq, ?_⟩
  generalize writeHeader { h with mem := m, brk := h.brk+size } ⟨h.brk, size, false⟩ 0
    (lastAddr 0 bs) = g at *
  have hlinked : Linked (HeaderAt g.mem) 0 bs 0 :=
    linked_congr hr.linked hr.ordered fun k _ hk => hgmem k hk
  have hordered : Ordered 20 base (bs++[⟨h.brk, size, false⟩]) (h.brk+size) :=
    ordered_append.mpr ⟨h.brk, hr.ordered, le_rfl, hs, le_rfl⟩
  refine ⟨?_, ?_, (linkLast_brk _ _ _).trans hgbrk⟩
  · rcases List.eq_nil_or_concat' bs with rfl | ⟨xs, a, rfl⟩
    · rw [if_pos rfl]
      refine ⟨⟨hn, trivial⟩, rfl, rfl, ?_, hbase, ?_⟩
      · exact hgbrk ▸ hordered
      · exact hgbrk ▸ hend
    · rw [if_neg (by simp)]
      obtain ⟨h1, h2, h3⟩ := ordered_mem hr.ordered (b := a) (by simp)
      have heq' : linkLast g (lastAddr 0 (xs++[a])) h.brk = g.setNext a.addr h.brk := by
        rw [lastAddr_concat]
        exact if_pos (show a.addr ≠ 0 by omega)
      rw [heq']
      refine ⟨linked_append.mpr ⟨?_, ?_, trivial⟩, ?_, ?_, ?_, hbase, ?_⟩
      · exact linked_setNext hlinked hr.ordered hr.brk
      · exact headerAt_congr hn fun k hk _ => write32_ne _ _ (by dsimp only at hk; omega)
      · refine hghead.trans (hr.head.trans ?_)
        rw [firstAddr_append, firstAddr_append, firstAddr_append]
        rfl
      · rw [lastAddr_append]
        rfl
      · exact hgbrk ▸ hordered
      · exact hgbrk ▸ hend
  · intro d hd hf k hk hk'
    have h1 := (ordered_mem hr.ordered hd).2.1
    have h2 : (linkLast g (lastAddr 0 bs) h.brk).mem k = g.mem k := by
      rcases List.eq_nil_or_concat' bs with rfl | ⟨xs, a, rfl⟩
      · rfl
      · have hsp : Spares g.mem (g.setNext a.addr h.brk).mem (xs++[a]) :=
          spares_header hr.ordered (b := a) (by simp) fun k hk => write32_ne _ _ (by omega)
        obtain ⟨h4, -, -⟩ := ordered_mem hr.ordered (b := a) (by simp)
        rw [lastAddr_concat]
        unfold linkLast
        rw [if_pos (show a.addr ≠ 0 by omega)]
        exact hsp d hd hf k hk hk'
    rw [h2, hgmem k (by omega)]

/-- The heap handed out the block `b` for a request of `size` bytes. -/
structure Handed (h h' : Heap) (base : ℕ) (bs bs' : List Block) (b : Block) (size : ℕ) : Prop where
  represents : Represents h' base bs'
  used : b.free = false
  enough : size+20 ≤ b.size
  mem : ∀ d : Block, d.free = false → (d ∈ bs' ↔ d = b ∨ d ∈ bs)
  new : ∀ d ∈ bs, d.free = false → d.addr ≠ b.addr
  settled : Settled bs true → Settled bs' true
  tiled : Tiled base bs h.brk → Tiled base bs' h'.brk
  spares : Spares h.mem h'.mem bs

/-- A free block is taken, and cut if it is large enough. -/
theorem handed_found (hr : Represents h base (xs++b::ys)) (hb : b.free = true) {size total : ℕ}
    (hs : 20 < total) (hlt : total < 2147483648) (hfit : total ≤ b.size)
    (hsize : size+20 ≤ total) :
    Handed h ((h.setIsFree b.addr false).splitBlock b.addr total) base (xs++b::ys)
      (xs++(cut { b with free := false } total 28++ys))
      ⟨b.addr, if total+28 < b.size then total else b.size, false⟩ size := by
  obtain ⟨mid, ha⟩ := represents_around hr
  have ha1 := around_setIsFree ha false
  have hs1 : Spares h.mem (h.setIsFree b.addr false).mem (xs++b::ys) :=
    spares_header hr.ordered (b := b) (by simp) fun k hk => write8_ne _ _ (by omega)
  have hbrk1 : (h.setIsFree b.addr false).brk = h.brk := rfl
  generalize h.setIsFree b.addr false = g at *
  obtain ⟨hr2, hs2, hbrk2⟩ := represents_splitBlock ha1 hs hlt rfl
  have hcut : cut { b with free := false } total 28 = cut b total 28 := rfl
  dsimp only at hr2 hs2 hbrk2
  rw [hcut] at *
  refine ⟨hr2, rfl, ?_, fun d hd => mem_append_cut hb hd, fun d hd hf => ?_, fun h => settled_cut h hb,
    fun h => ?_, ?_⟩
  · dsimp only
    split_ifs <;> omega
  · have hne : d ≠ b := by
      rintro rfl
      exact absurd hb (by simp [hf])
    have h1 := ordered_apart hr.ordered hd (by simp : b ∈ xs++b::ys) hne
    have h2 := (ordered_mem hr.ordered hd).2.2
    have h3 := (ordered_mem hr.ordered (by simp : b ∈ xs++b::ys)).2.2
    dsimp only
    omega
  · rw [hbrk2, hbrk1]
    exact tiled_cut h
  · intro d hd hf k hk hk'
    have hd' : d ∈ xs++ys := by
      simp only [List.mem_append, List.mem_cons] at hd ⊢
      rcases hd with hd | rfl | hd
      · exact Or.inl hd
      · exact absurd hb (by simp [hf])
      · exact Or.inr hd
    rw [hs2 d hd' hf k hk hk', hs1 d hd hf k hk hk']

/-- A new block is added at the end. -/
theorem handed_new (hr : Represents h base bs) {h' : Heap} {size total : ℕ}
    (hr' : Represents h' base (bs++[⟨h.brk, total, false⟩])) (hs : Spares h.mem h'.mem bs)
    (hbrk : h'.brk = h.brk+total) (hsize : size+20 ≤ total) :
    Handed h h' base bs (bs++[⟨h.brk, total, false⟩]) ⟨h.brk, total, false⟩ size := by
  refine ⟨hr', rfl, hsize, fun d _ => ?_, fun d hd _ => ?_, fun h => ?_, fun h => ?_, hs⟩
  · rw [List.mem_append, List.mem_singleton, or_comm]
  · obtain ⟨-, h1, h2⟩ := ordered_mem hr.ordered hd
    dsimp only
    omega
  · exact settled_append.mpr ⟨settled_used h, fun hf => absurd hf (by simp), trivial⟩
  · rw [hbrk]
    exact tiled_append.mpr ⟨_, h, rfl, rfl⟩

theorem align_total {size : ℕ} (hs : 0 < size) (hlt : size+27 < 2147483648) :
    20 < Heap.align (u32 (size+headerSize)) ∧
    Heap.align (u32 (size+headerSize)) < 2147483648 ∧
    size+20 ≤ Heap.align (u32 (size+headerSize)) := by
  unfold Heap.align headerSize
  rw [u32_of_lt (by omega : size+20 < 4294967296), u32_of_lt (by omega)]
  omega

/-- `malloc` returns null and changes nothing, or hands out a block. -/
theorem malloc_spec (hr : Represents h base bs) {size : ℕ} (hlt : size+27 < 2147483648)
    (reply : Reply) :
    h.malloc size reply = some (0, h) ∨
    ∃ h' bs' b, h.malloc size reply = some (b.addr+20, h') ∧ Handed h h' base bs bs' b size ∧
      0 < size := by
  by_cases h0 : size = 0
  · exact Or.inl (if_pos h0)
  obtain ⟨h1, h2, h3⟩ := align_total (Nat.pos_of_ne_zero h0) hlt
  have hle := ordered_le hr.ordered
  have hbase := hr.base
  unfold Heap.malloc
  rw [if_neg h0]
  dsimp only
  generalize Heap.align (u32 (size+headerSize)) = total at *
  have hbrk := hr.brk
  have hptr : ∀ b : Block, b.addr+b.size ≤ h.brk+total → h.brk+total < 4294967296 →
      20 < b.size → u32 (b.addr+headerSize) = b.addr+20 := by
    intro b h4 h5 h6
    exact u32_of_lt (by unfold headerSize; omega)
  have hspace := requestSpace_spec hr h1 h2 reply
  cases bs with
  | nil =>
    have hhead : h.head = 0 := hr.head
    rw [if_pos hhead]
    rcases hspace with hnone | ⟨h', heq, hr', hs', hbrk'⟩
    · left
      change h.requestSpace 0 total reply = _ at hnone
      rw [hnone]
      rfl
    · right
      change h.requestSpace 0 total reply = _ at heq
      rw [heq]
      dsimp only
      have hne : h.brk ≠ 0 := by omega
      have hbrk2 := hr'.brk
      change h'.brk < 4294967296 at hbrk2
      rw [if_neg hne, hptr ⟨h.brk, total, false⟩ le_rfl (by omega) h1]
      exact ⟨_, _, _, rfl, handed_new hr hr' hs' hbrk' h3, Nat.pos_of_ne_zero h0⟩
  | cons c cs =>
    have hhead : h.head = c.addr := hr.head
    have hc := ordered_mem hr.ordered (b := c) (by simp)
    have hlen := ordered_length hr.ordered
    rw [if_neg (by omega)]
    obtain ⟨⟨last, found⟩, hr1, hcases⟩ := findFreeBlock_spec hr.linked hr.ordered hbase total
      c.addr (by omega : (c::cs).length < h.brk+1)
    rw [hhead]
    change h.findFreeBlock total (h.brk+1) c.addr c.addr = _ at hr1
    rw [hr1]
    dsimp only at hcases ⊢
    rcases hcases with ⟨rfl, hlast⟩ | ⟨ys, b, zs, hsplit, hb, hfit, rfl⟩
    · rw [if_pos rfl, hlast]
      rcases hspace with hnone | ⟨h', heq, hr', hs', hbrk'⟩
      · left
        change h.requestSpace (lastAddr c.addr (c::cs)) total reply = _ at hnone
        rw [hnone]
        rfl
      · right
        change h.requestSpace (lastAddr c.addr (c::cs)) total reply = _ at heq
        rw [heq]
        dsimp only
        have hbrk2 := hr'.brk
        rw [if_neg (by simp)] at hr' hbrk2
        change h'.brk < 4294967296 at hbrk2
        rw [if_neg (by omega), hptr ⟨h.brk, total, false⟩ le_rfl (by omega) h1]
        exact ⟨_, _, _, rfl, handed_new hr hr' hs' hbrk' h3, Nat.pos_of_ne_zero h0⟩
    · right
      rw [hsplit] at hr ⊢
      obtain ⟨h4, h5, h6⟩ := ordered_mem hr.ordered (b := b) (by simp)
      have hp : u32 (b.addr+headerSize) = b.addr+20 := u32_of_lt (by unfold headerSize; omega)
      rw [if_neg (by omega), hp]
      exact ⟨_, _, ⟨b.addr, _, false⟩, rfl, handed_found hr hb h1 h2 hfit h3,
        Nat.pos_of_ne_zero h0⟩

end Vlsmc.MallocLayout
