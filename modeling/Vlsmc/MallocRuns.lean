import Vlsmc.MallocLayout

/-!
# The heap over every sequence of calls

A process calls the allocator and writes to the memory it was given. The list
of live allocations is kept beside the heap.
-/

set_option autoImplicit false

namespace Vlsmc.MallocRuns
open Vlsmc.Words Vlsmc.ByteMemory Vlsmc.BlockList Vlsmc.Malloc Vlsmc.MallocLayout

structure Allocation where
  ptr : ℕ
  size : ℕ
  deriving DecidableEq, Repr

structure Process where
  heap : Heap
  live : List Allocation

inductive Call where
  | malloc (size : ℕ) (reply : Reply)
  | calloc (nmemb size : ℕ) (reply : Reply)
  | free (ptr : ℕ) (reply : Reply)
  | realloc (ptr size : ℕ) (reply reply' : Reply)
  /-- The program writes a byte. -/
  | store (addr : ℕ) (value : UInt8)

def forget (live : List Allocation) (ptr : ℕ) : List Allocation :=
  live.filter fun a => a.ptr ≠ ptr

/-- The pointer that is returned and the process afterwards. -/
def step (r : Process) : Call → Option (ℕ × Process)
  | .malloc size reply =>
    (r.heap.malloc size reply).map fun x =>
      (x.1, ⟨x.2, if x.1 = 0 then r.live else ⟨x.1, size⟩::r.live⟩)
  | .calloc nmemb size reply =>
    (r.heap.calloc nmemb size reply).map fun x =>
      (x.1, ⟨x.2, if x.1 = 0 then r.live else ⟨x.1, nmemb*size⟩::r.live⟩)
  | .free ptr reply => (r.heap.free ptr reply).map fun h => (0, ⟨h, forget r.live ptr⟩)
  | .realloc ptr size reply reply' =>
    (r.heap.realloc ptr size reply reply').map fun x =>
      (x.1, ⟨x.2,
        if x.1 ≠ 0 then ⟨x.1, size⟩::forget r.live ptr
        else if size = 0 then forget r.live ptr
        else r.live⟩)
  | .store addr value => some (0, ⟨{ r.heap with mem := write8 r.heap.mem addr value }, r.live⟩)

def LivePtr (r : Process) (ptr : ℕ) : Prop := ptr = 0 ∨ ∃ a ∈ r.live, a.ptr = ptr

/-- Requests are below 2^31-64 bytes, pointers are live, and the program writes
to what it was given. -/
def Valid (r : Process) : Call → Prop
  | .malloc size _ => size < 2147483584
  | .calloc nmemb size _ => nmemb*size < 2147483584
  | .free ptr _ => LivePtr r ptr
  | .realloc ptr size _ _ => LivePtr r ptr ∧ size < 2147483584
  | .store addr _ => ∃ a ∈ r.live, a.ptr ≤ addr ∧ addr < a.ptr+a.size

def run (r : Process) : List Call → Option Process
  | [] => some r
  | c::cs => (step r c).bind fun x => run x.2 cs

/-- Every call of the run is valid where it is made. -/
def ValidRun (r : Process) : List Call → Prop
  | [] => True
  | c::cs => Valid r c ∧ ∀ x ∈ step r c, ValidRun x.2 cs

instance decidableValid (r : Process) : ∀ c, Decidable (Valid r c)
  | .malloc _ _ => inferInstanceAs (Decidable (_ < _))
  | .calloc _ _ _ => inferInstanceAs (Decidable (_ < _))
  | .free _ _ => inferInstanceAs (Decidable (_ ∨ _))
  | .realloc _ _ _ _ => inferInstanceAs (Decidable ((_ ∨ _) ∧ _))
  | .store _ _ => inferInstanceAs (Decidable (∃ a ∈ _, _ ∧ _))

instance decidableValidRun : ∀ (r : Process) (cs : List Call), Decidable (ValidRun r cs)
  | _, [] => isTrue trivial
  | r, c::cs =>
    have : DecidablePred fun x : ℕ × Process => ValidRun x.2 cs :=
      fun x => decidableValidRun x.2 cs
    inferInstanceAs (Decidable (Valid r c ∧ ∀ x ∈ step r c, ValidRun x.2 cs))

def start (base : ℕ) (mem : Memory) : Process := ⟨⟨mem, 0, 0, base⟩, []⟩

/-- The live allocations are the blocks in use. -/
structure Good (base : ℕ) (r : Process) (bs : List Block) : Prop where
  represents : Represents r.heap base bs
  settled : Settled bs true
  owned : ∀ a ∈ r.live, ∃ b ∈ bs, b.free = false ∧ a.ptr = b.addr+20 ∧ a.size+20 ≤ b.size
  owner : ∀ b ∈ bs, b.free = false → ∃ a ∈ r.live, a.ptr = b.addr+20
  nodup : (r.live.map Allocation.ptr).Nodup

variable {base : ℕ} {r : Process} {bs : List Block}

theorem good_start (hb : 0 < base) (hb' : base < 4294967296) (mem : Memory) :
    Good base (start base mem) [] :=
  ⟨⟨trivial, rfl, rfl, le_refl base, hb, hb'⟩, trivial, by simp [start], by simp,
    by simp [start]⟩

/-- Two blocks with one address are the same block. -/
theorem block_eq {b c : Block} {lo hi : ℕ} (ho : Ordered 20 lo bs hi) (hb : b ∈ bs) (hc : c ∈ bs)
    (he : b.addr = c.addr) : b = c := by
  by_contra hne
  have h1 := ordered_apart ho hb hc hne
  have h2 := (ordered_mem ho hb).2.2
  have h3 := (ordered_mem ho hc).2.2
  omega

/-- A live pointer belongs to a block in use. -/
theorem block_of_ptr (hg : Good base r bs) {ptr : ℕ} (hp : LivePtr r ptr) (h0 : ptr ≠ 0) :
    ∃ b ∈ bs, b.free = false ∧ ptr = b.addr+20 := by
  rcases hp with hp | ⟨a, ha, rfl⟩
  · exact absurd hp h0
  · obtain ⟨b, hb, h1, h2, -⟩ := hg.owned a ha
    exact ⟨b, hb, h1, h2⟩

theorem mem_forget {live : List Allocation} {ptr : ℕ} {a : Allocation} :
    a ∈ forget live ptr ↔ a ∈ live ∧ a.ptr ≠ ptr := by
  unfold forget
  rw [List.mem_filter, decide_eq_true_eq]

theorem forget_nodup {live : List Allocation} (h : (live.map Allocation.ptr).Nodup) (ptr : ℕ) :
    ((forget live ptr).map Allocation.ptr).Nodup :=
  h.sublist (List.filter_sublist.map _)

/-- Writing to the payload of a block leaves the list as it is. -/
theorem represents_write {h : Heap} {b : Block} {m' : Memory} (hr : Represents h base bs)
    (hb : b ∈ bs) (hm : ∀ k, k < b.addr+20 ∨ b.addr+b.size ≤ k → m' k = h.mem k) :
    Represents { h with mem := m' } base bs := by
  refine ⟨linked_imp (fun c hc n p hh => headerAt_congr hh fun k h1 h2 => ?_) hr.linked, hr.head,
    hr.tail, hr.ordered, hr.base, hr.brk⟩
  apply hm
  by_cases he : c = b
  · rw [he] at h2
    omega
  · have h3 := ordered_apart hr.ordered hc hb he
    have h4 := (ordered_mem hr.ordered hc).2.2
    omega

/-- The allocations other than the one at `target` stay, with their bytes. -/
def Keeps (r : Process) (target : ℕ) (r' : Process) : Prop :=
  ∀ a ∈ r.live, a.ptr ≠ target →
    a ∈ r'.live ∧ ∀ i < a.size, r'.heap.mem (a.ptr+i) = r.heap.mem (a.ptr+i)

theorem ptr_ne_zero (hg : Good base r bs) {a : Allocation} (ha : a ∈ r.live) : a.ptr ≠ 0 := by
  obtain ⟨b, -, -, h1, -⟩ := hg.owned a ha
  omega

theorem forget_of_not_mem {live : List Allocation} {ptr : ℕ} (h : ∀ a ∈ live, a.ptr ≠ ptr) :
    forget live ptr = live :=
  List.filter_eq_self.mpr fun a ha => decide_eq_true (h a ha)

variable {h' : Heap} {bs' xs ys : List Block} {b : Block} {size : ℕ}

theorem good_handed (hg : Good base r bs) (hh : Handed r.heap h' base bs bs' b size) :
    Good base ⟨h', ⟨b.addr+20, size⟩::r.live⟩ bs' := by
  refine ⟨hh.represents, hh.settled hg.settled, fun a ha => ?_, fun d hd hf => ?_, ?_⟩
  · rcases List.mem_cons.mp ha with rfl | ha
    · exact ⟨b, (hh.mem b hh.used).mpr (Or.inl rfl), hh.used, rfl, hh.enough⟩
    · obtain ⟨d, hd, h1, h2⟩ := hg.owned a ha
      exact ⟨d, (hh.mem d h1).mpr (Or.inr hd), h1, h2⟩
  · rcases (hh.mem d hf).mp hd with rfl | hd
    · exact ⟨_, List.mem_cons_self, rfl⟩
    · obtain ⟨a, ha, h1⟩ := hg.owner d hd hf
      exact ⟨a, List.mem_cons_of_mem _ ha, h1⟩
  · rw [List.map_cons, List.nodup_cons]
    refine ⟨fun hmem => ?_, hg.nodup⟩
    obtain ⟨a, ha, h1⟩ := List.mem_map.mp hmem
    obtain ⟨d, hd, h2, h3, -⟩ := hg.owned a ha
    dsimp only at h1
    exact hh.new d hd h2 (by omega)

theorem keeps_handed (hg : Good base r bs) (hh : Handed r.heap h' base bs bs' b size) :
    Keeps r 0 ⟨h', ⟨b.addr+20, size⟩::r.live⟩ := by
  intro a ha _
  obtain ⟨d, hd, h1, h2, h3⟩ := hg.owned a ha
  refine ⟨List.mem_cons_of_mem _ ha, fun i hi => ?_⟩
  exact hh.spares d hd h1 _ (by omega) (by omega)

theorem addr_ne {lo hi : ℕ} (ho : Ordered 20 lo (xs++b::ys) hi) {d : Block} (hd : d ∈ xs++ys) :
    d.addr ≠ b.addr := by
  obtain ⟨mid, h1, h2⟩ := ordered_append.mp ho
  have h3 := h2.1
  have h4 := h2.2.1
  rcases List.mem_append.mp hd with hd | hd
  · have := ordered_mem h1 hd
    omega
  · have := ordered_mem h2.2.2 hd
    omega

theorem good_freed (hg : Good base r (xs++b::ys)) (hb : b.free = false)
    (hr : Represents h' base (freed xs b ys)) :
    Good base ⟨h', forget r.live (b.addr+20)⟩ (freed xs b ys) := by
  refine ⟨hr, settled_freed hg.settled hb, fun a ha => ?_, fun d hd hf => ?_,
    forget_nodup hg.nodup _⟩
  · obtain ⟨ha1, ha2⟩ := mem_forget.mp ha
    obtain ⟨d, hd, h1, h2, h3⟩ := hg.owned a ha1
    refine ⟨d, (mem_freed h1).mpr ?_, h1, h2, h3⟩
    simp only [List.mem_append, List.mem_cons] at hd ⊢
    rcases hd with hd | rfl | hd
    · exact Or.inl hd
    · exact absurd h2 ha2
    · exact Or.inr hd
  · have hd' := (mem_freed hf).mp hd
    obtain ⟨a, ha, h1⟩ := hg.owner d (by
      simp only [List.mem_append, List.mem_cons] at hd' ⊢
      tauto) hf
    have h2 := addr_ne hg.represents.ordered hd'
    exact ⟨a, mem_forget.mpr ⟨ha, by omega⟩, h1⟩

/-- What `free` gives back is granted and fits into a positive `long`. -/
def Returned (base : ℕ) (h : Heap) (ptr : ℕ) (reply : Reply) : Prop :=
  ∀ xs b ys, Represents h base (xs++b::ys) → ptr = b.addr+20 → released xs b ys = 0 ∨
    (reply.granted = true ∧ released xs b ys < 2147483648)

theorem free_step (hg : Good base r bs) {ptr : ℕ} (hp : LivePtr r ptr) (reply : Reply) :
    ∃ h' bs', r.heap.free ptr reply = some h' ∧ Good base ⟨h', forget r.live ptr⟩ bs' ∧
      Keeps r ptr ⟨h', forget r.live ptr⟩ ∧
      (Returned base r.heap ptr reply → Tiled base bs r.heap.brk → Tiled base bs' h'.brk) := by
  by_cases h0 : ptr = 0
  · subst h0
    rw [forget_of_not_mem fun a ha => ptr_ne_zero hg ha]
    exact ⟨r.heap, bs, rfl, hg, fun a ha _ => ⟨ha, fun _ _ => rfl⟩, fun _ ht => ht⟩
  · obtain ⟨b, hb, hf, rfl⟩ := block_of_ptr hg hp h0
    obtain ⟨xs, ys, rfl⟩ := List.append_of_mem hb
    obtain ⟨h', heq, hr', hs, hbrk⟩ := free_spec hg.represents reply
    refine ⟨h', _, heq, good_freed hg hf hr', fun a ha hne => ?_, fun hret ht => ?_⟩
    · obtain ⟨d, hd, h1, h2, h3⟩ := hg.owned a ha
      refine ⟨mem_forget.mpr ⟨ha, hne⟩, fun i hi => ?_⟩
      apply hs d _ h1 _ (by omega) (by omega)
      simp only [List.mem_append, List.mem_cons] at hd ⊢
      rcases hd with hd | rfl | hd
      · exact Or.inl hd
      · exact absurd h2 hne
      · exact Or.inr hd
    · have ht' := tiled_freed ht
      rw [hbrk]
      rcases hret xs b ys hg.represents rfl with hzero | ⟨hgr, hlt⟩
      · rw [hzero] at ht' ⊢
        split_ifs <;> exact ht'
      · rw [if_pos ⟨hgr, by omega⟩]
        exact ht'

theorem keeps_refl (r : Process) (target : ℕ) : Keeps r target r :=
  fun _ ha _ => ⟨ha, fun _ _ => rfl⟩

/-- The bytes of one block change, from its payload on. -/
theorem keeps_write (hg : Good base r bs) {m' : Memory} (hb : b ∈ bs)
    (hm : ∀ k, k < b.addr+20 ∨ b.addr+b.size ≤ k → m' k = r.heap.mem k) :
    Good base ⟨{ r.heap with mem := m' }, r.live⟩ bs ∧
    Keeps r (b.addr+20) ⟨{ r.heap with mem := m' }, r.live⟩ := by
  refine ⟨⟨represents_write hg.represents hb hm, hg.settled, hg.owned, hg.owner, hg.nodup⟩,
    fun a ha hne => ⟨ha, fun i hi => hm _ ?_⟩⟩
  obtain ⟨d, hd, h1, h2, h3⟩ := hg.owned a ha
  have hdb : d ≠ b := by
    rintro rfl
    exact hne h2
  have h4 := ordered_apart hg.represents.ordered hd hb hdb
  omega

theorem calloc_step (hg : Good base r bs) {nmemb size : ℕ}
    (hlt : nmemb*size+27 < 2147483648) (reply : Reply) :
    r.heap.calloc nmemb size reply = some (0, r.heap) ∨
    ∃ h' bs', ∃ b : Block, r.heap.calloc nmemb size reply = some (b.addr+20, h') ∧
      Good base ⟨h', ⟨b.addr+20, nmemb*size⟩::r.live⟩ bs' ∧
      Keeps r 0 ⟨h', ⟨b.addr+20, nmemb*size⟩::r.live⟩ ∧
      (∀ i < nmemb*size, h'.mem (b.addr+20+i) = 0) ∧
      (Tiled base bs r.heap.brk → Tiled base bs' h'.brk) := by
  have htotal : u32 (nmemb*size) = nmemb*size := u32_of_lt (by omega)
  unfold Heap.calloc
  dsimp only
  rw [htotal]
  rcases malloc_spec hg.represents hlt reply with hnone | ⟨h1, bs', b, heq, hh, -⟩
  · left
    rw [hnone]
    rfl
  · right
    rw [heq]
    have hg1 := good_handed hg hh
    have hk1 := keeps_handed hg hh
    have hb : b ∈ bs' := (hh.mem b hh.used).mpr (Or.inl rfl)
    have henough := hh.enough
    have hout : ∀ k, k < b.addr+20 ∨ b.addr+b.size ≤ k →
        zero h1.mem (b.addr+20) (nmemb*size) k = h1.mem k :=
      fun k hk => zero_ne _ _ _ (by omega)
    obtain ⟨hg2, hk2⟩ := keeps_write hg1 hb hout
    refine ⟨_, bs', b, if_pos (by omega), hg2, fun a ha hne => ?_, fun i hi => zero_get _ _ _ hi,
      hh.tiled⟩
    obtain ⟨h3, h4⟩ := hk1 a ha hne
    have hne' : a.ptr ≠ b.addr+20 := by
      obtain ⟨d, hd, h5, h6, -⟩ := hg.owned a ha
      have := hh.new d hd h5
      omega
    obtain ⟨h5, h6⟩ := hk2 a h3 hne'
    exact ⟨h5, fun i hi => (h6 i hi).trans (h4 i hi)⟩

/-- Growing an allocation: a new block, a copy, and the old block is freed. -/
theorem move_step (hg : Good base r bs) (hb : b ∈ bs) (hf : b.free = false) {h1 : Heap}
    {nb : Block} (hh : Handed r.heap h1 base bs bs' nb size) (hlt : b.size-20 < size)
    (reply : Reply) :
    ∃ h' bs'', ({ h1 with mem := copy h1.mem (nb.addr+20) (b.addr+20) (b.size-20) } : Heap).free
        (b.addr+20) reply = some h' ∧
      Good base ⟨h', ⟨nb.addr+20, size⟩::forget r.live (b.addr+20)⟩ bs'' ∧
      Keeps r (b.addr+20) ⟨h', ⟨nb.addr+20, size⟩::forget r.live (b.addr+20)⟩ ∧
      (∀ i < b.size-20, h'.mem (nb.addr+20+i) = r.heap.mem (b.addr+20+i)) ∧
      (Returned base { h1 with mem := copy h1.mem (nb.addr+20) (b.addr+20) (b.size-20) }
        (b.addr+20) reply → Tiled base bs r.heap.brk → Tiled base bs'' h'.brk) := by
  have hg1 := good_handed hg hh
  have hk1 := keeps_handed hg hh
  have hnb : nb ∈ bs' := (hh.mem nb hh.used).mpr (Or.inl rfl)
  have hb' : b ∈ bs' := (hh.mem b hf).mpr (Or.inr hb)
  have hne := hh.new b hb hf
  have henough := hh.enough
  have hapart := ordered_apart hh.represents.ordered hb' hnb (fun he => hne (by rw [he]))
  have hsize := (ordered_mem hg.represents.ordered hb).2.2
  have hout : ∀ k, k < nb.addr+20 ∨ nb.addr+nb.size ≤ k →
      copy h1.mem (nb.addr+20) (b.addr+20) (b.size-20) k = h1.mem k :=
    fun k hk => copy_ne _ _ _ _ (by omega)
  obtain ⟨hg2, hk2⟩ := keeps_write hg1 hnb hout
  obtain ⟨a, ha, hptr⟩ := hg.owner b hb hf
  have hlive : LivePtr ⟨{ h1 with mem := copy h1.mem (nb.addr+20) (b.addr+20) (b.size-20) },
      ⟨nb.addr+20, size⟩::r.live⟩ (b.addr+20) :=
    Or.inr ⟨a, List.mem_cons_of_mem _ ha, hptr⟩
  obtain ⟨h', bs'', heq, hg3, hk3, ht3⟩ := free_step hg2 hlive reply
  have hforget : forget (⟨nb.addr+20, size⟩::r.live) (b.addr+20) =
      ⟨nb.addr+20, size⟩::forget r.live (b.addr+20) := by
    unfold forget
    rw [List.filter_cons_of_pos]
    simp only [ne_eq, decide_eq_true_eq]
    omega
  dsimp only at hg3 hk3 ht3 heq
  rw [hforget] at hg3 hk3
  refine ⟨h', bs'', heq, hg3, fun c hc hcne => ?_, fun i hi => ?_, fun hret ht =>
    ht3 hret (hh.tiled ht)⟩
  · obtain ⟨h4, h5⟩ := hk1 c hc (ptr_ne_zero hg hc)
    have hcne' : c.ptr ≠ nb.addr+20 := by
      obtain ⟨d, hd, h6, h7, -⟩ := hg.owned c hc
      have := hh.new d hd h6
      omega
    obtain ⟨h6, h7⟩ := hk2 c h4 hcne'
    obtain ⟨h8, h9⟩ := hk3 c h6 hcne
    exact ⟨h8, fun i hi => (h9 i hi).trans ((h7 i hi).trans (h5 i hi))⟩
  · have h4 := (hk3 ⟨nb.addr+20, size⟩ List.mem_cons_self (by dsimp only; omega)).2 i
      (by dsimp only; omega)
    dsimp only at h4
    rw [h4, copy_get _ _ _ _ (by omega) hi]
    exact hh.spares b hb hf _ (by omega) (by omega)

theorem size_of_block {h : Heap} (hr : Represents h base bs) (hb : b ∈ bs) :
    sub32 (b.addr+20) headerSize = b.addr ∧ h.magic b.addr = magicNumber ∧
    h.size b.addr = b.size ∧ sub32 (h.size b.addr) headerSize = b.size-20 := by
  obtain ⟨xs, ys, rfl⟩ := List.append_of_mem hb
  obtain ⟨mid, ha⟩ := represents_around hr
  obtain ⟨-, -, -, h4, h5⟩ := ha.le
  have h6 := ha.brk
  have hsize : h.size b.addr = b.size := ha.header.size
  refine ⟨?_, ha.header.magic, hsize, ?_⟩
  · unfold sub32 headerSize
    omega
  · rw [hsize]
    unfold sub32 headerSize
    omega

/-- `realloc` of a block: it is large enough, or there is no memory, or it moves. -/
theorem realloc_cases {h : Heap} (hr : Represents h base bs) (hb : b ∈ bs) {size : ℕ}
    (hs : size ≠ 0) (hlt : size+27 < 2147483648) (reply reply' : Reply) :
    (size+20 ≤ b.size ∧ h.realloc (b.addr+20) size reply reply' = some (b.addr+20, h)) ∨
    h.realloc (b.addr+20) size reply reply' = some (0, h) ∨
    ∃ h1 bs', ∃ nb : Block, b.size-20 < size ∧ Handed h h1 base bs bs' nb size ∧
      h.malloc size reply = some (nb.addr+20, h1) ∧
      h.realloc (b.addr+20) size reply reply' =
        (({ h1 with mem := copy h1.mem (nb.addr+20) (b.addr+20) (b.size-20) } : Heap).free
          (b.addr+20) reply').map fun h => (nb.addr+20, h) := by
  obtain ⟨h1, h2, -, h3⟩ := size_of_block hr hb
  have h4 := (ordered_mem hr.ordered hb).2.2
  unfold Heap.realloc
  rw [if_neg (by omega), if_neg hs]
  dsimp only
  rw [h1, if_neg (fun hh => hh h2), h3]
  by_cases hfit : size ≤ b.size-20
  · left
    rw [if_pos hfit]
    exact ⟨by omega, rfl⟩
  · right
    rw [if_neg hfit]
    rcases malloc_spec hr hlt reply with hnone | ⟨h5, bs', nb, heq, hh, -⟩
    · left
      rw [hnone]
      rfl
    · right
      refine ⟨h5, bs', nb, by omega, hh, heq, ?_⟩
      rw [heq]
      dsimp only
      rw [if_neg (by omega)]

/-- What a call of `realloc` with a live pointer can do. -/
theorem realloc_step (hg : Good base r bs) {ptr size : ℕ} (hp : LivePtr r ptr) (h0 : ptr ≠ 0)
    (hs : size ≠ 0) (hlt : size < 2147483584) (reply reply' : Reply) :
    (∃ b ∈ bs, b.free = false ∧ ptr = b.addr+20 ∧ size+20 ≤ b.size ∧
      r.heap.realloc ptr size reply reply' = some (ptr, r.heap)) ∨
    r.heap.realloc ptr size reply reply' = some (0, r.heap) ∨
    ∃ h1 bs', ∃ b nb : Block, b ∈ bs ∧ b.free = false ∧ ptr = b.addr+20 ∧ b.size-20 < size ∧
      Handed r.heap h1 base bs bs' nb size ∧ r.heap.malloc size reply = some (nb.addr+20, h1) ∧
      r.heap.realloc ptr size reply reply' =
        (({ h1 with mem := copy h1.mem (nb.addr+20) (b.addr+20) (b.size-20) } : Heap).free
          (b.addr+20) reply').map fun h => (nb.addr+20, h) := by
  obtain ⟨b, hb, hf, rfl⟩ := block_of_ptr hg hp h0
  rcases realloc_cases hg.represents hb hs (by omega) reply reply' with ⟨hfit, heq⟩ | hnone |
    ⟨h1, bs', nb, hgrow, hh, hmalloc, heq⟩
  · exact .inl ⟨b, hb, hf, rfl, hfit, heq⟩
  · exact .inr (.inl hnone)
  · exact .inr (.inr ⟨h1, bs', b, nb, hb, hf, rfl, hgrow, hh, hmalloc, heq⟩)

/-- A call that gives memory back has it taken. -/
def Honoured (base : ℕ) (r : Process) : Call → Prop
  | .free ptr reply => Returned base r.heap ptr reply
  | .realloc ptr size reply reply' =>
    if size = 0 then Returned base r.heap ptr reply'
    else ∀ newPtr h, r.heap.malloc size reply = some (newPtr, h) →
      Returned base { h with
        mem := copy h.mem newPtr ptr (sub32 (r.heap.size (sub32 ptr headerSize)) headerSize) }
        ptr reply'
  | _ => True

/-- The pointer that a call may free or move. -/
def target : Call → ℕ
  | .free ptr _ | .realloc ptr _ _ _ => ptr
  | _ => 0

/-- What a call returns: the first bytes of a moved allocation, or zeros. -/
def Returns (r : Process) (ptr : ℕ) (r' : Process) : Call → Prop
  | .malloc size _ => ptr ≠ 0 → ⟨ptr, size⟩ ∈ r'.live
  | .calloc nmemb size _ => ptr ≠ 0 →
    ⟨ptr, nmemb*size⟩ ∈ r'.live ∧ ∀ i < nmemb*size, r'.heap.mem (ptr+i) = 0
  | .free _ _ => True
  | .realloc old size _ _ =>
    (ptr ≠ 0 → ⟨ptr, size⟩ ∈ r'.live ∧ ∀ a ∈ r.live, a.ptr = old →
      ∀ i < min a.size size, r'.heap.mem (ptr+i) = r.heap.mem (old+i)) ∧
    (ptr = 0 → size ≠ 0 → ∀ a ∈ r.live, a.ptr = old →
      a ∈ r'.live ∧ ∀ i < a.size, r'.heap.mem (old+i) = r.heap.mem (old+i))
  | .store _ _ => True

/-- The program's own writes are not calls of the allocator. -/
def IsCall : Call → Prop
  | .store _ _ => False
  | _ => True

/-- Everything that one call does. -/
structure Stepped (base : ℕ) (r : Process) (bs : List Block) (c : Call) (ptr : ℕ) (r' : Process)
    (bs' : List Block) : Prop where
  good : Good base r' bs'
  keeps : IsCall c → Keeps r (target c) r'
  returns : Returns r ptr r' c
  tiled : Honoured base r c → Tiled base bs r.heap.brk → Tiled base bs' r'.heap.brk

theorem step_malloc (hg : Good base r bs) {size : ℕ} (hlt : size < 2147483584) (reply : Reply) :
    ∃ ptr r' bs', step r (.malloc size reply) = some (ptr, r') ∧
      Stepped base r bs (.malloc size reply) ptr r' bs' := by
  simp only [step]
  rcases malloc_spec hg.represents (show size+27 < 2147483648 by omega) reply with hnone | ⟨h', bs', b, heq, hh, -⟩
  · rw [hnone]
    exact ⟨0, r, bs, rfl, hg, fun _ => keeps_refl r _, fun hn => absurd rfl hn, fun _ ht => ht⟩
  · rw [heq, Option.map_some, if_neg (by omega)]
    exact ⟨_, _, bs', rfl, good_handed hg hh, fun _ => keeps_handed hg hh,
      fun _ => List.mem_cons_self, fun _ ht => hh.tiled ht⟩

theorem step_calloc (hg : Good base r bs) {nmemb size : ℕ} (hlt : nmemb*size < 2147483584)
    (reply : Reply) :
    ∃ ptr r' bs', step r (.calloc nmemb size reply) = some (ptr, r') ∧
      Stepped base r bs (.calloc nmemb size reply) ptr r' bs' := by
  simp only [step]
  rcases calloc_step hg (show nmemb*size+27 < 2147483648 by omega) reply with hnone | ⟨h', bs', b, heq, hg', hk, hz, ht⟩
  · rw [hnone]
    exact ⟨0, r, bs, rfl, hg, fun _ => keeps_refl r _, fun hn => absurd rfl hn, fun _ ht => ht⟩
  · rw [heq, Option.map_some, if_neg (by omega)]
    exact ⟨_, _, bs', rfl, hg', fun _ => hk, fun _ => ⟨List.mem_cons_self, hz⟩, fun _ => ht⟩

theorem step_free (hg : Good base r bs) {ptr : ℕ} (hp : LivePtr r ptr) (reply : Reply) :
    ∃ p r' bs', step r (.free ptr reply) = some (p, r') ∧
      Stepped base r bs (.free ptr reply) p r' bs' := by
  obtain ⟨h', bs', heq, hg', hk, ht⟩ := free_step hg hp reply
  simp only [step]
  rw [heq]
  exact ⟨0, _, bs', rfl, hg', fun _ => hk, trivial, ht⟩

theorem step_store (hg : Good base r bs) {addr : ℕ} (value : UInt8)
    (hv : ∃ a ∈ r.live, a.ptr ≤ addr ∧ addr < a.ptr+a.size) :
    ∃ p r' bs', step r (.store addr value) = some (p, r') ∧
      Stepped base r bs (.store addr value) p r' bs' := by
  obtain ⟨a, ha, h1, h2⟩ := hv
  obtain ⟨b, hb, -, h3, h4⟩ := hg.owned a ha
  have hm : ∀ k, k < b.addr+20 ∨ b.addr+b.size ≤ k →
      write8 r.heap.mem addr value k = r.heap.mem k := fun k hk => write8_ne _ _ (by omega)
  exact ⟨0, _, bs, rfl, (keeps_write hg hb hm).1, fun hc => absurd hc id, trivial, fun _ ht => ht⟩

/-- A live allocation is known by its pointer. -/
theorem live_eq (hg : Good base r bs) (hb : b ∈ bs) {a : Allocation} (ha : a ∈ r.live)
    (hptr : a.ptr = b.addr+20) : a.size+20 ≤ b.size := by
  obtain ⟨d, hd, -, h2, h3⟩ := hg.owned a ha
  have := block_eq hg.represents.ordered hd hb (by omega)
  rw [← this]
  exact h3

/-- `realloc` that leaves the block where it is. -/
theorem good_resize (hg : Good base r bs) (hb : b ∈ bs) (hf : b.free = false)
    (hfit : size+20 ≤ b.size) :
    Good base ⟨r.heap, ⟨b.addr+20, size⟩::forget r.live (b.addr+20)⟩ bs := by
  refine ⟨hg.represents, hg.settled, fun a ha => ?_, fun d hd hdf => ?_, ?_⟩
  · rcases List.mem_cons.mp ha with rfl | ha
    · exact ⟨b, hb, hf, rfl, hfit⟩
    · exact hg.owned a (mem_forget.mp ha).1
  · by_cases hdb : d = b
    · exact ⟨_, List.mem_cons_self, by rw [hdb]⟩
    · obtain ⟨a, ha, h1⟩ := hg.owner d hd hdf
      refine ⟨a, List.mem_cons_of_mem _ (mem_forget.mpr ⟨ha, fun he => ?_⟩), h1⟩
      exact hdb (block_eq hg.represents.ordered hd hb (by omega))
  · rw [List.map_cons, List.nodup_cons]
    refine ⟨fun hmem => ?_, forget_nodup hg.nodup _⟩
    obtain ⟨a, ha, h1⟩ := List.mem_map.mp hmem
    exact (mem_forget.mp ha).2 h1

theorem step_realloc (hg : Good base r bs) {ptr size : ℕ} (hp : LivePtr r ptr)
    (hlt : size < 2147483584) (reply reply' : Reply) :
    ∃ p r' bs', step r (.realloc ptr size reply reply') = some (p, r') ∧
      Stepped base r bs (.realloc ptr size reply reply') p r' bs' := by
  by_cases h0 : ptr = 0
  · -- the call is one of `malloc`
    subst h0
    have hforget := forget_of_not_mem fun a (ha : a ∈ r.live) => ptr_ne_zero hg ha
    have hreal : r.heap.realloc 0 size reply reply' = r.heap.malloc size reply := if_pos rfl
    simp only [step]
    rw [hreal]
    rcases malloc_spec hg.represents (show size+27 < 2147483648 by omega) reply with hnone | ⟨h', bs', b, heq, hh, -⟩
    · rw [hnone, Option.map_some, hforget, if_neg (fun hn => hn rfl)]
      refine ⟨0, _, bs, rfl, ?_, fun _ => ?_, ⟨fun hn => absurd rfl hn, fun _ _ a ha he => ?_⟩,
        fun _ ht => ht⟩
      · split_ifs <;> exact hg
      · split_ifs <;> exact keeps_refl r _
      · exact absurd he (ptr_ne_zero hg ha)
    · rw [heq, Option.map_some, if_pos (by omega), hforget]
      refine ⟨_, _, bs', rfl, good_handed hg hh, fun _ => keeps_handed hg hh,
        ⟨fun _ => ⟨List.mem_cons_self, fun a ha he => ?_⟩, fun hn => absurd hn (by omega)⟩,
        fun _ ht => hh.tiled ht⟩
      exact absurd he (ptr_ne_zero hg ha)
  by_cases hs : size = 0
  · -- the call is one of `free`
    subst hs
    obtain ⟨h', bs', heq, hg', hk, ht⟩ := free_step hg hp reply'
    have hreal : r.heap.realloc ptr 0 reply reply' = some (0, h') := by
      unfold Heap.realloc
      rw [if_neg h0, if_pos rfl, heq]
      rfl
    simp only [step]
    rw [hreal, Option.map_some, if_neg (fun hn => hn rfl), if_pos trivial]
    refine ⟨0, _, bs', rfl, hg', fun _ => hk, ⟨fun hn => absurd rfl hn, fun _ hn => absurd rfl hn⟩,
      fun hh => ht ?_⟩
    simp only [Honoured, if_true] at hh
    exact hh
  simp only [step]
  rcases realloc_step hg hp h0 hs hlt reply reply' with ⟨b, hb, hf, rfl, hfit, heq⟩ | heq |
    ⟨h1, bs', b, nb, hb, hf, rfl, hgrow, hh, hmalloc, heq⟩
  · rw [heq, Option.map_some, if_pos h0]
    refine ⟨_, _, bs, rfl, good_resize hg hb hf hfit, fun _ a ha hne => ?_,
      ⟨fun _ => ⟨List.mem_cons_self, fun _ _ _ _ _ => rfl⟩, fun hn => absurd hn h0⟩, fun _ ht => ht⟩
    exact ⟨List.mem_cons_of_mem _ (mem_forget.mpr ⟨ha, hne⟩), fun _ _ => rfl⟩
  · rw [heq, Option.map_some, if_neg (fun hn => hn rfl), if_neg hs]
    exact ⟨0, r, bs, rfl, hg, fun _ => keeps_refl r _, ⟨fun hn => absurd rfl hn,
      fun _ _ a ha _ => ⟨ha, fun _ _ => rfl⟩⟩, fun _ ht => ht⟩
  · obtain ⟨h', bs'', hfree, hg', hk, hbytes, ht⟩ := move_step hg hb hf hh hgrow reply'
    rw [heq, hfree, Option.map_some, Option.map_some, if_pos (by dsimp only; omega)]
    refine ⟨_, _, bs'', rfl, hg', fun _ => hk, ⟨fun _ => ⟨List.mem_cons_self, ?_⟩,
      fun hn => absurd hn (by dsimp only; omega)⟩, fun hh' => ht ?_⟩
    · intro a ha he i hi
      have hle := live_eq hg hb ha he
      exact hbytes i (by omega)
    · simp only [Honoured, if_neg hs] at hh'
      obtain ⟨h3, -, -, h5⟩ := size_of_block hg.represents hb
      have hret := hh' _ _ hmalloc
      rwa [h3, h5] at hret

theorem step_spec (hg : Good base r bs) (c : Call) (hv : Valid r c) :
    ∃ ptr r' bs', step r c = some (ptr, r') ∧ Stepped base r bs c ptr r' bs' := by
  cases c with
  | malloc size reply => exact step_malloc hg hv reply
  | calloc nmemb size reply => exact step_calloc hg hv reply
  | free ptr reply => exact step_free hg hv reply
  | realloc ptr size reply reply' => exact step_realloc hg hv.1 hv.2 reply reply'
  | store addr value => exact step_store hg value hv

theorem run_good (hg : Good base r bs) (cs : List Call) (hv : ValidRun r cs) :
    ∃ r' bs', run r cs = some r' ∧ Good base r' bs' := by
  induction cs generalizing r bs with
  | nil => exact ⟨r, bs, rfl, hg⟩
  | cons c cs ih =>
    obtain ⟨ptr, r', bs', heq, hstep⟩ := step_spec hg c hv.1
    obtain ⟨r'', bs'', hrun, hg'⟩ := ih hstep.good (hv.2 (ptr, r') heq)
    refine ⟨r'', bs'', ?_, hg'⟩
    rw [run, heq, Option.bind_some]
    exact hrun

/-- The bytes behind a pointer that belong to its block. -/
def usable (r : Process) (a : Allocation) : ℕ := r.heap.size (a.ptr-20)-20

/-- The payloads of the live allocations are large enough, inside the heap, apart
from each other and from every header. -/
structure Safe (base : ℕ) (r : Process) : Prop where
  enough : ∀ a ∈ r.live, a.size ≤ usable r a
  inside : ∀ a ∈ r.live, base ≤ a.ptr ∧ a.ptr+usable r a ≤ r.heap.brk
  apart : r.live.Pairwise fun a c => a.ptr+usable r a ≤ c.ptr ∨ c.ptr+usable r c ≤ a.ptr
  headers : ∃ blocks, Represents r.heap base blocks ∧ ∀ b ∈ blocks, ∀ a ∈ r.live,
    b.addr+20 ≤ a.ptr ∨ a.ptr+usable r a ≤ b.addr

theorem usable_eq (hg : Good base r bs) (hb : b ∈ bs) {a : Allocation}
    (hptr : a.ptr = b.addr+20) : usable r a = b.size-20 := by
  obtain ⟨-, -, hsize, -⟩ := size_of_block hg.represents hb
  unfold usable
  rw [hptr, Nat.add_sub_cancel, hsize]

theorem good_safe (hg : Good base r bs) : Safe base r := by
  have hblock : ∀ a ∈ r.live, ∃ b ∈ bs, a.ptr = b.addr+20 ∧ usable r a = b.size-20 ∧
      a.size+20 ≤ b.size ∧ base ≤ b.addr ∧ b.addr+b.size ≤ r.heap.brk := by
    intro a ha
    obtain ⟨b, hb, -, h2, h3⟩ := hg.owned a ha
    obtain ⟨h4, h5, -⟩ := ordered_mem hg.represents.ordered hb
    exact ⟨b, hb, h2, usable_eq hg hb h2, h3, h4, h5⟩
  refine ⟨fun a ha => ?_, fun a ha => ?_, ?_, bs, hg.represents, fun b hb a ha => ?_⟩
  · obtain ⟨b, -, h1, h2, h3, -⟩ := hblock a ha
    omega
  · obtain ⟨b, -, h1, h2, h3, h4, h5⟩ := hblock a ha
    omega
  · refine (List.pairwise_map.mp hg.nodup).imp_of_mem fun {a c} ha hc hne => ?_
    obtain ⟨b, hb, h1, h2, h3, -⟩ := hblock a ha
    obtain ⟨d, hd, h4, h5, h6, -⟩ := hblock c hc
    have hbd : b ≠ d := by
      rintro rfl
      exact hne (by omega)
    have h7 := ordered_apart hg.represents.ordered hb hd hbd
    omega
  · obtain ⟨d, hd, h1, h2, h3, -⟩ := hblock a ha
    by_cases hbd : b = d
    · left
      rw [hbd]
      omega
    · have h4 := ordered_apart hg.represents.ordered hb hd hbd
      have h5 := (ordered_mem hg.represents.ordered hb).2.2
      omega

/-- After every sequence of calls the live allocations are safe, and the next
call changes no byte of a live allocation but for what `realloc` moves. -/
theorem allocations_safe (base : ℕ) (hb : 0 < base) (hb' : base < 4294967296) (mem : Memory)
    (cs : List Call) (hv : ValidRun (start base mem) cs) :
    ∃ r, run (start base mem) cs = some r ∧ Safe base r ∧
      ∀ c, IsCall c → Valid r c → ∃ ptr r', step r c = some (ptr, r') ∧
        Keeps r (target c) r' ∧ Returns r ptr r' c := by
  obtain ⟨r, bs, hrun, hg⟩ := run_good (good_start hb hb' mem) cs hv
  refine ⟨r, hrun, good_safe hg, fun c hc hvc => ?_⟩
  obtain ⟨ptr, r', bs', heq, hstep⟩ := step_spec hg c hvc
  exact ⟨ptr, r', heq, hstep.keeps hc, hstep.returns⟩

def granting : Reply := ⟨true, fun _ => 0⟩

/-- Two small blocks, of which the first is freed. -/
def twoSmall : List Call := [.malloc 10 granting, .malloc 20 granting, .free 0x40002014 granting]

theorem twoSmall_valid :
    ValidRun (start 0x40002000 fun _ => 0) twoSmall ∧
    ValidRun (start 0x40002000 fun _ => 0)
      (twoSmall++[.realloc 0x40002034 200 granting granting]) ∧
    (step (start 0x40002000 fun _ => 0) (.malloc 10 granting)).bind (fun x =>
      (step x.2 (.malloc 20 granting)).map fun y => y.2.heap.brk) = some 0x40002048 := by
  decide +kernel

theorem allocations_safe_two :
    ∃ r, run (start 0x40002000 fun _ => 0) [.malloc 10 granting, .malloc 20 granting,
      .free 0x40002014 granting, .realloc 0x40002034 200 granting granting] = some r ∧
      Safe 0x40002000 r := by
  obtain ⟨r, h1, h2, -⟩ := allocations_safe 0x40002000 (by decide) (by decide) _ _
    twoSmall_valid.2.1
  exact ⟨r, h1, h2⟩

/-- Every call of the run has back what it gives back. -/
def HonouredRun (base : ℕ) (r : Process) : List Call → Prop
  | [] => True
  | c::cs => Honoured base r c ∧ ∀ x ∈ step r c, HonouredRun base x.2 cs

theorem run_tiled (hg : Good base r bs) (ht : Tiled base bs r.heap.brk) (cs : List Call)
    (hv : ValidRun r cs) (hh : HonouredRun base r cs) :
    ∃ r' bs', run r cs = some r' ∧ Good base r' bs' ∧ Tiled base bs' r'.heap.brk := by
  induction cs generalizing r bs with
  | nil => exact ⟨r, bs, rfl, hg, ht⟩
  | cons c cs ih =>
    obtain ⟨ptr, r', bs', heq, hstep⟩ := step_spec hg c hv.1
    obtain ⟨r'', bs'', hrun, hg', ht'⟩ := ih hstep.good (hstep.tiled hh.1 ht)
      (hv.2 (ptr, r') heq) (hh.2 (ptr, r') heq)
    refine ⟨r'', bs'', ?_, hg', ht'⟩
    rw [run, heq, Option.bind_some]
    exact hrun

/-- Without a live allocation every block is free, so there is none. -/
theorem blocks_nil (hg : Good base r bs) (hl : r.live = []) : bs = [] := by
  refine settled_nil hg.settled fun b hb => ?_
  by_contra hf
  obtain ⟨a, ha, -⟩ := hg.owner b hb (Bool.not_eq_true _ ▸ hf)
  rw [hl] at ha
  exact absurd ha (by simp)

/-- In every run in which what is given back is taken, the blocks fill the heap,
behind every free block comes one in use, and without a live allocation the heap
is as it was at the start. -/
theorem heap_coalesced (base : ℕ) (hb : 0 < base) (hb' : base < 4294967296) (mem : Memory)
    (cs : List Call) (hv : ValidRun (start base mem) cs)
    (hh : HonouredRun base (start base mem) cs) :
    ∃ r blocks, run (start base mem) cs = some r ∧ Represents r.heap base blocks ∧
      Tiled base blocks r.heap.brk ∧ Settled blocks true ∧
      (r.live = [] → r.heap.head = 0 ∧ r.heap.tail = 0 ∧ r.heap.brk = base) := by
  obtain ⟨r, bs, hrun, hg, ht⟩ := run_tiled (good_start hb hb' mem) (Eq.refl base) cs hv hh
  refine ⟨r, bs, hrun, hg.represents, ht, hg.settled, fun hl => ?_⟩
  have hnil := blocks_nil hg hl
  have hr := hg.represents
  rw [hnil] at hr ht
  exact ⟨hr.head, hr.tail, ht.symm⟩

/-- What is given back is part of the heap. -/
theorem released_le {h : Heap} (hr : Represents h base (xs++b::ys)) :
    released xs b ys ≤ h.brk-base := by
  obtain ⟨mid, h1, h2⟩ := ordered_append.mp hr.ordered
  have h3 : Ordered 20 base (xs++(joinNext { b with free := true } ys).1::
      (joinNext { b with free := true } ys).2) h.brk :=
    ordered_append.mpr ⟨mid, h1, ordered_joinNext (b := { b with free := true }) h2⟩
  have h4 := ordered_mem (ordered_joinPrev h3) (List.mem_append_right _ List.mem_cons_self)
  unfold released
  dsimp only
  split_ifs
  · omega
  · omega

/-- A small heap has back what it gives back. -/
theorem returned_small {h : Heap} (hlt : h.brk-base < 2147483648) {reply : Reply}
    (hg : reply.granted = true) (ptr : ℕ) : Returned base h ptr reply := by
  intro xs b ys hr _
  have := released_le hr
  exact Or.inr ⟨hg, by omega⟩

theorem heap_coalesced_two :
    ∃ r blocks, run (start 0x40002000 fun _ => 0) [.malloc 10 granting, .malloc 20 granting,
      .free 0x40002014 granting] = some r ∧ Represents r.heap 0x40002000 blocks ∧
      Tiled 0x40002000 blocks r.heap.brk ∧ Settled blocks true := by
  obtain ⟨hv, -, hbrk⟩ := twoSmall_valid
  have hh : HonouredRun 0x40002000 (start 0x40002000 fun _ => 0) [.malloc 10 granting,
      .malloc 20 granting, .free 0x40002014 granting] := by
    refine ⟨trivial, fun x hx => ⟨trivial, fun y hy => ⟨?_, fun _ _ => trivial⟩⟩⟩
    have hx' : step (start 0x40002000 fun _ => 0) (.malloc 10 granting) = some x := hx
    have hy' : step x.2 (.malloc 20 granting) = some y := hy
    rw [hx', Option.bind_some, hy'] at hbrk
    have hbrk' : y.2.heap.brk = 0x40002048 := Option.some.inj hbrk
    exact returned_small (by rw [hbrk']; decide) rfl _
  obtain ⟨r, blocks, h1, h2, h3, h4, -⟩ := heap_coalesced 0x40002000 (by decide) (by decide) _ _
    hv hh
  exact ⟨r, blocks, h1, h2, h3, h4⟩

/-- Two allocations of a gigabyte, freed in order. -/
def twoLarge : List Call :=
  [.malloc 0x40000000 granting, .malloc 0x40000000 granting, .free 0x08100014 granting,
    .free 0x4810002C granting]

/-- The block they leave is larger than a `long` holds, and `SYS_SBRK` refuses to
take it: the list is empty and the break where it was. -/
theorem heap_not_returned :
    ValidRun (start 0x08100000 fun _ => 0) twoLarge ∧
    ∃ r, run (start 0x08100000 fun _ => 0) twoLarge = some r ∧ r.live = [] ∧
      r.heap.brk = 0x88100030 ∧
      ¬∃ blocks, Represents r.heap 0x08100000 blocks ∧ Tiled 0x08100000 blocks r.heap.brk := by
  have hv : ValidRun (start 0x08100000 fun _ => 0) twoLarge := by decide +kernel
  have hrun : (run (start 0x08100000 fun _ => 0) twoLarge).map (fun r =>
      (r.live, r.heap.head, r.heap.brk)) = some ([], 0, 0x88100030) := by decide +kernel
  obtain ⟨r, hr, heq⟩ := Option.map_eq_some_iff.mp hrun
  have hlive : r.live = [] := congrArg Prod.fst heq
  have hhead : r.heap.head = 0 := congrArg (fun x => x.2.1) heq
  have hbrk : r.heap.brk = 0x88100030 := congrArg (fun x => x.2.2) heq
  refine ⟨hv, r, hr, hlive, hbrk, ?_⟩
  rintro ⟨blocks, hrep, ht⟩
  cases blocks with
  | nil =>
    rw [hbrk] at ht
    have ht' : 0x08100000 = 0x88100030 := ht
    omega
  | cons b bs =>
    have h1 := hrep.head
    have h2 := hrep.ordered.1
    rw [hhead, firstAddr] at h1
    omega

end Vlsmc.MallocRuns
