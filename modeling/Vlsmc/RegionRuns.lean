import Vlsmc.Regions

/-!
# Regions over runs

While every new region stays clear of the regions that its call does not look at, no address
has two owners, and neither shrinking the heap nor unmapping a VMA takes a page of another
region.
-/

set_option autoImplicit false

namespace Vlsmc.RegionRuns
open Vlsmc.ByteMemory Vlsmc.Words Vlsmc.Elf Vlsmc.DemandPaging Vlsmc.ElfRelocations
open Vlsmc.ProgramStart Vlsmc.Regions

section Ranges

theorem apart_symm {r r' : Range} (h : Apart r r') : Apart r' r := fun x hx hx' => h x hx' hx

theorem apart_empty {r r' : Range} (h : r'.finish ≤ r'.start) : Apart r r' := fun x _ hx => by
  have h1 := hx.1
  have h2 := hx.2
  omega

/-- The first address of a page belongs to the range that begins with a page. -/
theorem hasPage_base {r : Range} (hr : 4096 ∣ r.start) {n : ℕ} (h : r.HasPage n) :
    r.Has (4096*n) := by
  obtain ⟨x, ⟨h1, h2⟩, rfl⟩ := h
  have := Nat.div_mul_le_self x 4096
  exact ⟨by omega, by omega⟩

theorem pageDown_dvd (a : ℕ) : 4096 ∣ pageDown a := Nat.dvd_mul_left 4096 _

theorem pageUp_dvd (a : ℕ) : 4096 ∣ pageUp a := pageDown_dvd _

theorem pageUp_lt (a : ℕ) : pageUp a < 4294967296 := by
  unfold pageUp pageDown u32
  omega

end Ranges

section Pages

variable {p : Process}

/-- The loop changes the table only, and only at its pages. -/
theorem unmapPages_spec (p : Process) (addr n : ℕ) :
    (unmapPages p addr n).vmaList = p.vmaList ∧ (unmapPages p addr n).heapStart = p.heapStart ∧
    (unmapPages p addr n).heapEnd = p.heapEnd ∧
    ∀ q, (∀ i < n, q ≠ u32 (addr+4096*i)/4096) → (unmapPages p addr n).table q = p.table q := by
  induction n with
  | zero => exact ⟨rfl, rfl, rfl, fun _ _ => rfl⟩
  | succ n ih =>
    obtain ⟨hv, hs, he, ht⟩ := ih
    refine ⟨hv, hs, he, fun q hq => ?_⟩
    have hne : q ≠ u32 (addr+4096*n)/4096 := hq n (by omega)
    rw [← ht q fun i hi => hq i (by omega)]
    exact if_neg hne

theorem mapAnon_regions (g : Grants) (vaddr flags n i : ℕ) (p : Process) :
    (mapAnon g vaddr flags n i p).2.vmaList = p.vmaList ∧
    (mapAnon g vaddr flags n i p).2.heapStart = p.heapStart ∧
    (mapAnon g vaddr flags n i p).2.heapEnd = p.heapEnd := by
  induction n generalizing i p with
  | zero => exact ⟨rfl, rfl, rfl⟩
  | succ n ih =>
    unfold mapAnon
    split
    · obtain ⟨hv, hs, he, -⟩ := unmapPages_spec p vaddr i
      exact ⟨hv, hs, he⟩
    · exact ih (i+1) _

theorem fault_regions {addr newFrame : ℕ} {cached : Option ℕ} {q : Process}
    (h : handlePageFault p addr cached newFrame = some q) :
    q.vmaList = p.vmaList ∧ q.heapStart = p.heapStart ∧ q.heapEnd = p.heapEnd := by
  unfold handlePageFault at h
  split_ifs at h
  · obtain rfl := Option.some.inj h
    exact ⟨rfl, rfl, rfl⟩
  · split at h
    · simp at h
    · dsimp only at h
      split at h <;> obtain rfl := Option.some.inj h <;> exact ⟨rfl, rfl, rfl⟩

end Pages

section Search

variable {vmas : List Vma} {length : ℕ}

/-- What the search finds, if not zero: a place that meets no VMA, below which every place
meets one. -/
theorem findLoop_spec (hv : ∀ v ∈ vmas, 4096 ∣ v.finish ∧ v.finish < 4294967296)
    (fuel c : ℕ) (hc : 0x20000000 ≤ c) (hd : 4096 ∣ c) (hlt : c < 4294967296)
    (hfuel : 4294967296 < c+4096*fuel)
    (hbelow : ∀ b, 0x20000000 ≤ b → b < c → ∃ v ∈ vmas, b < v.finish ∧ v.start < b+length) :
    ∃ a, findLoop vmas length fuel c = some a ∧ (a = 0 ∨ 0x20000000 ≤ a ∧ a < 4294967296 ∧
      4096 ∣ a ∧ u32 (a+length) ≤ 0xB0000000 ∧
      (∀ v ∈ vmas, ¬ (a < v.finish ∧ v.start < u32 (a+length))) ∧
      ∀ b, 0x20000000 ≤ b → b < a → ∃ v ∈ vmas, b < v.finish ∧ v.start < b+length) := by
  induction fuel generalizing c with
  | zero => omega
  | succ fuel ih =>
    unfold findLoop
    by_cases hle : u32 (c+length) ≤ 0xB0000000
    · rw [if_pos hle]
      cases hf : vmas.find? (conflicts c length) with
      | none =>
        refine ⟨c, rfl, Or.inr ⟨hc, hlt, hd, hle, fun v hvm hcon => ?_, hbelow⟩⟩
        have := List.find?_eq_none.mp hf v hvm
        simp [conflicts, hcon.1, hcon.2] at this
      | some v =>
        have hmem := List.mem_of_find?_eq_some hf
        have hcon := List.find?_some hf
        simp only [conflicts, Bool.and_eq_true, decide_eq_true_eq] at hcon
        obtain ⟨hdv, hltv⟩ := hv v hmem
        have hup : pageUp v.finish = v.finish := pageUp_of_dvd hdv (by omega)
        refine ih (pageUp v.finish) (by omega) (by omega) (by omega) (by omega)
          fun b hb hbv => ?_
        -- Below the end of `v` either an earlier candidate or `v` is in the way.
        by_cases hbc : b < c
        · exact hbelow b hb hbc
        · refine ⟨v, hmem, by omega, ?_⟩
          have hu : u32 (c+length) ≤ c+length := Nat.mod_le _ _
          omega
    · exact ⟨0, if_neg hle, Or.inl rfl⟩

theorem findFreeVaddr_spec (hv : ∀ v ∈ vmas, 4096 ∣ v.finish ∧ v.finish < 4294967296)
    (hlen : length < 4294967296) :
    ∃ a, findFreeVaddr vmas length = some a ∧ (a = 0 ∨ 4096 ∣ a ∧
      (Lowest vmas length a ∧ u32 (a+length) = a+length ∨ u32 (a+length) < a)) := by
  obtain ⟨a, ha, h⟩ := findLoop_spec hv 1048577 0x20000000 (le_refl _) (by decide) (by decide)
    (by decide) (fun b hb hb' => absurd hb' (Nat.not_lt.mpr hb))
  refine ⟨a, ha, ?_⟩
  rcases h with h | ⟨habove, hlt, hd, hle, hfree, hfirst⟩
  · exact Or.inl h
  · refine Or.inr ⟨hd, ?_⟩
    by_cases hw : a+length < 4294967296
    · have hu := u32_of_lt hw
      rw [hu] at hle hfree
      exact Or.inl ⟨⟨habove, hle, hfree, hfirst⟩, hu⟩
    · right
      unfold u32
      omega

end Search

section Step

variable {p q : Process}

/-- No address has two owners, and the regions are made of pages. -/
def Orderly (p : Process) : Prop := Separate p ∧ Aligned p

theorem orderly_same (h : Orderly p) (hv : q.vmaList = p.vmaList)
    (hs : q.heapStart = p.heapStart) (he : q.heapEnd = p.heapEnd) : Orderly q := by
  have hh : heap q = heap p := by rw [heap, heap, hs, he]
  obtain ⟨⟨h1, h2, h3, h4⟩, ⟨h5, h6, h7, h8, h9⟩⟩ := h
  refine ⟨⟨?_, ?_, ?_, ?_⟩, ⟨?_, ?_, ?_, ?_, ?_⟩⟩
  all_goals simp only [hv, hh, hs, he]
  all_goals assumption

theorem orderly_sublist (h : Orderly p) {vs : List Vma} (hsub : vs.Sublist p.vmaList)
    (hv : q.vmaList = vs) (hs : q.heapStart = p.heapStart) (he : q.heapEnd = p.heapEnd) :
    Orderly q := by
  have hh : heap q = heap p := by rw [heap, heap, hs, he]
  obtain ⟨⟨h1, h2, h3, h4⟩, ⟨h5, h6, h7, h8, h9⟩⟩ := h
  refine ⟨⟨?_, ?_, ?_, ?_⟩, ⟨?_, ?_, ?_, ?_, ?_⟩⟩
  all_goals simp only [hv, hh, hs, he]
  · exact h1.sublist hsub
  · exact fun v hm => h2 v (hsub.subset hm)
  · exact fun v hm => h3 v (hsub.subset hm)
  · exact h4
  · exact fun v hm => h5 v (hsub.subset hm)
  all_goals assumption

/-- A new VMA that meets nothing. -/
theorem orderly_add (h : Orderly p) {v : Vma} (hq : q.vmaList = v::p.vmaList)
    (hs : q.heapStart = p.heapStart) (he : q.heapEnd = p.heapEnd)
    (hal : 4096 ∣ v.start ∧ 4096 ∣ v.finish ∧ v.finish < 4294967296)
    (hheap : Apart (heap p) (vmaRange v)) (hstack : Apart stack (vmaRange v))
    (hvmas : ∀ w ∈ p.vmaList, Apart (vmaRange v) (vmaRange w)) : Orderly q := by
  have hh : heap q = heap p := by rw [heap, heap, hs, he]
  obtain ⟨⟨h1, h2, h3, h4⟩, ⟨h5, h6, h7, h8, h9⟩⟩ := h
  refine ⟨⟨?_, ?_, ?_, ?_⟩, ⟨?_, ?_, ?_, ?_, ?_⟩⟩
  all_goals simp only [hq, hh, hs, he, List.forall_mem_cons, List.pairwise_cons]
  · exact ⟨hvmas, h1⟩
  · exact ⟨hheap, h2⟩
  · exact ⟨hstack, h3⟩
  · exact h4
  · exact ⟨hal, h5⟩
  all_goals assumption

/-- The new end of a heap that `sys_sbrk` moves. -/
theorem sbrk_bounds {ebx : ℕ} (h : sbrkRefused p ebx = false) :
    p.heapStart ≤ u32 (p.heapEnd+ebx) ∧ u32 (p.heapEnd+ebx) < 0x8FFFFFFF ∧
    (0 < toInt32 ebx → p.heapEnd ≤ u32 (p.heapEnd+ebx)) ∧
    (toInt32 ebx < 0 → u32 (p.heapEnd+ebx) ≤ p.heapEnd) := by
  obtain ⟨hstart, -, hlimit, hgrow, hshrink⟩ := sbrk_checks h
  exact ⟨hstart, hlimit, hgrow, hshrink⟩

/-- The heap ends elsewhere, and what it has grown by meets no VMA. -/
theorem orderly_heapEnd (h : Orderly p) (hv : q.vmaList = p.vmaList)
    (hs : q.heapStart = p.heapStart) (hlow : p.heapStart ≤ q.heapEnd)
    (hlimit : q.heapEnd < 0x8FFFFFFF)
    (hgrow : ∀ v ∈ p.vmaList, Apart ⟨p.heapEnd, q.heapEnd⟩ (vmaRange v)) : Orderly q := by
  obtain ⟨⟨h1, h2, h3, -⟩, ⟨h5, h6, -, -, -⟩⟩ := h
  refine ⟨⟨?_, ?_, ?_, ?_⟩, ⟨?_, ?_, ?_, fun _ => hlimit, by omega⟩⟩
  all_goals simp only [heap, hv, hs]
  · exact h1
  · intro v hv x hx
    by_cases hold : x < p.heapEnd
    · exact h2 v hv x ⟨hx.1, hold⟩
    · exact hgrow v hv x ⟨Nat.not_lt.mp hold, hx.2⟩
  · exact h3
  · intro x hx hxs
    have h1 := hx.2
    have h2 := hxs.1
    dsimp only [stack, userStackTop] at h1 h2
    omega
  · exact h5
  · exact h6
  · exact hlow

/-- The pages that a shrinking heap loses are taken before the end moves. -/
theorem sysSbrk_cases (p : Process) (ebx : ℕ) : (sysSbrk p ebx).2 = p ∨
    sbrkRefused p ebx = false ∧ ∃ shrunk, (sysSbrk p ebx).2 =
        { shrunk with heapEnd := u32 (p.heapEnd+ebx) } ∧
      (0 < toInt32 ebx ∧ shrunk = p ∨ toInt32 ebx < 0 ∧
        shrunk = unmapPages p (pageUp (u32 (p.heapEnd+ebx)))
          ((pageUp p.heapEnd-pageUp (u32 (p.heapEnd+ebx)))/4096)) := by
  unfold sysSbrk
  by_cases h0 : toInt32 ebx = 0
  · left
    rw [if_pos h0]
  · rw [if_neg h0]
    cases hr : sbrkRefused p ebx with
    | true => exact Or.inl rfl
    | false =>
      refine Or.inr ⟨rfl, _, rfl, ?_⟩
      by_cases hn : toInt32 ebx < 0
      · exact Or.inr ⟨hn, if_pos hn⟩
      · exact Or.inl ⟨by omega, if_neg hn⟩

theorem sysSbrk_orderly (h : Orderly p) {ebx : ℕ} (hc : 0 < toInt32 ebx →
      sbrkRefused p ebx = false → ∀ v ∈ p.vmaList,
        Apart ⟨p.heapEnd, u32 (p.heapEnd+ebx)⟩ (vmaRange v)) :
    Orderly (sysSbrk p ebx).2 := by
  rcases sysSbrk_cases p ebx with heq | ⟨hr, shrunk, heq, ⟨hpos, rfl⟩ | ⟨hneg, hshrunk⟩⟩
  · rwa [heq]
  · obtain ⟨hlow, hlimit, -, -⟩ := sbrk_bounds hr
    rw [heq]
    exact orderly_heapEnd h rfl rfl hlow hlimit (hc hpos hr)
  · obtain ⟨hlow, hlimit, -, hle⟩ := sbrk_bounds hr
    obtain ⟨hv, hs, -, -⟩ := unmapPages_spec p (pageUp (u32 (p.heapEnd+ebx)))
      ((pageUp p.heapEnd-pageUp (u32 (p.heapEnd+ebx)))/4096)
    rw [← hshrunk] at hv hs
    rw [heq]
    exact orderly_heapEnd h hv hs hlow hlimit fun v _ => apart_symm (apart_empty (hle hneg))

theorem sysMunmap_orderly (h : Orderly p) (addr size : ℕ) : Orderly (sysMunmap p addr size).2 := by
  unfold sysMunmap
  split_ifs
  · exact h
  · obtain ⟨-, hs, he, -⟩ := unmapPages_spec p (pageDown addr) (pageUp size/4096)
    exact orderly_sublist h List.filter_sublist rfl hs he

/-- A mapping is refused, or its VMA is the new head of the list. -/
theorem sysMmap_cases {g : Grants} {addr size prot flags fd : ℕ} {r : ℕ × Process}
    (h : sysMmap p g addr size prot flags fd = some r) :
    (r.2.vmaList = p.vmaList ∧ r.2.heapStart = p.heapStart ∧ r.2.heapEnd = p.heapEnd) ∨
    ∃ vaddr v, mmapVaddr p addr (pageUp size) flags = some vaddr ∧ vaddr ≠ 0 ∧
      r.2.vmaList = v::p.vmaList ∧ v.start = vaddr ∧ v.finish = u32 (vaddr+pageUp size) ∧
      r.2.heapStart = p.heapStart ∧ r.2.heapEnd = p.heapEnd := by
  unfold sysMmap at h
  by_cases h0 : size = 0
  · rw [if_pos h0] at h
    obtain rfl := Option.some.inj h
    exact Or.inl ⟨rfl, rfl, rfl⟩
  · rw [if_neg h0] at h
    obtain ⟨vaddr, hvaddr, rfl⟩ := Option.map_eq_some_iff.mp h
    by_cases hk : vaddr = 0 ∨ g.kmalloc = false
    · rw [if_pos hk]
      exact Or.inl ⟨rfl, rfl, rfl⟩
    · rw [if_neg hk]
      by_cases ha : flags.testBit mapAnonymous = true
      · rw [if_pos ha]
        have hm := mapAnon_regions g vaddr (pageFlags prot) (pageUp size/4096) 0 p
        split
        · next hmap =>
          rw [hmap] at hm
          exact Or.inl hm
        · next hmap =>
          rw [hmap] at hm
          refine Or.inr ⟨vaddr, _, hvaddr, fun he => hk (Or.inl he),
            congrArg (List.cons _) hm.1, rfl, rfl, hm.2.1, hm.2.2⟩
      · rw [if_neg ha]
        split
        · exact Or.inl ⟨rfl, rfl, rfl⟩
        · exact Or.inr ⟨vaddr, _, hvaddr, fun he => hk (Or.inl he), rfl, rfl, rfl, rfl, rfl⟩

theorem fixed_range {addr flags length : ℕ} (hf : addr ≠ 0 ∧ flags.testBit mapFixed = true)
    {vaddr : ℕ} (h : mmapVaddr p addr length flags = some vaddr) (h0 : vaddr ≠ 0) :
    kernelSpaceEnd ≤ addr ∧ vaddr = pageDown addr := by
  rw [mmapVaddr, if_pos hf] at h
  by_cases hk : addr < kernelSpaceEnd
  · rw [if_pos hk] at h
    exact absurd (Option.some.inj h).symm h0
  · rw [if_neg hk] at h
    exact ⟨Nat.not_lt.mp hk, (Option.some.inj h).symm⟩

theorem stack_above {r : Range} (h : r.finish ≤ 0xB0000000) : Apart stack r := fun x hx hr => by
  have h1 := hx.1
  have h2 := hr.2
  dsimp only [stack, userStackTop] at h1
  omega

theorem sysMmap_orderly (h : Orderly p) {g : Grants} {ebx ecx edx esi edi : UInt32}
    (hc : (Call.mmap g ebx ecx edx esi edi).Clear p) {r : ℕ × Process}
    (hr : sysMmap p g ebx.toNat ecx.toNat edx.toNat esi.toNat edi.toNat = some r) :
    Orderly r.2 := by
  rcases sysMmap_cases hr with ⟨hv, hs, he⟩ | ⟨vaddr, v, hvaddr, h0, hlist, hvs, hvf, hs, he⟩
  · exact orderly_same h hv hs he
  · have hrange : vmaRange v = ⟨vaddr, u32 (vaddr+pageUp ecx.toNat)⟩ := by
      rw [vmaRange, hvs, hvf]
    have hlen := pageUp_lt ecx.toNat
    have hlend := pageUp_dvd ecx.toNat
    have hfin : 4096 ∣ vaddr → 4096 ∣ v.start ∧ 4096 ∣ v.finish ∧ v.finish < 4294967296 := by
      intro hd
      rw [hvs, hvf]
      refine ⟨hd, ?_, Nat.mod_lt _ (by decide)⟩
      unfold u32
      omega
    by_cases hfix : ebx ≠ 0 ∧ esi.toNat.testBit mapFixed = true
    · have hfix' : ebx.toNat ≠ 0 ∧ esi.toNat.testBit mapFixed = true :=
        ⟨fun hz => hfix.1 (UInt32.toNat_inj.mp hz), hfix.2⟩
      obtain ⟨hk, rfl⟩ := fixed_range hfix' hvaddr h0
      rw [Call.Clear, if_pos hfix] at hc
      obtain ⟨hheap, hstack, hvmas⟩ := hc hk
      refine orderly_add h hlist hs he (hfin (pageDown_dvd _)) ?_ ?_ ?_ <;> rw [hrange]
      · exact hheap
      · exact hstack
      · exact hvmas
    · have hfix' : ¬ (ebx.toNat ≠ 0 ∧ esi.toNat.testBit mapFixed = true) := fun hc' =>
        hfix ⟨fun hz => hc'.1 (by rw [hz]; rfl), hc'.2⟩
      rw [mmapVaddr, if_neg hfix'] at hvaddr
      rw [Call.Clear, if_neg hfix] at hc
      obtain ⟨a, ha, hres⟩ := findFreeVaddr_spec
        (fun v hv => ⟨(h.2.vmas v hv).2.1, (h.2.vmas v hv).2.2⟩) hlen
      obtain rfl : a = vaddr := Option.some.inj (ha.symm.trans hvaddr)
      rcases hres with hz | ⟨hd, ⟨hlow, hu⟩ | hwrap⟩
      · exact absurd hz h0
      · rw [hu] at hrange
        refine orderly_add h hlist hs he (hfin hd) ?_ ?_ ?_ <;> rw [hrange]
        · exact hc a hlow
        · exact stack_above hlow.below
        · exact fun w hw x hx hxw => hlow.free w hw
            ⟨lt_of_le_of_lt hx.1 hxw.2, lt_of_le_of_lt hxw.1 hx.2⟩
      · -- The end has passed the top of the address space, and the VMA holds no address.
        refine orderly_add h hlist hs he (hfin hd) ?_ ?_ ?_ <;> rw [hrange]
        · exact apart_empty hwrap.le
        · exact apart_empty hwrap.le
        · exact fun w _ => apart_symm (apart_empty hwrap.le)

theorem step_orderly (h : Orderly p) (c : Call) (hc : c.Clear p) (hr : c.run p = some q) :
    Orderly q := by
  cases c with
  | sbrk ebx => exact Option.some.inj hr ▸ sysSbrk_orderly h hc
  | mmap g ebx ecx edx esi edi =>
    obtain ⟨r, hm, rfl⟩ := Option.map_eq_some_iff.mp hr
    exact sysMmap_orderly h hc hm
  | munmap ebx ecx => exact Option.some.inj hr ▸ sysMunmap_orderly h ebx.toNat ecx.toNat
  | fault addr cached newFrame =>
    obtain ⟨hv, hs, he⟩ := fault_regions hr
    exact orderly_same h hv hs he

end Step

section Isolation

variable {p : Process}

/-- Shrinking the heap takes no page of the stack or of a VMA, and unmapping a VMA takes no page
of another region. -/
structure Isolated (p : Process) : Prop where
  shrink : ∀ ebx n, (stack.HasPage n ∨ ∃ v ∈ p.vmaList, (vmaRange v).HasPage n) →
    (sysSbrk p ebx).2.table n = p.table n
  unmap : ∀ v ∈ p.vmaList, v.start < v.finish → ∀ n,
    ((heap p).HasPage n ∨ stack.HasPage n ∨ ∃ w ∈ p.vmaList, w ≠ v ∧ (vmaRange w).HasPage n) →
    (sysMunmap p v.start (v.finish-v.start)).2.table n = p.table n

/-- The pages that a shrinking heap loses are the heap's. -/
theorem shrink_pages (h : Orderly p) {ebx : ℕ} (hr : sbrkRefused p ebx = false)
    (hneg : toInt32 ebx < 0) {i n : ℕ}
    (hi : i < (pageUp p.heapEnd-pageUp (u32 (p.heapEnd+ebx)))/4096)
    (hn : n = u32 (pageUp (u32 (p.heapEnd+ebx))+4096*i)/4096) : (heap p).Has (4096*n) := by
  obtain ⟨hlow, hlimit, -, hle⟩ := sbrk_bounds hr
  have hle := hle hneg
  have hnonempty : p.heapStart < p.heapEnd := by
    by_contra hc
    have := h.2.heapEnd
    unfold toInt32 at hneg
    have he : u32 (p.heapEnd+ebx) = p.heapEnd := by omega
    rw [he] at hi
    simp at hi
  have hend := h.2.heapLimit hnonempty
  have hstart := h.2.heapStart
  generalize u32 (p.heapEnd+ebx) = newEnd at *
  dsimp only [heap, Range.Has]
  unfold pageUp pageDown u32 at hi hn
  constructor <;> omega

/-- The pages that go with a VMA are the VMA's. -/
theorem unmap_pages (h : Orderly p) {v : Vma} (hv : v ∈ p.vmaList) (hlt : v.start < v.finish)
    {i n : ℕ} (hi : i < pageUp (v.finish-v.start)/4096)
    (hn : n = u32 (pageDown v.start+4096*i)/4096) : (vmaRange v).Has (4096*n) := by
  obtain ⟨h1, h2, h3⟩ := h.2.vmas v hv
  dsimp only [vmaRange, Range.Has]
  unfold pageUp pageDown u32 at hi
  unfold pageDown u32 at hn
  constructor <;> omega

theorem orderly_isolated (h : Orderly p) : Isolated p := by
  have hvma : ∀ v ∈ p.vmaList, ∀ n, (vmaRange v).HasPage n → (vmaRange v).Has (4096*n) :=
    fun v hv n => hasPage_base (h.2.vmas v hv).1
  have hstack : ∀ n, stack.HasPage n → stack.Has (4096*n) := fun n => hasPage_base (by decide)
  refine ⟨fun ebx n hn => ?_, fun v hv hlt n hn => ?_⟩
  · rcases sysSbrk_cases p ebx with heq | ⟨hr, shrunk, heq, ⟨-, rfl⟩ | ⟨hneg, hshrunk⟩⟩
    · rw [heq]
    · rw [heq]
    · rw [heq]
      show shrunk.table n = p.table n
      rw [hshrunk]
      refine (unmapPages_spec p _ _).2.2.2 n fun i hi he => ?_
      have hown := shrink_pages h hr hneg hi he
      rcases hn with hs | ⟨v, hv, hp⟩
      · exact h.1.heapStack _ hown (hstack n hs)
      · exact h.1.heapVmas v hv _ hown (hvma v hv n hp)
  · unfold sysMunmap
    split_ifs
    · rfl
    · refine (unmapPages_spec p _ _).2.2.2 n fun i hi he => ?_
      have hown := unmap_pages h hv hlt hi he
      rcases hn with hp | hs | ⟨w, hw, hne, hp⟩
      · exact h.1.heapVmas v hv _ (hasPage_base h.2.heapStart hp) hown
      · exact h.1.stackVmas v hv _ (hstack n hs) hown
      · have : Std.Symm fun v w : Vma => Apart (vmaRange v) (vmaRange w) := ⟨fun _ _ => apart_symm⟩
        exact h.1.vmas.forall hw hv hne _ (hvma w hw n hp) hown

end Isolation

section Start

def PageRanges (vs : List Vma) : Prop :=
  ∀ v ∈ vs, 4096 ∣ v.start ∧ 4096 ∣ v.finish ∧ v.finish < 4294967296

theorem foldlM_keeps {α β : Type} {P : β → Prop} {f : β → α → Option β}
    (hf : ∀ b a b', P b → f b a = some b' → P b') (l : List α) {b b' : β} (hb : P b)
    (h : l.foldlM f b = some b') : P b' := by
  induction l generalizing b with
  | nil => exact Option.some.inj h ▸ hb
  | cons a l ih =>
    rw [List.foldlM_cons] at h
    obtain ⟨c, hc, h⟩ := Option.bind_eq_some_iff.mp h
    exact ih (hf b a c hb hc) h

theorem addSegment_pages {f : File} {bias : ℕ} {kmalloc : List Vma → Bool} {s s' : List Vma × ℕ}
    {ph : Phdr} (h : PageRanges s.1) (hs : addSegment f bias kmalloc s ph = some s') :
    PageRanges s'.1 := by
  unfold addSegment at hs
  split_ifs at hs <;> obtain rfl := Option.some.inj hs
  · exact h
  · exact h
  · exact List.forall_mem_cons.mpr ⟨⟨pageDown_dvd _, pageUp_dvd _, pageUp_lt _⟩, h⟩

theorem relocate_vmaList (f : File) (bias : ℕ) (supply : ℕ → Supply) (s : Loading) (r : Rel) :
    (s.relocate f bias supply r).process.vmaList = s.process.vmaList := by
  have hset : ∀ (p : Process) a b, (setByte p a b).vmaList = p.vmaList := by
    intro p a b
    unfold setByte
    split <;> rfl
  have hpatch : ∀ (s : Loading) a, (s.patch a bias).process.vmaList = s.process.vmaList := by
    intro s a
    unfold Loading.patch
    split_ifs
    · simp [patchWord, List.range_succ, hset]
    · rfl
  have hfill : ∀ (s : Loading) page frame table,
      (s.fillPage f page frame table).process.vmaList = s.process.vmaList := by
    intro s page frame table
    unfold Loading.fillPage
    split_ifs <;> rfl
  unfold Loading.relocate
  split_ifs
  · rfl
  · rfl
  · dsimp only
    split
    · split
      · rfl
      · rw [hpatch, hfill]
    · rw [hpatch]

theorem load_pages {h : Heap} {f : File} {old : Memory} {bias : ℕ} {supply : ℕ → Supply}
    {p : Process} {r : Process × LoadedElf} (hp : PageRanges p.vmaList)
    (hr : h.load f old bias supply p = some r) : PageRanges r.1.vmaList := by
  unfold Heap.load ElfRelocations.loadElfSegments DemandPaging.loadElfSegments at hr
  cases hv : (phdrs (h.buffers f old).header).foldlM (addSegment f bias h.vmaRoom)
      (p.vmaList, 0) with
  | none =>
    rw [hv] at hr
    exact absurd hr (by simp)
  | some v =>
    rw [hv] at hr
    have hpages : PageRanges v.1 :=
      foldlM_keeps (P := fun s : List Vma × ℕ => PageRanges s.1)
        (fun _ _ _ hb hs => addSegment_pages hb hs) _ hp hv
    have hreloc : ∀ (rs : List Rel) (s : Loading),
        (rs.foldl (Loading.relocate f bias supply) s).process.vmaList = s.process.vmaList := by
      intro rs
      induction rs with
      | nil => exact fun _ => rfl
      | cons r rs ih =>
        intro s
        rw [List.foldl_cons, ih, relocate_vmaList]
    dsimp only [Option.map] at hr
    split_ifs at hr <;> obtain rfl := Option.some.inj hr
    · dsimp only
      rw [hreloc]
      exact hpages
    · exact hpages

/-- What a starter leaves: page ranges, and an empty heap. -/
structure Begun (p : Process) : Prop where
  vmas : PageRanges p.vmaList
  heapStart : 4096 ∣ p.heapStart
  heapEnd : p.heapEnd = p.heapStart
  small : p.heapEnd < 4294967296

theorem begun_setHeap {p : Process} (h : PageRanges p.vmaList) (maxVaddr : ℕ) :
    Begun (p.setHeap maxVaddr) := by
  have hd : 4096 ∣ u32 (pageUp maxVaddr+4096) := by
    have := pageUp_dvd maxVaddr
    unfold u32
    omega
  have hlt : u32 (pageUp maxVaddr+4096) < 4294967296 := Nat.mod_lt _ (by decide)
  unfold Process.setHeap
  generalize u32 (pageUp maxVaddr+4096) = base at hd hlt
  exact ⟨h, hd, rfl, hlt⟩

theorem begun_mapStack {k : Kernel} {p q : Process} (h : Begun p) (hq : k.mapStack p = some q) :
    Begun q := by
  refine foldlM_keeps (fun p i q hp hs => ?_) _ h hq
  obtain ⟨frame, -, rfl⟩ := Option.map_eq_some_iff.mp hs
  exact ⟨hp.vmas, hp.heapStart, hp.heapEnd, hp.small⟩

theorem elfExec_begun {k : Kernel} {h : Heap} {filename : Path} {s : Started}
    (hs : elfExec k h filename = some s) : Begun s.process := by
  unfold elfExec elfThreadEntry at hs
  split at hs
  · next old f _ _ =>
    split_ifs at hs
    obtain ⟨p0, hp0, hs⟩ := Option.bind_eq_some_iff.mp hs
    obtain ⟨space, -, rfl⟩ := Option.map_eq_some_iff.mp hp0
    obtain ⟨app, happ, hs⟩ := Option.bind_eq_some_iff.mp hs
    obtain ⟨r, hr, hs⟩ := Option.bind_eq_some_iff.mp hs
    obtain ⟨p1, hp1, rfl⟩ := Option.map_eq_some_iff.mp hs
    have hpages : PageRanges app.1.vmaList := load_pages (by simp [PageRanges]) happ
    refine begun_mapStack (begun_setHeap ?_ r.2.1) hp1
    unfold Heap.loadInterp at hr
    split_ifs at hr
    · obtain rfl := Option.some.inj hr
      exact hpages
    · split at hr
      · split_ifs at hr
        obtain ⟨r', hr', rfl⟩ := Option.map_eq_some_iff.mp hr
        exact load_pages hpages hr'
      · simp at hr
  · simp at hs

theorem execSegment_pages (h : Heap) (phs : List Phdr) (s : Segments) (hs : PageRanges s.vmaList) :
    PageRanges (phs.foldl h.execSegment s).vmaList := by
  induction phs generalizing s with
  | nil => exact hs
  | cons ph phs ih =>
    refine ih _ ?_
    unfold Heap.execSegment
    split_ifs
    · exact hs
    · exact hs
    · exact List.forall_mem_cons.mpr ⟨⟨pageDown_dvd _, pageUp_dvd _, pageUp_lt _⟩, hs⟩
    · exact hs

theorem sysExec_begun {k : Kernel} {h : Heap} {filename : Path} {s : Started}
    (hs : sysExec k h filename = some s) : Begun s.process := by
  unfold sysExec at hs
  split at hs
  · next old f _ _ =>
    split_ifs at hs
    obtain ⟨p0, -, hs⟩ := Option.bind_eq_some_iff.mp hs
    obtain ⟨p1, hp1, rfl⟩ := Option.map_eq_some_iff.mp hs
    exact begun_mapStack (begun_setHeap
      (execSegment_pages h _ _ (by simp [PageRanges])) _) hp1
  · simp at hs

end Start

section Runs

def run : List Call → Process → Option Process
  | [], p => some p
  | c::cs, p => (c.run p).bind (run cs)

/-- Every call is clear of the regions that it does not look at when it is made. -/
def ClearRun : List Call → Process → Prop
  | [], _ => True
  | c::cs, p => c.Clear p ∧ ∀ q, c.run p = some q → ClearRun cs q

theorem run_orderly (cs : List Call) {p q : Process} (h : Orderly p) (hc : ClearRun cs p)
    (hr : run cs p = some q) : Orderly q := by
  induction cs generalizing p with
  | nil => exact Option.some.inj hr ▸ h
  | cons c cs ih =>
    obtain ⟨t, ht, hr⟩ := Option.bind_eq_some_iff.mp hr
    exact ih (step_orderly h c hc.1 ht) (hc.2 t ht) hr

theorem begun_orderly {p : Process} (h : Begun p)
    (hvmas : p.vmaList.Pairwise fun v w => Apart (vmaRange v) (vmaRange w))
    (hstack : ∀ v ∈ p.vmaList, Apart stack (vmaRange v)) : Orderly p := by
  have hempty : ∀ r, Apart (heap p) r := fun r => apart_symm (apart_empty h.heapEnd.le)
  exact ⟨⟨hvmas, fun v _ => hempty _, hstack, hempty _⟩,
    ⟨h.vmas, h.heapStart, h.heapEnd.ge, fun hlt => absurd h.heapEnd hlt.ne', h.small⟩⟩

/-- Over every run of calls on a started program whose segments lie apart: while each new region
is clear of the regions that its call does not look at, every address has one owner. -/
theorem regions_separate (k : Kernel) (h : Heap) (filename : Path) (s : Started)
    (hs : elfExec k h filename = some s ∨ sysExec k h filename = some s)
    (hvmas : s.process.vmaList.Pairwise fun v w => Apart (vmaRange v) (vmaRange w))
    (hstack : ∀ v ∈ s.process.vmaList, Apart stack (vmaRange v))
    (calls : List Call) (hclear : ClearRun calls s.process) (q : Process)
    (hrun : run calls s.process = some q) : Separate q ∧ Isolated q := by
  have hbegun : Begun s.process := hs.elim elfExec_begun sysExec_begun
  have hq := run_orderly calls (begun_orderly hbegun hvmas hstack) hclear hrun
  exact ⟨hq.1, orderly_isolated hq⟩

/-- The regions of a process as numbers. -/
def outline (p : Process) : List (ℕ × ℕ) × ℕ × ℕ :=
  (p.vmaList.map fun v => (v.start, v.finish), p.heapStart, p.heapEnd)

theorem small_started : ∃ s,
    elfExec (smallKernel (smallProgram 2 3)) (smallHeap (.anon, none)) [0x62] = some s ∧
    outline s.process = ([(0x08048000, 0x08049000)], 0x0804A000, 0x0804A000) := by
  have h : (elfExec (smallKernel (smallProgram 2 3)) (smallHeap (.anon, none)) [0x62]).map
      (fun s => outline s.process) =
      some ([(0x08048000, 0x08049000)], 0x0804A000, 0x0804A000) := by
    decide +kernel
  obtain ⟨s, hs, ho⟩ := Option.map_eq_some_iff.mp h
  exact ⟨s, hs, ho⟩

/-- A program that grows its heap by one page. -/
theorem regions_separate_small : ∃ s q,
    elfExec (smallKernel (smallProgram 2 3)) (smallHeap (.anon, none)) [0x62] = some s ∧
    run [.sbrk 4096] s.process = some q ∧ q.heapEnd = 0x0804B000 ∧ Separate q ∧ Isolated q := by
  obtain ⟨s, hs, ho⟩ := small_started
  obtain ⟨hv, hstart, hend⟩ : s.process.vmaList.map (fun v => (v.start, v.finish)) =
      [(0x08048000, 0x08049000)] ∧ s.process.heapStart = 0x0804A000 ∧
      s.process.heapEnd = 0x0804A000 := by
    simpa [outline] using ho
  obtain ⟨v, hlist, hrange⟩ := List.map_eq_singleton_iff.mp hv
  obtain ⟨hvs, hvf⟩ := Prod.mk.inj hrange
  have hbelow : ∀ a b, 0x08049000 ≤ a → Apart ⟨a, b⟩ (vmaRange v) := by
    intro a b ha x hx hxv
    have h1 := hx.1
    have h2 := hxv.2
    dsimp only [vmaRange] at h1 h2
    omega
  refine ⟨s, _, hs, rfl, ?_, regions_separate _ _ _ s (Or.inl hs) ?_ ?_ [.sbrk 4096]
    ⟨fun _ _ w hw => ?_, fun _ _ => trivial⟩ _ rfl⟩
  · have hr : sbrkRefused s.process 4096 = false := by
      rw [sbrkRefused, hstart, hend]
      decide
    have hi : ¬ toInt32 4096 = 0 := by decide
    have hn : ¬ toInt32 4096 < 0 := by decide
    change (sysSbrk s.process 4096).2.heapEnd = _
    rw [sysSbrk, if_neg hi, hr, if_neg (by decide)]
    change u32 (s.process.heapEnd+4096) = _
    rw [hend]
    rfl
  · rw [hlist]
    exact List.pairwise_singleton _ _
  · rw [hlist]
    exact fun w hw => List.mem_singleton.mp hw ▸ hbelow _ _ (by decide)
  · rw [hlist] at hw
    exact List.mem_singleton.mp hw ▸ hbelow _ _ (by rw [hend]; decide)

/-- One frame for `sys_mmap`. -/
def oneFrame : Grants := ⟨true, fun _ => some 0x2100000, fun _ => none⟩

/-- An anonymous page is mapped at 0x20000000, the heap grows over it, and when the heap shrinks
again the page is gone. -/
theorem heap_grows_over_vma : ∃ s p q,
    elfExec (smallKernel (smallProgram 2 3)) (smallHeap (.anon, none)) [0x62] = some s ∧
    run [.mmap oneFrame 0 4096 2 0x22 0, .sbrk 0x17FB7000] s.process = some p ∧
    ¬ Separate p ∧ (Call.sbrk 0xFFFFF000).run p = some q ∧
    (p.table 0x20000).isSome ∧ q.table 0x20000 = none ∧
    ∃ v ∈ q.vmaList, (vmaRange v).HasPage 0x20000 := by
  have h : (elfExec (smallKernel (smallProgram 2 3)) (smallHeap (.anon, none)) [0x62]).bind
      (fun s => (run [.mmap oneFrame 0 4096 2 0x22 0, .sbrk 0x17FB7000] s.process).bind fun p =>
        ((Call.sbrk 0xFFFFF000).run p).map fun q =>
          decide (outline p = ([(0x20000000, 0x20001000), (0x08048000, 0x08049000)],
            0x0804A000, 0x20001000)) &&
          decide (outline q = ([(0x20000000, 0x20001000), (0x08048000, 0x08049000)],
            0x0804A000, 0x20000000)) &&
          (p.table 0x20000).isSome && (q.table 0x20000).isNone) = some true := by
    decide +kernel
  obtain ⟨s, hs, h⟩ := Option.bind_eq_some_iff.mp h
  obtain ⟨p, hp, h⟩ := Option.bind_eq_some_iff.mp h
  obtain ⟨q, hq, h⟩ := Option.map_eq_some_iff.mp h
  simp only [outline, Bool.and_eq_true, decide_eq_true_eq, Prod.mk.injEq] at h
  obtain ⟨⟨⟨⟨hpv, hps, hpe⟩, hqv, -, -⟩, hpt⟩, hqt⟩ := h
  have hmem : ∀ r : Process, r.vmaList.map (fun v => (v.start, v.finish)) =
      [(0x20000000, 0x20001000), (0x08048000, 0x08049000)] →
      ∃ v ∈ r.vmaList, (vmaRange v).Has 0x20000000 := by
    intro r hr
    have hm : (0x20000000, 0x20001000) ∈ r.vmaList.map fun v => (v.start, v.finish) := by
      rw [hr]
      exact List.mem_cons_self
    obtain ⟨v, hv, heq⟩ := List.mem_map.mp hm
    obtain ⟨hvs, hvf⟩ := Prod.mk.inj heq
    exact ⟨v, hv, hvs.le, lt_of_lt_of_eq (by decide) hvf.symm⟩
  refine ⟨s, p, q, hs, hp, fun hsep => ?_, hq, hpt,
    Option.isNone_iff_eq_none.mp hqt, ?_⟩
  · obtain ⟨v, hv, hhas⟩ := hmem p hpv
    exact hsep.heapVmas v hv 0x20000000
      ⟨le_of_eq_of_le hps (by decide), lt_of_lt_of_eq (by decide) hpe.symm⟩ hhas
  · obtain ⟨v, hv, hhas⟩ := hmem q hqv
    exact ⟨v, hv, 0x20000000, hhas, by decide⟩

end Runs

end Vlsmc.RegionRuns
