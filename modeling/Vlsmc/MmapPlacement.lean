import Mathlib.Logic.Relation
import Vlsmc.RegionRuns

/-!
# Where `sys_mmap` puts a mapping

`find_free_vaddr` starts at 0x20000000 and goes on to the end of a VMA that is in the way. It
compares sums that wrap at 2^32, and so does the rounding of the length. Without a wrap it finds
the first free place, with one it takes addresses where the mapping does not fit.
-/

set_option autoImplicit false

namespace Vlsmc.MmapPlacement
open Vlsmc.Words Vlsmc.Elf Vlsmc.DemandPaging Vlsmc.ElfRelocations
open Vlsmc.Regions Vlsmc.RegionRuns

/-- The length in whole pages; `pageUp` is this on 32 bits. -/
def roundUp (n : ℕ) : ℕ := (n+4095)/4096*4096

/-- A VMA as `sys_mmap` and the loaders make it when nothing wraps: some whole pages. -/
structure Pages (v : Vma) : Prop where
  start : 4096 ∣ v.start
  finish : 4096 ∣ v.finish
  lt : v.start < v.finish
  word : v.finish < 4294967296

/-- A place for a mapping between 0x20000000 and 0xB0000000. -/
structure Gap (vmas : List Vma) (length b : ℕ) : Prop where
  above : 0x20000000 ≤ b
  below : b+length ≤ 0xB0000000
  free : ∀ v ∈ vmas, Apart ⟨b, b+length⟩ (vmaRange v)

/-- The mapping at `a` with the VMA `v`. -/
structure Given (p q : Process) (flags size a : ℕ) (v : Vma) : Prop where
  aligned : 4096 ∣ a
  listed : q.vmaList = v::p.vmaList
  start : v.start = a
  covers : a+size ≤ v.finish
  word : v.finish < 4294967296
  bounds : flags.testBit mapFixed = false → kernelSpaceEnd ≤ a ∧ v.finish ≤ 0xB0000000
  apart : flags.testBit mapFixed = false → ∀ w ∈ p.vmaList, Apart (vmaRange v) (vmaRange w)

def ReturnsGiven (p : Process) (g : Grants) (addr size prot flags fd : ℕ) : Prop :=
  ∃ r q, sysMmap p g addr size prot flags fd = some (r, q) ∧
    (r ≠ minusOne → ∃ v, Given p q flags size r v)

/-- `sys_mmap` gives what it returns, and the search for a place ends and finds one if there
is one. -/
def GivesReturned (p : Process) (g : Grants) (addr size prot flags fd : ℕ) : Prop :=
  ReturnsGiven p g addr size prot flags fd ∧
  ∃ a, findFreeVaddr p.vmaList (pageUp size) = some a ∧
    (a = 0 → ∀ b, ¬ Gap p.vmaList (roundUp size) b)

/-- The call gets its record, and its frames or its file. -/
def Granted (g : Grants) (size flags fd : ℕ) : Prop :=
  g.kmalloc = true ∧
  if flags.testBit mapAnonymous then ∀ i < pageUp size/4096, g.supply i ≠ none
  else 0 ≤ toInt32 fd ∧ toInt32 fd < 16 ∧ g.fdTable fd ≠ none

/-- The search goes on from `c` to the end of the first VMA in the list that is in the way. -/
def Next (vmas : List Vma) (length c d : ℕ) : Prop :=
  u32 (c+length) ≤ 0xB0000000 ∧
  ∃ v, vmas.find? (conflicts c length) = some v ∧ d = pageUp v.finish

def Tried (vmas : List Vma) (length : ℕ) : ℕ → Prop :=
  Relation.ReflTransGen (Next vmas length) 0x20000000

/-- Nothing wraps: a fixed mapping ends below 2^32, a short one ends there wherever it is tried,
and a long one meets a VMA at every address where its wrapped end is small enough. -/
def Fits (vmas : List Vma) (addr size flags : ℕ) : Prop :=
  if addr ≠ 0 ∧ flags.testBit mapFixed then
    kernelSpaceEnd ≤ addr → pageDown addr+roundUp size < 4294967296
  else
    (roundUp size ≤ 0x90000000 →
      ∀ c, Tried vmas (roundUp size) c → c+roundUp size < 4294967296) ∧
    (0xE0000000 ≤ roundUp size → ∀ c, 4096 ∣ c → 0x20000000 ≤ c → c < 4294967296 →
      c+roundUp size ≤ 0x1B0000000 → ∃ v ∈ vmas, conflicts c (roundUp size) v = true)

section Rounding

theorem le_roundUp (n : ℕ) : n ≤ roundUp n := by
  unfold roundUp
  omega

theorem roundUp_dvd (n : ℕ) : 4096 ∣ roundUp n := Nat.dvd_mul_left 4096 _

theorem roundUp_pos {n : ℕ} (h : 0 < n) : 0 < roundUp n := lt_of_lt_of_le h (le_roundUp n)

theorem pageUp_roundUp (n : ℕ) : pageUp n = u32 (roundUp n) := by
  unfold pageUp pageDown roundUp u32
  omega

theorem u32_add_pageUp (c n : ℕ) : u32 (c+pageUp n) = u32 (c+roundUp n) := by
  rw [pageUp_roundUp]
  exact Nat.add_mod_mod c (roundUp n) 4294967296

theorem conflicts_roundUp (c n : ℕ) : conflicts c (pageUp n) = conflicts c (roundUp n) := by
  funext v
  unfold conflicts
  rw [u32_add_pageUp]

theorem findLoop_roundUp (vmas : List Vma) (n fuel c : ℕ) :
    findLoop vmas (pageUp n) fuel c = findLoop vmas (roundUp n) fuel c := by
  induction fuel generalizing c with
  | zero => rw [findLoop, findLoop]
  | succ fuel ih =>
    rw [findLoop, findLoop, u32_add_pageUp, conflicts_roundUp]
    split
    · cases vmas.find? (conflicts c (roundUp n)) with
      | none => rfl
      | some v => exact ih _
    · rfl

theorem findFreeVaddr_roundUp (vmas : List Vma) (n : ℕ) :
    findFreeVaddr vmas (pageUp n) = findFreeVaddr vmas (roundUp n) :=
  findLoop_roundUp vmas n 1048577 0x20000000

end Rounding

section Search

variable {vmas : List Vma} {length : ℕ}

theorem conflicts_iff {c : ℕ} {v : Vma} :
    conflicts c length v = true ↔ c < v.finish ∧ v.start < u32 (c+length) := by
  simp [conflicts]

theorem next_cases (hv : ∀ v ∈ vmas, Pages v) {c d : ℕ} (h : Next vmas length c d) :
    ∃ v ∈ vmas, d = v.finish ∧ c < d ∧ v.start < u32 (c+length) := by
  obtain ⟨-, v, hf, rfl⟩ := h
  have hm := List.mem_of_find?_eq_some hf
  have hw := (hv v hm).word
  have hd := (hv v hm).finish
  have hup : pageUp v.finish = v.finish := pageUp_of_dvd hd (by omega)
  obtain ⟨hlt, hs⟩ := conflicts_iff.mp (List.find?_some hf)
  rw [hup]
  exact ⟨v, hm, rfl, hlt, hs⟩

theorem next_unique : Relator.RightUnique (Next vmas length) := by
  intro c d d' h h'
  obtain ⟨-, v, hf, rfl⟩ := h
  obtain ⟨-, v', hf', rfl⟩ := h'
  rw [hf] at hf'
  rw [Option.some.inj hf']

theorem path_le (hv : ∀ v ∈ vmas, Pages v) {c d : ℕ}
    (h : Relation.ReflTransGen (Next vmas length) c d) : c ≤ d := by
  induction h with
  | refl => exact le_refl c
  | tail _ hn ih =>
    obtain ⟨v, -, -, hlt, -⟩ := next_cases hv hn
    omega

theorem tried_page (hv : ∀ v ∈ vmas, Pages v) {c : ℕ} (h : Tried vmas length c) :
    0x20000000 ≤ c ∧ 4096 ∣ c ∧ c < 4294967296 := by
  refine ⟨path_le hv h, ?_⟩
  cases h with
  | refl => decide
  | tail _ hn =>
    obtain ⟨v, hm, rfl, -, -⟩ := next_cases hv hn
    exact ⟨(hv v hm).finish, (hv v hm).word⟩

/-- The search does not pass an address with which no VMA in the way overlaps. -/
theorem tried_le (hv : ∀ v ∈ vmas, Pages v) {b : ℕ} (hb : 0x20000000 ≤ b)
    (hover : ∀ d, 0x20000000 ≤ d → d ≤ b → ∀ v ∈ vmas, v.start < u32 (d+length) →
      v.finish ≤ b) {c : ℕ} (h : Tried vmas length c) : c ≤ b := by
  induction h with
  | refl => exact hb
  | tail hd hn ih =>
    obtain ⟨v, hm, rfl, -, hs⟩ := next_cases hv hn
    exact hover _ (path_le hv hd) ih v hm hs

/-- The search ends: above the limit without a place, or at an address that no VMA blocks. -/
theorem loop_ends (hv : ∀ v ∈ vmas, Pages v) (fuel c : ℕ) (hc : Tried vmas length c)
    (hfuel : 4294967296 < c+4096*fuel) :
    ∃ d, Tried vmas length d ∧
      (0xB0000000 < u32 (d+length) ∧ findLoop vmas length fuel c = some 0 ∨
      u32 (d+length) ≤ 0xB0000000 ∧ (∀ v ∈ vmas, ¬ conflicts d length v = true) ∧
        findLoop vmas length fuel c = some d) := by
  induction fuel generalizing c with
  | zero =>
    obtain ⟨-, -, hlt⟩ := tried_page hv hc
    omega
  | succ fuel ih =>
    by_cases hle : u32 (c+length) ≤ 0xB0000000
    · cases hf : vmas.find? (conflicts c length) with
      | none =>
        refine ⟨c, hc, Or.inr ⟨hle, fun v hm => ?_, ?_⟩⟩
        · exact List.find?_eq_none.mp hf v hm
        · rw [findLoop, if_pos hle, hf]
      | some v =>
        have hn : Next vmas length c (pageUp v.finish) := ⟨hle, v, hf, rfl⟩
        obtain ⟨-, hdc, -⟩ := tried_page hv hc
        obtain ⟨-, hdd, -⟩ := tried_page hv (hc.tail hn)
        obtain ⟨-, -, -, hlt, -⟩ := next_cases hv hn
        rw [findLoop, if_pos hle, hf]
        exact ih (pageUp v.finish) (hc.tail hn) (by omega)
    · refine ⟨c, hc, Or.inl ⟨by omega, ?_⟩⟩
      rw [findLoop, if_neg hle]

theorem search_ends (hv : ∀ v ∈ vmas, Pages v) (length : ℕ) :
    ∃ d, Tried vmas length d ∧
      (0xB0000000 < u32 (d+length) ∧ findFreeVaddr vmas length = some 0 ∨
      u32 (d+length) ≤ 0xB0000000 ∧ (∀ v ∈ vmas, ¬ conflicts d length v = true) ∧
        findFreeVaddr vmas length = some d) :=
  loop_ends hv 1048577 0x20000000 Relation.ReflTransGen.refl (by decide)

/-- Where the search ends there is no further address to try. -/
theorem tried_le_last (hv : ∀ v ∈ vmas, Pages v) {c d : ℕ} (hd : Tried vmas length d)
    (hend : 0xB0000000 < u32 (d+length) ∨ ∀ v ∈ vmas, ¬ conflicts d length v = true)
    (hc : Tried vmas length c) : c ≤ d := by
  rcases Relation.ReflTransGen.total_of_right_unique next_unique hc hd with h | h
  · exact path_le hv h
  · cases Relation.ReflTransGen.cases_head h with
    | inl heq => exact heq.symm.le
    | inr hnext =>
      obtain ⟨e, ⟨hle, v, hf, -⟩, -⟩ := hnext
      rcases hend with hend | hend
      · omega
      · exact absurd (List.find?_some hf) (hend v (List.mem_of_find?_eq_some hf))

theorem tried_second {c : ℕ} (h : Tried vmas length c) :
    c = 0x20000000 ∨ u32 (0x20000000+length) ≤ 0xB0000000 := by
  cases Relation.ReflTransGen.cases_head h with
  | inl heq => exact Or.inl heq.symm
  | inr hnext =>
    obtain ⟨d, ⟨hle, -⟩, -⟩ := hnext
    exact Or.inr hle

/-- A gap keeps the search from passing it. -/
theorem gap_reached (hv : ∀ v ∈ vmas, Pages v) (h0 : 0 < length) {b : ℕ}
    (hb : Gap vmas length b) {c : ℕ} (hc : Tried vmas length c) : c ≤ b := by
  refine tried_le hv hb.above (fun d hd hdb v hm hs => ?_) hc
  have hbelow := hb.below
  have hu := u32_of_lt (show d+length < 4294967296 by omega)
  rw [hu] at hs
  by_contra hlt
  have hpages := (hv v hm).lt
  exact hb.free v hm (max b v.start) ⟨le_max_left _ _, by dsimp only; omega⟩
    ⟨le_max_right _ _, by dsimp only [vmaRange]; omega⟩

end Search

section Call

variable {p : Process} {g : Grants}

theorem mapAnon_granted (g : Grants) (vaddr flags n i : ℕ) (p : Process) :
    (mapAnon g vaddr flags n i p).1 = true ↔ ∀ j < n, g.supply (i+j) ≠ none := by
  induction n generalizing i p with
  | zero => simp [mapAnon]
  | succ n ih =>
    cases hs : g.supply i with
    | none =>
      simp only [mapAnon, hs, Bool.false_eq_true, false_iff]
      exact fun h => h 0 (by omega) hs
    | some frame =>
      simp only [mapAnon, hs, ih]
      constructor
      · intro h j hj
        cases j with
        | zero => simp [hs]
        | succ j =>
          have := h j (by omega)
          rwa [show i+(j+1) = i+1+j by omega]
      · intro h j hj
        have := h (j+1) (by omega)
        rwa [show i+1+j = i+(j+1) by omega]

/-- With an address, what is returned is decided by what the call is granted. -/
theorem sysMmap_granted {addr size prot flags fd a : ℕ} (h0 : 0 < size)
    (ha : mmapVaddr p addr (pageUp size) flags = some a) (ha0 : a ≠ 0)
    (hg : Granted g size flags fd) :
    ∃ q v, sysMmap p g addr size prot flags fd = some (a, q) ∧ q.vmaList = v::p.vmaList ∧
      v.start = a ∧ v.finish = u32 (a+pageUp size) := by
  obtain ⟨hk, hres⟩ := hg
  have hcond : ¬ (a = 0 ∨ g.kmalloc = false) := by simp [ha0, hk]
  rw [sysMmap, if_neg (by omega)]
  dsimp only
  rw [ha, Option.map_some]
  rw [if_neg hcond]
  by_cases hanon : flags.testBit mapAnonymous = true
  · rw [if_pos hanon] at hres ⊢
    have hm := (mapAnon_granted g a (pageFlags prot) (pageUp size/4096) 0 p).mpr
      fun j hj => by rw [Nat.zero_add]; exact hres j hj
    have hv := (mapAnon_regions g a (pageFlags prot) (pageUp size/4096) 0 p).1
    split
    · next he =>
      rw [he] at hm
      exact absurd hm Bool.false_ne_true
    · next q he =>
      rw [he] at hv
      exact ⟨_, _, rfl, congrArg (List.cons _) hv, rfl, rfl⟩
  · rw [if_neg hanon] at hres ⊢
    obtain ⟨hlo, hhi, hfd⟩ := hres
    rw [if_neg (by omega)]
    obtain ⟨f, hf⟩ := Option.ne_none_iff_exists'.mp hfd
    rw [hf]
    exact ⟨_, _, rfl, rfl, rfl, rfl⟩

theorem sysMmap_refused {addr size prot flags fd a : ℕ} (h0 : 0 < size)
    (ha : mmapVaddr p addr (pageUp size) flags = some a)
    (hg : a = 0 ∨ ¬ Granted g size flags fd) :
    ∃ q, sysMmap p g addr size prot flags fd = some (minusOne, q) ∧ q.vmaList = p.vmaList := by
  rw [sysMmap, if_neg (by omega)]
  dsimp only
  rw [ha, Option.map_some]
  by_cases hk : a = 0 ∨ g.kmalloc = false
  · rw [if_pos hk]
    exact ⟨p, rfl, rfl⟩
  · rw [if_neg hk]
    have hg := hg.resolve_left fun h => hk (Or.inl h)
    have hkt : g.kmalloc = true := by simpa using fun h => hk (Or.inr h)
    by_cases hanon : flags.testBit mapAnonymous = true
    · rw [if_pos hanon]
      have hv := (mapAnon_regions g a (pageFlags prot) (pageUp size/4096) 0 p).1
      split
      · next he =>
        rw [he] at hv
        exact ⟨_, rfl, hv⟩
      · next he =>
        refine absurd ⟨hkt, ?_⟩ hg
        rw [if_pos hanon]
        intro j hj
        have hm := (mapAnon_granted g a (pageFlags prot) (pageUp size/4096) 0 p).mp (by rw [he])
        rw [← Nat.zero_add j]
        exact hm j hj
    · rw [if_neg hanon]
      split
      · exact ⟨_, rfl, rfl⟩
      · next f hf =>
        refine absurd ⟨hkt, ?_⟩ hg
        rw [if_neg hanon]
        by_cases hfd : toInt32 fd < 0 ∨ 16 ≤ toInt32 fd
        · rw [if_pos hfd] at hf
          exact absurd hf (by simp)
        · rw [if_neg hfd] at hf
          exact ⟨by omega, by omega, by simp [hf]⟩

/-- The end of a mapping is above its start by its length just when the sum does not wrap. -/
theorem covers_iff {a size : ℕ} :
    a+size ≤ u32 (a+roundUp size) ↔ a+roundUp size < 4294967296 := by
  unfold u32 roundUp
  omega

theorem returns_iff {addr size prot flags fd a : ℕ} (h0 : 0 < size)
    (ha : mmapVaddr p addr (pageUp size) flags = some a) (ha0 : a ≠ 0) (hd : 4096 ∣ a)
    (hlt : a < 4294967296) :
    ReturnsGiven p g addr size prot flags fd ↔
      (Granted g size flags fd → a+roundUp size < 4294967296 ∧
        (flags.testBit mapFixed = false → kernelSpaceEnd ≤ a ∧ a+roundUp size ≤ 0xB0000000 ∧
          ∀ w ∈ p.vmaList, Apart ⟨a, a+roundUp size⟩ (vmaRange w))) := by
  constructor
  · rintro ⟨r, q, hr, hgiven⟩ hg
    obtain ⟨q', v, hq', hlist, hvs, hvf⟩ := sysMmap_granted h0 ha ha0 hg
    rw [hr] at hq'
    obtain ⟨rfl, rfl⟩ := Prod.mk.inj (Option.some.inj hq')
    have hne : r ≠ minusOne := by
      unfold minusOne
      omega
    obtain ⟨w, hw⟩ := hgiven hne
    have hwv : w = v := (List.cons.inj (hw.listed.symm.trans hlist)).1
    subst hwv
    have hc := hw.covers
    rw [hvf, u32_add_pageUp, covers_iff] at hc
    have hfin : w.finish = r+roundUp size := by rw [hvf, u32_add_pageUp, u32_of_lt hc]
    refine ⟨hc, fun hf => ?_⟩
    obtain ⟨hk, hb⟩ := hw.bounds hf
    have hap := hw.apart hf
    rw [vmaRange, hvs, hfin] at hap
    exact ⟨hk, hfin ▸ hb, hap⟩
  · intro hfits
    by_cases hg : Granted g size flags fd
    · obtain ⟨hc, hplaced⟩ := hfits hg
      obtain ⟨q, v, hq, hlist, hvs, hvf⟩ := sysMmap_granted h0 ha ha0 hg
      have hfin : v.finish = a+roundUp size := by rw [hvf, u32_add_pageUp, u32_of_lt hc]
      refine ⟨a, q, hq, fun _ => ⟨v, hd, hlist, hvs, ?_, ?_, fun hf => ?_, fun hf => ?_⟩⟩
      · rw [hfin]
        exact Nat.add_le_add_left (le_roundUp size) a
      · rw [hfin]
        exact hc
      · rw [hfin]
        exact ⟨(hplaced hf).1, (hplaced hf).2.1⟩
      · rw [vmaRange, hvs, hfin]
        exact (hplaced hf).2.2
    · obtain ⟨q, hq, -⟩ := sysMmap_refused h0 ha (Or.inr hg)
      exact ⟨minusOne, q, hq, fun hne => absurd rfl hne⟩

theorem returns_refused {addr size prot flags fd : ℕ} (h0 : 0 < size)
    (ha : mmapVaddr p addr (pageUp size) flags = some 0) :
    ReturnsGiven p g addr size prot flags fd := by
  obtain ⟨q, hq, -⟩ := sysMmap_refused h0 ha (Or.inl rfl)
  exact ⟨minusOne, q, hq, fun hne => absurd rfl hne⟩

end Call

section Placement

variable {p : Process} {g : Grants} {addr size prot flags fd : ℕ}

theorem fixed_returns (h0 : 0 < size) (haddr : addr < 4294967296)
    (hf : addr ≠ 0 ∧ flags.testBit mapFixed = true) :
    ReturnsGiven p g addr size prot flags fd ↔
      (Granted g size flags fd → Fits p.vmaList addr size flags) := by
  have hm : mmapVaddr p addr (pageUp size) flags =
      some (if addr < kernelSpaceEnd then 0 else pageDown addr) := if_pos hf
  rw [Fits, if_pos hf]
  by_cases hk : addr < kernelSpaceEnd
  · rw [if_pos hk] at hm
    refine iff_of_true (returns_refused h0 hm) fun _ hk' => ?_
    omega
  · rw [if_neg hk] at hm
    have hdown : pageDown addr ≤ addr := by
      unfold pageDown
      omega
    have hpos : pageDown addr ≠ 0 := by
      unfold pageDown
      unfold kernelSpaceEnd at hk
      omega
    rw [returns_iff h0 hm hpos (pageDown_dvd addr) (by omega)]
    constructor
    · exact fun hr hg _ => (hr hg).1
    · exact fun hr hg => ⟨hr hg (by omega), fun hno => absurd (hf.2.symm.trans hno) (by simp)⟩

/-- The search ends, and it fails only if there is no gap. -/
theorem search_complete {vmas : List Vma} (hv : ∀ v ∈ vmas, Pages v) (h0 : 0 < size) :
    ∃ a, findFreeVaddr vmas (pageUp size) = some a ∧
      (a = 0 → ∀ b, ¬ Gap vmas (roundUp size) b) := by
  obtain ⟨d, hd, ⟨hover, hfound⟩ | ⟨-, -, hfound⟩⟩ := search_ends hv (roundUp size)
  · refine ⟨0, by rw [findFreeVaddr_roundUp, hfound], fun _ b hb => ?_⟩
    have hle := gap_reached hv (roundUp_pos h0) hb hd
    have hbelow := hb.below
    rw [u32_of_lt (by omega)] at hover
    omega
  · refine ⟨d, by rw [findFreeVaddr_roundUp, hfound], fun hz => ?_⟩
    obtain ⟨habove, -, -⟩ := tried_page hv hd
    omega

theorem searched_returns (hv : ∀ v ∈ p.vmaList, Pages v) (h0 : 0 < size) (h : size < 4294967296)
    (hf : ¬ (addr ≠ 0 ∧ flags.testBit mapFixed = true)) :
    ReturnsGiven p g addr size prot flags fd ↔
      (Granted g size flags fd → Fits p.vmaList addr size flags) := by
  have hm : mmapVaddr p addr (pageUp size) flags = findFreeVaddr p.vmaList (roundUp size) := by
    rw [mmapVaddr, if_neg hf, findFreeVaddr_roundUp]
  have hL : roundUp size ≤ 4294967296 := by
    unfold roundUp
    omega
  rw [Fits, if_neg hf]
  obtain ⟨d, hd, ⟨hover, hfound⟩ | ⟨hle, hfree, hfound⟩⟩ := search_ends hv (roundUp size)
  · rw [hfound] at hm
    refine iff_of_true (returns_refused h0 hm) fun _ => ⟨fun hshort c hc => ?_,
      fun hlong c hdc hlo hlt hend => ?_⟩
    · have hcd := tried_le_last hv hd (Or.inl hover) hc
      obtain ⟨-, hdd, hdlt⟩ := tried_page hv hd
      unfold u32 at hover
      omega
    · -- The search would not have passed `c`.
      by_contra hno
      push Not at hno
      have hdc' : d ≤ c := tried_le hv hlo (fun e he hec v hvm hs => by
        have hcf := hno v hvm
        rw [ne_eq, conflicts_iff, not_and] at hcf
        by_contra hfin
        unfold u32 at hs hcf
        omega) hd
      obtain ⟨habove, -, -⟩ := tried_page hv hd
      unfold u32 at hover
      omega
  · rw [hfound] at hm
    obtain ⟨habove, hdd, hdlt⟩ := tried_page hv hd
    rw [returns_iff h0 hm (by omega) hdd hdlt]
    refine imp_congr_right fun _ => ⟨?_, ?_⟩
    · rintro ⟨hw, -⟩
      refine ⟨fun _ c hc => ?_, fun hlong => by omega⟩
      have hcd := tried_le_last hv hd (Or.inr hfree) hc
      omega
    · rintro ⟨hshort, hlong⟩
      have hw : d+roundUp size < 4294967296 := by
        by_contra hwrap
        unfold u32 at hle
        by_cases hs : roundUp size ≤ 0x90000000
        · exact hwrap (hshort hs d hd)
        · by_cases hl : 0xE0000000 ≤ roundUp size
          · obtain ⟨v, hvm, hc⟩ := hlong hl d hdd habove hdlt (by omega)
            exact hfree v hvm hc
          · have hstart := tried_second hd
            unfold u32 at hstart
            omega
      rw [u32_of_lt hw] at hle
      refine ⟨hw, fun _ => ⟨by unfold kernelSpaceEnd; omega, hle, fun w hwm x hx hx' => ?_⟩⟩
      refine hfree w hwm (conflicts_iff.mpr ?_)
      rw [u32_of_lt hw]
      have h1 := hx.1
      have h2 := hx.2
      have h3 := hx'.1
      have h4 := hx'.2
      dsimp only [vmaRange] at h1 h2 h3 h4
      exact ⟨by omega, by omega⟩

theorem mmapVaddr_dvd (hv : ∀ v ∈ p.vmaList, Pages v) {a : ℕ}
    (ha : mmapVaddr p addr (pageUp size) flags = some a) : 4096 ∣ a := by
  unfold mmapVaddr at ha
  split at ha
  · obtain rfl := Option.some.inj ha
    split
    · exact Nat.dvd_zero 4096
    · exact pageDown_dvd addr
  · rw [findFreeVaddr_roundUp] at ha
    obtain ⟨d, hd, ⟨-, hfound⟩ | ⟨-, -, hfound⟩⟩ := search_ends hv (roundUp size)
    · rw [hfound] at ha
      exact Option.some.inj ha ▸ Nat.dvd_zero 4096
    · rw [hfound] at ha
      exact Option.some.inj ha ▸ (tried_page hv hd).2.1

/-- A list of whole pages stays one as long as nothing wraps. -/
theorem mmap_pages (h0 : 0 < size) (hv : ∀ v ∈ p.vmaList, Pages v)
    (hcall : ReturnsGiven p g addr size prot flags fd) {r : ℕ × Process}
    (hr : sysMmap p g addr size prot flags fd = some r) : ∀ v ∈ r.2.vmaList, Pages v := by
  obtain ⟨a, q, hq, hgiven⟩ := hcall
  rw [hr] at hq
  obtain rfl := Option.some.inj hq
  rcases sysMmap_cases hr with ⟨hlist, -, -⟩ | ⟨vaddr, v, hm, hne, hlist, hvs, hvf, -, -⟩
  · rwa [hlist]
  · by_cases hg : Granted g size flags fd
    · obtain ⟨q', v', hq', -, -, -⟩ := sysMmap_granted h0 hm hne hg
      rw [hr] at hq'
      obtain ⟨rfl, rfl⟩ := Prod.mk.inj (Option.some.inj hq')
      have hd := mmapVaddr_dvd hv hm
      obtain ⟨w, hw⟩ := hgiven (by unfold minusOne; omega)
      obtain rfl := (List.cons.inj (hw.listed.symm.trans hlist)).1
      have hc := hw.covers
      rw [hvf, u32_add_pageUp] at hc
      have hfin : w.finish = a+roundUp size := by
        rw [hvf, u32_add_pageUp, u32_of_lt (covers_iff.mp hc)]
      have hrd := roundUp_dvd size
      have hrp := roundUp_pos h0
      rw [hlist]
      intro x hx
      rcases List.mem_cons.mp hx with rfl | hx
      · exact ⟨hvs ▸ hd, by omega, by omega, hw.word⟩
      · exact hv x hx
    · obtain ⟨q', hq', hsame⟩ := sysMmap_refused h0 hm (Or.inr hg)
      rw [hr] at hq'
      obtain ⟨-, rfl⟩ := Prod.mk.inj (Option.some.inj hq')
      rwa [hsame]

/-- A process with one VMA, as `sys_mmap` makes it at the first free place. -/
def oneVma : Process where
  heapStart := 0x02000000
  heapEnd := 0x02000000
  vmaList := [{
    start := 0x20000000, finish := 0x20002000, flags := 7, type := .anon, fileVnode := none,
    fileOffset := 0, fileSize := 0 }]
  table := fun _ => none
  frames := fun _ _ => 0
  executable := none

theorem oneVma_pages : ∀ v ∈ oneVma.vmaList, Pages v := by
  intro v hv
  obtain rfl := List.mem_singleton.mp hv
  exact ⟨by decide, by decide, by decide, by decide⟩

/-- An open file for `sys_mmap`. -/
def oneFile : Grants :=
  ⟨true, fun _ => none, fun _ => some ⟨0x1000, fun _ => 0, Elf.page_size_lt⟩⟩

end Placement

end Vlsmc.MmapPlacement
