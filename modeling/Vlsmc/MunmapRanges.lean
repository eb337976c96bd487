import Vlsmc.MmapPlacement

/-!
# What `sys_munmap` leaves of a range

The system call takes the pages of the range away one by one, but of the VMAs only those that
lie in the range with both ends. A VMA that reaches out of the range stays whole, and the next
page fault in the range gives a page back.
-/

set_option autoImplicit false

namespace Vlsmc.MunmapRanges
open Vlsmc.ByteMemory Vlsmc.Words Vlsmc.Elf Vlsmc.DemandPaging Vlsmc.ElfRelocations
open Vlsmc.Regions Vlsmc.RegionRuns Vlsmc.MmapPlacement

/-- An address of the pages from `addr` to `addr + size`. -/
def InRange (addr size x : ℕ) : Prop :=
  x < 4294967296 ∧ pageDown addr ≤ x ∧ x < pageDown addr+roundUp size

/-- The test of the fault handler for a VMA. -/
def contains (x : ℕ) (v : Vma) : Bool := decide (v.start ≤ x) && decide (x < v.finish)

/-- The VMA that answers for an address, with the bytes of its file for the page. -/
def backing (p : Process) (x : ℕ) : Option (Vma × Memory) :=
  (p.vmaList.find? (contains x)).map fun v => (v, p.fill v (pageDown x))

/-- After the call nothing of the range is left and nothing else is touched. -/
structure ReallyUnmaps (p : Process) (addr size : ℕ) (q : Process) : Prop where
  vmas : ∀ x, InRange addr size x → ∀ v ∈ q.vmaList, ¬ (vmaRange v).Has x
  pages : ∀ x, InRange addr size x → q.table (x/4096) = none
  faults : ∀ x, InRange addr size x → ¬ (heap q).Has x →
    ∀ cached newFrame, handlePageFault q x cached newFrame = none
  others : ∀ x < 4294967296, ¬ InRange addr size x → backing q x = backing p x

/-- The VMA lies in the range, whose end is an address. -/
def Inside (addr size : ℕ) (v : Vma) : Prop :=
  pageDown addr+roundUp size < 4294967296 ∧
  pageDown addr ≤ v.start ∧ v.finish ≤ pageDown addr+roundUp size

/-- Every VMA that meets the range lies in it. A length that rounds up to 2^32 is taken for
zero, and then the range has no pages to start with. -/
def Coverable (p : Process) (addr size : ℕ) : Prop :=
  (∀ v ∈ p.vmaList, (∃ x, InRange addr size x ∧ (vmaRange v).Has x) → Inside addr size v) ∧
  (roundUp size = 4294967296 → ∀ x, InRange addr size x → p.table (x/4096) = none)

section Lists

theorem find?_filter_of_keeps {α : Type} {f k : α → Bool} {l : List α}
    (h : ∀ a ∈ l, f a = true → k a = true) : (l.filter k).find? f = l.find? f := by
  rw [List.find?_filter]
  induction l with
  | nil => rfl
  | cons a l ih =>
    have ha := h a List.mem_cons_self
    have hl := ih fun b hb => h b (List.mem_cons_of_mem a hb)
    cases hf : f a with
    | false => rw [List.find?_cons_of_neg (by simp [hf]), List.find?_cons_of_neg (by simp [hf]), hl]
    | true => rw [List.find?_cons_of_pos (by simp [hf, ha hf]), List.find?_cons_of_pos hf]

end Lists

section Range

variable {addr size : ℕ}

theorem contains_iff {x : ℕ} {v : Vma} : contains x v = true ↔ (vmaRange v).Has x := by
  simp [contains, vmaRange, Range.Has]

theorem roundUp_le (h : size < 4294967296) : roundUp size ≤ 4294967296 := by
  unfold roundUp
  omega

/-- The test of `sys_munmap` for a VMA with the wrapped end of the range. -/
def removed (addr size : ℕ) (v : Vma) : Bool :=
  decide (pageDown addr ≤ v.start) && decide (v.finish ≤ u32 (pageDown addr+pageUp size))

theorem removed_iff {v : Vma} : removed addr size v = true ↔
    pageDown addr ≤ v.start ∧ v.finish ≤ u32 (pageDown addr+roundUp size) := by
  rw [removed, u32_add_pageUp]
  simp

theorem removed_inRange {v : Vma} (hr : removed addr size v = true) {x : ℕ}
    (hx : (vmaRange v).Has x) : InRange addr size x := by
  obtain ⟨hs, he⟩ := removed_iff.mp hr
  obtain ⟨hx₁, hx₂⟩ : v.start ≤ x ∧ x < v.finish := hx
  have hmod : u32 (pageDown addr+roundUp size) ≤ pageDown addr+roundUp size := Nat.mod_le _ _
  have hlt : u32 (pageDown addr+roundUp size) < 4294967296 := Nat.mod_lt _ (by decide)
  exact ⟨by omega, by omega, by omega⟩

/-- A VMA with an address is removed only if the end of the range does not wrap. -/
theorem removed_inside (hsize : size < 4294967296) {v : Vma} {x : ℕ} (hx : (vmaRange v).Has x) :
    removed addr size v = true ↔ Inside addr size v := by
  obtain ⟨hx₁, hx₂⟩ : v.start ≤ x ∧ x < v.finish := hx
  have hle := roundUp_le hsize
  rw [removed_iff, Inside]
  unfold u32
  constructor
  · rintro ⟨hs, he⟩
    exact ⟨by omega, hs, by omega⟩
  · rintro ⟨hlt, hs, he⟩
    exact ⟨hs, by omega⟩

end Range

section Pages

variable {p : Process} {addr size : ℕ}

theorem unmapPages_executable (p : Process) (addr n : ℕ) :
    (unmapPages p addr n).executable = p.executable := by
  induction n with
  | zero => rfl
  | succ n ih => exact ih

/-- Every page that the loop comes to is absent afterwards. -/
theorem unmapPages_none (p : Process) (addr : ℕ) {i n : ℕ} (hi : i < n) :
    (unmapPages p addr n).table (u32 (addr+4096*i)/4096) = none := by
  induction n with
  | zero => omega
  | succ n ih =>
    change (if _ = _ then none else _) = none
    split
    · rfl
    · rename_i hne
      have hin : i ≠ n := fun he => hne (by rw [he])
      exact ih (by omega)

theorem unmapPages_range (hsize : roundUp size < 4294967296) {x : ℕ} (hx : InRange addr size x) :
    (unmapPages p (pageDown addr) (pageUp size/4096)).table (x/4096) = none := by
  obtain ⟨hlt, hlow, hhigh⟩ := hx
  have hup : pageUp size = roundUp size := by
    rw [pageUp_roundUp]
    exact Nat.mod_eq_of_lt hsize
  obtain ⟨a, ha⟩ : 4096 ∣ pageDown addr := pageDown_dvd addr
  obtain ⟨l, hl⟩ : 4096 ∣ roundUp size := roundUp_dvd size
  have hpage : u32 (pageDown addr+4096*(x/4096-a))/4096 = x/4096 := by
    unfold u32
    omega
  rw [← hpage, hup]
  exact unmapPages_none p _ (by omega)

end Pages

section Munmap

variable {p : Process} {addr size : ℕ}

theorem sysMunmap_eq (ha : addr ≠ 0) (hs : size ≠ 0) : sysMunmap p addr size =
    (0, { unmapPages p (pageDown addr) (pageUp size/4096) with
      vmaList := p.vmaList.filter fun v => !removed addr size v }) := by
  rw [sysMunmap, if_neg (by simp [ha, hs])]
  rfl

theorem sysMunmap_zero (h : (sysMunmap p addr size).1 = 0) : addr ≠ 0 ∧ size ≠ 0 := by
  by_contra hn
  have h0 : addr = 0 ∨ size = 0 := by
    by_contra hno
    exact hn ⟨fun he => hno (Or.inl he), fun he => hno (Or.inr he)⟩
  rw [sysMunmap, if_pos h0] at h
  exact absurd (show minusOne = 0 from h) (by decide)

/-- The VMAs that stay answer for the addresses outside the range as before. -/
theorem backing_others (ha : addr ≠ 0) (hs : size ≠ 0) {x : ℕ} (hx : ¬ InRange addr size x) :
    backing (sysMunmap p addr size).2 x = backing p x := by
  rw [sysMunmap_eq ha hs]
  have hfind : (p.vmaList.filter fun v => !removed addr size v).find? (contains x) =
      p.vmaList.find? (contains x) := find?_filter_of_keeps fun v _ hc => by
    have hno : removed addr size v ≠ true := fun hr => hx (removed_inRange hr (contains_iff.mp hc))
    simpa using hno
  have hexe := unmapPages_executable p (pageDown addr) (pageUp size/4096)
  simp only [backing, hfind, Process.fill, Process.source, hexe]

theorem fault_none {q : Process} {x : ℕ} (hh : ¬ (heap q).Has x)
    (hv : ∀ v ∈ q.vmaList, ¬ (vmaRange v).Has x) (cached : Option ℕ) (newFrame : ℕ) :
    handlePageFault q x cached newFrame = none := by
  have hnone : q.vmaList.find? (contains x) = none := List.find?_eq_none.mpr fun v hm hc =>
    hv v hm (contains_iff.mp hc)
  have hno : ¬ (q.heapStart ≤ x ∧ x < q.heapEnd) := hh
  unfold contains at hnone
  rw [handlePageFault, if_neg hno, hnone]

theorem really_of_coverable (ha : addr ≠ 0) (hs : size ≠ 0) (hsize : size < 4294967296)
    (h : Coverable p addr size) : ReallyUnmaps p addr size (sysMunmap p addr size).2 := by
  have hvmas : ∀ x, InRange addr size x → ∀ v ∈ (sysMunmap p addr size).2.vmaList,
      ¬ (vmaRange v).Has x := by
    intro x hx v hv hin
    rw [sysMunmap_eq ha hs] at hv
    obtain ⟨hm, hno⟩ := List.mem_filter.mp hv
    have hrem := (removed_inside hsize hin).mpr (h.1 v hm ⟨x, hx, hin⟩)
    rw [hrem] at hno
    exact absurd hno (by decide)
  refine ⟨hvmas, fun x hx => ?_, fun x hx hh => fault_none hh (hvmas x hx),
    fun x _ hx => backing_others ha hs hx⟩
  rw [sysMunmap_eq ha hs]
  rcases Nat.lt_or_ge (roundUp size) 4294967296 with hlt | hge
  · exact unmapPages_range hlt hx
  · have heq : roundUp size = 4294967296 := Nat.le_antisymm (roundUp_le hsize) hge
    have hzero : pageUp size = 0 := by
      rw [pageUp_roundUp, heq]
      rfl
    rw [hzero]
    exact h.2 heq x hx

theorem coverable_of_really (ha : addr ≠ 0) (hs : size ≠ 0) (hsize : size < 4294967296)
    (h : ReallyUnmaps p addr size (sysMunmap p addr size).2) : Coverable p addr size := by
  constructor
  · rintro v hm ⟨x, hx, hin⟩
    by_contra hno
    refine h.vmas x hx v ?_ hin
    rw [sysMunmap_eq ha hs]
    refine List.mem_filter.mpr ⟨hm, ?_⟩
    have hkept : removed addr size v ≠ true := fun hr => hno ((removed_inside hsize hin).mp hr)
    simpa using hkept
  · intro heq x hx
    have hpage := h.pages x hx
    have hzero : pageUp size = 0 := by
      rw [pageUp_roundUp, heq]
      rfl
    rw [sysMunmap_eq ha hs, hzero] at hpage
    exact hpage

end Munmap

/-- One mapping of three pages, none of them present. -/
def threePages : Process where
  heapStart := 0x10000000
  heapEnd := 0x10000000
  vmaList := [⟨0x20000000, 0x20003000, 7, .anon, none, 0, 0⟩]
  table := fun _ => none
  frames := fun _ _ => 0
  executable := none

end Vlsmc.MunmapRanges
