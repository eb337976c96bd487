import Vlsmc.Paging

/-!
# Device memory

`sys_grant_mmio` adds a physical range to a thread, `sys_map_mmio` checks a request
against the ranges of its caller and maps it page by page. The check adds and
multiplies modulo `2^32`.
-/

set_option autoImplicit false

namespace Vlsmc.MmioGrants
open Vlsmc.Words Vlsmc.Paging

def kernelSpaceEnd : ℕ := 0x02000000

/-- The addresses from `physStart` to `physEnd`, both included. -/
structure MmioGrant where
  physStart : ℕ
  physEnd : ℕ

/-- The fields of a thread that the two calls use. `allowedMmio` has eight places. -/
structure Thread where
  tid : ℕ
  unused : Bool
  isDriver : Bool
  numMmioGrants : ℕ
  allowedMmio : ℕ → MmioGrant

structure System where
  threads : ℕ → Thread
  currentTid : ℕ

/-- `sys_grant_mmio`. -/
def sysGrantMmio (s : System) (targetTid : ℤ) (physStart physEnd : ℕ) : ℤ × System :=
  if (s.threads s.currentTid).isDriver = false then (-1, s)
  else if targetTid < 0 ∨ 32 ≤ targetTid then (-1, s)
  else
    let target := s.threads targetTid.toNat
    if target.unused = true then (-1, s)
    else if 8 ≤ target.numMmioGrants then (-1, s)
    else
      (0, { s with threads := fun i =>
        if i = targetTid.toNat then
          { target with
            allowedMmio := fun k =>
              if k = target.numMmioGrants then ⟨physStart, physEnd⟩ else target.allowedMmio k
            numMmioGrants := target.numMmioGrants+1 }
        else s.threads i })

/-- `phys + size_pages * 4096 - 1`. -/
def lastByte (phys sizePages : ℕ) : ℕ := sub32 (u32 (phys+u32 (sizePages*4096))) 1

/-- The check of one grant. -/
def MmioGrant.admits (g : MmioGrant) (phys sizePages : ℕ) : Bool :=
  g.physStart ≤ phys && lastByte phys sizePages ≤ g.physEnd

/-- The loop over the grants of the caller. -/
def Thread.allowed (t : Thread) (phys sizePages : ℕ) : Bool :=
  (List.range t.numMmioGrants).any fun i => (t.allowedMmio i).admits phys sizePages

/-- The calls of `map_page` that `sys_map_mmio` makes, `none` when it refuses. -/
def mmioPages (cur : Thread) (virt phys sizePages : ℕ) : Option (List (ℕ × ℕ)) :=
  if cur.isDriver = false ∧ cur.tid ≠ 0 then none
  else if cur.allowed phys sizePages = false ∧ cur.tid ≠ 0 then none
  else if virt < kernelSpaceEnd then none
  else some ((List.range sizePages).map fun i => (u32 (virt+i*4096), u32 (phys+i*4096)))

/-- `sys_map_mmio`. -/
def sysMapMmio (cur : Thread) (m : Machine) (virt phys sizePages : ℕ) : ℕ × Machine :=
  match mmioPages cur virt phys sizePages with
  | none => (0, m)
  | some pages => (virt, pages.foldl (fun m p => m.mapPage p.1 (frameOf p.2) 7) m)

/-- The page of `p` lies within one of the ranges. -/
def Thread.Covers (t : Thread) (p : ℕ) : Prop :=
  ∃ i < t.numMmioGrants, (t.allowedMmio i).physStart ≤ 4096*frameOf p ∧
    4096*frameOf p+4095 ≤ (t.allowedMmio i).physEnd

/-- A thread of a system whose grants were all made by `sys_grant_mmio`, each by any
thread. -/
def granted (s : System) (calls : List (ℕ × ℤ × ℕ × ℕ)) : System :=
  calls.foldl (fun s c => (sysGrantMmio { s with currentTid := c.1 } c.2.1 c.2.2.1 c.2.2.2).2) s

/-- Whatever was granted to a thread other than thread 0, the request maps pages of its
ranges only. -/
def StaysInside (virt phys sizePages : ℕ) : Prop :=
  ∀ (s : System) (calls : List (ℕ × ℤ × ℕ × ℕ)) (tid : ℕ),
    (∀ i, (s.threads i).tid = i ∧ (s.threads i).numMmioGrants = 0) → tid ≠ 0 →
    ∀ pages, mmioPages ((granted s calls).threads tid) virt phys sizePages = some pages →
      ∀ p ∈ pages, ((granted s calls).threads tid).Covers p.2

/-- The request starts on a page and ends below `2^32`, or is the whole memory some number
of times over. -/
def Aligned (phys sizePages : ℕ) : Prop :=
  phys%4096 = 0 ∧ (phys+4096*sizePages ≤ 4294967296 ∨ phys = 0 ∧ sizePages%1048576 = 0)

variable {virt phys sizePages : ℕ}

theorem lastByte_of_le (h0 : 0 < sizePages) (h : phys+4096*sizePages ≤ 4294967296) :
    lastByte phys sizePages = phys+4096*sizePages-1 := by
  unfold lastByte sub32 u32
  omega

theorem sysGrantMmio_tid (s : System) (targetTid : ℤ) (physStart physEnd i : ℕ) :
    ((sysGrantMmio s targetTid physStart physEnd).2.threads i).tid = (s.threads i).tid := by
  unfold sysGrantMmio
  dsimp only
  split_ifs <;> try rfl
  dsimp only
  split_ifs with h
  · rw [h]
  · rfl

theorem granted_tid (s : System) (calls : List (ℕ × ℤ × ℕ × ℕ)) (i : ℕ) :
    ((granted s calls).threads i).tid = (s.threads i).tid := by
  induction calls generalizing s with
  | nil => rfl
  | cons c calls ih => exact (ih _).trans (sysGrantMmio_tid _ _ _ _ i)

/-- A range that admits an aligned request contains its pages. -/
theorem admits_covers {g : MmioGrant} (hp : phys < 4294967296) (ha : Aligned phys sizePages)
    (hg : g.admits phys sizePages = true) {i : ℕ} (hi : i < sizePages) :
    g.physStart ≤ 4096*frameOf (u32 (phys+i*4096)) ∧
      4096*frameOf (u32 (phys+i*4096))+4095 ≤ g.physEnd := by
  obtain ⟨hpage, hend⟩ := ha
  unfold MmioGrant.admits at hg
  rw [Bool.and_eq_true, decide_eq_true_eq, decide_eq_true_eq] at hg
  obtain ⟨hstart, hlast⟩ := hg
  rcases hend with hend | ⟨hzero, hwhole⟩
  · rw [lastByte_of_le (by omega) hend] at hlast
    unfold frameOf u32
    omega
  · have : lastByte phys sizePages = 4294967295 := by
      unfold lastByte sub32 u32
      omega
    unfold frameOf u32
    omega

theorem aligned_staysInside (hp : phys < 4294967296) (ha : Aligned phys sizePages) :
    StaysInside virt phys sizePages := by
  intro s calls tid hs htid pages hpages p hmem
  have hcur : ((granted s calls).threads tid).tid ≠ 0 := by
    rw [granted_tid, (hs tid).1]
    exact htid
  unfold mmioPages at hpages
  split_ifs at hpages with hdriver hallowed hvirt
  cases hpages
  obtain ⟨i, hi, rfl⟩ := List.mem_map.mp hmem
  have hok : ((granted s calls).threads tid).allowed phys sizePages = true := by
    by_contra hno
    exact hallowed ⟨Bool.not_eq_true _ ▸ hno, hcur⟩
  unfold Thread.allowed at hok
  obtain ⟨k, hk, hadmits⟩ := List.any_eq_true.mp hok
  exact ⟨k, List.mem_range.mp hk, admits_covers hp ha hadmits (List.mem_range.mp hi)⟩

/-- Thirty-two drivers without grants. -/
def drivers : System := ⟨fun i => ⟨i, false, true, 0, fun _ => ⟨0, 0⟩⟩, 0⟩

/-- Thread 1 grants itself the range whose ends are the ones the check computes. -/
theorem inside_exact_grant (h : StaysInside virt phys sizePages) (hv : kernelSpaceEnd ≤ virt)
    {i : ℕ} (hi : i < sizePages) :
    phys ≤ 4096*frameOf (u32 (phys+i*4096)) ∧
      4096*frameOf (u32 (phys+i*4096))+4095 ≤ lastByte phys sizePages := by
  have hmem : (u32 (virt+i*4096), u32 (phys+i*4096)) ∈
      (List.range sizePages).map fun i => (u32 (virt+i*4096), u32 (phys+i*4096)) :=
    List.mem_map.mpr ⟨i, List.mem_range.mpr hi, rfl⟩
  have hpages : mmioPages ((granted drivers [(1, 1, phys, lastByte phys sizePages)]).threads 1)
      virt phys sizePages =
      some ((List.range sizePages).map fun i => (u32 (virt+i*4096), u32 (phys+i*4096))) := by
    have hallowed : ((granted drivers [(1, 1, phys, lastByte phys sizePages)]).threads 1).allowed
        phys sizePages = true := by
      simp [granted, sysGrantMmio, drivers, Thread.allowed, MmioGrant.admits]
    have hdriver : ((granted drivers [(1, 1, phys, lastByte phys sizePages)]).threads 1).isDriver =
        true := rfl
    unfold mmioPages
    rw [if_neg (by simp [hdriver]), if_neg (by simp [hallowed]), if_neg (by omega)]
  obtain ⟨k, hk, hcover⟩ := h drivers [(1, 1, phys, lastByte phys sizePages)] 1
    (fun _ => ⟨rfl, rfl⟩) (by decide) _ hpages _ hmem
  have hk0 : k = 0 := Nat.lt_one_iff.mp hk
  rw [hk0] at hcover
  exact hcover

theorem staysInside_aligned (hp : phys < 4294967296) (h : StaysInside virt phys sizePages)
    (hv : kernelSpaceEnd ≤ virt) (hn : 0 < sizePages) : Aligned phys sizePages := by
  have hfirst := inside_exact_grant h hv hn
  have hpage : phys%4096 = 0 := by
    unfold frameOf u32 at hfirst
    omega
  refine ⟨hpage, ?_⟩
  by_contra hno
  rw [not_or, not_and] at hno
  by_cases hfew : sizePages < 1048576
  · -- the sum wraps around once: the last byte is below the first
    unfold frameOf lastByte sub32 u32 at hfirst
    omega
  by_cases hzero : phys = 0
  · -- every page is mapped, and the last one is not in the range
    have hlast := inside_exact_grant h hv (i := 1048575) (by omega)
    unfold frameOf lastByte sub32 u32 at hlast
    omega
  · -- every page is mapped, and page 0 is not in the range
    have hlow := inside_exact_grant h hv (i := (4294967296-phys)/4096) (by omega)
    unfold frameOf u32 at hlow
    omega

/-- A request stays inside the ranges granted to its caller, whatever these are, exactly when
it maps nothing or is aligned. -/
theorem map_mmio_inside_iff (virt phys sizePages : UInt32) :
    StaysInside virt.toNat phys.toNat sizePages.toNat ↔
      sizePages.toNat = 0 ∨ virt.toNat < kernelSpaceEnd ∨
        Aligned phys.toNat sizePages.toNat := by
  constructor
  · intro h
    by_cases hn : sizePages.toNat = 0
    · exact .inl hn
    by_cases hv : virt.toNat < kernelSpaceEnd
    · exact .inr (.inl hv)
    · exact .inr (.inr (staysInside_aligned phys.toNat_lt h (by omega) (by omega)))
  · rintro (hn | hv | ha)
    · intro s calls tid _ _ pages hpages p hmem
      unfold mmioPages at hpages
      rw [hn] at hpages
      split_ifs at hpages
      cases hpages
      cases hmem
    · intro s calls tid _ _ pages hpages
      unfold mmioPages at hpages
      split_ifs at hpages
    · exact aligned_staysInside phys.toNat_lt ha

/-- A driver with a grant of the page at `0xFEE00000` asks for `0x100001` pages from there on:
the check sees one page, the loop maps the whole memory. -/
theorem wrapped_request_escapes : ¬ StaysInside 0x40000000 0xFEE00000 0x100001 := by
  intro h
  have hnext := inside_exact_grant h (by decide) (i := 1) (by decide)
  exact absurd hnext (by decide)

end Vlsmc.MmioGrants
