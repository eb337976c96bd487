import Vlsmc.Fat16Geometry
import Mathlib.Data.List.Perm.Basic

/-!
# Cluster chains and the allocation table

`FatChain v c l` says that the table chain from `c` consists of the clusters
`l`, all in range, and ends with an end mark. Allocation takes a cluster whose
entry is zero, so never one of a chain; freeing a chain clears exactly its
clusters; flushing writes every copy and no other sector.
-/

set_option autoImplicit false

namespace Vlsmc.Fat16Chains
open Vlsmc.Fat16Layout Vlsmc.Fat16Volume Vlsmc.Fat16Geometry Vlsmc.SuccessorChain

def InRange (b : Bpb) (c : ℕ) : Prop := 2 ≤ c ∧ c < b.total

def IsLast (c : ℕ) : Prop := 0xFFF8 ≤ c

def FatChain (v : Volume) (c : ℕ) (l : List ℕ) : Prop := Linked v.fat (InRange v.bpb) IsLast c l

/-- A mounted volume whose disk accepts every sector of every cluster that has
a table entry. A volume with no sectors per cluster is never mounted: `init`
divides by that number. -/
structure Working (v : Volume) : Prop where
  mounted : v.mounted = true
  cluster : 1 ≤ v.bpb.spc
  accepts : dataEnd v.bpb ≤ v.disk.size

/-- Every copy of the table on disk equals the table in memory, which has
`maxFatEntries` entries; with at most 128 sectors these are all entries. -/
def Flushed (v : Volume) : Prop :=
  ∀ f < v.bpb.fats, ∀ s < v.bpb.fatSectors, ∀ i < 256, s*256+i < Bpb.maxFatEntries →
    tableEntry (v.disk.data (v.bpb.fatStartLba+f*v.bpb.fatSectors+s)) i = v.fatTable (s*256+i)

theorem inRange_not_last (b : Bpb) (c : ℕ) (h : InRange b c) : ¬ IsLast c := by
  have ht := total_le b
  have h2 := h.2
  unfold IsLast
  omega

theorem inRange_inChain (b : Bpb) (c : ℕ) (h : InRange b c) : inChain c = true := by
  have ht := total_le b
  have h1 := h.1
  have h2 := h.2
  simp only [inChain, Bool.and_eq_true, decide_eq_true_eq]
  omega

theorem isLast_inChain (c : ℕ) (h : IsLast c) : inChain c = false := by
  unfold IsLast at h
  simp only [inChain, Bool.and_eq_false_iff, decide_eq_false_iff_not]
  omega

section FatChain

variable {v w : Volume} {c : ℕ} {l m : List ℕ}

theorem fatChain_range (h : FatChain v c l) : ∀ x ∈ l, InRange v.bpb x := linked_live h

theorem fatChain_unique (hl : FatChain v c l) (hm : FatChain v c m) : l = m :=
  linked_unique (inRange_not_last v.bpb) hl hm

theorem fatChain_nodup (h : FatChain v c l) : l.Nodup :=
  linked_nodup (inRange_not_last v.bpb) h

theorem range_length (b : Bpb) (l : List ℕ) (hn : l.Nodup) (hr : ∀ x ∈ l, InRange b x) :
    l.length ≤ b.total-2 := by
  have hsub : l ⊆ List.range' 2 (b.total-2) := by
    intro x hx
    have h1 := (hr x hx).1
    have h2 := (hr x hx).2
    rw [List.mem_range'_1]
    omega
  simpa using (List.subperm_of_subset hn hsub).length_le

theorem fatChain_length (h : FatChain v c l) : l.length ≤ 32766 := by
  have := range_length v.bpb l (fatChain_nodup h) (fatChain_range h)
  have := total_le v.bpb
  omega

theorem fatChain_congr (hb : w.bpb = v.bpb) (h : FatChain v c l)
    (he : ∀ x ∈ l, w.fat x = v.fat x) : FatChain w c l := by
  unfold FatChain
  rw [hb]
  exact linked_congr h he

theorem fatChain_head (h : FatChain v c l) (h2 : c < 0xFFF8) : ∃ t, l = c::t := by
  cases l with
  | nil =>
    have : 0xFFF8 ≤ c := h
    omega
  | cons x t => exact ⟨t, by rw [h.1]⟩

/-- The entry of a cluster of a chain is the next cluster or an end mark. -/
theorem fatChain_fat_ne_zero (h : FatChain v c l) : ∀ x ∈ l, v.fat x ≠ 0 := by
  intro x hx
  obtain ⟨m, hm, -⟩ := linked_suffix h hx
  cases m with
  | nil =>
    have h1 := (fatChain_range h x hx).2
    have h2 : 0xFFF8 ≤ x := hm
    have := total_le v.bpb
    omega
  | cons y m =>
    obtain ⟨rfl, -, hn⟩ := hm
    cases m with
    | nil =>
      have : 0xFFF8 ≤ v.fat x := hn
      omega
    | cons z m =>
      have := hn.2.1.1
      rw [hn.1]
      omega

end FatChain

section Table

@[simp] theorem setFat_bpb (v : Volume) (c w : ℕ) : (v.setFat c w).bpb = v.bpb := rfl
@[simp] theorem setFat_disk (v : Volume) (c w : ℕ) : (v.setFat c w).disk = v.disk := rfl
@[simp] theorem setFat_mounted (v : Volume) (c w : ℕ) : (v.setFat c w).mounted = v.mounted := rfl

theorem setFat_fat (v : Volume) (c w x : ℕ) (hw : w < 65536) :
    (v.setFat c w).fat x = if x = c then w else v.fat x := by
  unfold Volume.fat Volume.setFat
  by_cases h : x = c
  · simp only [h, if_true, UInt16.toNat_ofNat']
    omega
  · simp [h]

/-- Either no cluster is free, or the lowest free one is marked as an end. -/
theorem allocCluster_cases (v : Volume) :
    (v.allocCluster = (0, v) ∧ ∀ c, InRange v.bpb c → v.fat c ≠ 0) ∨
    ∃ c, v.allocCluster = (c, v.setFat c 0xFFFF) ∧ InRange v.bpb c ∧ v.fat c = 0 := by
  unfold Volume.allocCluster
  cases h : (List.range' 2 (v.bpb.total-2)).find? (fun i => v.fat i = 0) with
  | none =>
    refine Or.inl ⟨rfl, fun c hc h0 => ?_⟩
    have hmem : c ∈ List.range' 2 (v.bpb.total-2) := by
      rw [List.mem_range'_1]
      have h1 := hc.1
      have h2 := hc.2
      omega
    simpa [h0] using List.find?_eq_none.mp h c hmem
  | some c =>
    have hmem := List.mem_of_find?_eq_some h
    rw [List.mem_range'_1] at hmem
    refine Or.inr ⟨c, rfl, ⟨hmem.1, by omega⟩, ?_⟩
    simpa using List.find?_some h

/-- `free_chain` clears the clusters of the chain and nothing else. -/
theorem freeLoop_spec (fuel : ℕ) (v : Volume) (c : ℕ) (l : List ℕ) (h : FatChain v c l)
    (hf : l.length < fuel) :
    ∃ w, Volume.freeLoop fuel v c = some w ∧ w.bpb = v.bpb ∧ w.disk = v.disk ∧
      w.mounted = v.mounted ∧ ∀ x, w.fat x = if x ∈ l then 0 else v.fat x := by
  induction fuel generalizing v c l with
  | zero => omega
  | succ fuel ih =>
    cases l with
    | nil =>
      refine ⟨v, ?_, rfl, rfl, rfl, by simp⟩
      simp [Volume.freeLoop, isLast_inChain c h]
    | cons x t =>
      obtain ⟨rfl, hx, ht⟩ := h
      have hnd : (c::t).Nodup := fatChain_nodup (c := c) (v := v) ⟨rfl, hx, ht⟩
      obtain ⟨hct, -⟩ := List.nodup_cons.mp hnd
      have htail : FatChain (v.setFat c 0) (v.fat c) t := by
        refine fatChain_congr (v := v) rfl ht (fun y hy => ?_)
        have hyc : y ≠ c := fun he => hct (he ▸ hy)
        rw [setFat_fat v c 0 y (by decide), if_neg hyc]
      obtain ⟨w, hw, hb, hd, hm, hfat⟩ := ih _ _ t htail (by simpa using hf)
      refine ⟨w, ?_, hb, hd, hm, fun y => ?_⟩
      · simp [Volume.freeLoop, inRange_inChain v.bpb c hx, hw]
      · rw [hfat y, setFat_fat v c 0 y (by decide)]
        by_cases hy : y ∈ t <;> by_cases hyc : y = c <;> simp [hy, hyc]

theorem freeChain_spec (v : Volume) (c : ℕ) (l : List ℕ) (h : FatChain v c l) :
    ∃ w, v.freeChain c = some w ∧ w.bpb = v.bpb ∧ w.disk = v.disk ∧
      w.mounted = v.mounted ∧ ∀ x, w.fat x = if x ∈ l then 0 else v.fat x :=
  freeLoop_spec chainFuel v c l h (by
    have := fatChain_length h
    unfold chainFuel
    omega)

end Table

section Flush

variable (v : Volume)

@[simp] theorem flushFat_bpb : v.flushFat.bpb = v.bpb := rfl
@[simp] theorem flushFat_mounted : v.flushFat.mounted = v.mounted := rfl
@[simp] theorem flushFat_fat (x : ℕ) : v.flushFat.fat x = v.fat x := rfl
@[simp] theorem flushFat_fatTable : v.flushFat.fatTable = v.fatTable := rfl
@[simp] theorem flushFat_size : v.flushFat.disk.size = v.disk.size := writeAll_size _ _

theorem flushWrites_mem {w : ℕ × Sector} (h : w ∈ v.flushWrites) :
    ∃ s < v.bpb.fatSectors, ∃ f < v.bpb.fats,
      w = (v.bpb.fatStartLba+f*v.bpb.fatSectors+s, v.flushSector s) := by
  simp only [Volume.flushWrites, List.mem_flatMap, List.mem_map, List.mem_range] at h
  obtain ⟨s, hs, f, hf, rfl⟩ := h
  exact ⟨s, hs, f, hf, rfl⟩

theorem copy_region {b : Bpb} {f s : ℕ} (hf : f < b.fats) (hs : s < b.fatSectors) :
    fatRegion b (b.fatStartLba+f*b.fatSectors+s) := by
  have hm : (f+1)*b.fatSectors ≤ b.fats*b.fatSectors := Nat.mul_le_mul_right _ (by omega)
  have he : (f+1)*b.fatSectors = f*b.fatSectors+b.fatSectors := by ring
  unfold fatRegion Bpb.rootDirLba
  omega

/-- Flushing changes no sector outside the copies of the table. -/
theorem flushFat_frame (lba : ℕ) (h : ¬ fatRegion v.bpb lba) :
    v.flushFat.disk.data lba = v.disk.data lba := by
  apply writeAll_other
  intro w hw heq
  obtain ⟨s, hs, f, hf, rfl⟩ := flushWrites_mem v hw
  subst heq
  exact h (copy_region hf hs)

theorem copy_index {b : Bpb} {f s f' s' : ℕ} (hs : s < b.fatSectors) (hs' : s' < b.fatSectors)
    (h : b.fatStartLba+f*b.fatSectors+s = b.fatStartLba+f'*b.fatSectors+s') : s = s' := by
  have hk : f*b.fatSectors+s = f'*b.fatSectors+s' := by omega
  have hmod := congrArg (·%b.fatSectors) hk
  simpa [Nat.mul_add_mod', Nat.mod_eq_of_lt hs, Nat.mod_eq_of_lt hs'] using hmod

/-- Every sector of every copy that the disk accepts receives its part of the table. -/
theorem flushFat_sector {f s : ℕ} (hf : f < v.bpb.fats) (hs : s < v.bpb.fatSectors)
    (hd : v.bpb.fatStartLba+f*v.bpb.fatSectors+s < v.disk.size) :
    v.flushFat.disk.data (v.bpb.fatStartLba+f*v.bpb.fatSectors+s) = v.flushSector s := by
  apply writeAll_same
  · exact hd
  · intro w hmem heq
    obtain ⟨s', hs', f', hf', rfl⟩ := flushWrites_mem v hmem
    rw [copy_index hs' hs heq]
  · right
    refine ⟨(v.bpb.fatStartLba+f*v.bpb.fatSectors+s, v.flushSector s), ?_, rfl⟩
    simp only [Volume.flushWrites, List.mem_flatMap, List.mem_map, List.mem_range]
    exact ⟨s, hs, f, hf, rfl⟩

theorem flushFat_flushed (hw : Working v) : Flushed v.flushFat := by
  intro f hf s hs i hi hidx
  have hreg := copy_region (b := v.bpb) hf hs
  have hsector := flushFat_sector v hf hs
    (lt_of_lt_of_le (fat_lt_dataEnd v.bpb hreg) hw.accepts)
  simp only [flushFat_bpb, flushFat_fatTable]
  rw [hsector, Volume.flushSector, tableEntry_tableSector, if_pos hidx]

/-- The copies depend only on the table and on the sectors of their region. -/
theorem flushed_congr {w : Volume} (h : Flushed v) (hb : w.bpb = v.bpb)
    (ht : w.fatTable = v.fatTable)
    (hd : ∀ lba, fatRegion v.bpb lba → w.disk.data lba = v.disk.data lba) : Flushed w := by
  intro f hf s hs i hi hidx
  rw [hb] at hf hs ⊢
  rw [ht, hd _ (copy_region hf hs)]
  exact h f hf s hs i hi hidx

end Flush

end Vlsmc.Fat16Chains
